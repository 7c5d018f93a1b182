import Mathlib.Data.List.TakeWhile
import ScriptEngine.Proofs.Encoding.Decode
import ScriptEngine.Proofs.Merge.Pool
/-!
Moving constants in code. The bytes are swept from the front; code that was written instruction by
instruction comes out as the same instructions with other indices.
-/
namespace ScriptEngine

open Encoding

/-- The instruction with its constant's new index, which has to fit two bytes. -/
def Instruction.redirect (moved : Array Nat) (i : Instruction) : Instruction :=
  if i.op.loadsConstant then
    { i with a := min (moved.getD (i.a % 65536) (i.a % 65536)) 0xffff }
  else i

namespace Item

def redirect (moved : Array Nat) : Item → Item
  | plain i pos => plain (i.redirect moved) pos
  | breakJump pos => breakJump pos
  | continueJump pos => continueJump pos

end Item

/-- Code with its constants moved. -/
def Code.redirect (moved : Array Nat) (c : Code) : Code := c.map (Item.redirect moved)

variable {moved : Array Nat} {i : Instruction} {code : Array UInt8}

@[simp] theorem Instruction.op_redirect : (i.redirect moved).op = i.op := by
  unfold redirect
  split <;> rfl

@[simp] theorem Instruction.size_redirect : (i.redirect moved).size = i.size := by
  simp [size]

theorem widths_of_loadsConstant {op : Opcode} (h : op.loadsConstant = true) :
    op = .constant ∨ op = .closure := by
  cases op <;> simp [Opcode.loadsConstant] at h <;> simp

/-- Writing an index replaces two bytes. -/
theorem toList_writeIndex {front back : List UInt8} {b x y : UInt8} (n : Nat)
    (h : code.toList = front ++ b :: x :: y :: back) :
    (writeIndex code (front.length + 1) n).toList =
      front ++ b :: operandBytes 2 (min n 0xffff) ++ back := by
  have hlow : UInt8.ofNat (min n 0xffff % 256) = UInt8.ofNat (min n 0xffff) := by
    apply UInt8.toNat_inj.mp
    simp
  have hplace : front.length + 1 + 1 - front.length = 2 := by omega
  have hout : ¬ front.length + 1 + 1 < front.length := by omega
  simp [writeIndex, h, List.set_append, operandBytes, hlow, hplace, hout]

variable (moved) in
/-- A slot moves the constant of its instruction. -/
theorem Slot.toList_redirect {front back : List UInt8} (h : code.toList = front ++ i.bytes ++ back) :
    ((⟨front.length, some i.narrow⟩ : Slot).redirect moved code).toList =
      front ++ (i.redirect moved).bytes ++ back := by
  obtain ⟨op, a, b⟩ := i
  by_cases hop : op.loadsConstant = true
  · have hfit : front.length + 2 < code.size := by
      rw [← Array.length_toList, h]
      rcases widths_of_loadsConstant hop with rfl | rfl <;>
        simp [Instruction.bytes, Opcode.encode, Opcode.widths, operandBytes]
    have hwrite {x y : UInt8} {more : List UInt8}
        (h : code.toList = front ++ op.byte :: x :: y :: more) :=
      toList_writeIndex (moved.getD (a % 65536) (a % 65536)) h
    rcases widths_of_loadsConstant hop with rfl | rfl
    · have := hwrite (by simpa [Instruction.bytes, Opcode.encode, Opcode.widths, operandBytes] using h)
      simpa [Slot.redirect, Instruction.redirect, Instruction.narrow, Instruction.bytes,
        Opcode.encode, Opcode.widths, operandBytes, Opcode.loadsConstant, hfit] using this
    · have := hwrite (by simpa [Instruction.bytes, Opcode.encode, Opcode.widths, operandBytes] using h)
      simpa [Slot.redirect, Instruction.redirect, Instruction.narrow, Instruction.bytes,
        Opcode.encode, Opcode.widths, operandBytes, Opcode.loadsConstant, hfit] using this
  · simp [Slot.redirect, Instruction.redirect, Instruction.narrow, hop, h]

theorem isSome_slotsOf (is : List Instruction) (p : Nat) :
    ∀ s ∈ slotsOf p is, s.instruction?.isSome = true := by
  induction is generalizing p with
  | nil => simp [slotsOf]
  | cons i rest ih =>
    intro s hs
    rcases List.mem_cons.mp hs with rfl | hs
    · rfl
    · exact ih _ s hs

/-- The sweep meets every instruction. -/
theorem toList_redirectCode {is : List Instruction} (h : code.toList = encode is) :
    (redirectCode moved code).toList = encode (is.map (Instruction.redirect moved)) := by
  have hsweep (pre rest : List Instruction) (code : Array UInt8)
      (h : code.toList = encode (pre.map (Instruction.redirect moved)) ++ encode rest) :
      ((slotsOf (extent Instruction.size pre) rest).foldl (fun code s => s.redirect moved code)
        code).toList = encode ((pre ++ rest).map (Instruction.redirect moved)) := by
    induction rest generalizing pre code with
    | nil => simpa [slotsOf] using h
    | cons i rest ih =>
      have hlen : (encode (pre.map (Instruction.redirect moved))).length =
          extent Instruction.size pre := by
        rw [length_encode, extent_map]
        simp
      have hcode : code.toList =
          encode (pre.map (Instruction.redirect moved)) ++ i.bytes ++ encode rest := by
        simpa using h
      have hstep := Slot.toList_redirect moved hcode
      rw [hlen] at hstep
      have hrest := ih (pre ++ [i]) _ (by simpa using hstep)
      simpa [slotsOf] using hrest
  rw [redirectCode, slots_encode h, List.takeWhile_eq_self_iff.mpr (isSome_slotsOf is 0)]
  simpa using hsweep [] is code (by simpa using h)

@[simp] theorem Item.size_redirect (i : Item) : (i.redirect moved).size = i.size := by
  cases i <;> simp [Item.redirect, Item.size, Item.instruction]

@[simp] theorem Item.pos_redirect (i : Item) : (i.redirect moved).pos = i.pos := by
  cases i <;> rfl

theorem Item.instruction_redirect (i : Item) :
    (i.redirect moved).instruction = i.instruction.redirect moved := by
  cases i <;> rfl

namespace Code

@[simp] theorem toList_redirect (c : Code) :
    (c.redirect moved).toList = c.toList.map (Item.redirect moved) := by
  simp [redirect]

@[simp] theorem size_redirect (c : Code) : (c.redirect moved).size = c.size := by
  simp [size_eq, extent_map]

theorem at?_redirect (c : Code) (p : Nat) :
    (c.redirect moved).at? p = (c.at? p).map (Item.redirect moved) := by
  simp [at?, placed_map]

theorem bytes_redirect (c : Code) : (c.redirect moved).bytes = redirectCode moved c.bytes := by
  apply Array.toList_inj.mp
  rw [toList_redirectCode c.toList_bytes, toList_bytes]
  simp [instructions, Item.instruction_redirect, Function.comp_def]

/-- Moving constants leaves the source positions. -/
theorem sourceMap_redirect (c : Code) : (c.redirect moved).sourceMap = c.sourceMap := by
  simp only [sourceMap, ← Array.foldl_toList, toList_redirect, List.foldl_map, record,
    Item.pos_redirect, Item.size_redirect]

end Code

end ScriptEngine
