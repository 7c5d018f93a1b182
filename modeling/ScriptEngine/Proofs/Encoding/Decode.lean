import Mathlib.Tactic.Ring
import ScriptEngine.Compile.Code
import ScriptEngine.Proofs.Encoding.Place
/-!
Instructions read back from their bytes. An instruction that was written behind others is read at
the offset where it starts, with each operand cut to its width.
-/
namespace ScriptEngine

/-- The bytes of instructions that follow one another. -/
def encode (is : List Instruction) : List UInt8 := is.flatMap Instruction.bytes

/-- The instruction as its bytes show it: an operand too wide for its place loses its high bytes,
and one that has no place is zero. -/
def Instruction.narrow (i : Instruction) : Instruction :=
  ⟨i.op, i.a % Nat.pow 256 (i.op.widths.getD 0 0), i.b % Nat.pow 256 (i.op.widths.getD 1 0)⟩

/-- Where each instruction stands in code that is read from the front. -/
def slotsOf : Nat → List Instruction → List Slot
  | _, [] => []
  | p, i :: rest => ⟨p, some i.narrow⟩ :: slotsOf (p + i.size) rest

open Encoding

theorem Opcode.size_pos (op : Opcode) : 0 < op.size := by
  cases op <;> simp [Opcode.size, Opcode.widths]

theorem Instruction.size_pos (i : Instruction) : 0 < i.size := i.op.size_pos

@[simp] theorem Instruction.size_narrow (i : Instruction) : i.narrow.size = i.size := rfl

theorem Instruction.narrow_of_fits {i : Instruction} (h : i.Fits) : i.narrow = i := by
  obtain ⟨op, a, b⟩ := i
  simp only [Instruction.narrow, Nat.mod_eq_of_lt h.1, Nat.mod_eq_of_lt h.2]

@[simp] theorem encode_nil : encode [] = [] := rfl

@[simp] theorem encode_append (is js : List Instruction) :
    encode (is ++ js) = encode is ++ encode js := by
  simp [encode]

@[simp] theorem encode_cons (i : Instruction) (is : List Instruction) :
    encode (i :: is) = i.bytes ++ encode is := by
  simp [encode]

theorem length_encode (is : List Instruction) :
    (encode is).length = extent Instruction.size is := by
  induction is with
  | nil => rfl
  | cons i rest ih => simp [Instruction.length_bytes, ih]

/-- The bytes of a number, read back, give what is left of it in so many bytes. -/
theorem operandAt_operandBytes {code : Array UInt8} (width n : Nat) {place : Nat}
    (h : ∀ k, k < width → code[place + k]? = (operandBytes width n)[k]?) :
    operandAt code width place = n % Nat.pow 256 width := by
  induction width generalizing place with
  | zero => simp [operandAt, Nat.mod_one]
  | succ width ih =>
    have hfirst : code.getD place 0 = UInt8.ofNat (n / Nat.pow 256 width) := by
      have h0 := h 0 (by omega)
      simp only [Nat.add_zero, operandBytes, List.getElem?_cons_zero] at h0
      simp [Array.getD_eq_getD_getElem?, h0]
    have hrest : operandAt code width (place + 1) = n % Nat.pow 256 width := by
      apply ih
      intro k hk
      have hk' := h (k + 1) (by omega)
      simp only [operandBytes, List.getElem?_cons_succ] at hk'
      rw [← hk']
      congr 1
      omega
    have hbyte : (UInt8.ofNat (n / Nat.pow 256 width)).toNat = n / Nat.pow 256 width % 256 := rfl
    have hpow : Nat.pow 256 (width + 1) = Nat.pow 256 width * 256 := rfl
    rw [operandAt, hfirst, hrest, hbyte, hpow, Nat.mod_mul]
    ring

theorem Opcode.operandsAt_encode {code : Array UInt8} (op : Opcode) (a b place : Nat)
    (h : ∀ k, k < op.size → code[place + k]? = (op.encode [a, b])[k]?) :
    op.operandsAt code (place + 1) =
      (a % Nat.pow 256 (op.widths.getD 0 0), b % Nat.pow 256 (op.widths.getD 1 0)) := by
  have hsize : op.size = 1 + op.widths.sum := by
    cases op <;> rfl
  have hlen : op.widths.length ≤ 2 := by
    cases op <;> simp [Opcode.widths]
  unfold Opcode.operandsAt
  rcases hw : op.widths with _ | ⟨width, _ | ⟨width', _ | ⟨width'', rest⟩⟩⟩
  · simp [Nat.mod_one]
  · have hone : operandAt code width (place + 1) = a % Nat.pow 256 width := by
      apply operandAt_operandBytes
      intro k hk
      have hk' := h (k + 1) (by simp only [hsize, hw, List.sum_cons, List.sum_nil]; omega)
      simpa [Opcode.encode, hw, Nat.add_comm, Nat.add_left_comm] using hk'
    simp [hone, Nat.mod_one]
  · have hone : operandAt code width (place + 1) = a % Nat.pow 256 width := by
      apply operandAt_operandBytes
      intro k hk
      have hk' := h (k + 1) (by simp only [hsize, hw, List.sum_cons, List.sum_nil]; omega)
      simp only [Opcode.encode, hw, List.zip_cons_cons, List.flatMap_cons,
        List.getElem?_cons_succ] at hk'
      rw [List.getElem?_append_left (by rw [length_operandBytes]; exact hk)] at hk'
      rw [← hk']
      congr 1
      omega
    have htwo : operandAt code width' (place + 1 + width) = b % Nat.pow 256 width' := by
      apply operandAt_operandBytes
      intro k hk
      have hk' := h (width + k + 1)
        (by simp only [hsize, hw, List.sum_cons, List.sum_nil]; omega)
      simp only [Opcode.encode, hw, List.zip_cons_cons, List.flatMap_cons, List.zip_nil_left,
        List.flatMap_nil, List.append_nil, List.getElem?_cons_succ] at hk'
      rw [List.getElem?_append_right (by rw [length_operandBytes]; omega), length_operandBytes,
        Nat.add_sub_cancel_left] at hk'
      rw [← hk']
      congr 1
      omega
    simp [hone, htwo]
  · simp [hw] at hlen

/-- An instruction is read at the offset where it was written. -/
theorem Instruction.at?_of_placed {code : Array UInt8} {is : List Instruction} {p : Nat}
    {i : Instruction} (hcode : code.toList = encode is)
    (h : placed Instruction.size is p = some i) : Instruction.at? code p = some i.narrow := by
  obtain ⟨pre, post, rfl, rfl⟩ := (placed_eq_some Instruction.size_pos).mp h
  have hbytes : ∀ k, k < i.size → code[extent Instruction.size pre + k]? = i.bytes[k]? := by
    intro k hk
    rw [← Array.getElem?_toList, hcode, encode_append, encode_cons,
      List.getElem?_append_right (by rw [length_encode]; omega), length_encode,
      Nat.add_sub_cancel_left,
      List.getElem?_append_left (by rw [Instruction.length_bytes]; exact hk)]
  have hop : code[extent Instruction.size pre]? = some i.op.byte := by
    have h0 := hbytes 0 i.size_pos
    simpa [Instruction.bytes, Opcode.encode] using h0
  have hoperands := i.op.operandsAt_encode i.a i.b (extent Instruction.size pre) hbytes
  simp [Instruction.at?, hop, Opcode.ofByte?_byte, hoperands, Instruction.narrow]

theorem size_of_encode {code : Array UInt8} {is : List Instruction}
    (hcode : code.toList = encode is) : code.size = extent Instruction.size is := by
  rw [← Array.length_toList, hcode, length_encode]

theorem slotsFrom_found {code : Array UInt8} (fuel p : Nat) (found : List Slot) :
    slotsFrom code fuel p found = found.reverse ++ slotsFrom code fuel p [] := by
  induction fuel generalizing p found with
  | zero => simp [slotsFrom]
  | succ fuel ih =>
    by_cases hp : p < code.size
    · simp only [slotsFrom, if_pos hp]
      rw [ih _ (_ :: found), ih _ [_]]
      simp
    · simp [slotsFrom, if_neg hp]

/-- Reading from the front finds every instruction that was written. -/
theorem slotsFrom_encode {code : Array UInt8} {is : List Instruction} (pre rest : List Instruction)
    (hcode : code.toList = encode is) (his : is = pre ++ rest) (fuel : Nat)
    (hfuel : extent Instruction.size rest ≤ fuel) (found : List Slot) :
    slotsFrom code fuel (extent Instruction.size pre) found =
      found.reverse ++ slotsOf (extent Instruction.size pre) rest := by
  induction rest generalizing pre fuel found with
  | nil =>
    have hend : ¬ extent Instruction.size pre < code.size := by
      rw [size_of_encode hcode, his]
      simp
    cases fuel <;> simp [slotsFrom, slotsOf, hend]
  | cons i rest ih =>
    have hpos := i.size_pos
    rw [extent_cons] at hfuel
    obtain ⟨fuel, rfl⟩ : ∃ n, fuel = n + 1 := ⟨fuel - 1, by omega⟩
    have hin : extent Instruction.size pre < code.size := by
      rw [size_of_encode hcode, his]
      simp
      omega
    have hat : Instruction.at? code (extent Instruction.size pre) = some i.narrow := by
      apply Instruction.at?_of_placed hcode
      rw [his]
      exact placed_append_cons Instruction.size_pos pre rest i
    have hstep := ih (pre ++ [i]) (by simp [his]) fuel (by omega)
      (⟨extent Instruction.size pre, some i.narrow⟩ :: found)
    simp only [extent_append, extent_cons, extent_nil, Nat.add_zero, List.reverse_cons,
      List.append_assoc, List.cons_append, List.nil_append] at hstep
    simp only [slotsFrom, if_pos hin, hat, Slot.size, Option.map_some, Option.getD_some,
      Instruction.size_narrow, slotsOf, hstep]

theorem slots_encode {code : Array UInt8} {is : List Instruction}
    (hcode : code.toList = encode is) : slots code = slotsOf 0 is := by
  have h := slotsFrom_encode [] is hcode rfl code.size (size_of_encode hcode).ge []
  simpa [slots] using h

/-- What is read at an offset is an instruction that was written there. -/
theorem mem_slotsOf {is : List Instruction} {start : Nat} {slot : Slot} :
    slot ∈ slotsOf start is ↔ ∃ p i, placed Instruction.size is p = some i ∧
      slot = ⟨start + p, some i.narrow⟩ := by
  constructor
  · intro h
    induction is generalizing start with
    | nil => simp [slotsOf] at h
    | cons i rest ih =>
      simp only [slotsOf, List.mem_cons] at h
      rcases h with rfl | h
      · exact ⟨0, i, by simp [placed], rfl⟩
      · obtain ⟨p, j, hj, rfl⟩ := ih h
        obtain ⟨pre, post, rfl, rfl⟩ := (placed_eq_some Instruction.size_pos).mp hj
        refine ⟨i.size + extent Instruction.size pre, j, ?_, by simp [Nat.add_assoc]⟩
        exact placed_append_cons Instruction.size_pos (i :: pre) post j
  · rintro ⟨p, i, hi, rfl⟩
    obtain ⟨pre, post, rfl, rfl⟩ := (placed_eq_some Instruction.size_pos).mp hi
    induction pre generalizing start with
    | nil => simp [slotsOf]
    | cons j pre ih =>
      have h : _ ∈ slotsOf (start + j.size) (pre ++ i :: post) :=
        ih (placed_append_cons Instruction.size_pos pre post i)
      simp only [List.cons_append, slotsOf, List.mem_cons]
      exact Or.inr (by simpa [Nat.add_assoc] using h)

namespace Item

theorem size_pos (i : Item) : 0 < i.size := i.instruction.size_pos

end Item

namespace Code

/-- The instructions of a piece of code. -/
def instructions (c : Code) : List Instruction := c.toList.map Item.instruction

/-- The item that starts at an offset. -/
def at? (c : Code) (p : Nat) : Option Item := placed Item.size c.toList p

theorem size_eq (c : Code) : c.size = extent Item.size c.toList := by
  have hfold : ∀ (items : List Item) (n : Nat),
      items.foldl (fun n i => n + i.size) n = n + extent Item.size items := by
    intro items
    induction items with
    | nil => simp
    | cons i rest ih =>
      intro n
      rw [List.foldl_cons, ih, extent_cons]
      omega
  rw [Code.size, ← Array.foldl_toList, hfold, Nat.zero_add]

theorem toList_bytes (c : Code) : c.bytes.toList = encode c.instructions := by
  have hfold : ∀ (items : List Item) (out : Array UInt8),
      (items.foldl (fun out i => i.instruction.bytes.foldl Array.push out) out).toList =
        out.toList ++ encode (items.map Item.instruction) := by
    intro items
    induction items with
    | nil => simp
    | cons i rest ih =>
      intro out
      rw [List.foldl_cons, ih, List.map_cons, encode_cons]
      simp
  rw [Code.bytes, ← Array.foldl_toList, hfold]
  simp [instructions]

theorem size_bytes (c : Code) : c.bytes.size = c.size := by
  rw [size_of_encode c.toList_bytes, size_eq, instructions, extent_map]
  rfl

/-- The bytes of a piece of code show its items, each at its offset. -/
theorem mem_slots_bytes {c : Code} {p : Nat} {i : Instruction} :
    ⟨p, some i⟩ ∈ slots c.bytes ↔ ∃ item, c.at? p = some item ∧ i = item.instruction.narrow := by
  have hplaced (p : Nat) : placed Instruction.size c.instructions p =
      (c.at? p).map Item.instruction := placed_map Item.instruction c.toList p
  rw [slots_encode c.toList_bytes, mem_slotsOf]
  constructor
  · rintro ⟨p', j, hj, hslot⟩
    obtain ⟨rfl, rfl⟩ : p = p' ∧ i = j.narrow := by simpa using hslot
    rw [hplaced, Option.map_eq_some_iff] at hj
    obtain ⟨item, hitem, rfl⟩ := hj
    exact ⟨item, hitem, rfl⟩
  · rintro ⟨item, hitem, rfl⟩
    exact ⟨p, item.instruction, by rw [hplaced, hitem]; rfl, by simp⟩

/-- An item's instruction is read at its offset in the bytes. -/
theorem at?_bytes {c : Code} {p : Nat} {i : Item} (h : c.at? p = some i) :
    Instruction.at? c.bytes p = some i.instruction.narrow := by
  apply Instruction.at?_of_placed c.toList_bytes
  rw [instructions, placed_map]
  change (placed Item.size c.toList p).map Item.instruction = _
  rw [show placed Item.size c.toList p = some i from h]
  rfl

end Code

end ScriptEngine
