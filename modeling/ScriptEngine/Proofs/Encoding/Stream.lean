import ScriptEngine.Proofs.Encoding.Listing
import ScriptEngine.Proofs.Encoding.Patch
/-!
Code read from the front. Whatever its bytes are, the slots that are met cover them one behind the
other. Code that was written instruction by instruction shows these instructions, also in a listing
and after an operand has been changed.
-/
namespace ScriptEngine

open Encoding

variable {code : Array UInt8} {ss ss' : List Slot} {p q : Nat}

theorem Slot.size_pos (s : Slot) : 0 < s.size := by
  obtain ⟨p, _ | i⟩ := s
  · exact Nat.one_pos
  · exact i.size_pos

/-! ### Any bytes -/

/-- The slots that reading code from `p` on meets. Each starts where the one before ends, and the
last one ends with the code, or past it if the code is cut off. -/
def Slot.Covers (code : Array UInt8) : Nat → List Slot → Prop
  | p, [] => code.size ≤ p
  | p, s :: rest =>
    s = ⟨p, Instruction.at? code p⟩ ∧ p < code.size ∧ Slot.Covers code (p + s.size) rest

namespace Slot.Covers

theorem unique (h : Slot.Covers code p ss) (h' : Slot.Covers code p ss') : ss = ss' := by
  induction ss generalizing p ss' with
  | nil =>
    cases ss' with
    | nil => rfl
    | cons s rest => exact absurd h'.2.1 (Nat.not_lt.mpr h)
  | cons s rest ih =>
    cases ss' with
    | nil => exact absurd h.2.1 (Nat.not_lt.mpr h')
    | cons s' rest' =>
      obtain ⟨rfl, -, hrest⟩ := h
      obtain ⟨rfl, -, hrest'⟩ := h'
      rw [ih hrest hrest']

theorem le_offset (h : Slot.Covers code p ss) {s : Slot} (hs : s ∈ ss) : p ≤ s.offset := by
  induction ss generalizing p with
  | nil => cases hs
  | cons t rest ih =>
    obtain ⟨rfl, -, hrest⟩ := h
    rcases List.mem_cons.mp hs with rfl | hs
    · exact Nat.le_refl p
    · exact Nat.le_trans (Nat.le_add_right _ _) (ih hrest hs)

theorem ascending (h : Slot.Covers code p ss) : ss.Pairwise fun s t => s.offset < t.offset := by
  induction ss generalizing p with
  | nil => exact .nil
  | cons s rest ih =>
    obtain ⟨rfl, -, hrest⟩ := h
    refine .cons (fun t ht => ?_) (ih hrest)
    have hle := hrest.le_offset ht
    have hpos := Slot.size_pos ⟨p, Instruction.at? code p⟩
    exact Nat.lt_of_lt_of_le (Nat.lt_add_of_pos_right hpos) hle

/-- Every byte belongs to one slot. -/
theorem exists_unique (h : Slot.Covers code p ss) (hpq : p ≤ q) (hq : q < code.size) :
    ∃! s, s ∈ ss ∧ s.offset ≤ q ∧ q < s.offset + s.size := by
  induction ss generalizing p with
  | nil =>
    have hend : code.size ≤ p := h
    omega
  | cons s rest ih =>
    obtain ⟨hs, -, hrest⟩ := h
    obtain rfl : s.offset = p := by rw [hs]
    by_cases hin : q < s.offset + s.size
    · refine ⟨s, ⟨List.mem_cons_self, hpq, hin⟩, ?_⟩
      rintro t ⟨ht, htq, -⟩
      rcases List.mem_cons.mp ht with rfl | ht
      · rfl
      · have hle := hrest.le_offset ht
        omega
    · obtain ⟨t, ⟨ht, htq, hqt⟩, honly⟩ := ih hrest (by omega)
      refine ⟨t, ⟨List.mem_cons_of_mem _ ht, htq, hqt⟩, ?_⟩
      rintro u ⟨hu, huq, hqu⟩
      rcases List.mem_cons.mp hu with rfl | hu
      · exact absurd hqu hin
      · exact honly u ⟨hu, huq, hqu⟩

/-- Only the last slot can end past the bytes. -/
theorem inside (h : Slot.Covers code p ss) {s : Slot} (hs : s ∈ ss.dropLast) :
    s.offset + s.size ≤ code.size := by
  induction ss generalizing p with
  | nil => cases hs
  | cons t rest ih =>
    obtain ⟨ht, -, hrest⟩ := h
    cases rest with
    | nil => cases hs
    | cons u rest =>
      rcases List.mem_cons.mp hs with rfl | hs
      · have hnext : p + s.size < code.size := hrest.2.1
        rw [ht] at hnext ⊢
        exact hnext.le
      · exact ih hrest hs

end Slot.Covers

/-- The reading gets to the end of the code if it may take a step for every byte. -/
theorem covers_slotsFrom (fuel p : Nat) (hfuel : code.size ≤ p + fuel) :
    Slot.Covers code p (slotsFrom code fuel p []) := by
  induction fuel generalizing p with
  | zero => exact hfuel
  | succ fuel ih =>
    by_cases hp : p < code.size
    · have hpos := Slot.size_pos ⟨p, Instruction.at? code p⟩
      rw [slotsFrom, if_pos hp, slotsFrom_found]
      exact ⟨rfl, hp, ih _ (by omega)⟩
    · rw [slotsFrom, if_neg hp]
      exact Nat.not_lt.mp hp

theorem covers_slots (code : Array UInt8) : Slot.Covers code 0 (slots code) :=
  covers_slotsFrom code.size 0 (Nat.le_add_left _ _)

theorem slotsFrom_eq_slots {fuel : Nat} (hfuel : code.size ≤ fuel) :
    slotsFrom code fuel 0 [] = slots code :=
  (covers_slotsFrom fuel 0 (by omega)).unique (covers_slots code)

/-! ### Instructions that were written -/

variable {is : List Instruction} {i : Instruction} {k : Nat}

/-- Code read from the front shows these instructions and nothing else, each at the place behind
the ones before it, and ends with the last of them. -/
def Decodes (code : Array UInt8) (is : List Instruction) : Prop :=
  (∀ k, (slots code)[k]? =
      is[k]?.map fun i => (⟨extent Instruction.size (is.take k), some i⟩ : Slot)) ∧
    extent Slot.size (slots code) = code.size

theorem getElem?_slotsOf (is : List Instruction) (p k : Nat) : (slotsOf p is)[k]? =
    is[k]?.map fun i => (⟨p + extent Instruction.size (is.take k), some i.narrow⟩ : Slot) := by
  induction is generalizing p k with
  | nil => simp [slotsOf]
  | cons i rest ih =>
    cases k with
    | zero => simp [slotsOf]
    | succ k => simp [slotsOf, ih, Nat.add_assoc]

theorem extent_slotsOf (is : List Instruction) (p : Nat) :
    extent Slot.size (slotsOf p is) = extent Instruction.size is := by
  induction is generalizing p with
  | nil => rfl
  | cons i rest ih => simp [slotsOf, ih, Slot.size]

theorem decodes_encode (hfits : ∀ i ∈ is, i.Fits) (hcode : code.toList = encode is) :
    Decodes code is := by
  unfold Decodes
  rw [slots_encode hcode, extent_slotsOf, size_of_encode hcode]
  refine ⟨fun k => ?_, rfl⟩
  rw [getElem?_slotsOf]
  cases hi : is[k]? with
  | none => rfl
  | some i =>
    have hnarrow := Instruction.narrow_of_fits (hfits i (List.mem_of_getElem? hi))
    simp [hnarrow]

theorem Decodes.words (h : Decodes code is) (start k : Nat) :
    (listCode code start)[k]?.map lineWords = is[k]?.map fun i =>
      placeLabel (start + extent Instruction.size (is.take k)) :: i.op.name ::
        i.operands.map toString := by
  unfold listCode
  rw [List.getElem?_map, h.1 k]
  cases is[k]? with
  | none => rfl
  | some i => exact congrArg some (lineWords_line code start _ i)

theorem split_at (hi : is[k]? = some i) : is = is.take k ++ i :: is.drop (k + 1) := by
  obtain ⟨hk, rfl⟩ := List.getElem?_eq_some_iff.mp hi
  rw [List.getElem_cons_drop, List.take_append_drop]

theorem set_at {j : Instruction} (hi : is[k]? = some i) :
    is.set k j = is.take k ++ j :: is.drop (k + 1) := by
  obtain ⟨hk, -⟩ := List.getElem?_eq_some_iff.mp hi
  rw [List.set_eq_take_append_cons_drop, if_pos hk]

/-- After an operand has been changed, code shows the same instructions but for that operand. -/
theorem decodes_changeOperand? (hfits : ∀ i ∈ is, i.Fits) (hcode : code.toList = encode is)
    (hi : is[k]? = some i) {n : Nat} (hn : ({ i with a := n } : Instruction).Fits) :
    ∃ code', changeOperand? code (extent Instruction.size (is.take k)) n = some code' ∧
      Decodes code' (is.set k { i with a := n }) := by
  rw [split_at hi] at hcode
  obtain ⟨code', hchange, hlist⟩ := changeOperand?_encode hcode n
  refine ⟨code', hchange, decodes_encode (fun j hj => ?_) (hlist.trans (by rw [set_at hi]))⟩
  rcases List.mem_or_eq_of_mem_set hj with hj | rfl
  · exact hfits j hj
  · exact hn

/-- Instructions whose operands fit, written one behind the other, are read back where they start,
up to the end of the code. A listing of the code has a line for each of them, which tells the place,
the operation and the operands. Changing the first operand of one leaves code that shows the same
instructions but for that operand.

Any code at all is read to its end. The lines of its listing start with the places of the slots,
which ascend; every byte belongs to one slot, and no slot but the last ends past the code. -/
theorem instruction_streams_decode :
    (∀ (is : List Instruction) (code : Array UInt8), (∀ i ∈ is, i.Fits) →
      (code.toList = is.flatMap fun i => i.op.encode i.operands) →
      Decodes code is ∧
      (∀ start k, (listCode code start)[k]?.map lineWords = is[k]?.map fun i =>
        placeLabel (start + extent Instruction.size (is.take k)) :: i.op.name ::
          i.operands.map toString) ∧
      ∀ k i n, is[k]? = some i → ({ i with a := n } : Instruction).Fits →
        ∃ code', changeOperand? code (extent Instruction.size (is.take k)) n = some code' ∧
          Decodes code' (is.set k { i with a := n })) ∧
    ∀ (code : Array UInt8) (start : Nat),
      (∀ fuel, code.size ≤ fuel → slotsFrom code fuel 0 [] = slots code) ∧
      Slot.Covers code 0 (slots code) ∧
      (listCode code start).map lineOffset = (slots code).map (fun s => start + s.offset) ∧
      ((listCode code start).map lineOffset).Pairwise (· < ·) ∧
      (∀ q < code.size, ∃! s, s ∈ slots code ∧ s.offset ≤ q ∧ q < s.offset + s.size) ∧
      ∀ s ∈ (slots code).dropLast, s.offset + s.size ≤ code.size := by
  constructor
  · intro is code hfits hcode
    simp only [Instruction.encode_operands] at hcode
    have hdecodes : Decodes code is := decodes_encode hfits hcode
    exact ⟨hdecodes, hdecodes.words, fun k i n hi hn => decodes_changeOperand? hfits hcode hi hn⟩
  · intro code start
    have hcovers := covers_slots code
    have hplaces := lineOffsets_listCode code start
    refine ⟨fun fuel => slotsFrom_eq_slots, hcovers, hplaces, ?_,
      fun q hq => hcovers.exists_unique (Nat.zero_le q) hq, fun s hs => hcovers.inside hs⟩
    rw [hplaces, List.pairwise_map]
    exact hcovers.ascending.imp fun hst => Nat.add_lt_add_left hst start

/-- Instructions with no, one, two and three bytes of operands. -/
def mixedInstructions : List Instruction :=
  [⟨.constant, 300, 0⟩, ⟨.getLocal, 3, 0⟩, ⟨.jump, 7, 0⟩, ⟨.closure, 300, 2⟩, ⟨.pop, 0, 0⟩]

/-- The bytes of the mixed instructions. -/
def mixedCode : Array UInt8 := #[0, 1, 44, 24, 3, 18, 0, 7, 34, 1, 44, 2, 4]

/-- A jump in the middle is led elsewhere; code that starts with no operation ends in a constant
that is cut off. -/
theorem instruction_streams_decode_mixed :
    Decodes mixedCode mixedInstructions ∧
    (listCode mixedCode 0)[3]?.map lineWords = some ["0008", "CLOSURE", "300", "2"] ∧
    (∃ code', changeOperand? mixedCode 5 65535 = some code' ∧
      Decodes code' (mixedInstructions.set 2 ⟨.jump, 65535, 0⟩)) ∧
    slotsFrom #[255, 0, 1] 7 0 [] = slots #[255, 0, 1] ∧
    ∃! s, s ∈ slots #[255, 0, 1] ∧ s.offset ≤ 2 ∧ 2 < s.offset + s.size := by
  obtain ⟨hdecodes, hwords, hchange⟩ :=
    instruction_streams_decode.1 mixedInstructions mixedCode (by decide) (by decide)
  obtain ⟨hends, -, -, -, hbyte, -⟩ := instruction_streams_decode.2 #[255, 0, 1] 0
  exact ⟨hdecodes, hwords 0 3, hchange 2 ⟨.jump, 7, 0⟩ 65535 rfl (by decide), hends 7 (by decide),
    hbyte 2 (by decide)⟩

end ScriptEngine
