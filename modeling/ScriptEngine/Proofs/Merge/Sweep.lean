import ScriptEngine.Proofs.Encoding.Decode
import ScriptEngine.Proofs.Merge.Redirect
/-!
Moving constants in any bytes. The sweep may stop in the middle, and the last index may be cut off;
what it changes is told byte by byte.
-/
namespace ScriptEngine

/-- Reading instructions from `p` on leads to `q`. -/
inductive Sweeps (code : Array UInt8) : Nat → Nat → Prop where
  | here (p : Nat) : Sweeps code p p
  | next {p q : Nat} {i : Instruction} : Instruction.at? code p = some i →
      Sweeps code (p + i.size) q → Sweeps code p q

/-- Code read from the front has, at `place`, both bytes of the index `k` of a constant. -/
def NamesConstant (code : Array UInt8) (place k : Nat) : Prop :=
  ∃ p i, Sweeps code 0 p ∧ Instruction.at? code p = some i ∧ i.op.loadsConstant = true ∧
    p + 2 < code.size ∧ place = p + 1 ∧ k = i.a

/-- The slots in which the sweep looks for constants. -/
def sweep (code : Array UInt8) (fuel p : Nat) : List Slot :=
  (slotsFrom code fuel p []).takeWhile (·.instruction?.isSome)

variable {code : Array UInt8} {moved : Array Nat} {p q fuel : Nat} {s : Slot} {ss : List Slot}

theorem Sweeps.le (h : Sweeps code p q) : p ≤ q := by
  induction h with
  | here p => exact Nat.le_refl p
  | next _ _ ih => omega

theorem Sweeps.trans {r : Nat} (h : Sweeps code p q) (h' : Sweeps code q r) : Sweeps code p r := by
  induction h with
  | here p => exact h'
  | next hat _ ih => exact .next hat (ih h')

/-- No place in the middle of an instruction is met. -/
theorem Sweeps.apart {r : Nat} {i : Instruction} (h : Sweeps code r p) (h' : Sweeps code r q)
    (hat : Instruction.at? code p = some i) : q ≤ p ∨ p + i.size ≤ q := by
  induction h with
  | here p =>
    cases h' with
    | here => exact Or.inl (Nat.le_refl _)
    | next hj hrest =>
      obtain rfl := Option.some.inj (hat.symm.trans hj)
      exact Or.inr hrest.le
  | next hj hrest ih =>
    cases h' with
    | here => exact Or.inl (Sweeps.next hj hrest).le
    | next hk hq =>
      obtain rfl := Option.some.inj (hj.symm.trans hk)
      exact ih hq hat

theorem at?_lt {i : Instruction} (h : Instruction.at? code p = some i) : p < code.size := by
  by_contra hout
  have hnone : code[p]? = none := Array.getElem?_eq_none (by omega)
  simp [Instruction.at?, hnone] at h

/-- The sweep goes on behind an instruction and ends where there is none. -/
theorem sweep_succ (fuel p : Nat) : sweep code (fuel + 1) p =
    match Instruction.at? code p with
    | some i => ⟨p, some i⟩ :: sweep code fuel (p + i.size)
    | none => [] := by
  cases hat : Instruction.at? code p with
  | none =>
    by_cases hp : p < code.size
    · simp only [sweep, slotsFrom, if_pos hp, hat]
      rw [slotsFrom_found]
      simp
    · simp [sweep, slotsFrom, if_neg hp]
  | some i =>
    simp only [sweep, slotsFrom, if_pos (at?_lt hat), hat]
    rw [slotsFrom_found]
    simp [Slot.size]

theorem mem_sweep (hfuel : code.size ≤ p + fuel) :
    s ∈ sweep code fuel p ↔ ∃ q i, Sweeps code p q ∧ Instruction.at? code q = some i ∧
      s = ⟨q, some i⟩ := by
  induction fuel generalizing p with
  | zero =>
    constructor
    · intro h
      simp [sweep, slotsFrom] at h
    · rintro ⟨q, i, hq, hi, -⟩
      have hle := hq.le
      have hlt := at?_lt hi
      omega
  | succ fuel ih =>
    rw [sweep_succ]
    cases hat : Instruction.at? code p with
    | none =>
      constructor
      · intro h
        simp at h
      · rintro ⟨q, i, hq, hi, -⟩
        cases hq with
        | here => simp [hat] at hi
        | next hj _ => simp [hat] at hj
    | some j =>
      have hsize := j.size_pos
      simp only [List.mem_cons, ih (p := p + j.size) (by omega)]
      constructor
      · rintro (rfl | ⟨q, i, hq, hi, rfl⟩)
        · exact ⟨p, j, .here p, hat, rfl⟩
        · exact ⟨q, i, .next hat hq, hi, rfl⟩
      · rintro ⟨q, i, hq, hi, rfl⟩
        cases hq with
        | here =>
          obtain rfl : j = i := Option.some.inj (hat.symm.trans hi)
          exact Or.inl rfl
        | next hj hrest =>
          obtain rfl := Option.some.inj (hat.symm.trans hj)
          exact Or.inr ⟨q, i, hrest, hi, rfl⟩

/-- No two slots share a byte. -/
theorem sweep_apart (fuel p : Nat) :
    (sweep code fuel p).Pairwise (fun s t => s.offset + s.size ≤ t.offset) ∧
      ∀ s ∈ sweep code fuel p, p ≤ s.offset := by
  induction fuel generalizing p with
  | zero => simp [sweep, slotsFrom]
  | succ fuel ih =>
    rw [sweep_succ]
    cases hat : Instruction.at? code p with
    | none => simp
    | some i =>
      obtain ⟨hpair, hle⟩ := ih (p + i.size)
      refine ⟨List.pairwise_cons.mpr ⟨hle, hpair⟩, ?_⟩
      intro s hs
      rcases List.mem_cons.mp hs with rfl | hs
      · exact Nat.le_refl p
      · have := hle s hs
        omega

@[simp] theorem size_writeIndex (place n : Nat) : (writeIndex code place n).size = code.size := by
  simp [writeIndex]

@[simp] theorem Slot.size_code_redirect : (s.redirect moved code).size = code.size := by
  unfold Slot.redirect
  split
  · split <;> simp
  · rfl

theorem size_foldl_redirect (ss : List Slot) (code : Array UInt8) :
    (ss.foldl (fun code s => s.redirect moved code) code).size = code.size := by
  induction ss generalizing code with
  | nil => rfl
  | cons s rest ih => exact (ih _).trans Slot.size_code_redirect

theorem getElem?_writeIndex {place n : Nat} (h : q ≠ place) (h' : q ≠ place + 1) :
    (writeIndex code place n)[q]? = code[q]? := by
  simp [writeIndex, Array.getElem?_setIfInBounds_ne h.symm,
    Array.getElem?_setIfInBounds_ne h'.symm]

theorem operandAt_two (code : Array UInt8) (place : Nat) : operandAt code 2 place =
    (code.getD place 0).toNat * 256 + (code.getD (place + 1) 0).toNat := by
  simp [operandAt]

/-- An index that was written is read back. -/
theorem operandAt_writeIndex {place n : Nat} (h : place + 1 < code.size) :
    operandAt (writeIndex code place n) 2 place = min n 0xffff := by
  have hhigh : (UInt8.ofNat (min n 65535 / 256)).toNat = min n 65535 / 256 :=
    Nat.mod_eq_of_lt (by omega)
  have hlow : (UInt8.ofNat (min n 65535 % 256)).toNat = min n 65535 % 256 :=
    Nat.mod_eq_of_lt (by omega)
  have hfirst : (writeIndex code place n).getD place 0 = UInt8.ofNat (min n 65535 / 256) := by
    simp [writeIndex, Array.getD_eq_getD_getElem?, Nat.lt_of_succ_lt h]
  have hsecond : (writeIndex code place n).getD (place + 1) 0 =
      UInt8.ofNat (min n 65535 % 256) := by
    simp [writeIndex, Array.getD_eq_getD_getElem?, h]
  rw [operandAt_two, hfirst, hsecond, hhigh, hlow]
  omega

/-- Writing the index that is there changes nothing. -/
theorem writeIndex_self {place : Nat} (h : place + 1 < code.size) :
    writeIndex code place (operandAt code 2 place) = code := by
  have hhigh := (code.getD place 0).toNat_lt
  have hlow := (code.getD (place + 1) 0).toNat_lt
  rw [operandAt_two]
  have hmin : min ((code.getD place 0).toNat * 256 + (code.getD (place + 1) 0).toNat) 0xffff =
      (code.getD place 0).toNat * 256 + (code.getD (place + 1) 0).toNat := by
    omega
  have hfirst : ((code.getD place 0).toNat * 256 + (code.getD (place + 1) 0).toNat) / 256 =
      (code.getD place 0).toNat := by
    omega
  have hsecond : ((code.getD place 0).toNat * 256 + (code.getD (place + 1) 0).toNat) % 256 =
      (code.getD (place + 1) 0).toNat := by
    omega
  have hin : place < code.size := Nat.lt_of_succ_lt h
  have hself (k : Nat) (hk : k < code.size) : code.setIfInBounds k (code.getD k 0) = code := by
    simp [Array.setIfInBounds, hk]
  rw [writeIndex, hmin, hfirst, hsecond, UInt8.ofNat_toNat, UInt8.ofNat_toNat, hself _ hin]
  exact hself _ h

/-- What one slot does to code: it moves the constant that it names, or nothing. -/
theorem Slot.redirect_of_names {i : Instruction} (hop : i.op.loadsConstant = true)
    (hin : p + 2 < code.size) : (⟨p, some i⟩ : Slot).redirect moved code =
      writeIndex code (p + 1) (moved.getD i.a i.a) := by
  simp [Slot.redirect, hop, hin]

theorem Slot.redirect_of_not {i : Instruction}
    (h : ¬ (i.op.loadsConstant = true ∧ p + 2 < code.size)) :
    (⟨p, some i⟩ : Slot).redirect moved code = code := by
  unfold Slot.redirect
  simp only [Bool.and_eq_true, decide_eq_true_eq, if_neg h]

theorem Instruction.size_of_loadsConstant {i : Instruction} (h : i.op.loadsConstant = true) :
    3 ≤ i.size := by
  obtain ⟨op, a, b⟩ := i
  rcases widths_of_loadsConstant h with rfl | rfl <;> simp [size, Opcode.size, Opcode.widths]

/-- A constant's index is what its two bytes spell. -/
theorem Instruction.operandAt_of_at? {i : Instruction} (hat : at? code p = some i)
    (hop : i.op.loadsConstant = true) : i.a = operandAt code 2 (p + 1) := by
  simp only [at?, Option.bind_eq_bind, Option.bind_eq_some_iff] at hat
  obtain ⟨b, -, op, -, hi⟩ := hat
  obtain rfl := Option.some.inj hi
  rcases widths_of_loadsConstant hop with rfl | rfl <;> rfl

theorem NamesConstant.eq_operandAt {place k : Nat} (h : NamesConstant code place k) :
    k = operandAt code 2 place := by
  obtain ⟨p, i, -, hat, hop, -, rfl, rfl⟩ := h
  exact Instruction.operandAt_of_at? hat hop

theorem NamesConstant.lt {place k : Nat} (h : NamesConstant code place k) : k < 65536 := by
  have hk := h.eq_operandAt
  have hhigh := (code.getD place 0).toNat_lt
  have hlow := (code.getD (place + 1) 0).toNat_lt
  rw [operandAt_two] at hk
  omega

/-- A byte that no slot writes stays. -/
theorem getElem?_foldl_redirect (ss : List Slot) (code : Array UInt8)
    (h : ∀ p i, ⟨p, some i⟩ ∈ ss → i.op.loadsConstant = true → p + 2 < code.size →
      q ≠ p + 1 ∧ q ≠ p + 2) :
    (ss.foldl (fun code s => s.redirect moved code) code)[q]? = code[q]? := by
  induction ss generalizing code with
  | nil => rfl
  | cons s rest ih =>
    have hstep : (s.redirect moved code)[q]? = code[q]? := by
      obtain ⟨p, _ | i⟩ := s
      · rfl
      · by_cases hnames : i.op.loadsConstant = true ∧ p + 2 < code.size
        · obtain ⟨hfirst, hsecond⟩ := h p i (List.mem_cons_self ..) hnames.1 hnames.2
          rw [Slot.redirect_of_names hnames.1 hnames.2]
          exact getElem?_writeIndex hfirst hsecond
        · rw [Slot.redirect_of_not hnames]
    refine (ih _ fun p i hmem hop hin => ?_).trans hstep
    exact h p i (List.mem_cons_of_mem _ hmem) hop (by simpa using hin)

/-- Two bytes that later slots leave alone are as their own slot wrote them. -/
theorem operandAt_foldl_redirect {i : Instruction} (ss : List Slot) (code : Array UInt8)
    (hapart : ss.Pairwise (fun s t => s.offset + s.size ≤ t.offset))
    (hmem : ⟨p, some i⟩ ∈ ss) (hop : i.op.loadsConstant = true) (hin : p + 2 < code.size) :
    operandAt (ss.foldl (fun code s => s.redirect moved code) code) 2 (p + 1) =
      min (moved.getD i.a i.a) 0xffff := by
  induction ss generalizing code with
  | nil => simp at hmem
  | cons s rest ih =>
    obtain ⟨hfar, hrest⟩ := List.pairwise_cons.mp hapart
    rcases List.mem_cons.mp hmem with rfl | hmem
    · have hsize := Instruction.size_of_loadsConstant hop
      have hkept (q : Nat) (hq : q ≤ p + 2) :
          (rest.foldl (fun code s => s.redirect moved code)
            ((⟨p, some i⟩ : Slot).redirect moved code))[q]? =
          ((⟨p, some i⟩ : Slot).redirect moved code)[q]? := by
        apply getElem?_foldl_redirect
        intro p' i' hmem' _ _
        have hle : p + i.size ≤ p' := hfar _ hmem'
        omega
      rw [List.foldl_cons, operandAt_two, Array.getD_eq_getD_getElem?,
        Array.getD_eq_getD_getElem?, hkept _ (by omega), hkept _ (by omega),
        ← Array.getD_eq_getD_getElem?, ← Array.getD_eq_getD_getElem?, ← operandAt_two,
        Slot.redirect_of_names hop hin]
      exact operandAt_writeIndex (by omega)
    · exact ih _ hrest hmem (by simpa using hin)

theorem mem_sweep_zero : s ∈ sweep code code.size 0 ↔
    ∃ p i, Sweeps code 0 p ∧ Instruction.at? code p = some i ∧ s = ⟨p, some i⟩ :=
  mem_sweep (by omega)

@[simp] theorem size_redirectCode : (redirectCode moved code).size = code.size :=
  size_foldl_redirect _ _

/-- An index that the sweep reaches is moved. -/
theorem operandAt_redirectCode {place k : Nat} (h : NamesConstant code place k) :
    operandAt (redirectCode moved code) 2 place = min (moved.getD k k) 0xffff := by
  obtain ⟨p, i, hp, hat, hop, hin, rfl, rfl⟩ := h
  have hmem : ⟨p, some i⟩ ∈ sweep code code.size 0 := mem_sweep_zero.mpr ⟨p, i, hp, hat, rfl⟩
  exact operandAt_foldl_redirect _ _ (sweep_apart _ _).1 hmem hop hin

/-- Every byte that belongs to no such index stays. -/
theorem getElem?_redirectCode (h : ∀ place k, NamesConstant code place k → q ≠ place ∧ q ≠ place + 1) :
    (redirectCode moved code)[q]? = code[q]? := by
  apply getElem?_foldl_redirect
  intro p i hmem hop hin
  obtain ⟨p', i', hp, hat, heq⟩ := mem_sweep_zero.mp hmem
  obtain ⟨rfl, rfl⟩ : p = p' ∧ i = i' := by simpa using heq
  exact h (p + 1) i.a ⟨p, i, hp, hat, hop, hin, rfl, rfl⟩

/-- The code bytes that the sweep meets are no indices. -/
theorem getElem?_redirectCode_of_sweeps (h : Sweeps code 0 p) :
    (redirectCode moved code)[p]? = code[p]? := by
  apply getElem?_redirectCode
  rintro place k ⟨q, i, hq, hat, hop, -, rfl, -⟩
  have hsize := Instruction.size_of_loadsConstant hop
  rcases hq.apart h hat with hle | hle <;> omega

theorem op_at? (code : Array UInt8) (p : Nat) :
    (Instruction.at? code p).map (·.op) = code[p]?.bind Opcode.ofByte? := by
  cases hb : code[p]? with
  | none => simp [Instruction.at?, hb]
  | some b => cases hop : Opcode.ofByte? b <;> simp [Instruction.at?, hb, hop]

/-- Moved code is read through the same instructions. -/
theorem at?_redirectCode {i : Instruction} (h : Sweeps code 0 p)
    (hat : Instruction.at? code p = some i) :
    ∃ j, Instruction.at? (redirectCode moved code) p = some j ∧ j.op = i.op := by
  have hop := op_at? (redirectCode moved code) p
  rw [getElem?_redirectCode_of_sweeps h, ← op_at? code p, hat] at hop
  simpa using hop

theorem Sweeps.redirectCode (h : Sweeps code p q) (hp : Sweeps code 0 p) :
    Sweeps (redirectCode moved code) p q := by
  induction h with
  | here p => exact .here p
  | next hat _ ih =>
    obtain ⟨j, hj, hop⟩ := at?_redirectCode hp hat
    have hsize : j.size = _ := congrArg Opcode.size hop
    refine .next hj ?_
    rw [hsize]
    exact ih (hp.trans (.next hat (.here _)))

/-- Moved code names a constant where the code did. -/
theorem NamesConstant.redirected {place k : Nat} (h : NamesConstant code place k) :
    NamesConstant (redirectCode moved code) place (min (moved.getD k k) 0xffff) := by
  have hindex : operandAt (redirectCode moved code) 2 place = _ := operandAt_redirectCode h
  obtain ⟨p, i, hp, hat, hop, hin, rfl, rfl⟩ := h
  obtain ⟨j, hj, hjop⟩ : ∃ j, Instruction.at? (redirectCode moved code) p = some j ∧ j.op = i.op :=
    at?_redirectCode hp hat
  rw [← hjop] at hop
  refine ⟨p, j, hp.redirectCode (.here 0), hj, hop, by simpa using hin, rfl, ?_⟩
  rw [Instruction.operandAt_of_at? hj hop, hindex]

/-- Nothing is changed where every constant stays in its place. -/
theorem redirectCode_eq_self (h : ∀ k < 65536, moved.getD k k = k) :
    redirectCode moved code = code := by
  have hfold (ss : List Slot) (hss : ∀ s ∈ ss, s.redirect moved code = code) :
      ss.foldl (fun code s => s.redirect moved code) code = code := by
    induction ss with
    | nil => rfl
    | cons s rest ih =>
      rw [List.foldl_cons, hss s (List.mem_cons_self ..)]
      exact ih fun t ht => hss t (List.mem_cons_of_mem _ ht)
  apply hfold
  intro s hs
  obtain ⟨p, i, hp, hat, rfl⟩ := mem_sweep_zero.mp hs
  by_cases hnames : i.op.loadsConstant = true ∧ p + 2 < code.size
  · have hk : NamesConstant code (p + 1) i.a := ⟨p, i, hp, hat, hnames.1, hnames.2, rfl, rfl⟩
    rw [Slot.redirect_of_names hnames.1 hnames.2, h i.a hk.lt,
      Instruction.operandAt_of_at? hat hnames.1]
    exact writeIndex_self (by omega)
  · exact Slot.redirect_of_not hnames

end ScriptEngine
