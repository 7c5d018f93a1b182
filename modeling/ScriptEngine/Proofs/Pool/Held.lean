import ScriptEngine.Proofs.Merge.Quotient
/-!
The code that the constants of a pool hold. Merging moves the constants in the code of functions that
are constants themselves. Code inside arrays, maps, modules and closures stays as it is, which serves
only if the constants that it names stay in their places. A function that other values refer to as
well becomes another object when its code is moved.
-/
namespace ScriptEngine

open Encoding

/-- The bytes of a function's own code. -/
def Value.code : Value → Array UInt8
  | function _ r | closure _ r _ => r.code
  | _ => #[]

/-- The code of a function names the constant at a place. -/
def Value.Cites (f : Value) (k : Nat) : Prop :=
  ∃ p i, ⟨p, some i⟩ ∈ slots f.code ∧ i.op.loadsConstant = true ∧ i.a = k

namespace Bytecode

/-- Merging takes care of all code in a value: it is a function, whose constants it moves, or there is
nothing to move. -/
def Tracks (b : Bytecode) (v : Value) : Prop :=
  (∃ who r, v = .function who r) ∨ ∀ f ∈ v.functions, ∀ k, f.Cites k → movedTo b.moved k = k

/-- Other values than the constant at a place refer to a function object: other constants, values
inside constants, or values outside the pool. -/
def Shared (b : Bytecode) (outside : FunctionId → Bool) (k : Nat) (id : FunctionId) : Prop :=
  outside id = true ∨ ∃ j v r, j ≠ k ∧ b.pool[j]? = some v ∧ .function id r ∈ v.functions

/-- If the constant at a place is a function, no other value refers to it. -/
def Alone (b : Bytecode) (outside : FunctionId → Bool) (k : Nat) : Prop :=
  ∀ id r, b.pool[k]? = some (.function id r) → ¬ b.Shared outside k id

/-- There is an object for each place that no value in the pool or outside refers to yet. -/
structure Fresh (b : Bytecode) (outside : FunctionId → Bool) (copies : Nat → FunctionId) :
    Prop where
  apart : ∀ {j k}, copies j = copies k → j = k
  unseen_outside : ∀ k, outside (copies k) = false
  unseen : ∀ {j k : Nat} {v : Value} {r : Routine}, b.pool[j]? = some v →
    .function (copies k) r ∉ v.functions

/-- Code that names constants at some places only meets no other code than such, no code that merging
does not take care of, and no function constant that may become another object. -/
structure Closed (b : Bytecode) (outside : FunctionId → Bool) (good : Nat → Prop) : Prop where
  orderly : ∀ k v, good k → b.pool[k]? = some v → v.Only (Value.Orderly good)
  tracks : ∀ k v, good k → b.pool[k]? = some v → b.Tracks v
  alone : ∀ k, good k → b.Alone outside k

end Bytecode

variable {b : Bytecode} {outside : FunctionId → Bool} {copies : Nat → FunctionId}
  {good : Nat → Prop} {moved : Array Nat} {i : Instruction} {r : Routine} {is : List Instruction}
  {f v w : Value} {k j : Nat} {id : FunctionId}

/-! Function objects -/

theorem Value.exists_of_isObject {vs : List Value} (h : vs.any (Value.isObject id) = true) :
    ∃ r, .function id r ∈ vs := by
  obtain ⟨f, hf, hobject⟩ := List.any_eq_true.mp h
  cases f with
  | function id' r =>
    obtain rfl : id' = id := of_decide_eq_true hobject
    exact ⟨r, hf⟩
  | _ => cases hobject

namespace Bytecode

/-- Each constant that is left was one before. -/
theorem merge_source (h : b.merge.pool[j]? = some w) :
    ∃ i v, (survivors b.pool.toList)[j]? = some i ∧ b.pool[i]? = some v ∧
      w = v.redirect b.moved := by
  have hj := congrArg (·[j]?) b.merge_pool_survivors
  simp only [List.getElem?_map, Array.getElem?_toList, h, Option.map_some] at hj
  obtain ⟨i, hi, hkept⟩ := Option.map_eq_some_iff.mp hj.symm
  obtain ⟨v, hv, hw⟩ := Option.map_eq_some_iff.mp hkept
  exact ⟨i, v, hi, hv, hw.symm⟩

/-- Where merging is about to copy an object, other values refer to it. -/
theorem shared_of_shares (hplace : (survivors b.pool.toList)[j]? = some k)
    (hpool : b.merge.pool[j]? = some (.function id r)) (h : b.merge.shares j id = true) :
    b.Shared outside k id := by
  have hapart {l i : Nat} (hi : (survivors b.pool.toList)[l]? = some i) (hl : l ≠ j) : i ≠ k := by
    rintro rfl
    have hlength := (List.getElem?_eq_some_iff.mp hi).1
    exact hl ((List.getElem?_inj hlength survivors_ascending.nodup).mp (hi.trans hplace.symm))
  obtain ⟨l, -, hl⟩ := List.any_eq_true.mp h
  split at hl
  · rename_i id' r' hu
    obtain ⟨hlater, rfl⟩ : j < l ∧ id' = id := by simpa using hl
    obtain ⟨i, v, hi, hv, hw⟩ := merge_source hu
    cases v with
    | function id'' r'' =>
      cases hw
      exact Or.inr ⟨i, _, r'', hapart hi (by omega), hv, List.mem_cons_self⟩
    | _ => cases hw
  · rename_i u hnot hu
    obtain ⟨i, v, hi, hv, rfl⟩ := merge_source hu
    have hne : l ≠ j := by
      rintro rfl
      exact hnot id r (Option.some.inj (hu.symm.trans hpool))
    obtain ⟨r', hmem⟩ := Value.exists_of_isObject hl
    refine Or.inr ⟨i, v, ?_⟩
    cases v with
    | function id' r' => exact absurd rfl (hnot _ _)
    | _ => exact ⟨r', hapart hi hne, hv, hmem⟩
  · cases hl

/-- No function becomes another object if there is one value for each. -/
theorem unshare_eq_merge (h : ∀ k, b.Alone outside k) : b.merge.unshare outside copies = b.merge := by
  have hpool : (b.merge.unshare outside copies).pool = b.merge.pool := by
    refine Array.ext_getElem? fun j => ?_
    simp only [unshare, Array.getElem?_mapIdx]
    cases hw : b.merge.pool[j]? with
    | none => rfl
    | some w =>
      obtain ⟨k, v, hplace, hv, rfl⟩ := merge_source hw
      cases v with
      | function id r =>
        have halone := h k id r hv
        have houtside : outside id = false := Bool.eq_false_iff.mpr fun ho => halone (Or.inl ho)
        have hshares : b.merge.shares j id = false :=
          Bool.eq_false_iff.mpr fun hs => halone (shared_of_shares hplace hw hs)
        simp [Value.redirect, houtside, hshares]
      | _ => rfl
  exact congrArg (Bytecode.mk _ _) hpool

/-- A constant is a function that has become another object, or it is what it was. -/
theorem unshare_cases (h : (b.unshare outside copies).pool[k]? = some v) :
    (∃ r, v = .function (copies k) r) ∨ b.pool[k]? = some v ∧
      ∀ id r, v = .function id r → outside id = false ∧ b.shares k id = false := by
  simp only [unshare, Array.getElem?_mapIdx] at h
  obtain ⟨u, hu, rfl⟩ := Option.map_eq_some_iff.mp h
  cases u with
  | function id r =>
    by_cases hcopy : (outside id || b.shares k id) = true
    · exact Or.inl ⟨r, if_pos hcopy⟩
    · simp only [hcopy]
      refine Or.inr ⟨hu, fun id' r' hsame => ?_⟩
      cases hsame
      simpa using hcopy
  | _ => exact Or.inr ⟨hu, nofun⟩

theorem shares_of_later (h : b.pool[j]? = some (.function id r)) (hj : k < j) :
    b.shares k id = true := by
  refine List.any_eq_true.mpr ⟨j, List.mem_range.mpr (Array.getElem?_eq_some_iff.mp h).1, ?_⟩
  simp [h, hj]

theorem shares_of_inside (h : b.pool[j]? = some v) (hv : ∀ id r, v ≠ .function id r)
    (hmem : .function id r ∈ v.functions) : b.shares k id = true := by
  refine List.any_eq_true.mpr ⟨j, List.mem_range.mpr (Array.getElem?_eq_some_iff.mp h).1, ?_⟩
  have hany : v.functions.any (Value.isObject id) = true :=
    List.any_eq_true.mpr ⟨_, hmem, by simp [Value.isObject]⟩
  rw [h]
  cases v with
  | function id r => exact absurd rfl (hv id r)
  | _ => exact hany

/-- If the copies are new objects, no value refers to a function constant but the constant itself. -/
theorem unshare_alone (h : b.Fresh outside copies) (k : Nat) :
    (b.unshare outside copies).Alone outside k := by
  rintro id r hk (houtside | ⟨j, v, r', hj, hv, hmem⟩)
  · rcases unshare_cases hk with ⟨_, hsame⟩ | ⟨-, hkept⟩
    · cases hsame
      exact Bool.false_ne_true ((h.unseen_outside k).symm.trans houtside)
    · exact Bool.false_ne_true ((hkept id r rfl).1.symm.trans houtside)
  -- a copy is met nowhere else; of two places with one object the first gets a copy
  rcases unshare_cases hk with ⟨_, hsame⟩ | ⟨hk, hkept⟩
  · cases hsame
    rcases unshare_cases hv with ⟨r, rfl⟩ | ⟨hv, -⟩
    · obtain ⟨hcopies, -⟩ := Value.function.inj (List.mem_singleton.mp hmem)
      exact hj (h.apart hcopies).symm
    · exact h.unseen hv hmem
  · have hunshared : b.shares k id = false := (hkept id r rfl).2
    rcases unshare_cases hv with ⟨r, rfl⟩ | ⟨hv, hkept'⟩
    · obtain ⟨rfl, -⟩ := Value.function.inj (List.mem_singleton.mp hmem)
      exact h.unseen hk List.mem_cons_self
    by_cases hfunction : ∃ id' r, v = .function id' r
    · obtain ⟨id', r, rfl⟩ := hfunction
      obtain ⟨rfl, -⟩ := Value.function.inj (List.mem_singleton.mp hmem)
      rcases Nat.lt_or_gt_of_ne hj with hlt | hgt
      · have hshared : b.shares j id = true := shares_of_later hk hlt
        exact Bool.false_ne_true ((hkept' id _ rfl).2.symm.trans hshared)
      · have hshared : b.shares k id = true := shares_of_later hv hgt
        exact Bool.false_ne_true (hunshared.symm.trans hshared)
    · have hshared : b.shares k id = true :=
        shares_of_inside hv (fun id' r hsame => hfunction ⟨id', r, hsame⟩) hmem
      exact Bool.false_ne_true (hunshared.symm.trans hshared)

end Bytecode

/-! Code in which nothing moves -/

theorem operandBytes_mod (n : Nat) : operandBytes 2 (n % 65536) = operandBytes 2 n := by
  have hhigh : UInt8.ofNat (n % 65536 / 256) = UInt8.ofNat (n / 256) := by
    apply UInt8.toNat_inj.mp
    simp only [UInt8.toNat_ofNat']
    omega
  have hlow : UInt8.ofNat (n % 65536) = UInt8.ofNat n := by
    apply UInt8.toNat_inj.mp
    simp only [UInt8.toNat_ofNat']
    omega
  simp [operandBytes, hhigh, hlow]

/-- The bytes of an instruction stay if its constant does. -/
theorem Instruction.bytes_redirect
    (h : i.op.loadsConstant = true → movedTo moved i.narrow.a = i.narrow.a) :
    (i.redirect moved).bytes = i.bytes := by
  obtain ⟨op, a, n⟩ := i
  by_cases hop : op.loadsConstant = true
  · have hsame : min (moved.getD (a % 65536) (a % 65536)) 65535 = a % 65536 := by
      rcases widths_of_loadsConstant hop with rfl | rfl <;> exact h rfl
    simp only [redirect, hop, if_true, hsame]
    rcases widths_of_loadsConstant hop with rfl | rfl <;>
      simp [bytes, Opcode.encode, Opcode.widths, operandBytes_mod]
  · simp [redirect, hop]

end ScriptEngine
