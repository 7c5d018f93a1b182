import ScriptEngine.Machine.Run
/-! A run goes on from where a shorter run was, and one that fails fails in its last step. -/
namespace ScriptEngine.Machine

variable {x : Setting} {stop : Machine → Bool} {m m' : Machine} {e : Halt} {j k steps : Nat}

/-- A run that has ended takes no further steps. -/
theorem loop_of_ended (hk : k ≤ steps) (h : (m.loop x stop k).1 ≠ .unfinished) :
    m.loop x stop steps = m.loop x stop k := by
  induction k generalizing m steps with
  | zero => exact absurd rfl h
  | succ k ih =>
    obtain ⟨steps, rfl⟩ := Nat.exists_eq_add_of_le' (Nat.le_trans (Nat.succ_pos k) hk)
    simp only [loop] at h ⊢
    split
    · rfl
    · rename_i hgo
      rw [if_neg hgo] at h
      cases hadv : m.advance x with
      | next m' =>
        rw [hadv] at h
        exact ih (by omega) h
      | finished m' => rfl
      | halted e m' => rfl

/-- A run that is under way after some steps was so before. -/
theorem unfinished_of_le (hk : k ≤ steps) (h : (m.loop x stop steps).1 = .unfinished) :
    (m.loop x stop k).1 = .unfinished := by
  refine Decidable.byContradiction fun hend => ?_
  rw [loop_of_ended hk hend] at h
  exact hend h

/-- Two accounts of how a run ends are one. -/
theorem loop_unique {m₁ m₂ : Machine} {e₁ e₂ : Ending} (h₁ : m.loop x stop j = (e₁, m₁))
    (h₂ : m.loop x stop k = (e₂, m₂)) (he₁ : e₁ ≠ .unfinished) (he₂ : e₂ ≠ .unfinished) :
    e₁ = e₂ ∧ m₁ = m₂ := by
  have hsame : m.loop x stop j = m.loop x stop k := by
    rcases Nat.le_total j k with hjk | hjk
    · exact (loop_of_ended hjk (by rw [h₁]; exact he₁)).symm
    · exact loop_of_ended hjk (by rw [h₂]; exact he₂)
  rw [h₁, h₂] at hsame
  exact Prod.mk.inj hsame

/-- A run that has not ended goes on from where it is. -/
theorem loop_add (h : m.loop x stop k = (.unfinished, m')) :
    m.loop x stop (k + j) = m'.loop x stop j := by
  induction k generalizing m with
  | zero =>
    cases h
    rw [Nat.zero_add]
  | succ k ih =>
    rw [Nat.succ_add]
    simp only [loop] at h ⊢
    split at h
    · cases h
    · rename_i hgo
      rw [if_neg hgo]
      cases hadv : m.advance x with
      | next m'' =>
        rw [hadv] at h
        exact ih h
      | finished m'' =>
        rw [hadv] at h
        cases h
      | halted e m'' =>
        rw [hadv] at h
        cases h

theorem loop_next (hgo : stop m = false) (hadv : m.advance x = .next m') (k : Nat) :
    m.loop x stop (k + 1) = m'.loop x stop k := by
  simp only [loop, hgo, Bool.false_eq_true, if_false, hadv]

theorem loop_one (hgo : stop m = false) (hadv : m.advance x = .halted e m') :
    m.loop x stop 1 = (.halted e, m') := by
  simp only [loop, hgo, Bool.false_eq_true, if_false, hadv]

/-- A run that may be told to stop is under way if it is without the test and the test has not met
before any of its steps. -/
theorem loop_unfinished_iff : m.loop x stop steps = (.unfinished, m') ↔
    m.loop x (fun _ => false) steps = (.unfinished, m') ∧
      ∀ k < steps, ∀ before, m.loop x (fun _ => false) k = (.unfinished, before) →
        stop before = false := by
  induction steps generalizing m with
  | zero => simp [loop]
  | succ steps ih =>
    cases hstop : stop m with
    | true =>
      constructor
      · intro h
        simp [loop, hstop] at h
      · rintro ⟨-, hquiet⟩
        have hfirst := hquiet 0 (Nat.succ_pos steps) m rfl
        rw [hstop] at hfirst
        cases hfirst
    | false =>
      cases hadv : m.advance x with
      | next m₁ =>
        rw [loop_next hstop hadv, loop_next rfl hadv, ih]
        refine and_congr_right fun _ => ⟨fun h k hk before hrun => ?_, fun h k hk before hrun => ?_⟩
        · cases k with
          | zero =>
            cases hrun
            exact hstop
          | succ k =>
            rw [loop_next rfl hadv] at hrun
            exact h k (Nat.lt_of_succ_lt_succ hk) before hrun
        · exact h (k + 1) (Nat.succ_lt_succ hk) before ((loop_next rfl hadv k).trans hrun)
      | finished m₁ | halted e m₁ => simp [loop, hstop, hadv]

/-- The step in which a run fails is its last. -/
theorem last_of_halted (h : m.loop x stop steps = (.halted e, m')) :
    ∃ k before, k < steps ∧ m.loop x stop k = (.unfinished, before) ∧ stop before = false ∧
      before.advance x = .halted e m' := by
  induction steps generalizing m with
  | zero => cases h
  | succ steps ih =>
    simp only [loop] at h
    split at h
    · cases h
    · rename_i hgo
      cases hadv : m.advance x with
      | next m'' =>
        rw [hadv] at h
        obtain ⟨k, before, hk, hrun, hstop, hlast⟩ := ih h
        refine ⟨k + 1, before, Nat.succ_lt_succ hk, ?_, hstop, hlast⟩
        rw [loop, if_neg hgo, hadv]
        exact hrun
      | finished m'' =>
        rw [hadv] at h
        cases h
      | halted e' m'' =>
        rw [hadv] at h
        cases h
        exact ⟨0, m, Nat.succ_pos steps, rfl, Bool.not_eq_true _ ▸ hgo, hadv⟩

end ScriptEngine.Machine
