import ScriptEngine.Compile.Code
import ScriptEngine.Proofs.Budget.Step
import ScriptEngine.Proofs.Machine.Loop
/-!
A budget decides where a run stops and nothing else. Two runs that differ in their budgets are in
the same state, the budget apart, until the smaller budget is used up.
-/
namespace ScriptEngine

/-- What becomes of the machine, with another budget left. -/
def Advance.leaving (budget : Option Nat) : Advance → Advance
  | .next m => .next (m.allowed budget)
  | .finished m => .finished (m.allowed budget)
  | .halted h m => .halted h (m.allowed budget)

namespace Machine

open Exec

variable {x : Setting} {stop : Machine → Bool} {m : Machine} {b wide : Option Nat} {n : Nat}

/-- The allocations that the next step asks for: what it takes off a budget of one. -/
def demand (x : Setting) (m : Machine) : Nat :=
  1 - (((m.allowed (some 1)).advance x).state.budget).getD 0

/-- The allocations that the next step is granted. -/
def granted (x : Setting) (m : Machine) : Nat := if m.budget = some 0 then 0 else m.demand x

/-- The allocations granted in a run of so many steps. -/
def grants (x : Setting) (stop : Machine → Bool) : (steps : Nat) → Machine → Nat
  | 0, _ => 0
  | steps + 1, m =>
    if stop m then 0
    else
      match m.advance x with
      | .next m' => m.granted x + grants x stop steps m'
      | .finished _ | .halted _ _ => m.granted x

/-- A budget of at least so many allocations. -/
def Covers (b : Option Nat) (d : Nat) : Prop := ∀ n ∈ b, d ≤ n

theorem Covers.none {d : Nat} : Covers none d := nofun

theorem covers_some {d : Nat} : Covers (some n) d ↔ d ≤ n := by simp [Covers]

theorem Covers.trans {d e : Nat} (h : Covers b e) (hde : d ≤ e) : Covers b d :=
  fun n hn => Nat.le_trans hde (h n hn)

/-- What remains of two budgets is ordered as they are. -/
theorem Covers.sub (h : Covers wide n) (d : Nat) : Covers (wide.map (· - d)) (n - d) := by
  intro k hk
  obtain ⟨w, hw, rfl⟩ := Option.map_eq_some_iff.mp hk
  have := h w hw
  omega

theorem demand_le_one : m.demand x ≤ 1 := Nat.sub_le 1 _

theorem advance_allowed : (m.allowed b).advance x =
    Advance.of ((step x).run ({ m with clock := m.clock + 1 }.allowed b)) :=
  advance_eq

/-- The step takes off its budget what it asks for. -/
theorem step_takes (x : Setting) (m : Machine) :
    Takes (m.demand x) (step x) { m with clock := m.clock + 1 } := by
  obtain ⟨d, hd, htakes⟩ := step_draws (x := x) { m with clock := m.clock + 1 }
  have hleft : ((m.allowed (some 1)).advance x).state.budget = some (1 - d) := by
    have hrun := htakes.enough 1 hd
    rw [advance_allowed, hrun]
    cases (step x).run ({ m with clock := m.clock + 1 }.allowed none) with
    | ok flow m' => cases flow <;> rfl
    | error h m' => rfl
  have hdemand : m.demand x = d := by
    rw [demand, hleft, Option.getD_some]
    omega
  rw [hdemand]
  exact htakes

/-- With an unlimited budget no step fails for lack of an allocation. -/
theorem advance_solvent (m' : Machine) :
    (m.allowed none).advance x ≠ .halted (.trap .allocationLimit) m' := by
  intro hadv
  have hsolvent := (step_takes x m).solvent m'
  rw [advance_allowed] at hadv
  cases hrun : (step x).run ({ m with clock := m.clock + 1 }.allowed none) with
  | ok flow m'' =>
    rw [hrun] at hadv
    cases flow <;> cases hadv
  | error h m'' =>
    rw [hrun] at hadv
    cases hadv
    exact hsolvent hrun

theorem advance_unlimited : ((m.allowed none).advance x).state.budget = none := by
  have hnone := (step_takes x m).unlimited
  rw [advance_allowed]
  cases hrun : (step x).run ({ m with clock := m.clock + 1 }.allowed none) with
  | ok flow m' =>
    rw [hrun] at hnone
    cases flow <;> exact hnone
  | error h m' =>
    rw [hrun] at hnone
    exact hnone

/-- A step that gets what it asks for does what it does without a limit. -/
theorem advance_of_covers (h : Covers b (m.demand x)) : (m.allowed b).advance x =
    ((m.allowed none).advance x).leaving (b.map (· - m.demand x)) := by
  cases b with
  | none =>
    have hnone := advance_unlimited (x := x) (m := m)
    cases hadv : (m.allowed none).advance x <;> rw [hadv] at hnone <;>
      exact congrArg _ (allowed_of_eq hnone).symm
  | some n =>
    have hrun := (step_takes x m).enough n (covers_some.mp h)
    rw [advance_allowed, advance_allowed, hrun]
    cases (step x).run ({ m with clock := m.clock + 1 }.allowed none) with
    | ok flow m' => cases flow <;> rfl
    | error h m' => rfl

/-- A step that does not get what it asks for fails for that reason. -/
theorem advance_of_lack (h : n < m.demand x) : ∃ m',
    (m.allowed (some n)).advance x = .halted (.trap .allocationLimit) m' ∧ m'.budget = some 0 := by
  obtain ⟨m', hrun, hzero⟩ := (step_takes x m).short n h
  exact ⟨m', by rw [advance_allowed, hrun]; rfl, hzero⟩

theorem granted_of_covers (h : Covers b (m.demand x)) : (m.allowed b).granted x = m.demand x := by
  unfold granted
  split
  · rename_i hzero
    obtain rfl : b = some 0 := hzero
    have := covers_some.mp h
    omega
  · rfl

/-- Only a step that asks for an allocation and has none left fails for that reason. -/
theorem advance_limit {m' : Machine} (h : m.advance x = .halted (.trap .allocationLimit) m') :
    m.budget = some 0 ∧ m.demand x = 1 := by
  have hleft : ∀ b, m.budget = b → Covers b (m.demand x) → False := by
    intro b hb hcovers
    have hadv := advance_of_covers hcovers
    rw [allowed_of_eq hb, h] at hadv
    cases hfree : (m.allowed none).advance x with
    | halted e m'' =>
      rw [hfree] at hadv
      cases hadv
      exact advance_solvent m'' hfree
    | next m'' => rw [hfree] at hadv; cases hadv
    | finished m'' => rw [hfree] at hadv; cases hadv
  have hone := demand_le_one (x := x) (m := m)
  cases hb : m.budget with
  | none => exact (hleft none hb .none).elim
  | some n =>
    have hlack : ¬ m.demand x ≤ n := fun hle => hleft _ hb (covers_some.mpr hle)
    exact ⟨congrArg some (by omega), by omega⟩

theorem grants_add {k j : Nat} {m' : Machine} (h : m.loop x stop k = (.unfinished, m')) :
    m.grants x stop (k + j) = m.grants x stop k + m'.grants x stop j := by
  induction k generalizing m with
  | zero =>
    cases h
    simp only [grants, Nat.zero_add]
  | succ k ih =>
    rw [Nat.succ_add]
    simp only [loop, grants] at h ⊢
    split at h
    · cases h
    · rename_i hgo
      rw [if_neg hgo, if_neg hgo]
      cases hadv : m.advance x with
      | next m'' =>
        rw [hadv] at h
        dsimp only
        rw [ih h, Nat.add_assoc]
      | finished m'' => rw [hadv] at h; cases h
      | halted e m'' => rw [hadv] at h; cases h

/-- What the budget of a run was at its start is what was granted and what is left. -/
theorem loop_budget (stop : Machine → Bool) (steps : Nat) (m : Machine) (n : Nat) :
    ∃ left, ((m.allowed (some n)).loop x stop steps).2.budget = some left ∧
      (m.allowed (some n)).grants x stop steps + left = n := by
  induction steps generalizing m n with
  | zero => exact ⟨n, rfl, Nat.zero_add n⟩
  | succ steps ih =>
    simp only [loop, grants]
    by_cases hstop : stop (m.allowed (some n)) = true
    · rw [if_pos hstop, if_pos hstop]
      exact ⟨n, rfl, Nat.zero_add n⟩
    rw [if_neg hstop, if_neg hstop]
    rcases Nat.lt_or_ge n (m.demand x) with hlack | hcovers
    · obtain ⟨m', hadv, hzero⟩ := advance_of_lack hlack
      have hn : n = 0 := by
        have := demand_le_one (x := x) (m := m)
        omega
      subst hn
      rw [hadv]
      exact ⟨0, hzero, rfl⟩
    · rw [advance_of_covers (covers_some.mpr hcovers), granted_of_covers (covers_some.mpr hcovers)]
      cases (m.allowed none).advance x with
      | next m' =>
        obtain ⟨left, hleft, hsum⟩ := ih m' (n - m.demand x)
        refine ⟨left, hleft, ?_⟩
        change m.demand x + (m'.allowed (some (n - m.demand x))).grants x stop steps + left = n
        omega
      | finished m' => exact ⟨n - m.demand x, rfl, by dsimp only [Advance.leaving]; omega⟩
      | halted e m' => exact ⟨n - m.demand x, rfl, by dsimp only [Advance.leaving]; omega⟩

theorem outcome_allowed (e : Ending) : e.outcome x (m.allowed b) = e.outcome x m := by
  cases e with
  | halted h => cases h <;> rfl
  | _ => rfl

/-- A run is granted at least what its first step is granted. -/
theorem granted_le_grants (j : Nat) (hgo : stop m = false) :
    m.granted x ≤ m.grants x stop (j + 1) := by
  simp only [grants, hgo, Bool.false_eq_true, if_false]
  split
  · exact Nat.le_add_right _ _
  · exact Nat.le_refl _
  · exact Nat.le_refl _

/-- A way to stop a run that does not look at the budget. -/
def Blind (stop : Machine → Bool) : Prop := ∀ m b, stop (m.allowed b) = stop m

/-- A run that does not fail for lack of an allocation is the run with any larger budget. -/
theorem loop_of_enough (hstop : Blind stop) {steps : Nat} (hwide : Covers wide n)
    (h : ((m.allowed (some n)).loop x stop steps).1 ≠ .halted (.trap .allocationLimit)) :
    (m.allowed wide).loop x stop steps =
        (((m.allowed (some n)).loop x stop steps).1,
          ((m.allowed (some n)).loop x stop steps).2.allowed
            (wide.map (· - (m.allowed (some n)).grants x stop steps))) ∧
      (m.allowed wide).grants x stop steps = (m.allowed (some n)).grants x stop steps := by
  induction steps generalizing m n wide with
  | zero => exact ⟨by cases wide <;> rfl, rfl⟩
  | succ steps ih =>
    simp only [loop, grants] at h ⊢
    have hsame : stop (m.allowed wide) = stop (m.allowed (some n)) :=
      (hstop m wide).trans (hstop m (some n)).symm
    rw [hsame]
    by_cases hgo : stop (m.allowed (some n)) = true
    · simp only [hgo, if_true]
      exact ⟨by cases wide <;> rfl, trivial⟩
    rw [if_neg hgo] at h
    simp only [hgo, Bool.false_eq_true, if_false]
    rcases Nat.lt_or_ge n (m.demand x) with hlack | henough
    · obtain ⟨m', hadv, -⟩ := advance_of_lack hlack
      rw [hadv] at h
      exact absurd rfl h
    have hnarrow : Covers (some n) (m.demand x) := covers_some.mpr henough
    have hlarge : Covers wide (m.demand x) := hwide.trans henough
    rw [advance_of_covers hnarrow] at h ⊢
    rw [advance_of_covers hlarge, granted_of_covers hnarrow, granted_of_covers hlarge]
    have hmap (d e : Nat) : (wide.map (· - d)).map (· - e) = wide.map (· - (d + e)) := by
      cases wide <;> simp [Nat.sub_sub]
    cases hadv : (m.allowed none).advance x with
    | next m' =>
      rw [hadv] at h
      obtain ⟨hrun, hgrants⟩ := ih (hwide.sub (m.demand x)) h
      rw [hmap] at hrun
      exact ⟨hrun, congrArg _ hgrants⟩
    | finished m' => exact ⟨rfl, rfl⟩
    | halted e m' => exact ⟨rfl, rfl⟩

/-- A run that fails for lack of an allocation has used up its budget. Until its last step it was
the run with any larger budget, which is granted at least one allocation more. -/
theorem loop_of_lack (hstop : Blind stop) {steps : Nat} {m' : Machine} (hwide : Covers wide n)
    (h : (m.allowed (some n)).loop x stop steps = (.halted (.trap .allocationLimit), m')) :
    (m.allowed (some n)).grants x stop steps = n ∧
      (wide ≠ some n → n + 1 ≤ (m.allowed wide).grants x stop steps) ∧
      ∃ k narrow large, k < steps ∧
        (m.allowed (some n)).loop x stop k = (.unfinished, narrow) ∧
        (m.allowed wide).loop x stop k = (.unfinished, large) ∧
        (m.allowed (some n)).loop x stop (k + 1) = (.halted (.trap .allocationLimit), m') ∧
        large.globals = m'.globals := by
  obtain ⟨k, narrow, hk, hrun, hgo, hlast⟩ := last_of_halted h
  obtain ⟨hzero, hdemand⟩ := advance_limit hlast
  have hne : ((m.allowed (some n)).loop x stop k).1 ≠ .halted (.trap .allocationLimit) := by
    rw [hrun]
    exact nofun
  obtain ⟨hsame, hgrants⟩ := loop_of_enough hstop hwide hne
  -- Before its last step the run has been granted all of its budget.
  have hused : (m.allowed (some n)).grants x stop k = n := by
    obtain ⟨left, hleft, hsum⟩ := loop_budget (x := x) stop k m n
    rw [hrun] at hleft
    cases hzero.symm.trans hleft
    exact hsum
  rw [hrun, hused] at hsame
  have hlarge : (m.allowed wide).loop x stop k =
      (.unfinished, narrow.allowed (wide.map (· - n))) := hsame
  obtain ⟨j, rfl⟩ := Nat.exists_eq_add_of_lt hk
  refine ⟨?_, fun hne => ?_, k, narrow, _, hk, hrun, hlarge,
    (loop_add hrun).trans (loop_one hgo hlast), (globals_of_halted hlast).symm⟩
  · have hnone : narrow.grants x stop (j + 1) = 0 := by
      simp only [grants, hgo, Bool.false_eq_true, if_false, hlast, granted, hzero, if_true]
    rw [Nat.add_assoc, grants_add hrun, hused, hnone, Nat.add_zero]
  · have hmore : Covers (wide.map (· - n)) (narrow.demand x) := by
      intro left hleft
      obtain ⟨w, rfl, rfl⟩ := Option.map_eq_some_iff.mp hleft
      have hle : n ≤ w := covers_some.mp hwide
      have hne' : w ≠ n := fun heq => hne (congrArg some heq)
      omega
    have hone := granted_le_grants (x := x) j ((hstop narrow (wide.map (· - n))).trans hgo)
    rw [granted_of_covers hmore, hdemand] at hone
    rw [Nat.add_assoc, grants_add hlarge, hgrants, hused]
    omega

/-- The allocations granted in a run of so many steps. -/
def allocations (x : Setting) (stop : Machine → Bool) (steps : Nat) (m : Machine) : Nat :=
  (m.start x).grants x stop steps

/-- A budget only decides where a run stops. It is at every time what was granted and what is left.
A run that does not fail for lack of an allocation takes the steps that it takes with any larger
budget, to the same outcome. A run that does has been granted all of its budget; the run with a
larger one had the same globals before its next step, and is granted at least one allocation more. -/
theorem budget_only_stops (x : Setting) {stop : Machine → Bool} (hstop : Blind stop) (m : Machine)
    {n : Nat} {wide : Option Nat} (hwide : ∀ w ∈ wide, n ≤ w) (steps : Nat) :
    let narrow := (m.allowed (some n)).run x stop
    let large := (m.allowed wide).run x stop
    let granted (k : Nat) := (m.allowed (some n)).allocations x stop k
    (∀ k, ∃ left, (narrow k).2.budget = some left ∧ granted k + left = n) ∧
    ((narrow steps).1 ≠ .halted (.trap .allocationLimit) →
      (∀ k ≤ steps, (large k).1 = (narrow k).1 ∧
        (large k).2 = (narrow k).2.allowed (wide.map (· - granted k))) ∧
      (m.allowed wide).allocations x stop steps = granted steps ∧
      (large steps).1.outcome x (large steps).2 = (narrow steps).1.outcome x (narrow steps).2 ∧
      (large steps).2.globals = (narrow steps).2.globals) ∧
    ((narrow steps).1 = .halted (.trap .allocationLimit) →
      granted steps = n ∧
      (wide ≠ some n → n + 1 ≤ (m.allowed wide).allocations x stop steps) ∧
      ∃ k < steps, (narrow k).1 = .unfinished ∧ (large k).1 = .unfinished ∧
        narrow (k + 1) = narrow steps ∧ (large k).2.globals = (narrow steps).2.globals) := by
  intro narrow large granted
  have hnarrow (k : Nat) : narrow k = ((m.start x).allowed (some n)).loop x stop k := rfl
  have hlarge (k : Nat) : large k = ((m.start x).allowed wide).loop x stop k := rfl
  have hgranted (k : Nat) : granted k = ((m.start x).allowed (some n)).grants x stop k := rfl
  have hmore : (m.allowed wide).allocations x stop steps =
      ((m.start x).allowed wide).grants x stop steps := rfl
  simp only [hnarrow, hlarge, hgranted, hmore]
  generalize m.start x = s
  refine ⟨fun k => loop_budget stop k s n, fun hne => ?_, fun hlack => ?_⟩
  · obtain ⟨hrun, hsum⟩ := loop_of_enough hstop hwide hne
    refine ⟨fun k hk => ?_, hsum, ?_, ?_⟩
    · have hne : ((s.allowed (some n)).loop x stop k).1 ≠ .halted (.trap .allocationLimit) := by
        intro hlack
        have hended := loop_of_ended hk (by rw [hlack]; exact nofun)
        exact hne (by rw [hended, hlack])
      obtain ⟨hrun, -⟩ := loop_of_enough hstop hwide hne
      exact ⟨by rw [hrun], by rw [hrun]⟩
    · rw [hrun, outcome_allowed]
    · exact congrArg (·.2.globals) hrun
  · obtain ⟨hall, hmore, k, before, before', hk, hfirst, hfirst', hlast, hglobals⟩ :=
      loop_of_lack hstop hwide (Prod.ext hlack rfl)
    refine ⟨hall, hmore, k, hk, congrArg Prod.fst hfirst, congrArg Prod.fst hfirst',
      hlast.trans (Prod.ext hlack.symm rfl), ?_⟩
    rw [hfirst']
    exact hglobals

/-- A loop that makes an array in every round. -/
def arrayLoop : Setting where
  bytecode :=
    { file := "loop"
      main := Code.toRoutine
        #[.plain ⟨.array, 0, 0⟩ none, .plain ⟨.pop, 0, 0⟩ none, .plain ⟨.jump, 0, 0⟩ none] 0 0
      pool := #[] }
  host := ⟨fun _ _ => .refused (.message "unknown native")⟩
  maker := 0

theorem budget_only_stops_looping :
    (((idle ⟨#[]⟩ none).allowed (some 2)).run arrayLoop (fun _ => false) 9).1 =
        .halted (.trap .allocationLimit) ∧
      ((idle ⟨#[]⟩ none).allowed (some 2)).allocations arrayLoop (fun _ => false) 9 = 2 ∧
      3 ≤ ((idle ⟨#[]⟩ none).allowed none).allocations arrayLoop (fun _ => false) 9 := by
  have hlack : (((idle ⟨#[]⟩ none).allowed (some 2)).run arrayLoop (fun _ => false) 9).1 =
      .halted (.trap .allocationLimit) := by decide +kernel
  have hstop : Blind fun _ => false := fun _ _ => rfl
  have hwide : ∀ w ∈ (none : Option Nat), 2 ≤ w := nofun
  obtain ⟨hall, hmore, -⟩ :=
    (budget_only_stops arrayLoop hstop (idle ⟨#[]⟩ none) hwide 9).2.2 hlack
  exact ⟨hlack, hall, hmore nofun⟩

end Machine

end ScriptEngine
