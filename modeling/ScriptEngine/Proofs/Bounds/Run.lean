import ScriptEngine.Proofs.Bounds.Step
import ScriptEngine.Proofs.Safety.Runs
/-!
Runs of any code whatever, from any globals and with any budget. There are never more frames and
values than allowed, the main routine stays at the bottom, and no guard fails.
-/
namespace ScriptEngine.Checked

open Vm

variable {x : Setting} {g : Vm} {m : Machine}

/-! The place in the source -/

/-- Halving ends at an entry. -/
theorem narrow_lt {map : Array (Nat × Pos)} {ip : Nat} (fuel size base : Nat)
    (hsize : 0 < size) (hmap : base + size ≤ map.size) :
    Routine.narrow map ip fuel size base < map.size := by
  induction fuel generalizing size base with
  | zero =>
    simp only [Routine.narrow]
    omega
  | succ fuel ih =>
    simp only [Routine.narrow]
    split
    · omega
    · refine ih _ _ (by omega) ?_
      split <;> omega

theorem posAt_eq (r : Routine) (ip : Nat) : posAt r ip = .ok (r.posAt ip) := by
  unfold posAt entriesUpTo Routine.posAt
  by_cases hempty : r.sourceMap.size = 0
  · have hnone (i : Nat) : r.sourceMap[i]? = none := Array.getElem?_eq_none (by omega)
    simp only [hempty, if_true, hnone]
    rfl
  · have hbase : Routine.narrow r.sourceMap ip r.sourceMap.size r.sourceMap.size 0 <
        r.sourceMap.size :=
      narrow_lt _ _ _ (Nat.pos_of_ne_zero hempty) (by omega)
    generalize Routine.narrow r.sourceMap ip r.sourceMap.size r.sourceMap.size 0 = base at hbase
    simp only [hempty, if_false, read_eq hbase, Array.getElem?_eq_getElem hbase]
    by_cases hle : r.sourceMap[base].1 ≤ ip
    · simp [hle, bind, Except.bind, pure, Except.pure, read_eq hbase]
    · cases base with
      | zero => simp [hle, bind, Except.bind, pure, Except.pure]
      | succ i =>
        have hi : i < r.sourceMap.size := by omega
        simp [hle, bind, Except.bind, pure, Except.pure, read_eq hi, hi]

theorem Vm.Bounded.located_eq (hg : g.Bounded x) (t : Trap) :
    g.located x t = .ok ((g.plain x).located x t) := by
  obtain ⟨callers, frame, hframes⟩ := hg.frames_eq
  unfold Vm.located Machine.located
  rw [(plain_frames hframes).1]
  simp only [hframes, Array.back?_push, posAt_eq]
  rfl

/-! Steps -/

/-- What a step may come to, and what the machine without guards comes to then: another state, the
end, an error whose place can be told, or the crash of a host function. -/
inductive Sound (x : Setting) : Advance → ScriptEngine.Advance → Prop where
  | next {g : Vm} : Sound x (.next g) (.next (g.plain x))
  | finished {g : Vm} {m : Machine} (h : unframed (g.plain x) = unframed m) :
    Sound x (.finished g) (.finished m)
  | failed {g : Vm} {t : Trap} (h : g.located x t = .ok ((g.plain x).located x t)) :
    Sound x (.halted (.trap t) g) (.halted (.trap t) (g.plain x))
  | crashed {g : Vm} {p : Panic} {id : FunctionId} {name : String} {args : List Value}
    (h : x.host.call id name args = .panic p) :
    Sound x (.halted (.panic p) g) (.halted (.panic p) (g.plain x))

theorem Vm.Bounded.advance_sound (hg : g.Bounded x) :
    Sound x (g.advance x) ((g.plain x).advance x) ∧
      ∀ g', g.advance x = .next g' → g'.Bounded x := by
  have hstep := step_follows (x := x) { g with clock := g.clock + 1 }
    ⟨hg.active, hg.depth, hg.main_iff, hg.room⟩
  have hplain : { g with clock := g.clock + 1 }.plain x =
    { g.plain x with clock := (g.plain x).clock + 1 } := rfl
  rw [hplain] at hstep
  unfold Vm.advance Machine.advance
  revert hstep
  cases (Exec.step x).run { g with clock := g.clock + 1 } with
  | ok flow g' =>
    cases (ScriptEngine.Exec.step x).run { g.plain x with clock := (g.plain x).clock + 1 } with
    | error h m => exact False.elim
    | ok flow' m =>
      rintro ⟨rfl, hon⟩
      cases flow with
      | proceed =>
        obtain ⟨hbounded, rfl⟩ := hon
        exact ⟨.next, fun _ heq => by cases heq; exact hbounded⟩
      | finish => exact ⟨.finished hon, fun _ heq => by cases heq⟩
  | error s g' =>
    cases s with
    | fault f =>
      intro hstep
      cases (ScriptEngine.Exec.step x).run { g.plain x with clock := (g.plain x).clock + 1 } <;>
        exact hstep.elim
    | halt h =>
      cases (ScriptEngine.Exec.step x).run { g.plain x with clock := (g.plain x).clock + 1 } with
      | ok flow m => exact False.elim
      | error h' m =>
        rintro ⟨⟨rfl, hcause⟩, hbounded, rfl⟩
        refine ⟨?_, fun _ heq => by cases heq⟩
        cases h with
        | trap t => exact .failed (hbounded.located_eq t)
        | panic p =>
          obtain ⟨id, name, args, hreply⟩ := hcause
          exact .crashed hreply

/-! Runs -/

theorem start_bounded (x : Setting) (m₀ : Machine) : (start x m₀).Bounded x where
  active := by simp [start]
  depth := by simp [start, Machine.maxFrames]
  main_iff i hi := by
    have : i = 0 := by simpa [start] using hi
    subst this
    simp [start]
  room := by simp [start]

theorem start_plain (x : Setting) (m₀ : Machine) : (start x m₀).plain x = m₀.start x := by
  simp [plain, start, Machine.start, Activation.plain, Callee.routine, Callee.free]

theorem Vm.Bounded.reaches (hg : g.Bounded x) {g' : Vm} (h : g.Reaches x g') :
    g'.Bounded x ∧ (g.plain x).Reaches x (g'.plain x) := by
  induction h with
  | refl => exact ⟨hg, .refl⟩
  | step _ hstep ih =>
    obtain ⟨hbounded, hreach⟩ := ih
    obtain ⟨hsound, hnext⟩ := hbounded.advance_sound
    refine ⟨hnext _ hstep, hreach.step ?_⟩
    rw [hstep] at hsound
    generalize Machine.advance x _ = r at hsound
    cases hsound
    rfl

theorem Vm.Bounded.reached (hg : g.Bounded x) (h : (g.plain x).Reaches x m) :
    ∃ g', g.Reaches x g' ∧ g'.plain x = m := by
  induction h with
  | refl => exact ⟨g, .refl, rfl⟩
  | step _ hstep ih =>
    obtain ⟨g', hreach, rfl⟩ := ih
    obtain ⟨hsound, -⟩ := (hg.reaches hreach).1.advance_sound
    rw [hstep] at hsound
    generalize hadvance : g'.advance x = r at hsound
    cases hsound
    exact ⟨_, hreach.step hadvance, rfl⟩

/-- Whatever the code, the globals and the budget, in every state of a run there are at most 1024
frames, the bottom one and no other is that of the main routine, the stack holds no more than 2048
values or the main routine's slots, and the next step comes to another state, the end or an error,
no guard failing, unless a host function crashes; the place in the source of an error can always be
told. The guarded machine and the machine go through the same states. -/
theorem runs_stay_in_bounds (x : Setting) (m₀ : Machine) :
    (∀ g, (start x m₀).Reaches x g →
      (0 < g.frames.size ∧ g.frames.size ≤ 1024) ∧
      (∀ i (h : i < g.frames.size), g.frames[i].callee = .main ↔ i = 0) ∧
      g.stack.size ≤ max 2048 x.bytecode.main.locals ∧
      Sound x (g.advance x) ((g.plain x).advance x) ∧
      ∀ t, g.located x t = .ok ((g.plain x).located x t)) ∧
    ∀ m, (m₀.start x).Reaches x m ↔ ∃ g, (start x m₀).Reaches x g ∧ g.plain x = m := by
  have hstart := start_bounded x m₀
  rw [← start_plain]
  refine ⟨fun g hreach => ?_, fun m => ⟨hstart.reached, ?_⟩⟩
  · have hbounded := (hstart.reaches hreach).1
    exact ⟨⟨hbounded.active, hbounded.depth⟩, hbounded.main_iff, hbounded.room,
      hbounded.advance_sound.1, hbounded.located_eq⟩
  · rintro ⟨g, hreach, rfl⟩
    exact (hstart.reaches hreach).2

end ScriptEngine.Checked
