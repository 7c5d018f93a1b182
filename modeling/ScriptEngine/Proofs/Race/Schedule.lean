import ScriptEngine.Proofs.Machine.Loop
import ScriptEngine.Proofs.Race.System
/-!
A run that can be cancelled, as it is carried out in one thread, is one order of the parties' steps:
the clock moves on by one with every instruction, and the caller is woken as soon as the token has
fired but raises the abort flag only some instructions later.
-/
namespace ScriptEngine

namespace CancelToken

variable {t : CancelToken} {number : Nat} {new : List Signal}

/-- The reasons for which signals cancel the token of a number. -/
def reasonsOf (number : Nat) (new : List Signal) : List CancelCause :=
  new.filterMap fun s => if s.token = number then some (.ofReason s.reason) else none

/-- The first of some causes counts if the token has none. -/
def cancelAll (t : CancelToken) (causes : List CancelCause) : CancelToken :=
  causes.foldl cancel t

theorem receive_eq (t : CancelToken) (number : Nat) (signals : Array Signal) :
    t.receive number signals = t.cancelAll (reasonsOf number signals.toList) := by
  unfold receive cancelAll reasonsOf
  rw [← Array.foldl_toList]
  generalize signals.toList = new
  induction new generalizing t with
  | nil => rfl
  | cons s new ih =>
    rw [List.foldl_cons, ih]
    by_cases hs : s.token = number <;> simp [hs]

theorem receive_append {signals signals' : Array Signal}
    (h : signals'.toList = signals.toList ++ new) :
    t.receive number signals' = (t.receive number signals).cancelAll (reasonsOf number new) := by
  rw [receive_eq, receive_eq, h]
  simp [cancelAll, reasonsOf]

theorem cancel_deadline (t : CancelToken) (cause : CancelCause) :
    (t.cancel cause).deadline = t.deadline := by
  unfold cancel
  cases t.given <;> rfl

theorem cancelAll_deadline (t : CancelToken) (causes : List CancelCause) :
    (t.cancelAll causes).deadline = t.deadline := by
  induction causes generalizing t with
  | nil => rfl
  | cons cause causes ih => exact (ih (t.cancel cause)).trans (cancel_deadline t cause)

theorem receive_deadline (t : CancelToken) (number : Nat) (signals : Array Signal) :
    (t.receive number signals).deadline = t.deadline := by
  rw [receive_eq, cancelAll_deadline]

theorem given_cancel (t : CancelToken) (cause : CancelCause) :
    (t.cancel cause).given = some (t.given.getD cause) := by
  unfold cancel
  cases h : t.given <;> simp [h]

/-- Why a token has fired: for the cause it was given or, without one, because of its deadline. -/
theorem cause?_eq_some {now : Nat} {cause : CancelCause} : t.cause? now = some cause ↔
    t.given = some cause ∨
      (t.given = none ∧ (∃ d, t.deadline = some d ∧ d ≤ now) ∧ cause = .deadlineExceeded) := by
  unfold cause?
  cases t.given with
  | some given => simp
  | none =>
    cases t.deadline with
    | none => simp
    | some time =>
      by_cases htime : time ≤ now
      · simp [htime, eq_comm]
      · simp [htime]

theorem cause?_eq_none {now : Nat} : t.cause? now = none ↔
    t.given = none ∧ ¬ ∃ d, t.deadline = some d ∧ d ≤ now := by
  unfold cause?
  cases t.given with
  | some given => simp
  | none =>
    cases t.deadline with
    | none => simp
    | some time => simp

end CancelToken

namespace Race

open CancelToken

variable {k : Terms} {s s' s'' : State}

/-- The parties' steps may lead from one state to another. -/
def Leads (k : Terms) (s s' : State) : Prop := ∃ es, Trace k s es s'

theorem Trace.append {es es' : List Event} (h : Trace k s es s') (h' : Trace k s' es' s'') :
    Trace k s (es ++ es') s'' := by
  induction h' with
  | nil => simpa using h
  | snoc _ hs ih =>
    rw [← List.append_assoc]
    exact ih.snoc hs

namespace Leads

theorem refl (k : Terms) (s : State) : Leads k s s := ⟨[], .nil⟩

theorem step {e : Event} (h : Leads k s s') (hs : Step k s' e s'') : Leads k s s'' := by
  obtain ⟨es, hes⟩ := h
  exact ⟨es ++ [e], hes.snoc hs⟩

theorem trans (h : Leads k s s') (h' : Leads k s' s'') : Leads k s s'' := by
  obtain ⟨es, hes⟩ := h
  obtain ⟨es', hes'⟩ := h'
  exact ⟨es ++ es', hes.append hes'⟩

end Leads

/-- Between two instructions, when the clock shows how many steps the machine has made and every
host function that was to cancel the token has done so. -/
def between (c : Caller) (t : CancelToken) (m : Machine) : State where
  time := m.clock
  given := t.given
  triggered := t.given.isSome
  halfway := 0
  aborted := false
  mail := none
  caller := c
  thread := .checking
  machine := m

/-- Host functions cancel the token. -/
theorem leads_asking (k : Terms) (causes : List CancelCause) (a : Advance) (c : Caller)
    (t : CancelToken) (m : Machine) :
    Leads k { between c t m with thread := .asking causes a }
      { between c (t.cancelAll causes) m with thread := .asking [] a } := by
  induction causes generalizing t with
  | nil => exact .refl _ _
  | cons cause causes ih =>
    have hask := (Leads.refl k { between c t m with thread := .asking (cause :: causes) a }).step
      (.ask rfl)
    have hrouse := hask.step (.rouse rfl)
    have heq : { between c (t.cancel cause) m with thread := .asking causes a } =
        { between c t m with
          given := some (t.given.getD cause), triggered := true, thread := .asking causes a } := by
      simp [between, given_cancel]
    have hrest := ih (t.cancel cause)
    rw [heq] at hrest
    exact hrouse.trans hrest

/-- Where the thread of the machine is when its run has come to an end or not. -/
def Thread.of (x : Setting) (m : Machine) : Ending → Thread
  | .unfinished | .stopped => .checking
  | ending => .ended (ending.outcome x m)

/-- One instruction. -/
theorem leads_instruction (k : Terms) (c : Caller) (t : CancelToken) (m : Machine) :
    Leads k (between c (t.receive k.number m.signals) m)
      { between c (t.receive k.number (m.advance k.setting).state.signals)
          (m.advance k.setting).state with
        thread := .after k.setting (m.advance k.setting) } := by
  obtain ⟨⟨⟨new, hnew⟩, hclock⟩, -⟩ := Machine.advance_settles k.setting m
  have hbegin := ((Leads.refl k (between c (t.receive k.number m.signals) m)).step
    (.proceed rfl rfl)).step (.instruction rfl)
  have hreasons : reasons k m (m.advance k.setting) = reasonsOf k.number new := by
    unfold reasons reasonsOf
    rw [hnew]
    simp
  have hasks := leads_asking k (reasonsOf k.number new) (m.advance k.setting) c
    (t.receive k.number m.signals) m
  rw [← receive_append hnew, ← hreasons] at hasks
  have hdone := (hasks.step (.complete rfl)).step (.tick 1)
  have htime : (m.advance k.setting).state.clock = m.clock + 1 := hclock
  refine hbegin.trans ?_
  simp only [between, htime] at hdone ⊢
  exact hdone

/-- A run that looks at the token before every step, as far as it has come. -/
theorem leads_loop (k : Terms) (c : Caller) (t : CancelToken) {stop : Machine → Bool} {n : Nat}
    {m m' : Machine} {ending : Ending} (h : m.loop k.setting stop n = (ending, m')) :
    Leads k (between c (t.receive k.number m.signals) m)
      { between c (t.receive k.number m'.signals) m' with thread := .of k.setting m' ending } := by
  induction n generalizing m with
  | zero =>
    cases h
    exact .refl _ _
  | succ n ih =>
    rw [Machine.loop] at h
    split at h
    · cases h
      exact .refl _ _
    · have hstep := leads_instruction k c t m
      cases hadv : m.advance k.setting with
      | next m₁ =>
        rw [hadv] at h hstep
        exact hstep.trans (ih h)
      | finished m₁ =>
        rw [hadv] at h hstep
        cases h
        exact hstep
      | halted e m₁ =>
        rw [hadv] at h hstep
        cases h
        exact hstep

/-- A run that is told to stop is told so where it stands. -/
theorem loop_stopped {x : Setting} {stop : Machine → Bool} {n : Nat} {m m' : Machine}
    (h : m.loop x stop n = (.stopped, m')) : stop m' = true := by
  induction n generalizing m with
  | zero => cases h
  | succ n ih =>
    rw [Machine.loop] at h
    split at h
    · rename_i hstop
      cases h
      exact hstop
    · split at h
      · exact ih h
      · cases h
      · cases h

/-- A run that has ended by itself reports to the caller. -/
theorem leads_report (k : Terms) (t : CancelToken) (m : Machine) (o : Outcome) :
    ∃ s, Leads k { between .selecting t m with thread := .ended o } s ∧
      s.caller = .returned (Artifact.result .fault o) ∧ s.machine = m :=
  ⟨_, ((((Leads.refl k _).step (.report rfl)).step (.finish rfl)).step (.receive rfl rfl)).step
    (.join rfl rfl), rfl, rfl⟩

/-- A caller who gives up the run waits until the machine has stopped. -/
theorem leads_abort (k : Terms) (cause : CancelCause) (t : CancelToken) (m : Machine)
    (ending : Ending) :
    ∃ s, Leads k { between (.aborting cause) t m with thread := .of k.setting m ending } s ∧
      s.caller = .returned (.error (.cancelled cause)) ∧ s.machine = m := by
  have habort := (Leads.refl k
    { between (.aborting cause) t m with thread := .of k.setting m ending }).step (.abort rfl)
  have hended : ∃ o, Leads k { between (.aborting cause) t m with thread := .of k.setting m ending }
      { between (.awaiting cause) t m with aborted := true, thread := .ended o } := by
    cases ending with
    | finished => exact ⟨_, habort⟩
    | halted e => exact ⟨_, habort⟩
    | stopped => exact ⟨_, habort.step (.stop rfl rfl)⟩
    | unfinished => exact ⟨_, habort.step (.stop rfl rfl)⟩
  obtain ⟨o, hlead⟩ := hended
  exact ⟨_, (((hlead.step (.report rfl)).step (.finish rfl)).step (.discard rfl rfl)).step
    (.join rfl rfl), rfl, rfl⟩

variable {c : Conditions} {token : CancelToken}

/-- A token that was cancelled before the call. -/
theorem leads_given (k : Terms) (time : Nat) (token : CancelToken) :
    Leads k (.initial k time)
      { State.initial k time with given := token.given, triggered := token.given.isSome } := by
  cases hgiven : token.given with
  | none => exact .refl _ _
  | some cause =>
    exact ((Leads.refl k (.initial k time)).step (.request cause)).step (.wake (Nat.zero_lt_one))

/-- The caller is woken by a token that has fired. -/
theorem leads_wake {k : Terms} {t : CancelToken} (hd : t.deadline = k.deadline) {m : Machine}
    {cause : CancelCause} (h : t.cause? m.clock = some cause) :
    Leads k (between .selecting t m) (between (.aborting cause) t m) := by
  obtain hgiven | ⟨hgiven, hlate, rfl⟩ := cause?_eq_some.mp h
  · have htriggered : (between .selecting t m).triggered = true := by simp [between, hgiven]
    have hlook := (Leads.refl k (between .selecting t m)).step (.triggered rfl htriggered)
    have hsee := hlook.step (.see rfl hgiven)
    exact hsee
  · have hlate' : (between .selecting t m).Late k := by
      rw [hd] at hlate
      exact hlate
    have hlook := (Leads.refl k (between .selecting t m)).step (.expired rfl hlate')
    have htime := (hlook.step (.miss rfl hgiven)).step (.late rfl hlate')
    exact htime

/-- The call of a run whose token has not fired starts the machine. -/
theorem leads_start (a : Artifact) (number : Nat) (h : token.cause? c.clock = none) :
    Leads (a.terms c number token) (.initial (a.terms c number token) c.clock)
      (between .selecting token ((a.machine c).start (a.setting c))) := by
  obtain ⟨hgiven, hlate⟩ := cause?_eq_none.mp h
  have hlook := ((leads_given (a.terms c number token) c.clock token).step (.call rfl)).step
    (.miss rfl hgiven)
  have hstart := (hlook.step (.early rfl hlate)).step (.start rfl)
  rw [hgiven] at hstart
  simp only [between, hgiven]
  exact hstart

/-- The call of a run whose token has fired returns at once. -/
theorem leads_refuse (a : Artifact) (number : Nat) {cause : CancelCause}
    (h : token.cause? c.clock = some cause) :
    ∃ s, Leads (a.terms c number token) (.initial (a.terms c number token) c.clock) s ∧
      s.caller = .returned (.error (.cancelled cause)) ∧ s.machine = a.machine c := by
  have hcall := (leads_given (a.terms c number token) c.clock token).step (.call rfl)
  obtain hgiven | ⟨hgiven, hlate, rfl⟩ := cause?_eq_some.mp h
  · exact ⟨_, hcall.step (.see rfl hgiven), rfl, rfl⟩
  · exact ⟨_, (hcall.step (.miss rfl hgiven)).step (.late rfl hlate), rfl, rfl⟩

/-- What a cancellable run in one thread comes to, the parties may come to. -/
theorem runWithCancel_leads (a : Artifact) (c : Conditions) (number : Nat) (token : CancelToken)
    (latency : Nat)
    (h : (a.runWithCancel c number token latency).result ≠ .error .unfinished) :
    ∃ s, Leads (a.terms c number token) (.initial (a.terms c number token) c.clock) s ∧
      s.caller = .returned (a.runWithCancel c number token latency).result ∧
      s.machine.globals = (a.runWithCancel c number token latency).artifact.globals := by
  have hreceive : token.receive number (a.machine c).signals = token := rfl
  unfold Artifact.runWithCancel at h ⊢
  simp only [hreceive] at h ⊢
  have hclock : (a.machine c).clock = c.clock := rfl
  rw [hclock] at h ⊢
  cases hcause : token.cause? c.clock with
  | some cause =>
    obtain ⟨s, hlead, hcaller, hmachine⟩ := leads_refuse a number hcause
    exact ⟨s, hlead, hcaller, by rw [hmachine]; rfl⟩
  | none =>
    dsimp only
    simp only [hcause] at h
    have hstart := leads_start a number hcause
    generalize hrun : (a.machine c).run (a.setting c) _ c.steps = r at h ⊢
    obtain ⟨ending, m⟩ := r
    have hloop := hstart.trans
      (leads_loop (a.terms c number token) .selecting token hrun)
    cases ending with
    | finished =>
      obtain ⟨s, hlead, hcaller, hmachine⟩ := leads_report (a.terms c number token)
        (token.receive number m.signals) m (Ending.finished.outcome (a.setting c) m)
      exact ⟨s, hloop.trans hlead, hcaller, by rw [hmachine]; rfl⟩
    | halted e =>
      obtain ⟨s, hlead, hcaller, hmachine⟩ := leads_report (a.terms c number token)
        (token.receive number m.signals) m ((Ending.halted e).outcome (a.setting c) m)
      exact ⟨s, hloop.trans hlead, hcaller, by rw [hmachine]; rfl⟩
    | unfinished => exact absurd rfl h
    | stopped =>
      have hstop := loop_stopped hrun
      obtain ⟨cause, hfired⟩ := Option.isSome_iff_exists.mp hstop
      have hwake := hloop.trans (leads_wake (receive_deadline token number m.signals) hfired)
      generalize hlast : m.loop (a.setting c) (fun _ => false) latency = r
      obtain ⟨ending, m'⟩ := r
      have hmore := hwake.trans
        (leads_loop (a.terms c number token) (.aborting cause) token hlast)
      obtain ⟨s, hlead, hcaller, hmachine⟩ := leads_abort (a.terms c number token) cause
        (token.receive number m'.signals) m' ending
      refine ⟨s, hmore.trans hlead, ?_, ?_⟩
      · simp only [hfired]
        exact hcaller
      · simp only [hfired]
        rw [hmachine]
        rfl

/-- In one thread a cancellable run does not return only if its steps run out before the program has
come to an end by itself and before the token has fired. -/
theorem runWithCancel_unfinished_iff (a : Artifact) (c : Conditions) (number : Nat)
    (token : CancelToken) (latency : Nat) :
    (a.runWithCancel c number token latency).result = .error .unfinished ↔
      token.cause? c.clock = none ∧
      (∃ m, (a.machine c).runFreely (a.setting c) c.steps = (.unfinished, m)) ∧
      ∀ n < c.steps, ∀ m, (a.machine c).runFreely (a.setting c) n = (.unfinished, m) →
        (token.receive number m.signals).cause? m.clock = none := by
  have hreceive : token.receive number (a.machine c).signals = token := rfl
  have hclock : (a.machine c).clock = c.clock := rfl
  unfold Artifact.runWithCancel
  simp only [hreceive, hclock]
  cases hcause : token.cause? c.clock with
  | some cause => simp [Artifact.after]
  | none =>
    have hnone (o : Option CancelCause) : o.isSome = false ↔ o = none :=
      Option.isSome_eq_false_iff.trans Option.isNone_iff_eq_none
    dsimp only
    generalize hrun : (a.machine c).run (a.setting c) _ c.steps = r
    obtain ⟨ending, m⟩ := r
    constructor
    · intro h
      obtain rfl : ending = .unfinished := by
        cases ending with
        | unfinished => rfl
        | finished => cases h
        | halted e => cases e <;> cases h
        | stopped =>
          obtain ⟨cause, hfired⟩ := Option.isSome_iff_exists.mp (loop_stopped hrun)
          simp only [hfired] at h
          cases h
      obtain ⟨hfree, hquiet⟩ := Machine.loop_unfinished_iff.mp hrun
      exact ⟨rfl, ⟨m, hfree⟩, fun n hn before hbefore =>
        (hnone _).mp (hquiet n hn before hbefore)⟩
    · rintro ⟨-, ⟨m', hfree⟩, hquiet⟩
      have hunder := Machine.loop_unfinished_iff.mpr ⟨hfree, fun n hn before hbefore =>
        (hnone _).mpr (hquiet n hn before hbefore)⟩
      obtain ⟨rfl, -⟩ := Prod.mk.inj (hrun.symm.trans hunder)
      rfl

theorem loop_clock {x : Setting} {stop : Machine → Bool} {n : Nat} {m m' : Machine}
    (h : m.loop x stop n = (.unfinished, m')) : m'.clock = m.clock + n := by
  induction n generalizing m with
  | zero =>
    cases h
    rfl
  | succ n ih =>
    rw [Machine.loop] at h
    split at h
    · cases h
    · have hclock := (Machine.advance_settles x m).1.clock
      cases hadv : m.advance x with
      | next m₁ =>
        rw [hadv] at h hclock
        have hfirst : m₁.clock = m.clock + 1 := hclock
        rw [ih h, hfirst, Nat.add_assoc, Nat.add_comm 1 n]
      | finished m₁ | halted e m₁ =>
        rw [hadv] at h
        cases h

/-- It returns if it has steps enough to come to the token's deadline. -/
theorem runWithCancel_returns_by_deadline (a : Artifact) (number : Nat) (latency : Nat) {d : Nat}
    (hd : token.deadline = some d) (hsteps : d < c.clock + c.steps) :
    (a.runWithCancel c number token latency).result ≠ .error .unfinished := by
  intro h
  obtain ⟨hnone, ⟨m, hrun⟩, hquiet⟩ := (runWithCancel_unfinished_iff a c number token latency).mp h
  have hearly : ¬ d ≤ c.clock := fun hle => (cause?_eq_none.mp hnone).2 ⟨d, hd, hle⟩
  obtain ⟨n, rfl⟩ := Nat.exists_eq_add_of_le (Nat.le_of_not_le hearly)
  have hn : n < c.steps := by omega
  have hunder : ((a.machine c).runFreely (a.setting c) n).1 = .unfinished :=
    Machine.unfinished_of_le (Nat.le_of_lt hn) (congrArg Prod.fst hrun)
  obtain ⟨before, hbefore⟩ :
      ∃ before, (a.machine c).runFreely (a.setting c) n = (.unfinished, before) :=
    ⟨_, Prod.ext hunder rfl⟩
  have hclock : before.clock = c.clock + n := loop_clock hbefore
  refine (cause?_eq_none.mp (hquiet n hn before hbefore)).2 ⟨_, ?_, Nat.le_of_eq hclock.symm⟩
  exact (receive_deadline token number before.signals).trans hd

end Race

end ScriptEngine
