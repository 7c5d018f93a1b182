import ScriptEngine.Proofs.Race.Invariant
import ScriptEngine.Proofs.Race.Schedule
/-!
What a cancellable run returns, in whatever order the parties take their steps: the machine stands
still by then, the globals are those between two instructions, and the result has the right reason.
-/
namespace ScriptEngine.Race

variable {k : Terms} {s s' s'' : State} {e : Event} {es : List Event}

/-! After the return -/

/-- The call has returned, and no thread of it is left. -/
structure Returned (s : State) (r : Except ScriptError Unit) : Prop where
  caller : s.caller = .returned r
  thread : s.thread = .finished ∨ s.thread = .absent

theorem Returned.step {r : Except ScriptError Unit} (hr : Returned s r) (h : Step k s e s') :
    Returned s' r ∧ s'.machine = s.machine := by
  obtain ⟨hcaller, hthread⟩ := hr
  have hnot {t : Thread} (ht : s.thread = t) (hne : t ≠ .finished) (hne' : t ≠ .absent) : False :=
    hthread.elim (fun hf => hne (ht.symm.trans hf)) (fun ha => hne' (ht.symm.trans ha))
  cases h with
  | tick | request | wake => exact ⟨⟨hcaller, hthread⟩, rfl⟩
  | stop ht | proceed ht | instruction ht | ask ht | rouse ht | complete ht | report ht
  | finish ht => exact (hnot ht nofun nofun).elim
  | call h | see h | miss h | late h | early h | start h | receive h | lose h | triggered h
  | expired h | abort h | discard h | discardNothing h | join h =>
    rw [hcaller] at h
    cases h

theorem Returned.trace {r : Except ScriptError Unit} (hr : Returned s r) (h : Trace k s es s') :
    Returned s' r ∧ s'.machine = s.machine := by
  induction h with
  | nil => exact ⟨hr, rfl⟩
  | snoc _ hs ih =>
    obtain ⟨hreturned, hmachine⟩ := ih.1.step hs
    exact ⟨hreturned, hmachine.trans ih.2⟩

/-! Calls with a token that has fired -/

/-- As long as there is no thread, none has begun an instruction. -/
theorem Step.of_absent (h : Step k s e s') (habsent : s'.thread = .absent) :
    s.thread = .absent ∧ e ≠ .instruction := by
  cases h with
  | complete =>
    rename_i a _
    cases a <;> cases habsent
  | start | stop | proceed | instruction | ask | rouse | report | finish => cases habsent
  | _ => exact ⟨habsent, nofun⟩

theorem Trace.of_absent (h : Trace k s es s') (habsent : s'.thread = .absent) :
    .instruction ∉ es := by
  induction h with
  | nil => exact nofun
  | snoc _ hs ih =>
    obtain ⟨hbefore, hne⟩ := hs.of_absent habsent
    simp only [List.mem_append, List.mem_singleton, not_or]
    exact ⟨ih hbefore, hne.symm⟩

/-- The token has fired. -/
def State.Fired (k : Terms) (s : State) : Prop := (s.token k).cause? s.time ≠ none

theorem State.fired_iff : s.Fired k ↔ s.given ≠ none ∨ s.Late k := by
  unfold State.Fired
  rw [ne_eq, CancelToken.cause?_eq_none]
  rw [Classical.not_and_iff_not_or_not, Classical.not_not]
  rfl

/-- The caller is on the way to give up before it has started anything. -/
structure Refused (k : Terms) (s : State) : Prop where
  thread : s.thread = .absent
  machine : s.machine = k.idle
  caller : (s.caller = .looking .entry ∧ s.Fired k) ∨ (s.caller = .timing .entry ∧ s.Late k) ∨
    ∃ cause, s.caller = .returned (.error (.cancelled cause))

theorem Refused.step (hr : Refused k s) (h : Step k s e s') : Refused k s' := by
  obtain ⟨hthread, hmachine, hcaller⟩ := hr
  have hfired (hf : s.Fired k) : s'.Fired k := by
    rw [State.fired_iff] at hf ⊢
    exact hf.imp h.given_ne h.late_mono
  have hlate := h.late_mono
  cases h with
  | tick | request | wake =>
    exact ⟨hthread, hmachine, hcaller.imp (.imp id hfired) (.imp (.imp id hlate) id)⟩
  | see h hg =>
    obtain ⟨hc, -⟩ | ⟨hc, -⟩ | ⟨_, hc⟩ := hcaller <;> rw [h] at hc <;> cases hc
    exact ⟨hthread, hmachine, Or.inr (Or.inr ⟨_, rfl⟩)⟩
  | miss h hg =>
    obtain ⟨hc, hf⟩ | ⟨hc, -⟩ | ⟨_, hc⟩ := hcaller <;> rw [h] at hc <;> cases hc
    rw [State.fired_iff] at hf
    exact ⟨hthread, hmachine, Or.inr (Or.inl ⟨rfl, hf.resolve_left fun hne => hne hg⟩)⟩
  | late h hl =>
    obtain ⟨hc, -⟩ | ⟨hc, -⟩ | ⟨_, hc⟩ := hcaller <;> rw [h] at hc <;> cases hc
    exact ⟨hthread, hmachine, Or.inr (Or.inr ⟨_, rfl⟩)⟩
  | early h hl =>
    obtain ⟨hc, -⟩ | ⟨-, hl'⟩ | ⟨_, hc⟩ := hcaller
    · rw [h] at hc
      cases hc
    · exact absurd hl' hl
    · rw [h] at hc
      cases hc
  | stop h | proceed h | instruction h | ask h | rouse h | complete h | report h | finish h =>
    rw [hthread] at h
    cases h
  | call h | start h | receive h | lose h | triggered h | expired h | abort h | discard h
  | discardNothing h | join h =>
    obtain ⟨hc, -⟩ | ⟨hc, -⟩ | ⟨_, hc⟩ := hcaller <;> rw [h] at hc <;> cases hc

theorem Refused.trace (hr : Refused k s) (h : Trace k s es s') : Refused k s' := by
  induction h with
  | nil => exact hr
  | snoc _ hs ih => exact ih.step hs

/-! Results -/

/-- The globals of a machine that has carried out some whole number of instructions of the run that
nobody cancels. -/
def Completed (k : Terms) (g : Globals) : Prop :=
  ∃ n m, k.idle.runFreely k.setting n = (.unfinished, m) ∧ g = m.globals

theorem Ended.completed {m : Machine} {o : Outcome} (h : Ended k m o) :
    Completed k m.globals := by
  obtain ⟨n, ending, hrun, -⟩ := h
  exact Machine.globals_of_loop hrun

theorem Over.completed {o : Outcome} (h : Over k s o) : Completed k s.machine.globals := by
  obtain hended | ⟨-, n, hran⟩ := h
  · exact hended.completed
  · exact ⟨n, _, hran, rfl⟩

/-- What a result says of the run: it has come to its own end of this kind, or the token has fired
and this is the cause. -/
def Tells (k : Terms) (es : List Event) (s : State) : Except ScriptError Unit → Prop
  | .ok () => ∃ n, k.idle.runFreely k.setting n = (.finished, s.machine)
  | .error (.runtime e) =>
    ∃ n t, k.idle.runFreely k.setting n = (.halted (.trap t), s.machine) ∧
      e = s.machine.located k.setting t
  | .error (.fault p) => ∃ n, k.idle.runFreely k.setting n = (.halted (.panic p), s.machine)
  | .error (.cancelled cause) => s.Fired k ∧ Because k es s cause
  | .error _ => False

theorem Because.fired {cause : CancelCause} (hb : Because k es s cause) (ht : TokenOk es s) :
    s.Fired k := by
  obtain ⟨before, after, rfl, -, hcause⟩ := hb
  rw [State.fired_iff]
  cases hfirst : firstCause before with
  | none =>
    rw [hfirst] at hcause
    exact Or.inr hcause.2
  | some first =>
    refine Or.inl ?_
    rw [ht.given]
    unfold firstCause at hfirst ⊢
    rw [List.findSome?_append, hfirst]
    exact nofun

theorem ResultOk.tells {r : Except ScriptError Unit} (hr : ResultOk k es s r)
    (ht : TokenOk es s) : Tells k es s r := by
  obtain ⟨o, ⟨n, ending, hrun, hending, rfl⟩, rfl⟩ | ⟨cause, rfl, hbecause⟩ := hr
  · obtain rfl | ⟨h, rfl⟩ := hending
    · exact ⟨n, hrun⟩
    · cases h with
      | trap t => exact ⟨n, t, hrun, rfl⟩
      | panic p => exact ⟨n, hrun⟩
  · exact ⟨hbecause.fired ht, hbecause⟩

/-- In whatever order the caller, the thread, the cancellers and the clock take their steps: when a
cancellable run returns, no thread of it is left, the machine stands still for good, and the globals
are those after some whole number of instructions of the run that nobody cancels; what is returned
is the run's own end, or a cancellation for the right cause. If the token had fired before the call,
there is no instruction and the run counts as cancelled. What `Artifact.runWithCancel` comes to is
one of the things that may happen. -/
theorem cancellable_run_returns (a : Artifact) (c : Conditions) (number : Nat)
    (token : CancelToken) (time : Nat) :
    let k := a.terms c number token
    (∀ es s r, Trace k (.initial k time) es s → s.caller = .returned r →
      (s.thread = .finished ∨ s.thread = .absent) ∧
      (∀ es' s', Trace k s es' s' → s'.caller = .returned r ∧ s'.machine = s.machine) ∧
      Completed k s.machine.globals ∧
      Tells k es s r) ∧
    (∀ es s₁ s₂ es' s, Trace k (.initial k time) es s₁ → s₁.Fired k → Step k s₁ .call s₂ →
      Trace k s₂ es' s →
      .instruction ∉ es ++ .call :: es' ∧ s.machine = k.idle ∧
      ∀ r, s.caller = .returned r → ∃ cause, r = .error (.cancelled cause)) ∧
    ∀ latency, (a.runWithCancel c number token latency).result ≠ .error .unfinished →
      ∃ es s, Trace k (.initial k c.clock) es s ∧
        s.caller = .returned (a.runWithCancel c number token latency).result ∧
        s.machine.globals = (a.runWithCancel c number token latency).artifact.globals := by
  intro k
  refine ⟨fun es s r htrace hcaller => ?_, fun es s₁ s₂ es' s htrace hfired hcall hrest => ?_,
    fun latency hresult => ?_⟩
  · have hinv := Invariant.trace htrace
    have hc := hinv.caller
    rw [hcaller] at hc
    obtain ⟨hthread, hok⟩ := hc
    refine ⟨hthread, fun es' s' hmore => ?_, ?_, hok.tells hinv.token⟩
    · obtain ⟨hreturned, hmachine⟩ := Returned.trace ⟨hcaller, hthread⟩ hmore
      exact ⟨hreturned.caller, hmachine⟩
    · have ht := hinv.thread
      obtain hfinished | habsent := hthread
      · rw [hfinished] at ht
        obtain ⟨⟨o, hover⟩, -⟩ := ht
        exact hover.completed
      · rw [habsent] at ht
        exact ⟨0, k.idle.start k.setting, rfl, by rw [ht.1]; rfl⟩
  · have hinv := Invariant.trace htrace
    have hrefused : Refused k s₂ := by
      cases hcall with
      | call h =>
        have hc := hinv.caller
        have ht := hinv.thread
        rw [h] at hc
        rw [hc.1] at ht
        exact ⟨hc.1, ht.1, Or.inl ⟨rfl, hfired⟩⟩
    obtain ⟨habsent, hmachine, hlast⟩ := hrefused.trace hrest
    have hwhole := (htrace.snoc hcall).append hrest
    refine ⟨?_, hmachine, fun r hcaller => ?_⟩
    · have hnone := hwhole.of_absent habsent
      simpa using hnone
    · obtain ⟨hc, -⟩ | ⟨hc, -⟩ | ⟨cause, hc⟩ := hlast <;> rw [hcaller] at hc <;> cases hc
      exact ⟨cause, rfl⟩
  · obtain ⟨s, ⟨es, htrace⟩, hcaller, hglobals⟩ := runWithCancel_leads a c number token latency
      hresult
    exact ⟨es, s, htrace, hcaller, hglobals⟩

end ScriptEngine.Race
