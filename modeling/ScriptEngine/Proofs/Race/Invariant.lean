import ScriptEngine.Proofs.Race.System
/-!
What holds between the parties of a cancellable run after every step: what is in the token, how far
the machine has come, and what the caller knows.
-/
namespace ScriptEngine

namespace Machine

variable {x : Setting} {m m' : Machine} {n : Nat}

/-- One more step after some that have not ended the run. -/
theorem loop_snoc (h : m.loop x (fun _ => false) n = (.unfinished, m')) :
    m.loop x (fun _ => false) (n + 1) =
      match m'.advance x with
      | .next m'' => (.unfinished, m'')
      | .finished m'' => (.finished, m'')
      | .halted e m'' => (.halted e, m'') := by
  induction n generalizing m with
  | zero =>
    cases h
    simp only [loop]
    rfl
  | succ n ih =>
    rw [loop] at h ⊢
    simp only [Bool.false_eq_true, if_false] at h ⊢
    cases hadv : m.advance x with
    | next m₁ =>
      rw [hadv] at h
      exact ih h
    | finished m₁ =>
      rw [hadv] at h
      cases h
    | halted e m₁ =>
      rw [hadv] at h
      cases h

/-- The instruction that ends a run leaves the globals as the instructions before it did. -/
theorem globals_of_loop {ending : Ending} (h : m.loop x (fun _ => false) n = (ending, m')) :
    ∃ n' m'', m.loop x (fun _ => false) n' = (.unfinished, m'') ∧ m'.globals = m''.globals := by
  induction n generalizing m with
  | zero =>
    cases h
    exact ⟨0, _, rfl, rfl⟩
  | succ n ih =>
    rw [loop] at h
    simp only [Bool.false_eq_true, if_false] at h
    cases hadv : m.advance x with
    | next m₁ =>
      rw [hadv] at h
      obtain ⟨n', m'', hrun, heq⟩ := ih h
      refine ⟨n' + 1, m'', ?_, heq⟩
      rw [loop]
      simpa only [Bool.false_eq_true, if_false, hadv] using hrun
    | finished m₁ =>
      rw [hadv] at h
      cases h
      exact ⟨0, m, rfl, globals_of_finished hadv⟩
    | halted e m₁ =>
      rw [hadv] at h
      cases h
      exact ⟨0, m, rfl, globals_of_halted hadv⟩

end Machine

namespace Race

variable {k : Terms} {s s' : State} {e : Event} {es : List Event}

/-! Steps -/

theorem Step.time_le (h : Step k s e s') : s.time ≤ s'.time := by
  cases h <;> first | exact Nat.le_refl _ | exact Nat.le_add_right _ _

theorem Step.late_mono (h : Step k s e s') (hl : s.Late k) : s'.Late k := by
  obtain ⟨d, hd, hle⟩ := hl
  exact ⟨d, hd, Nat.le_trans hle h.time_le⟩

/-- The cause in the token is that of the first request. -/
theorem Step.given_eq (h : Step k s e s') :
    s'.given = match e with
      | .request cause => some (s.given.getD cause)
      | _ => s.given := by
  cases h <;> rfl

theorem Step.given_ne (h : Step k s e s') (hg : s.given ≠ none) : s'.given ≠ none := by
  rw [h.given_eq]
  cases e <;> simp [hg]

theorem firstCause_snoc (es : List Event) (e : Event) :
    firstCause (es ++ [e]) =
      match e with
      | .request cause => some ((firstCause es).getD cause)
      | _ => firstCause es := by
  unfold firstCause
  rw [List.findSome?_append]
  cases e <;> cases List.findSome? _ es <;> rfl

/-! The token -/

/-- Nobody wakes the caller before there is a cause, and the cause is the first one offered. -/
structure TokenOk (es : List Event) (s : State) : Prop where
  given : s.given = firstCause es
  triggered : s.triggered = true → s.given ≠ none
  halfway : 0 < s.halfway → s.given ≠ none
  waking : ∀ todo a, s.thread = .waking todo a → s.given ≠ none

theorem TokenOk.step (ht : TokenOk es s) (h : Step k s e s') : TokenOk (es ++ [e]) s' := by
  have hgiven : s'.given = firstCause (es ++ [e]) := by
    rw [h.given_eq, firstCause_snoc, ht.given]
    cases e <;> rfl
  have hne := h.given_ne
  cases h with
  | request cause => exact ⟨hgiven, fun _ => nofun, fun _ => nofun, fun _ _ _ => nofun⟩
  | wake h => exact ⟨hgiven, fun _ => hne (ht.halfway h), fun _ => hne (ht.halfway h), ht.waking⟩
  | ask h => exact ⟨hgiven, fun _ => nofun, fun _ => nofun, fun _ _ _ => nofun⟩
  | rouse h =>
    exact ⟨hgiven, fun _ => hne (ht.waking _ _ h), ht.halfway, fun _ _ heq => by cases heq⟩
  | complete h =>
    rename_i a
    refine ⟨hgiven, ht.triggered, ht.halfway, fun todo b heq => ?_⟩
    cases a <;> cases heq
  | start | stop | proceed | instruction | report | finish =>
    exact ⟨hgiven, ht.triggered, ht.halfway, fun _ _ heq => by cases heq⟩
  | _ => exact ⟨hgiven, ht.triggered, ht.halfway, ht.waking⟩

/-! The thread -/

/-- So far the run has come without being stopped. -/
def Ran (k : Terms) (m : Machine) : Prop :=
  ∃ n, k.idle.runFreely k.setting n = (.unfinished, m)

/-- The run has ended by itself. -/
def Ended (k : Terms) (m : Machine) (o : Outcome) : Prop :=
  ∃ n ending, k.idle.runFreely k.setting n = (ending, m) ∧
    (ending = .finished ∨ ∃ h, ending = .halted h) ∧ o = ending.outcome k.setting m

/-- The run has ended, by itself or by the abort flag. -/
def Over (k : Terms) (s : State) (o : Outcome) : Prop :=
  Ended k s.machine o ∨ (s.aborted = true ∧ Ran k s.machine)

/-- What a thread that got somewhere has done, and whether it has reported. -/
def ThreadOk (k : Terms) (s : State) : Thread → Prop
  | .absent => s.machine = k.idle ∧ s.mail = none
  | .checking | .working => Ran k s.machine ∧ s.mail = none
  | .asking _ a | .waking _ a =>
    Ran k s.machine ∧ a = s.machine.advance k.setting ∧ s.mail = none
  | .ended o => Over k s o ∧ s.mail = none
  | .reported | .finished => (∃ o, Over k s o) ∧ ∀ o, s.mail = some o → Over k s o

theorem ThreadOk.complete {a : Advance} (h : ThreadOk k s (.asking [] a)) :
    ThreadOk k { s with thread := .after k.setting a, machine := a.state }
      (.after k.setting a) := by
  obtain ⟨⟨n, hran⟩, rfl, hmail⟩ := h
  have hnext := Machine.loop_snoc hran
  cases hadv : s.machine.advance k.setting with
  | next m =>
    rw [hadv] at hnext
    exact ⟨⟨n + 1, hnext⟩, hmail⟩
  | finished m =>
    rw [hadv] at hnext
    exact ⟨Or.inl ⟨n + 1, _, hnext, Or.inl rfl, rfl⟩, hmail⟩
  | halted e m =>
    rw [hadv] at hnext
    exact ⟨Or.inl ⟨n + 1, _, hnext, Or.inr ⟨e, rfl⟩, rfl⟩, hmail⟩

/-! The caller -/

/-- The caller gives this cause: when it looked last, it was the first one offered, or none had been
offered and the deadline has passed. -/
def Because (k : Terms) (es : List Event) (s : State) (cause : CancelCause) : Prop :=
  ∃ before after, es = before ++ .look :: after ∧ .look ∉ after ∧
    match firstCause before with
    | some first => cause = first
    | none => cause = .deadlineExceeded ∧ s.Late k

/-- When the caller looked last, no cause had been offered. -/
def Unseen (es : List Event) : Prop :=
  ∃ before after, es = before ++ .look :: after ∧ .look ∉ after ∧ firstCause before = none

/-- The thread will not touch the machine any more. -/
def Thread.Still (t : Thread) : Prop := t = .reported ∨ t = .finished

/-- The result is the run's own, or a cancellation with the right cause. -/
def ResultOk (k : Terms) (es : List Event) (s : State) (r : Except ScriptError Unit) : Prop :=
  (∃ o, Ended k s.machine o ∧ r = Artifact.result .fault o) ∨
    ∃ cause, r = .error (.cancelled cause) ∧ Because k es s cause

/-- The thread runs and has not been told to stop. -/
def Free (s : State) : Prop := s.thread ≠ .absent ∧ s.aborted = false

def CallerOk (k : Terms) (es : List Event) (s : State) : Caller → Prop
  | .outside | .starting | .looking .entry => s.thread = .absent ∧ s.aborted = false
  | .timing .entry => (s.thread = .absent ∧ s.aborted = false) ∧ Unseen es
  | .selecting => Free s ∧ (s.thread.Still → s.mail ≠ none)
  | .looking .trigger => Free s ∧ s.given ≠ none
  | .timing .trigger => False
  | .looking .timer => Free s ∧ s.Late k
  | .timing .timer => Free s ∧ s.Late k ∧ Unseen es
  | .aborting cause => Free s ∧ Because k es s cause
  | .awaiting cause => s.thread ≠ .absent ∧ Because k es s cause
  | .joining r => s.thread.Still ∧ ResultOk k es s r
  | .returned r => (s.thread = .finished ∨ s.thread = .absent) ∧ ResultOk k es s r

theorem Because.step {cause : CancelCause} (hb : Because k es s cause) (h : Step k s e s')
    (he : e ≠ .look) : Because k (es ++ [e]) s' cause := by
  obtain ⟨before, after, rfl, hlast, hcause⟩ := hb
  refine ⟨before, after ++ [e], by simp, by simp [hlast, he.symm], ?_⟩
  cases hfirst : firstCause before with
  | some first =>
    rw [hfirst] at hcause
    exact hcause
  | none =>
    rw [hfirst] at hcause
    exact ⟨hcause.1, h.late_mono hcause.2⟩

theorem Unseen.step (hu : Unseen es) (he : e ≠ .look) : Unseen (es ++ [e]) := by
  obtain ⟨before, after, rfl, hlast, hnone⟩ := hu
  exact ⟨before, after ++ [e], by simp, by simp [hlast, he.symm], hnone⟩

/-- A caller who has not seen a cause and finds the deadline passed gives that as the cause. -/
theorem Unseen.because (hu : Unseen es) (hl : s.Late k) : Because k es s .deadlineExceeded := by
  obtain ⟨before, after, rfl, hlast, hnone⟩ := hu
  refine ⟨before, after, rfl, hlast, ?_⟩
  rw [hnone]
  exact ⟨rfl, hl⟩

/-! Every step -/

theorem Over.abort {o : Outcome} (h : Over k s o) (c : Caller) :
    Over k { s with aborted := true, caller := c } o :=
  h.imp id fun ⟨_, hran⟩ => ⟨rfl, hran⟩

theorem ThreadOk.abort {t : Thread} (h : ThreadOk k s t) (c : Caller) :
    ThreadOk k { s with aborted := true, caller := c } t := by
  cases t with
  | ended o => exact ⟨h.1.abort c, h.2⟩
  | reported | finished =>
    obtain ⟨⟨o, hover⟩, hmail⟩ := h
    exact ⟨⟨o, hover.abort c⟩, fun o ho => (hmail o ho).abort c⟩
  | _ => exact h

/-- The caller takes the report. -/
theorem ThreadOk.take {t : Thread} (h : ThreadOk k s t) (c : Caller) :
    ThreadOk k { s with mail := none, caller := c } t := by
  cases t with
  | absent | checking | working | ended => exact ⟨h.1, rfl⟩
  | asking | waking => exact ⟨h.1, h.2.1, rfl⟩
  | reported | finished => exact ⟨h.1, nofun⟩

theorem ThreadOk.step (ht : ThreadOk k s s.thread) (hc : CallerOk k es s s.caller)
    (h : Step k s e s') : ThreadOk k s' s'.thread := by
  cases h with
  | start h =>
    rw [h] at hc
    rw [hc.1] at ht
    exact ⟨⟨0, by rw [ht.1]; rfl⟩, ht.2⟩
  | receive => exact ht.take _
  | discard => exact ht.take _
  | abort => exact ht.abort _
  | stop h ha =>
    rw [h] at ht
    exact ⟨Or.inr ⟨ha, ht.1⟩, ht.2⟩
  | proceed h =>
    rw [h] at ht
    exact ht
  | instruction h =>
    rw [h] at ht
    exact ⟨ht.1, rfl, ht.2⟩
  | ask h =>
    rw [h] at ht
    exact ht
  | rouse h =>
    rw [h] at ht
    exact ht
  | complete h =>
    rw [h] at ht
    exact ht.complete
  | report h =>
    rw [h] at ht
    exact ⟨⟨_, ht.1⟩, fun o ho => by cases ho; exact ht.1⟩
  | finish h =>
    rw [h] at ht
    exact ht
  | _ => exact ht

/-- A report in the mail comes from a thread that is still. -/
theorem ThreadOk.still {o : Outcome} (ht : ThreadOk k s s.thread) (hm : s.mail = some o) :
    s.thread.Still ∧ Over k s o := by
  cases hthread : s.thread with
  | reported =>
    rw [hthread] at ht
    exact ⟨Or.inl rfl, ht.2 o hm⟩
  | finished =>
    rw [hthread] at ht
    exact ⟨Or.inr rfl, ht.2 o hm⟩
  | absent | checking | working | ended =>
    rw [hthread] at ht
    rw [ht.2] at hm
    cases hm
  | asking | waking =>
    rw [hthread] at ht
    rw [ht.2.2] at hm
    cases hm

/-- A step of another party than the caller, as far as the caller is concerned. -/
structure Aside (s s' : State) : Prop where
  caller : s'.caller = s.caller
  aborted : s'.aborted = s.aborted
  absent : s.thread = .absent → s'.thread = .absent ∧ s'.machine = s.machine
  present : s.thread ≠ .absent → s'.thread ≠ .absent
  still : s.thread.Still → s'.thread.Still ∧ s'.machine = s.machine
  finished : s.thread = .finished → s'.thread = .finished
  mail : s'.thread.Still → (s.thread.Still ∧ s'.mail = s.mail) ∨ s'.mail ≠ none

theorem ResultOk.step {r : Except ScriptError Unit} (hr : ResultOk k es s r)
    (h : Step k s e s') (he : e ≠ .look) (hm : s'.machine = s.machine) :
    ResultOk k (es ++ [e]) s' r := by
  obtain ⟨o, hended, hresult⟩ | ⟨cause, hresult, hbecause⟩ := hr
  · exact Or.inl ⟨o, hm ▸ hended, hresult⟩
  · exact Or.inr ⟨cause, hresult, hbecause.step h he⟩

theorem CallerOk.aside (hc : CallerOk k es s s.caller) (h : Step k s e s') (ha : Aside s s')
    (he : e ≠ .look) : CallerOk k (es ++ [e]) s' s'.caller := by
  have habsent (h : s.thread = .absent ∧ s.aborted = false) :
      s'.thread = .absent ∧ s'.aborted = false :=
    ⟨(ha.absent h.1).1, ha.aborted.trans h.2⟩
  have hfree (h : Free s) : Free s' := ⟨ha.present h.1, ha.aborted.trans h.2⟩
  rw [ha.caller]
  cases hcaller : s.caller with
  | outside | starting =>
    rw [hcaller] at hc
    exact habsent hc
  | looking w =>
    rw [hcaller] at hc
    cases w with
    | entry => exact habsent hc
    | trigger => exact ⟨hfree hc.1, h.given_ne hc.2⟩
    | timer => exact ⟨hfree hc.1, h.late_mono hc.2⟩
  | timing w =>
    rw [hcaller] at hc
    cases w with
    | entry => exact ⟨habsent hc.1, hc.2.step he⟩
    | trigger => exact hc
    | timer => exact ⟨hfree hc.1, h.late_mono hc.2.1, hc.2.2.step he⟩
  | selecting =>
    rw [hcaller] at hc
    refine ⟨hfree hc.1, fun hstill => ?_⟩
    obtain ⟨hbefore, hmail⟩ | hmail := ha.mail hstill
    · rw [hmail]
      exact hc.2 hbefore
    · exact hmail
  | aborting cause =>
    rw [hcaller] at hc
    exact ⟨hfree hc.1, hc.2.step h he⟩
  | awaiting cause =>
    rw [hcaller] at hc
    exact ⟨ha.present hc.1, hc.2.step h he⟩
  | joining r =>
    rw [hcaller] at hc
    obtain ⟨hstill, hmachine⟩ := ha.still hc.1
    exact ⟨hstill, hc.2.step h he hmachine⟩
  | returned r =>
    rw [hcaller] at hc
    obtain ⟨hfinished | habsent, hresult⟩ := hc
    · exact ⟨Or.inl (ha.finished hfinished),
        hresult.step h he (ha.still (Or.inr hfinished)).2⟩
    · obtain ⟨hstays, hmachine⟩ := ha.absent habsent
      exact ⟨Or.inr hstays, hresult.step h he hmachine⟩

/-- A step of the clock or of a canceller. -/
theorem Aside.apart (hc : s'.caller = s.caller) (ha : s'.aborted = s.aborted)
    (ht : s'.thread = s.thread) (hm : s'.machine = s.machine) (hmail : s'.mail = s.mail) :
    Aside s s' where
  caller := hc
  aborted := ha
  absent h := ⟨ht.trans h, hm⟩
  present h := ht ▸ h
  still h := ⟨ht ▸ h, hm⟩
  finished h := ht.trans h
  mail h := Or.inl ⟨ht ▸ h, hmail⟩

/-- A step of a thread at work. -/
theorem Aside.work (hc : s'.caller = s.caller) (ha : s'.aborted = s.aborted)
    (hlive : s.thread ≠ .absent) (hwork : ¬ s.thread.Still) (hlive' : s'.thread ≠ .absent)
    (hmail : s'.thread.Still → s'.mail ≠ none) : Aside s s' where
  caller := hc
  aborted := ha
  absent h := absurd h hlive
  present _ := hlive'
  still h := absurd h hwork
  finished h := absurd (Or.inr h) hwork
  mail h := Or.inr (hmail h)

theorem Thread.after_live (x : Setting) (a : Advance) :
    Thread.after x a ≠ .absent ∧ ¬ (Thread.after x a).Still := by
  cases a <;> exact ⟨nofun, nofun⟩

theorem CallerOk.step (hk : TokenOk es s) (ht : ThreadOk k s s.thread)
    (hc : CallerOk k es s s.caller) (h : Step k s e s') :
    CallerOk k (es ++ [e]) s' s'.caller := by
  have hstep := h
  cases h with
  | tick | request | wake => exact hc.aside hstep (.apart rfl rfl rfl rfl rfl) nofun
  | call h =>
    rw [h] at hc
    exact hc
  | see h hg =>
    rename_i w cause
    rw [h] at hc
    have hbecause : Because k (es ++ [.look]) s cause := by
      refine ⟨es, [], rfl, nofun, ?_⟩
      rw [← hk.given, hg]
    cases w with
    | entry => exact ⟨Or.inr hc.1, Or.inr ⟨cause, rfl, hbecause⟩⟩
    | trigger | timer => exact ⟨hc.1, hbecause⟩
  | miss h hg =>
    rename_i w
    rw [h] at hc
    have hunseen : Unseen (es ++ [.look]) := ⟨es, [], rfl, nofun, hk.given ▸ hg⟩
    cases w with
    | entry => exact ⟨hc, hunseen⟩
    | trigger => exact hc.2 hg
    | timer => exact ⟨hc.1, hc.2, hunseen⟩
  | late h hl =>
    rename_i w
    rw [h] at hc
    cases w with
    | entry =>
      have hbecause := (hc.2.because hl).step hstep nofun
      exact ⟨Or.inr hc.1.1, Or.inr ⟨_, rfl, hbecause⟩⟩
    | trigger => exact hc.elim
    | timer => exact ⟨hc.1, (hc.2.2.because hl).step hstep nofun⟩
  | early h hl =>
    rename_i w
    rw [h] at hc
    cases w with
    | entry => exact hc.1
    | trigger => exact hc.elim
    | timer => exact absurd hc.2.1 hl
  | start h =>
    rw [h] at hc
    exact ⟨⟨nofun, hc.2⟩, nofun⟩
  | receive h hm =>
    rename_i o
    rw [h] at hc
    obtain ⟨hstill, hended | ⟨haborted, -⟩⟩ := ht.still hm
    · exact ⟨hstill, Or.inl ⟨o, hended, rfl⟩⟩
    · rw [hc.1.2] at haborted
      cases haborted
  | lose h hm hf =>
    rw [h] at hc
    exact absurd hm (hc.2 (Or.inr hf))
  | triggered h hw =>
    rw [h] at hc
    exact ⟨hc.1, hk.triggered hw⟩
  | expired h hl =>
    rw [h] at hc
    exact ⟨hc.1, hl⟩
  | abort h =>
    rw [h] at hc
    exact ⟨hc.1.1, hc.2.step hstep nofun⟩
  | discard h hm =>
    rw [h] at hc
    exact ⟨(ht.still hm).1, Or.inr ⟨_, rfl, hc.2.step hstep nofun⟩⟩
  | discardNothing h hm hf =>
    rw [h] at hc
    exact ⟨Or.inr hf, Or.inr ⟨_, rfl, hc.2.step hstep nofun⟩⟩
  | join h hf =>
    rw [h] at hc
    exact ⟨Or.inl hf, hc.2.step hstep nofun rfl⟩
  | stop h | proceed h | instruction h | ask h | rouse h =>
    exact hc.aside hstep (.work rfl rfl (by rw [h]; nofun) (by rw [h]; nofun) nofun nofun) nofun
  | complete h =>
    rename_i a
    obtain ⟨hlive, hwork⟩ := Thread.after_live k.setting a
    exact hc.aside hstep
      (.work rfl rfl (by rw [h]; nofun) (by rw [h]; nofun) hlive fun hs => absurd hs hwork)
      nofun
  | report h =>
    exact hc.aside hstep (.work rfl rfl (by rw [h]; nofun) (by rw [h]; nofun) nofun fun _ => nofun)
      nofun
  | finish h =>
    refine hc.aside hstep ⟨rfl, rfl, ?_, fun _ => nofun, fun _ => ⟨Or.inr rfl, rfl⟩, ?_, ?_⟩ nofun
    · rw [h]
      nofun
    · rw [h]
      nofun
    · exact fun _ => Or.inl ⟨h ▸ Or.inl rfl, rfl⟩

/-- What holds after every step. -/
structure Invariant (k : Terms) (es : List Event) (s : State) : Prop where
  token : TokenOk es s
  thread : ThreadOk k s s.thread
  caller : CallerOk k es s s.caller

theorem invariant_initial (k : Terms) (time : Nat) : Invariant k [] (.initial k time) where
  token := ⟨rfl, nofun, nofun, nofun⟩
  thread := ⟨rfl, rfl⟩
  caller := ⟨rfl, rfl⟩

theorem Invariant.step (hi : Invariant k es s) (h : Step k s e s') :
    Invariant k (es ++ [e]) s' where
  token := hi.token.step h
  thread := hi.thread.step hi.caller h
  caller := .step hi.token hi.thread hi.caller h

theorem Invariant.trace {time : Nat} (h : Trace k (.initial k time) es s) : Invariant k es s := by
  induction h with
  | nil => exact invariant_initial k time
  | snoc _ hs ih => exact ih.step hs

end Race

end ScriptEngine
