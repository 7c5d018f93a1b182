import ScriptEngine.Proofs.Merge.Artifact
import ScriptEngine.Proofs.Safety.Step
/-!
Whole runs of compiled programs, one after the other on the same globals. They never come to an
instruction that is none, and a call leaves one value in the place of function and arguments.
-/
namespace ScriptEngine

/-- What the operands of an instruction name is there. -/
def Instruction.Names (x : Setting) (m : Machine) : Instruction → Prop
  | ⟨.constant, k, _⟩ => k < x.bytecode.pool.size
  | ⟨.closure, k, _⟩ => ∃ id r, x.bytecode.pool[k]? = some (.function id r)
  | ⟨.getGlobal, i, _⟩ | ⟨.setGlobal, i, _⟩ => i < m.globals.size
  | ⟨.getLocal, i, _⟩ | ⟨.setLocal, i, _⟩ => i < m.frame.routine.locals
  | ⟨.getBuiltin, i, _⟩ => i < Builtin.all.size
  | ⟨.getFree, i, _⟩ => i < m.frame.free.length
  | _ => True

namespace Machine

/-- The states of a run. -/
inductive Reaches (x : Setting) (m : Machine) : Machine → Prop where
  | refl : Reaches x m m
  | step {m' m'' : Machine} (h : Reaches x m m') (hstep : m'.advance x = .next m'') :
    Reaches x m m''

/-- A run of some steps; in its course more than `n` frames wait. -/
inductive Inside (x : Setting) (n : Nat) : Machine → Machine → Prop where
  | last {m m' : Machine} (h : m.advance x = .next m') : Inside x n m m'
  | more {m m' m'' : Machine} (h : m.advance x = .next m') (hn : n < m'.callers.size)
    (rest : Inside x n m' m'') : Inside x n m m''

/-- The frames of a machine, the innermost first. -/
def frames (m : Machine) : List Frame := m.frame :: m.callers.toList.reverse

theorem length_frames (m : Machine) : m.frames.length = m.callers.size + 1 := by
  simp [frames]

variable {m m' : Machine} {v : Value}

theorem pushed_next (h : m.pushed v = .ok .proceed m') :
    m'.stack = m.stack.push v ∧ m'.frames = m.frames := by
  unfold pushed at h
  split at h <;> cases h
  exact ⟨rfl, rfl⟩

theorem paid_next (h : m.paid v = .ok .proceed m') :
    m'.stack = m.stack.push v ∧ m'.frames = m.frames := by
  unfold paid at h
  split at h
  · exact pushed_next h
  · cases h
  · exact pushed_next (m := { m with budget := some _ }) h

/-- A call puts a value in the place of function and arguments, or a new frame is entered. -/
theorem called_next {host : Host} {s : Array Value} {callee : Value} {args : List Value}
    (h : m.called host s callee args = .ok .proceed m') :
    (∃ v, m'.stack = s.push v ∧ m'.frames = m.frames) ∨
      ∃ f : Frame, f.base = s.size + 1 ∧ m'.frames = f :: m.frames ∧
        ∃ more, m'.stack = m.stack ++ more := by
  have hentered {r : Routine} {free : List Value}
      (h : m.entered s.size args.length r free = .ok .proceed m') :
      ∃ f : Frame, f.base = s.size + 1 ∧ m'.frames = f :: m.frames ∧
        ∃ more, m'.stack = m.stack ++ more := by
    unfold entered at h
    split at h
    · cases h
    · split at h
      · cases h
      · split at h <;> cases h
        exact ⟨⟨r, free, 0, s.size + 1⟩, rfl, by simp [frames], _, rfl⟩
  unfold called at h
  cases callee with
  | function id r => exact Or.inr (hentered h)
  | closure id r free => exact Or.inr (hentered h)
  | builtin f =>
    simp only at h
    split at h
    · exact Or.inl ⟨_, paid_next h⟩
    · cases h
  | native id name =>
    simp only at h
    split at h
    · exact Or.inl ⟨_, paid_next h⟩
    · cases h
    · cases h
    · exact Or.inl ⟨_, paid_next h⟩
  | _ => cases h

end Machine

namespace Image

variable {L : Image} {main : Body} {text : List Stmt} {m m' : Machine} {x : Setting} {v : Value}

/-- The code of a machine finds what it needs. -/
structure Safe (L : Image) (main : Body) (text : List Stmt) (x : Setting) (m : Machine) : Prop where
  /-- The frame's slots lie on the stack. -/
  slots : m.frame.base + m.frame.routine.locals ≤ m.stack.size
  /-- The next instruction is one; above the slots lie its operands, and what it names is there. -/
  next : m.frame.ip < m.frame.routine.code.size →
    ∃ i, Instruction.at? m.frame.routine.code m.frame.ip = some i ∧
      m.frame.base + m.frame.routine.locals + i.takes ≤ m.stack.size ∧ i.Names x m
  /-- Before and after each statement nothing lies above the slots. -/
  boundary : ∃ R whole, R.routine = m.frame.routine ∧
    (R = main ∧ whole = text ∧ m.callers = #[] ∨ L.IsText R whole) ∧
    ∀ J Γ stmts p q, L.Rows R whole J Γ stmts p q → m.frame.ip = p ∨ m.frame.ip = q →
      m.stack.size = m.frame.base + m.frame.routine.locals

theorem Sound.names {R : Body} {whole : List Stmt} {p : Nat} {i : Instruction}
    (h : L.Sound R whole p i) (hactive : L.Active R whole m.frame m.stack.size)
    (hpool : x.bytecode.pool = L.pool) (hcells : L.cells ≤ m.globals.size) : i.Names x m := by
  obtain ⟨op, a, b⟩ := i
  have hlocals : R.locals = m.frame.routine.locals := by
    rw [← hactive.routine]
    rfl
  have hrefers := h.refers
  cases op
  case constant =>
    obtain ⟨v, hv, _⟩ := hrefers
    rw [← hpool] at hv
    exact (Array.getElem?_eq_some_iff.mp hv).1
  case closure =>
    obtain ⟨id, r, hr, _⟩ := hrefers
    exact ⟨id, r, hpool ▸ hr⟩
  case getGlobal | setGlobal => exact Nat.lt_of_lt_of_le hrefers hcells
  case getLocal | setLocal => exact Nat.lt_of_lt_of_le hrefers hlocals.le
  case getBuiltin => exact hrefers
  case getFree => exact Nat.lt_of_lt_of_le hrefers hactive.captured.ge
  all_goals exact trivial

theorem Sane.safe (hL : L.Runs main text) (hpool : x.bytecode.pool = L.pool)
    (h : L.Sane main text m) : L.Safe main text x m := by
  obtain ⟨R, whole, hactive, hrole, _⟩ := h.chain.innermost
  have hlocals : R.locals = m.frame.routine.locals := by
    rw [← hactive.routine]
    rfl
  have htop := hactive.top
  refine ⟨hlocals ▸ hactive.room, fun hlt => ?_, R, whole, hactive.routine, ?_, ?_⟩
  · obtain ⟨i, hat, hsound, _⟩ := hactive.instruction hL.cells hlt
    have htakes := hsound.takes
    exact ⟨i, hat, by omega, hsound.names hactive hpool h.cells⟩
  · rcases hrole with ⟨rfl, rfl, hnone⟩ | ⟨htext, _⟩
    · exact Or.inl ⟨rfl, rfl, by simpa using hnone⟩
    · exact Or.inr htext
  · intro J Γ stmts p q hrows hip
    obtain ⟨hp, hq⟩ := hrows.clear hL.modules hactive.upright.narrow
    have hzero : R.rise m.frame.ip = 0 := by
      rcases hip with hip | hip
      · exact hip ▸ hp.2
      · exact hip ▸ hq.2
    omega

section Runs

variable (hL : L.Runs main text) (hpool : x.bytecode.pool = L.pool) (hlends : x.host.Lends)
include hL hpool hlends

theorem Sane.next (h : L.Sane main text m) (hstep : m.advance x = .next m') :
    L.Sane main text m' ∧ m'.globals.size = m.globals.size ∧ m.Succeeds m' := by
  obtain ⟨done, hdone, hfine⟩ := h.step hL hpool hlends
  rw [hdone] at hstep
  match done, hfine with
  | .ok .proceed m₁, hfine =>
    cases hstep
    exact hfine
  | .ok .finish m₁, _ => cases hstep
  | .error t m₁, _ => cases hstep

theorem Sane.halted (h : L.Sane main text m) {t : Halt} (hstep : m.advance x = .halted t m') :
    L.Settled m' ∧ m'.globals.size = m.globals.size ∧
      ∀ u, t = .trap u → u.isInvalid = false := by
  obtain ⟨done, hdone, hfine⟩ := h.step hL hpool hlends
  rw [hdone] at hstep
  match done, hfine with
  | .ok .proceed m₁, _ => cases hstep
  | .ok .finish m₁, _ => cases hstep
  | .error t m₁, hfine =>
    cases hstep
    exact hfine

theorem Sane.finished (h : L.Sane main text m) (hstep : m.advance x = .finished m') :
    L.Settled m' ∧ m'.globals.size = m.globals.size := by
  obtain ⟨done, hdone, hfine⟩ := h.step hL hpool hlends
  rw [hdone] at hstep
  match done, hfine with
  | .ok .proceed m₁, _ => cases hstep
  | .ok .finish m₁, hfine =>
    cases hstep
    exact hfine
  | .error t m₁, _ => cases hstep

/-- Every state of a run is sane if its first is. -/
theorem Sane.reaches (h : L.Sane main text m) (hreach : Machine.Reaches x m m') :
    L.Sane main text m' ∧ m'.globals.size = m.globals.size := by
  induction hreach with
  | refl => exact ⟨h, rfl⟩
  | step _ hstep ih =>
    obtain ⟨hsane, hsize, _⟩ := ih.1.next hL hpool hlends hstep
    exact ⟨hsane, hsize.trans ih.2⟩

/-- How a run ends, whoever may stop it. -/
theorem Sane.loop (h : L.Sane main text m) (stop : Machine → Bool) (steps : Nat) :
    L.Settled (m.loop x stop steps).2 ∧
      (m.loop x stop steps).2.globals.size = m.globals.size ∧
      (∀ t, (m.loop x stop steps).1 = .halted (.trap t) → t.isInvalid = false) ∧
      ((m.loop x stop steps).1 = .stopped → L.Sane main text (m.loop x stop steps).2) := by
  induction steps generalizing m with
  | zero => exact ⟨h.toSettled, rfl, fun t ht => (by cases ht), fun ht => (by cases ht)⟩
  | succ steps ih =>
    unfold Machine.loop
    split
    · exact ⟨h.toSettled, rfl, fun t ht => (by cases ht), fun _ => h⟩
    · cases hstep : m.advance x with
      | next m₁ =>
        obtain ⟨hsane, hsize, _⟩ := h.next hL hpool hlends hstep
        obtain ⟨h₁, h₂, h₃⟩ := ih hsane
        exact ⟨h₁, h₂.trans hsize, h₃⟩
      | finished m₁ =>
        obtain ⟨hsettled, hsize⟩ := h.finished hL hpool hlends hstep
        exact ⟨hsettled, hsize, fun t ht => (by cases ht), fun ht => (by cases ht)⟩
      | halted t m₁ =>
        obtain ⟨hsettled, hsize, htrap⟩ := h.halted hL hpool hlends hstep
        refine ⟨hsettled, hsize, fun u hu => ?_, fun ht => (by cases ht)⟩
        cases hu
        exact htrap u rfl

/-- While a callee runs, the frames below it wait and their part of the stack stays as it is. -/
structure Deep (s : Array Value) (outer : List Frame) (m : Machine) : Prop where
  frames : ∃ inner callee, m.frames = inner ++ callee :: outer ∧ callee.base = s.size + 1 ∧
    ∀ f ∈ inner, s.size < f.base
  below : ∀ k < s.size, m.stack[k]? = s[k]?

omit hL hpool hlends in
theorem Deep.next {s : Array Value} {outer : List Frame} (h : Deep s outer m)
    (hsucceeds : m.Succeeds m') :
    Deep s outer m' ∨ m'.frames = outer ∧ ∃ v, m'.stack = s.push v := by
  obtain ⟨⟨inner, callee, hframes, hbase, hinner⟩, hbelow⟩ := h
  have hframe : s.size < m.frame.base := by
    cases inner with
    | nil =>
      rw [(List.cons.inj hframes).1, hbase]
      exact Nat.lt_succ_self _
    | cons f inner =>
      rw [(List.cons.inj hframes).1]
      exact hinner f List.mem_cons_self
  cases hsucceeds with
  | stay h =>
    refine Or.inl ⟨?_, fun k hk => (h.below k (by omega)).trans (hbelow k hk)⟩
    cases inner with
    | nil =>
      obtain ⟨hhead, htail⟩ := List.cons.inj hframes
      exact ⟨[], m'.frame, by simp [Machine.frames, h.callers, htail],
        h.base.trans (hhead ▸ hbase), by simp⟩
    | cons f inner =>
      obtain ⟨hhead, htail⟩ := List.cons.inj hframes
      refine ⟨m'.frame :: inner, callee, by simp [Machine.frames, h.callers, htail], hbase, ?_⟩
      intro g hg
      rcases List.mem_cons.mp hg with rfl | hg
      · rw [h.base]
        exact hframe
      · exact hinner g (List.mem_cons_of_mem _ hg)
  | call hstack hplace hcallers hbase' hbelow' =>
    refine Or.inl ⟨?_, fun k hk => (hbelow' k (by omega)).trans (hbelow k hk)⟩
    cases inner with
    | nil =>
      obtain ⟨hhead, htail⟩ := List.cons.inj hframes
      refine ⟨[m'.frame], { m.frame with ip := m.frame.ip + Opcode.call.size },
        by simp [Machine.frames, hcallers, htail], ?_, fun g hg => ?_⟩
      · exact hhead ▸ hbase
      · rw [List.mem_singleton.mp hg]
        omega
    | cons f inner =>
      obtain ⟨hhead, htail⟩ := List.cons.inj hframes
      refine ⟨m'.frame :: { m.frame with ip := m.frame.ip + Opcode.call.size } :: inner, callee,
        by simp [Machine.frames, hcallers, htail], hbase, fun g hg => ?_⟩
      rcases List.mem_cons.mp hg with rfl | hg
      · omega
      · rcases List.mem_cons.mp hg with rfl | hg
        · exact hframe
        · exact hinner g (List.mem_cons_of_mem _ hg)
  | @back v hcallers hroom hstack =>
    have houter : m.callers.toList.reverse = m'.frames := by simp [Machine.frames, hcallers]
    have hbefore (k : Nat) (hk : k < m.frame.base - 1) :
        (m.stack.extract 0 (m.frame.base - 1))[k]? = m.stack[k]? := by
      rw [Array.getElem?_extract]
      simp
      omega
    cases inner with
    | nil =>
      obtain ⟨hhead, htail⟩ := List.cons.inj hframes
      refine Or.inr ⟨houter.symm.trans htail, v, ?_⟩
      have hmine : m.frame.base - 1 = s.size := by
        rw [hhead, hbase]
        rfl
      have hs : m.stack.extract 0 (m.frame.base - 1) = s := by
        refine Array.ext_getElem? fun k => ?_
        rcases Nat.lt_or_ge k s.size with hk | hk
        · rw [hbefore k (by omega), hbelow k hk]
        · rw [Array.getElem?_eq_none hk, Array.getElem?_eq_none]
          simp
          omega
      rw [hstack, hs]
    | cons f inner =>
      obtain ⟨hhead, htail⟩ := List.cons.inj hframes
      refine Or.inl ⟨⟨inner, callee, houter.symm.trans htail, hbase,
        fun g hg => hinner g (List.mem_cons_of_mem _ hg)⟩, fun k hk => ?_⟩
      have hne : k ≠ (m.stack.extract 0 (m.frame.base - 1)).size := by
        simp
        omega
      rw [hstack, Array.getElem?_push, if_neg hne, hbefore k (by omega), hbelow k hk]

/-- While the frames above it have not all ended, the callee or a frame above it runs. -/
theorem Deep.inside {s : Array Value} {outer : List Frame} (hsane : L.Sane main text m)
    (h : Deep s outer m) (hinside : Machine.Inside x (outer.length - 1) m m')
    (hback : m'.callers.size ≤ outer.length - 1) (houter : outer ≠ []) :
    m'.frames = outer ∧ ∃ v, m'.stack = s.push v := by
  have hdeep {m : Machine} (h : Deep s outer m) : outer.length ≤ m.callers.size := by
    obtain ⟨⟨inner, callee, hframes, _⟩, _⟩ := h
    have hlen := congrArg List.length hframes
    simp only [Machine.length_frames, List.length_append, List.length_cons] at hlen
    omega
  have hpos : 0 < outer.length := List.length_pos_of_ne_nil houter
  induction hinside with
  | last hstep =>
    obtain ⟨_, _, hsucceeds⟩ := hsane.next hL hpool hlends hstep
    rcases h.next hsucceeds with h | h
    · have := hdeep h
      omega
    · exact h
  | more hstep hn rest ih =>
    obtain ⟨hsane', _, hsucceeds⟩ := hsane.next hL hpool hlends hstep
    rcases h.next hsucceeds with h | ⟨hframes, _⟩
    · exact ih hsane' h hback
    · have hlen := congrArg List.length hframes
      rw [Machine.length_frames] at hlen
      omega

/-- When a call is over, one value lies in the place of function and arguments, and the frame goes
on behind the call. -/
theorem Sane.call (h : L.Sane main text m) {a b : Nat} {s args : Array Value} {callee : Value}
    (hat : Instruction.at? m.frame.routine.code m.frame.ip = some ⟨.call, a, b⟩)
    (hstack : m.stack = s.push callee ++ args) (hargs : args.size = a)
    (hinside : Machine.Inside x m.callers.size m m')
    (hback : m'.callers.size ≤ m.callers.size) :
    (∃ v, m'.stack = s.push v) ∧ m'.callers = m.callers ∧
      m'.frame = { m.frame with ip := m.frame.ip + Opcode.call.size } := by
  have hadvance := Machine.advance_of_at? (x := x) hat
  rw [Exec.execute_call (m := m.fetched ⟨.call, a, b⟩) hstack hargs] at hadvance
  have hframes : (m.fetched ⟨.call, a, b⟩).frames =
      { m.frame with ip := m.frame.ip + Opcode.call.size } :: m.callers.toList.reverse := rfl
  have hcallers {f : Frame} (hf : m'.frames = f :: m.callers.toList.reverse) :
      m'.callers = m.callers ∧ m'.frame = f := by
    obtain ⟨hhead, htail⟩ := List.cons.inj hf
    exact ⟨Array.toList_inj.mp (List.reverse_inj.mp htail), hhead⟩
  have hfirst {m₁ : Machine} (hstep : m.advance x = .next m₁) :
      (∃ v, m₁.stack = s.push v ∧ m₁.frames = (m.fetched ⟨.call, a, b⟩).frames) ∨
        Deep s (m.fetched ⟨.call, a, b⟩).frames m₁ := by
    rw [hstep] at hadvance
    cases hcalled : (m.fetched ⟨.call, a, b⟩).called x.host s callee args.toList with
    | error t m₂ =>
      rw [hcalled] at hadvance
      cases hadvance
    | ok flow m₂ =>
      rw [hcalled] at hadvance
      cases flow <;> cases hadvance
      rcases Machine.called_next hcalled with h | ⟨f, hbase, hf, more, hmore⟩
      · exact Or.inl h
      · refine Or.inr ⟨⟨[], f, hf, hbase, by simp⟩, fun k hk => ?_⟩
        have hstack' : (m.fetched ⟨.call, a, b⟩).stack = s.push callee ++ args := hstack
        rw [hmore, hstack', Array.append_assoc, Array.getElem?_append_left (by simp; omega),
          Array.getElem?_push, if_neg (by omega)]
  have hsize {m₁ : Machine} (hf : m₁.frames = (m.fetched ⟨.call, a, b⟩).frames) :
      m₁.callers.size = m.callers.size := by
    have hlen := congrArg List.length hf
    simp only [Machine.length_frames, Machine.fetched] at hlen
    omega
  have houter : (m.fetched ⟨.call, a, b⟩).frames.length - 1 = m.callers.size := by
    simp [Machine.frames, Machine.fetched]
  have hne : (m.fetched ⟨.call, a, b⟩).frames ≠ [] := List.cons_ne_nil _ _
  cases hinside with
  | last hstep =>
    rcases hfirst hstep with ⟨v, hv, hf⟩ | hdeep
    · exact ⟨⟨v, hv⟩, hcallers (hf.trans hframes)⟩
    · obtain ⟨⟨inner, c, hf, _⟩, _⟩ := hdeep
      have hlen := congrArg List.length hf
      simp only [Machine.length_frames, List.length_append, List.length_cons,
        Machine.fetched] at hlen
      omega
  | more hstep hn rest =>
    rcases hfirst hstep with ⟨v, hv, hf⟩ | hdeep
    · have := hsize hf
      omega
    · obtain ⟨hsane, _⟩ := h.next hL hpool hlends hstep
      rw [← houter] at rest hback
      obtain ⟨hf, hv⟩ := hdeep.inside hL hpool hlends hsane rest hback hne
      exact ⟨hv, hcallers (hf.trans hframes)⟩

end Runs

end Image

end ScriptEngine
