import Mathlib.Data.List.Infix
import ScriptEngine.Proofs.Elements.Assignment
/-!
Assignments to elements whose parts may call functions. The way to the element is walked once for
every container on it, and once more for an operator, so the parts of the target are evaluated anew
each time.
-/
namespace ScriptEngine

/-- The variable at the start of a target. -/
def Expr.base : Expr → Expr
  | .index _ container _ | .field _ container _ => container.base
  | e => e

/-- The parts of a walk to an element. -/
def Expr.walk (target : Expr) : List Expr := target.base :: target.keys

/-- The parts of an assignment in the order in which they are evaluated: the walks to the containers
from the outside in, each with the key of the next element, the walk to the old element for an
operator, and the value. -/
def Expr.visits (target : Expr) (op : Option ArithOp) (e : Expr) : List Expr :=
  (target.keys.inits.tail ++ (op.map fun _ => target.keys).toList).flatMap (target.base :: ·) ++ [e]

theorem inits_tail_snoc {α : Type} (ks : List α) (k : α) :
    (ks ++ [k]).inits.tail = ks.inits.tail ++ [ks ++ [k]] := by
  have hne : ks.inits ≠ [] := List.ne_nil_of_length_pos (by simp)
  rw [List.inits_append, List.tail_append_of_ne_nil hne]
  simp

/-- With one more key there is one more walk. -/
theorem Expr.walks_snoc (target : Expr) {container key : Expr}
    (hkeys : target.keys = container.keys ++ [key]) (hbase : target.base = container.base)
    {parts : List Expr} : target.keys.inits.tail.flatMap (target.base :: ·) ++ parts =
      container.keys.inits.tail.flatMap (container.base :: ·) ++ (target.walk ++ parts) := by
  rw [hkeys, inits_tail_snoc, hbase]
  simp [walk, hkeys, hbase]

namespace Value

/-- What becomes of a variable. Each walk has found a value of the variable and keys; in the
container that they lead to an element is replaced by what the later walks make of theirs. -/
def replay : List (Value × List Value) → Value → Except Trap Value
  | [], w => .ok w
  | (v, ks) :: more, w => do
    let part ← v.follow ks.dropLast
    part.replaceElement (ks.getLast?.getD .undefined) (← replay more w)

/-- What is stored in the element: the value, or what the operator makes of it and the element that a
walk has found. -/
def combined : Option ArithOp → Option (Value × List Value) → Value → Except Trap Value
  | some op, some (v, ks), w => do op.apply (← v.follow ks) w
  | _, _, w => .ok w

/-- A walk and the parts behind it have been evaluated, and make a container with an element
replaced. -/
def Rebuilds (count : Nat) (P : List Value → Value → Prop) (us : List Value) (u : Value) : Prop :=
  ∃ v ks k rest w part, us = v :: (ks ++ [k]) ++ rest ∧ ks.length = count ∧ P rest w ∧
    v.follow ks = .ok part ∧ part.replaceElement k w = .ok u

/-- The parts of what is stored have been evaluated, for a compound operator those of a walk before
the value. -/
def Combines (op : Option ArithOp) (count : Nat) (us : List Value) (new : Value) : Prop :=
  ∃ (read : Option (Value × List Value)) (w : Value),
    us = read.toList.flatMap (fun walk => walk.1 :: walk.2) ++ [w] ∧
      read.map (·.2.length) = op.map (fun _ => count) ∧ combined op read w = .ok new

variable {v v' w new : Value} {ks : List Value} {walks : List (Value × List Value)}

theorem replay_snoc {k : Value} : replay (walks ++ [(v, ks ++ [k])]) w = .ok v' ↔
    ∃ part new, v.follow ks = .ok part ∧ part.replaceElement k w = .ok new ∧
      replay walks new = .ok v' := by
  induction walks generalizing v' with
  | nil =>
    rw [List.nil_append, replay, bind_eq_ok, List.dropLast_concat, List.getLast?_concat]
    refine exists_congr fun part => ⟨fun ⟨hpart, h⟩ => ⟨v', hpart, h, rfl⟩, fun ⟨_, hpart, h, hr⟩ => ?_⟩
    cases hr
    exact ⟨hpart, h⟩
  | cons walk rest ih =>
    obtain ⟨v₀, ks₀⟩ := walk
    simp only [List.cons_append, replay, bind_eq_ok, ih]
    constructor
    · rintro ⟨outer, houter, inner, ⟨part, new, hpart, hnew, hrest⟩, h⟩
      exact ⟨part, new, hpart, hnew, outer, houter, inner, hrest, h⟩
    · rintro ⟨part, new, hpart, hnew, outer, houter, inner, hrest, h⟩
      exact ⟨outer, houter, inner, ⟨part, new, hpart, hnew, hrest⟩, h⟩

/-- Walks that find the same do what a single one would. -/
theorem assigned_of_replay (h : replay (ks.inits.tail.map (v, ·)) w = .ok v') :
    v.assigned ks w = .ok v' := by
  induction ks using List.reverseRecOn generalizing w with
  | nil => exact h
  | append_singleton ks k ih =>
    rw [inits_tail_snoc, List.map_append] at h
    obtain ⟨part, new, hpart, hnew, hrest⟩ := replay_snoc.mp h
    rw [assigned_snoc, hpart]
    change (part.replaceElement k w >>= fun new => v.assigned ks new) = _
    rw [hnew]
    exact ih hrest

end Value

/-- Operations on values that are read already. -/
def Opcode.isOperation : Opcode → Bool
  | arith _ | index | setIndex => true
  | _ => false

namespace Machine

/-- A machine is about to go on at `p` in the frame of `m₀`, with some operands above its stack. -/
structure Within (m₀ : Machine) (vs : List Value) (p : Nat) (m : Machine) : Prop where
  callers : m.callers = m₀.callers
  frame : m.frame = { m₀.frame with ip := p }
  stack : m.stack = m₀.stack ++ vs.toArray

/-- The run comes to `q` with a value, and for the first time. -/
def Leaves (x : Setting) (m : Machine) (q : Nat) (v : Value) (m' : Machine) : Prop :=
  ∃ k, m.loop x (fun _ => false) k = (.unfinished, m') ∧ m.Within [v] q m' ∧
    ∀ j < k, ∀ w m'', m.loop x (fun _ => false) j = (.unfinished, m'') → ¬ m.Within [w] q m''

/-- All variables have the values that they had, those of waiting functions included. -/
structure Alike (m m' : Machine) : Prop where
  globals : m'.globals = m.globals
  callers : m'.callers = m.callers
  signals : m'.signals = m.signals
  frame : m'.frame = { m.frame with ip := m'.frame.ip }
  slots : ∀ k < m.frame.base + m.frame.routine.locals, m'.stack[k]? = m.stack[k]?

variable {x : Setting} {m₀ m m' : Machine} {vs us : List Value} {p q : Nat}

theorem Within.amid (h : m₀.Within vs p m) : { m with stack := m₀.stack }.Amid vs p m :=
  ⟨rfl, rfl, rfl, by rw [h.frame], h.stack⟩

theorem Within.trans (h : m₀.Within vs p m) (h' : m.Within us q m') :
    m₀.Within (vs ++ us) q m' := by
  refine ⟨h'.callers.trans h.callers, ?_, ?_⟩
  · rw [h'.frame, h.frame]
  · rw [h'.stack, h.stack]
    simp

/-- A run that halts at once leaves no value. -/
theorem not_leaves_of_halted {e : Halt} {v : Value} (hne : m.frame.ip ≠ q)
    (hadv : m.advance x = .halted e m') (m'' : Machine) : ¬ m.Leaves x q v m'' := by
  rintro ⟨k, hrun, hm'', -⟩
  cases k with
  | zero =>
    cases hrun
    exact hne (congrArg Frame.ip hm''.frame)
  | succ k =>
    simp only [loop, Bool.false_eq_true, if_false, hadv] at hrun
    cases hrun

theorem leaves_of_next {v : Value} (hne : m.frame.ip ≠ q) (hadv : m.advance x = .next m')
    (h : m.Within [v] q m') : m.Leaves x q v m' := by
  refine ⟨1, loop_next rfl hadv 0, h, fun j hj w m'' hrun hm'' => ?_⟩
  obtain rfl : j = 0 := by omega
  cases hrun
  exact hne (congrArg Frame.ip hm''.frame)

end Machine

/-- A run that evaluates some parts of a body, one after the other. Between them it only carries out
operations on what is there, which change no variable. In the end `Q` holds of the values of the
parts and of where the run is, unless the evaluation of a part does not end with a value or an
operation fails. -/
inductive Image.Visits (L : Image) (R : Body) (x : Setting) (Γ : Names) :
    List Expr → Machine → (List Value → Machine → Prop) → Prop where
  | here {m : Machine} {Q : List Value → Machine → Prop} (h : Q [] m) : Visits L R x Γ [] m Q
  | visit {e : Expr} {parts : List Expr} {m m' : Machine} {Q : List Value → Machine → Prop}
    {n q : Nat} {v : Value} (hat : L.exprAt R (Γ.skip n) e m.frame.ip q)
    (hleaves : m.Leaves x q v m') (hvalue : ∀ k, R.key? Γ m e = some k → v = k)
    (rest : Visits L R x Γ parts m' fun vs => Q (v :: vs)) : Visits L R x Γ (e :: parts) m Q
  | operation {parts : List Expr} {m m' : Machine} {Q : List Value → Machine → Prop}
    {i : Instruction} (hat : Instruction.at? m.frame.routine.code m.frame.ip = some i)
    (hop : i.op.isOperation = true) (hadv : m.advance x = .next m') (halike : m.Alike m')
    (rest : Visits L R x Γ parts m' Q) : Visits L R x Γ parts m Q
  | stuck {e : Expr} {parts : List Expr} {m : Machine} {Q : List Value → Machine → Prop}
    {n q : Nat} (hat : L.exprAt R (Γ.skip n) e m.frame.ip q) (h : ∀ v m', ¬ m.Leaves x q v m') :
    Visits L R x Γ (e :: parts) m Q
  | failed {parts : List Expr} {m m' : Machine} {Q : List Value → Machine → Prop}
    {i : Instruction} {t : Trap}
    (hat : Instruction.at? m.frame.routine.code m.frame.ip = some i)
    (hop : i.op.isOperation = true) (hadv : m.advance x = .halted (.trap t) m')
    (halike : m.Alike m') : Visits L R x Γ parts m Q

namespace Image

open Machine Exec

variable {L : Image} {R : Body} {x : Setting} {m₀ m m' : Machine} {Γ : Names} {p q a b n : Nat}
  {vs us : List Value} {e : Expr} {parts more : List Expr} {Q Q' : List Value → Machine → Prop}
  {pos : Option Pos} {op : Opcode} {r : Except Trap Value} {v w : Value}

theorem Visits.mono (h : L.Visits R x Γ parts m Q) (hQ : ∀ vs m', Q vs m' → Q' vs m') :
    L.Visits R x Γ parts m Q' := by
  induction h generalizing Q' with
  | here h => exact .here (hQ [] _ h)
  | visit hat hleaves hvalue _ ih =>
    exact .visit hat hleaves hvalue (ih fun vs m' h => hQ _ m' h)
  | operation hat hop hadv halike _ ih => exact .operation hat hop hadv halike (ih hQ)
  | stuck hat h => exact .stuck hat h
  | failed hat hop hadv halike => exact .failed hat hop hadv halike

/-- Parts that are evaluated behind others. -/
theorem Visits.bind (h : L.Visits R x Γ parts m Q)
    (next : ∀ vs m', Q vs m' → L.Visits R x Γ more m' fun us => Q' (vs ++ us)) :
    L.Visits R x Γ (parts ++ more) m Q' := by
  induction h generalizing Q' with
  | here h => exact next [] _ h
  | visit hat hleaves hvalue _ ih =>
    exact .visit hat hleaves hvalue (ih fun vs m' h => next _ m' h)
  | operation hat hop hadv halike _ ih => exact .operation hat hop hadv halike (ih next)
  | stuck hat h => exact .stuck hat h
  | failed hat hop hadv halike => exact .failed hat hop hadv halike

theorem setIndex_gives {m : Machine} {s : Array Value} {u v w : Value}
    (h : m.stack = ((s.push u).push v).push w) :
    Gives { m with stack := s } (u.replaceElement v w) ((execute x ⟨.setIndex, 0, 0⟩).run m) :=
  execute_setIndex h ▸ gives_yielded _ _

theorem arith_gives {op : ArithOp} {m : Machine} {s : Array Value} {v w : Value}
    (h : m.stack = (s.push v).push w) :
    Gives { m with stack := s } (op.apply v w) ((execute x ⟨.arith op, 0, 0⟩).run m) :=
  execute_arith h ▸ gives_yielded _ _

/-- The name of a field is a constant. -/
theorem label_at {place : Pos} {label : String} (h : L.constantAt R place (.string label) p q) :
    L.exprAt R (Γ.skip 0) (.lit place (.string label)) p q := by
  simp only [exprAt]
  exact h

section Parts

variable (hR : L.Frames R x m₀)
include hR

/-- With operands above its variables a frame is still one of its body. -/
theorem Frames.within {s : Array Value} (h : m₀.Within vs p m) (hs : m₀.stack.size ≤ s.size) :
    L.Frames R x { m with stack := s } := by
  obtain ⟨hroutine, hfree, hslots⟩ := hR.toFramed
  refine { hR with toFramed := ⟨?_, ?_, ?_⟩ }
  · simp only [h.frame, hroutine]
  · simp only [h.frame, hfree]
  · simp only [h.frame]
    omega

/-- An operation on the topmost operands. -/
theorem Visits.operates {us : List Value} (h : m₀.Within (vs ++ us) p m)
    (hhas : R.Has pos op a b p q) (hfit : Instruction.Fits ⟨op, a, b⟩)
    (hop : op.isOperation = true)
    (hgives : Gives { m.fetched ⟨op, a, b⟩ with stack := m₀.stack ++ vs.toArray } r
      ((execute x ⟨op, a, b⟩).run (m.fetched ⟨op, a, b⟩)))
    (next : ∀ v m', r = .ok v → m₀.Within (vs ++ [v]) q m' → L.Visits R x Γ parts m' Q) :
    L.Visits R x Γ parts m Q := by
  have hat := hR.reads hhas hfit h.frame
  have hadv := advance_of_at? (x := x) hat
  have hsize : p + Instruction.size ⟨op, a, b⟩ = q := hhas.2.symm
  have hroutine : m₀.frame.base + m.frame.routine.locals ≤ m₀.stack.size := by
    rw [h.frame]
    change m₀.frame.base + m₀.frame.routine.locals ≤ _
    rw [hR.routine]
    exact hR.slots
  -- Only operands above the variables have been taken.
  have halike (ws : List Value) {m' : Machine} (hglobals : m'.globals = m.globals)
      (hcallers : m'.callers = m.callers) (hsignals : m'.signals = m.signals)
      (hframe : m'.frame = { m.frame with ip := q }) (hstack : m'.stack = m₀.stack ++ ws.toArray) :
      m.Alike m' := by
    refine ⟨hglobals, hcallers, hsignals, by rw [hframe], fun k hk => ?_⟩
    have hbase : m.frame.base = m₀.frame.base := by rw [h.frame]
    rw [hstack, h.stack, Array.getElem?_append_left (by omega),
      Array.getElem?_append_left (by omega)]
  have hframe : (m.fetched ⟨op, a, b⟩).frame = { m.frame with ip := q } := by
    rw [← hsize]
    simp only [fetched, h.frame]
  generalize hd : (execute x ⟨op, a, b⟩).run (m.fetched ⟨op, a, b⟩) = d at hadv hgives
  cases hgives with
  | limit budget ht =>
    exact .failed hat hop hadv (halike vs rfl rfl rfl hframe rfl)
  | @value v budget hr =>
    have hpushed : (m₀.stack ++ vs.toArray).push v = m₀.stack ++ (vs ++ [v]).toArray := by simp
    refine .operation hat hop hadv (halike (vs ++ [v]) rfl rfl rfl hframe hpushed) ?_
    refine next v _ hr ⟨h.callers, ?_, hpushed⟩
    rw [hframe, h.frame]
  | trap hr => exact .failed hat hop hadv (halike vs rfl rfl rfl hframe rfl)

/-- A part is evaluated. -/
theorem Visits.expr (h : m₀.Within vs p m) (hat : L.exprAt R (Γ.skip n) e p q)
    (hfits : R.Fits p q) (next : ∀ v m', m₀.Within (vs ++ [v]) q m' →
      L.Visits R x Γ parts m' fun us => Q (v :: us)) : L.Visits R x Γ (e :: parts) m Q := by
  have hip : m.frame.ip = p := by rw [h.frame]
  subst hip
  by_cases hsimple : e.IsSimple
  · have hRm : L.Frames R x m := hR.within h (s := m.stack) (by rw [h.stack]; simp)
    obtain ⟨k, hk⟩ := key_value hRm hsimple hat
    obtain ⟨i, hsize, hadv⟩ := key_pushes hRm hsimple hk hat hfits
    have hne : m.frame.ip ≠ q := by
      have hpos := i.size_pos
      omega
    have hnext := hadv [] m (.refl rfl)
    unfold Machine.pushed at hnext
    split at hnext
    · exact .stuck hat fun v => not_leaves_of_halted hne hnext
    · have hwithin : m.Within [k] q { m.fetched i with stack := m.stack.push k } :=
        ⟨rfl, by rw [hsize]; rfl, by simp⟩
      refine .visit hat (leaves_of_next hne hnext hwithin) (fun k' hk' => ?_)
        (next k _ (h.trans hwithin))
      exact Option.some.inj (hk.symm.trans hk')
  · by_cases hleaves : ∃ v m', m.Leaves x q v m'
    · obtain ⟨v, m', hleaves⟩ := hleaves
      obtain ⟨k, -, hm', -⟩ := id hleaves
      refine .visit hat hleaves (fun k hk => ?_) (next v m' (h.trans hm'))
      cases e with
      | lit _ _ | name _ _ => exact absurd trivial hsimple
      | _ => cases hk
    · exact .stuck hat fun v m' hv => hleaves ⟨v, m', hv⟩

/-- A walk of no steps. -/
theorem Visits.stay (hbase : e.base = e) (hkeys : e.keys = []) (h : m₀.Within vs p m)
    (hat : L.exprAt R (Γ.skip n) e p q) (hfits : R.Fits p q)
    (next : ∀ v ks u m', ks.length = e.keys.length → v.follow ks = .ok u →
      m₀.Within (vs ++ [u]) q m' → L.Visits R x Γ parts m' fun us => Q (v :: (ks ++ us))) :
    L.Visits R x Γ (e.walk ++ parts) m Q := by
  have hwalk : e.walk ++ parts = e :: parts := by simp [Expr.walk, hbase, hkeys]
  rw [hwalk]
  exact Visits.expr hR h hat hfits fun v m' h' => next v [] v m' (by rw [hkeys]; rfl) rfl h'

/-- One step of a walk. -/
theorem Visits.element {target container key : Expr} {i j : Nat}
    (hkeys : target.keys = container.keys ++ [key]) (hbase : target.base = container.base)
    (hwalk : (∀ v ks u m', ks.length = container.keys.length → v.follow ks = .ok u →
        m₀.Within (vs ++ [u]) i m' → L.Visits R x Γ (key :: parts) m' fun us => Q (v :: (ks ++ us))) →
      L.Visits R x Γ (container.walk ++ key :: parts) m Q)
    (hkey : L.exprAt R (Γ.skip n) key i j) (hhas : R.Has pos .index 0 0 j q)
    (hfits : R.Fits i q) (next : ∀ v ks u m', ks.length = target.keys.length → v.follow ks = .ok u →
      m₀.Within (vs ++ [u]) q m' → L.Visits R x Γ parts m' fun us => Q (v :: (ks ++ us))) :
    L.Visits R x Γ (target.walk ++ parts) m Q := by
  have hle := hR.expr_le hkey
  have hlt := hhas.lt
  have hparts : target.walk ++ parts = container.walk ++ key :: parts := by
    simp [Expr.walk, hkeys, hbase]
  rw [hparts]
  refine hwalk fun v ks u m₁ hks hu h₁ => ?_
  refine Visits.expr hR h₁ hkey (hfits.part (Nat.le_refl _) (by omega)) fun k m₂ h₂ => ?_
  rw [List.append_assoc] at h₂
  refine Visits.operates hR h₂ hhas (hfits hhas hle (Nat.le_refl _)) rfl
    (index_gives _ _ _ _ h₂.amid.topTwo) fun u' m₃ hu' h₃ => ?_
  have hfollow : v.follow (ks ++ [k]) = .ok u' := by
    rw [Value.follow_snoc, hu]
    exact hu'
  have hnext := next v (ks ++ [k]) u' m₃ (by simp [hkeys, hks]) hfollow h₃
  simpa using hnext

/-- The code of a target evaluates the parts of a walk, and reads the elements on the way. -/
theorem Visits.path {n : Nat} : {target : Expr} → {vs : List Value} → {m : Machine} → {p q : Nat} →
    {parts : List Expr} → {Q : List Value → Machine → Prop} →
    m₀.Within vs p m → L.exprAt R (Γ.skip n) target p q → R.Fits p q →
      (∀ v ks u m', ks.length = target.keys.length → v.follow ks = .ok u →
        m₀.Within (vs ++ [u]) q m' → L.Visits R x Γ parts m' fun us => Q (v :: (ks ++ us))) →
      L.Visits R x Γ (target.walk ++ parts) m Q
  | .index place container key, vs, m, p, q, parts, Q, h, hat, hfits, next => by
    simp only [exprAt] at hat
    obtain ⟨i, j, hc, hkey, hhas⟩ := hat
    rw [Names.skip_skip] at hkey
    have hle := hR.expr_le hc
    have hle' := hR.expr_le hkey
    have hlt := hhas.lt
    exact Visits.element hR rfl rfl (Visits.path h hc (hfits.part (Nat.le_refl _) (by omega))) hkey
      hhas (hfits.part hle (Nat.le_refl _)) next
  | .field place container label, vs, m, p, q, parts, Q, h, hat, hfits, next => by
    simp only [exprAt] at hat
    obtain ⟨i, j, hc, hkey, hhas⟩ := hat
    have hle := hR.expr_le hc
    have hle' := hkey.le
    have hlt := hhas.lt
    exact Visits.element hR rfl rfl (Visits.path h hc (hfits.part (Nat.le_refl _) (by omega)))
      (label_at hkey) hhas (hfits.part hle (Nat.le_refl _)) next
  | .lit .., _, _, _, _, _, _, h, hat, hfits, next | .name .., _, _, _, _, _, _, h, hat, hfits, next
  | .array .., _, _, _, _, _, _, h, hat, hfits, next
  | .map .., _, _, _, _, _, _, h, hat, hfits, next
  | .unary .., _, _, _, _, _, _, h, hat, hfits, next
  | .binary .., _, _, _, _, _, _, h, hat, hfits, next
  | .call .., _, _, _, _, _, _, h, hat, hfits, next
  | .func .., _, _, _, _, _, _, h, hat, hfits, next
  | .load .., _, _, _, _, _, _, h, hat, hfits, next => Visits.stay hR rfl rfl h hat hfits next

/-- An element of a container is replaced by what comes of the parts behind the walk. -/
theorem Visits.replaces {target container key : Expr} {n' i j k : Nat}
    {P : List Value → Value → Prop} (hkeys : target.keys = container.keys ++ [key])
    (hbase : target.base = container.base) (h : m₀.Within vs p m)
    (hc : L.exprAt R (Γ.skip n) container p i) (hkey : L.exprAt R (Γ.skip n') key i j)
    (hvalue : ∀ vs m, m₀.Within vs j m →
      L.Visits R x Γ parts m fun us m' => ∃ w, P us w ∧ m₀.Within (vs ++ [w]) k m')
    (hle : j ≤ k) (hhas : R.Has pos .setIndex 0 0 k q) (hfits : R.Fits p q) :
    L.Visits R x Γ (target.walk ++ parts) m fun us m' =>
      ∃ w, Value.Rebuilds container.keys.length P us w ∧ m₀.Within (vs ++ [w]) q m' := by
  have hlec := hR.expr_le hc
  have hlek := hR.expr_le hkey
  have hlt := hhas.lt
  have hparts : target.walk ++ parts = container.walk ++ key :: parts := by
    simp [Expr.walk, hkeys, hbase]
  rw [hparts]
  refine Visits.path hR h hc (hfits.part (Nat.le_refl _) (by omega)) fun v ks u m₁ hks hu h₁ => ?_
  refine Visits.expr hR h₁ hkey (hfits.part (by omega) (by omega)) fun y m₂ h₂ => ?_
  have hrest := hvalue _ m₂ h₂
  rw [← List.append_nil parts]
  refine hrest.bind fun us m₃ ⟨w, hw, h₃⟩ => ?_
  rw [List.append_assoc, List.append_assoc] at h₃
  refine Visits.operates hR h₃ hhas (hfits hhas (by omega) (Nat.le_refl _)) rfl
    (setIndex_gives h₃.amid.topThree) fun u' m₄ hu' h₄ => .here ⟨u', ?_, h₄⟩
  exact ⟨v, ks, y, us, w, u, by simp, hks, hw, hu, hu'⟩

/-- A compound operator takes the element that a walk has led to and the value. -/
theorem Visits.combines {target : Expr} {op : ArithOp} {n' i j : Nat} (h : m₀.Within vs p m)
    (ht : L.exprAt R (Γ.skip n) target p i) (he : L.exprAt R (Γ.skip n') e i j)
    (hhas : R.Has pos (.arith op) 0 0 j q) (hfits : R.Fits p q) :
    L.Visits R x Γ (target.walk ++ [e]) m fun us m' =>
      ∃ new, Value.Combines (some op) target.keys.length us new ∧
        m₀.Within (vs ++ [new]) q m' := by
  have hlet := hR.expr_le ht
  have hlee := hR.expr_le he
  have hlt := hhas.lt
  refine Visits.path hR h ht (hfits.part (Nat.le_refl _) (by omega)) fun v ks u m₁ hks hu h₁ => ?_
  refine Visits.expr hR h₁ he (hfits.part (by omega) (by omega)) fun w m₂ h₂ => ?_
  rw [List.append_assoc] at h₂
  refine Visits.operates hR h₂ hhas (hfits hhas (by omega) (Nat.le_refl _)) rfl
    (arith_gives h₂.amid.topTwo) fun new m₃ hnew h₃ => .here ⟨new, ?_, h₃⟩
  refine ⟨some (v, ks), w, by simp, by simp [hks], ?_⟩
  simp only [Value.combined, hu]
  exact hnew

end Parts

/-- The last step of a store: the variable gets its new value, and nothing else changes. -/
def Settles (R : Body) (x : Setting) (Γ : Names) (target : Expr) (q : Nat) (m : Machine)
    (v' : Value) (m₁ : Machine) : Prop :=
  ∃ storage i m', Γ.resolve R.captured target.root = some (storage, i) ∧
    m₁.advance x = .next m' ∧ ({ m₁ with stack := m.stack }.put storage i v').Amid [] q m'

/-- What a store comes to once the walks and the parts behind them have been evaluated. -/
def Stored (R : Body) (x : Setting) (Γ : Names) (target : Expr) (q : Nat) (m : Machine)
    (P : List Value → Value → Prop) (vs : List Value) (m₁ : Machine) : Prop :=
  ∃ walks us w v', vs = walks.flatMap (fun walk => walk.1 :: walk.2) ++ us ∧
    walks.map (·.2.length) = target.keys.inits.tail.map List.length ∧ P us w ∧
    Value.replay walks w = .ok v' ∧ Settles R x Γ target q m v' m₁

/-- One more step of a target is one more walk. -/
theorem Stored.snoc {target container key : Expr} {P : List Value → Value → Prop}
    (hkeys : target.keys = container.keys ++ [key]) (hroot : target.root = container.root)
    (h : Stored R x Γ container q m₀ (Value.Rebuilds container.keys.length P) vs m) :
    Stored R x Γ target q m₀ P vs m := by
  obtain ⟨walks, us, w, v', rfl, hshape, ⟨v, ks, k, rest, new, part, rfl, hks, hP, hpart, hnew⟩,
    hreplay, hsettles⟩ := h
  refine ⟨walks ++ [(v, ks ++ [k])], rest, new, v', by simp, ?_, hP,
    Value.replay_snoc.mpr ⟨part, w, hpart, hnew, hreplay⟩, ?_⟩
  · rw [hkeys, inits_tail_snoc]
    simp [hshape, hks]
  · unfold Settles
    rwa [hroot]

/-- The code of a store evaluates the parts of the walks and then those of the value. -/
theorem storeAt.visits (hR : L.Frames R x m₀) {pos : Pos} : {target : Expr} →
    {parts : List Expr} → {V : Names → (p q : Nat) → Prop} → {P : List Value → Value → Prop} →
    (∀ Γ p q, V Γ p q → p ≤ q) →
    (∀ {n a b : Nat} {vs : List Value} {m : Machine}, V (Γ.skip n) a b → R.Fits a b →
      m₀.Within vs a m →
      L.Visits R x Γ parts m fun us m' => ∃ w, P us w ∧ m₀.Within (vs ++ [w]) b m') →
    L.storeAt R pos V Γ target p q → R.Fits p q → m₀.Within [] p m →
      L.Visits R x Γ (target.keys.inits.tail.flatMap (target.base :: ·) ++ parts) m
        (Stored R x Γ target q m₀ P)
  | .name _ y, parts, V, P, hle, hV, hat, hfits, h => by
    obtain ⟨k, hvalue, hfill⟩ := hat
    have hstretch : L.Stretch R [] 1 (-1) k q := fillAt.stretch hR.narrow hfill
    have hbefore := hV (n := 0) hvalue (hfits.part (Nat.le_refl _) hstretch.le) h
    refine hbefore.mono fun us m₁ ⟨w, hw, h₁⟩ => ?_
    obtain ⟨storage, i, hres, -, hstore⟩ := fillAt.comes (hR.within h₁ (Nat.le_refl _)) hfill
      (hfits.part (hle _ _ _ hvalue) (Nat.le_refl _))
    obtain ⟨m₂, hadv, h₂, -⟩ := hstore w m₁ h₁.amid
    exact ⟨[], us, w, w, rfl, rfl, hw, rfl, storage, i, m₂, hres, hadv, h₂⟩
  | .index place container key, parts, V, P, hle, hV, hat, hfits, h => by
    have hinner : L.storeAt R pos _ Γ container p q := hat
    rw [Expr.walks_snoc (.index place container key) rfl rfl]
    refine (storeAt.visits hR (fun Γ p q ⟨_, _, _, hc, hkey, hvalue, hhas⟩ => ?_)
      (fun ⟨i, j, k, hc, hkey, hvalue, hhas⟩ hfits h => ?_) hinner hfits h).mono
        fun vs m' h' => h'.snoc rfl rfl
    · have h₁ := hR.expr_le hc
      have h₂ := hR.expr_le hkey
      have h₃ := hle _ _ _ hvalue
      have h₄ := hhas.lt
      omega
    · rw [Names.skip_skip] at hkey hvalue
      have hlec := hR.expr_le hc
      have hlek := hR.expr_le hkey
      have hlev := hle _ _ _ hvalue
      have hlt := hhas.lt
      exact Visits.replaces hR rfl rfl h hc hkey
        (fun vs m h' => hV hvalue (hfits.part (by omega) (by omega)) h') hlev hhas hfits
  | .field place container label, parts, V, P, hle, hV, hat, hfits, h => by
    have hinner : L.storeAt R pos _ Γ container p q := hat
    rw [Expr.walks_snoc (.field place container label) rfl rfl]
    refine (storeAt.visits hR (fun Γ p q ⟨_, _, _, hc, hkey, hvalue, hhas⟩ => ?_)
      (fun ⟨i, j, k, hc, hkey, hvalue, hhas⟩ hfits h => ?_) hinner hfits h).mono
        fun vs m' h' => h'.snoc rfl rfl
    · have h₁ := hR.expr_le hc
      have h₂ := hkey.le
      have h₃ := hle _ _ _ hvalue
      have h₄ := hhas.lt
      omega
    · rw [Names.skip_skip] at hvalue
      have hlec := hR.expr_le hc
      have hlek := hkey.le
      have hlev := hle _ _ _ hvalue
      have hlt := hhas.lt
      exact Visits.replaces hR rfl rfl h hc (label_at hkey)
        (fun vs m h' => hV hvalue (hfits.part (by omega) (by omega)) h') hlev hhas hfits

/-- What an assignment to an element has come to when all its parts have been evaluated. -/
structure Replayed (R : Body) (x : Setting) (Γ : Names) (target : Expr) (op : Option ArithOp)
    (q : Nat) (m : Machine) (vs : List Value) (m₁ : Machine) (walks : List (Value × List Value))
    (read : Option (Value × List Value)) (w new v' : Value) : Prop where
  values : vs = (walks ++ read.toList).flatMap (fun walk => walk.1 :: walk.2) ++ [w]
  walked : walks.map (·.2.length) = target.keys.inits.tail.map List.length
  reread : read.map (·.2.length) = op.map fun _ => target.keys.length
  combined : Value.combined op read w = .ok new
  replayed : Value.replay walks new = .ok v'
  settles : Settles R x Γ target q m v' m₁
  /-- If all walks have found one value of the variable and the same keys, the variable gets that
  value with the one element replaced. -/
  agreed : ∀ v ks, walks = ks.inits.tail.map (v, ·) → Value.Replaced ks new v v'

theorem ne_nil_of_walked {walks : List (Value × List Value)} {ks : List Value} {target : Expr}
    (hkeys : target.keys ≠ []) (hwalks : walks = ks.inits.tail.map (v, ·))
    (hwalked : walks.map (·.2.length) = target.keys.inits.tail.map List.length) : ks ≠ [] := by
  rintro rfl
  have hcount := congrArg List.length hwalked
  simp only [hwalks, List.length_map, List.length_tail, List.length_inits] at hcount
  exact hkeys (List.length_eq_zero_iff.mp (by simpa using hcount.symm))

/-- The code of an assignment evaluates the parts of the walks and of the value before it stores. -/
theorem stmtAt.visits (hR : L.Frames R x m) {J : Option (Nat × Nat)} {target : Expr} {pos : Pos}
    {op : Option ArithOp} (hat : L.stmtAt R J Γ (.assign pos op target e) p q)
    (hfits : R.Fits p q) (h : m.Within [] p m) : L.Visits R x Γ (target.visits op e) m
      (Stored R x Γ target q m (Value.Combines op target.keys.length)) := by
  cases op with
  | none =>
    have hvisits : target.visits none e =
        target.keys.inits.tail.flatMap (target.base :: ·) ++ [e] := by
      simp [Expr.visits]
    rw [hvisits]
    simp only [stmtAt] at hat
    refine storeAt.visits hR (fun _ _ _ he => hR.expr_le he) ?_ hat hfits h
    intro n i j vs m' he hfits h'
    exact Visits.expr hR h' he hfits fun w m₁ h₁ => .here ⟨w, ⟨none, w, rfl, rfl, rfl⟩, h₁⟩
  | some op =>
    have hvisits : target.visits (some op) e =
        target.keys.inits.tail.flatMap (target.base :: ·) ++ (target.walk ++ [e]) := by
      simp [Expr.visits, Expr.walk]
    rw [hvisits]
    simp only [stmtAt] at hat
    refine storeAt.visits hR ?_ ?_ hat hfits h
    · rintro Γ p q ⟨i, j, ht, he, hhas⟩
      have hlet := hR.expr_le ht
      have hlee := hR.expr_le he
      have hlt := hhas.lt
      omega
    · rintro n p q vs m' ⟨i, j, ht, he, hhas⟩ hfits h'
      rw [Names.skip_skip] at he
      exact Visits.combines hR h' ht he hhas hfits

/-- The code of an assignment evaluates its parts, in their order. -/
theorem Frames.replays (hR : L.Frames R x m) {J : Option (Nat × Nat)} {target : Expr} {pos : Pos}
    {op : Option ArithOp} (hkeys : target.keys ≠ [])
    (hat : L.stmtAt R J Γ (.assign pos op target e) p q) (hfits : R.Fits p q)
    (hip : m.frame.ip = p) : L.Visits R x Γ (target.visits op e) m fun vs m₁ =>
      ∃ walks read w new v', Replayed R x Γ target op q m vs m₁ walks read w new v' := by
  have hwithin : m.Within [] p m := ⟨rfl, by rw [← hip], by simp⟩
  refine (stmtAt.visits hR hat hfits hwithin).mono ?_
  rintro vs m₁ ⟨walks, us, new, v', rfl, hwalked, ⟨read, w, rfl, hread, hnew⟩, hreplay, hsettles⟩
  refine ⟨walks, read, w, new, v', by simp, hwalked, hread, hnew, hreplay, hsettles, ?_⟩
  rintro v ks rfl
  exact Value.replaced_of_assigned (ne_nil_of_walked hkeys rfl hwalked)
    (Value.assigned_of_replay hreplay)

end Image

end ScriptEngine
