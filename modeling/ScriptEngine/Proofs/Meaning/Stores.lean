import ScriptEngine.Proofs.Meaning.Expressions
/-! The code that stores a value in a target, and the one that ends a call. -/
namespace ScriptEngine.Image

open Machine Exec

variable {L : Image} {W : World} {P : Powers} {x : Setting} {A : Activation} {Γ : Names}
  {locals : Locals} {s : Array Value} {m : Machine} {vs : List Value} {p q n : Nat} {st : Store}
  {pos : Option Pos} {v : Value}

section Stores

variable (hL : L.Suits W x) (hP : L.Follows x P n)
include hL hP

/-- The machine follows a store, if it follows the evaluation of what is stored. -/
theorem storeAt.follows {place : Pos} {V : Names → (p q : Nat) → Prop} {value : Names → Eval Value}
    {Γ : Names} {p q : Nat} {st : Store} {m : Machine}
    (hvalue : ∀ {Γ : Names} {vs : List Value} {p q : Nat} {st : Store} {m : Machine},
      A.Site Γ locals s → V Γ p q → L.Loaded A s vs p st m →
      m.Agrees x L.Shares n (fun v => L.Loaded A s (vs ++ [v]) q) ((value Γ).run st)) :
    (target : Expr) → target.Parsed → A.Site Γ locals s → L.storeAt A.body place V Γ target p q →
      L.Loaded A s [] p st m →
      m.Agrees x L.Shares n (L.Reached A Γ q)
        ((target.store W P (A.scope locals) value Γ).run st)
  | .name _ y, _, hs, ⟨k, hV, hfill⟩, h => by
    simp only [Expr.store]
    exact (hvalue hs hV h).bind fun v st' m' hm' => hm'.assign hs hfill
  | .index _ container index, hparsed, hs, hat, h => by
    simp only [Expr.store]
    refine storeAt.follows (fun hs hV h => ?_) container hparsed.2.1 hs hat h
    obtain ⟨i, j, k, hcontainer, hindex, hV, hhas⟩ := hV
    refine (Expr.follows hL hP container hparsed.2.1 hs hcontainer h).bind fun u st₁ m₁ h₁ => ?_
    refine (Expr.follows hL hP index hparsed.2.2 (hs.skip _) hindex h₁).bind fun v st₂ m₂ h₂ => ?_
    refine (hvalue (hs.skip _) hV h₂).bind fun w st₃ m₃ h₃ => ?_
    rw [List.append_assoc, List.append_assoc] at h₃
    exact h₃.setIndex hs.toRuns hhas
  | .field _ container y, hparsed, hs, hat, h => by
    simp only [Expr.store]
    refine storeAt.follows (fun hs hV h => ?_) container hparsed.2 hs hat h
    obtain ⟨i, j, k, hcontainer, hkey, hV, hhas⟩ := hV
    refine (Expr.follows hL hP container hparsed.2 hs hcontainer h).bind fun u st₁ m₁ h₁ => ?_
    refine (h₁.constant (v := .string y) hL hs.toRuns rfl hkey).next fun m₂ h₂ => ?_
    refine (hvalue (hs.skip _) hV h₂).bind fun w st₃ m₃ h₃ => ?_
    rw [List.append_assoc, List.append_assoc] at h₃
    exact h₃.setIndex hs.toRuns hhas
  | .lit .., _, _, hat, _ | .array .., _, _, hat, _ | .map .., _, _, hat, _
  | .unary .., _, _, hat, _ | .binary .., _, _, hat, _ | .call .., _, _, hat, _
  | .func .., _, _, hat, _ | .load .., _, _, hat, _ => False.elim hat

end Stores

/-- The call is over and its caller has the value. -/
def Over (L : Image) (A : Activation) (v : Value) (st : Store) (m : Machine) : Prop :=
  A.callers ≠ #[] ∧
    L.Returned A.below.pop (A.callers.back?.getD default) A.callers.pop A.start v st m

theorem called_of_inside (hknows : A.Knows Γ locals) (h : Γ.functions ≠ []) : A.callers ≠ #[] := by
  refine hknows.called fun hnone => ?_
  cases hf : Γ.functions with
  | nil => exact h hf
  | cons vars around =>
    rw [Names.around?, hf] at hnone
    cases hnone

theorem Loaded.base (h : L.Loaded A s vs p st m) : m.frame.base = A.frame.base := by
  rw [h.frame]

/-- The frame ends with a value. -/
theorem Loaded.left {w : Value} {m' : Machine} {ws : List Value} (h : L.Loaded A s vs p st m)
    (hs : A.Site Γ locals s) (hcalled : A.callers ≠ #[]) (hw : w.Only (L.Known st))
    (hstep : m.advance x = .of (m'.left w)) (hstack : m'.stack = s ++ ws.toArray)
    (hbase : m'.frame.base = A.frame.base) (hcallers : m'.callers = A.callers)
    (hreflects : L.Reflects st m') : m.Agrees x L.Shares n (L.Over A) (.ok w.bare st) := by
  obtain ⟨slots, rfl, -⟩ := hs.holds
  have hback : m'.callers.back? = some (A.callers.back?.getD default) := by
    rw [hcallers]
    cases hb : A.callers.back? with
    | some caller => rfl
    | none => exact absurd (Array.back?_eq_none_iff.mp hb) hcalled
  have hshrink : m'.stack.shrink (m'.frame.base - 1) = A.below.pop := by
    rw [hstack, hbase, hs.base]
    refine Array.toList_inj.mp ?_
    simp [List.dropLast_eq_take]
  rw [Machine.left, hback] at hstep
  refine .pushed hstep (.here ⟨hcalled, rfl, congrArg Array.pop hcallers, ⟨w, rfl, hw, ?_⟩,
    { hreflects with }, h.grown⟩)
  exact congrArg (Array.push · w) hshrink

/-- A value is returned. -/
theorem Loaded.ret (h : L.Loaded A s [v] p st m) (hs : A.Site Γ locals s)
    (hcalled : A.callers ≠ #[]) (hhas : A.body.Has pos .ret 1 0 p q) :
    m.Agrees x L.Shares n (L.Over A) (.ok v st) := by
  obtain ⟨z, rfl, hz, hstack⟩ := h.top
  have hstep := h.advance (x := x) hs.toRuns hhas (fun _ => rfl)
  rw [execute_ret (show (m.fetched ⟨.ret, 1, 0⟩).stack = s.push z from hstack)] at hstep
  have hnone : s = s ++ ([] : List Value).toArray := by simp
  exact h.left hs hcalled hz hstep hnone h.base h.callers { h.reflects with }

/-- Without a value undefined is returned. -/
theorem Loaded.retUndefined (h : L.Loaded A s [] p st m) (hs : A.Site Γ locals s)
    (hcalled : A.callers ≠ #[]) (hhas : A.body.Has pos .ret 0 0 p q) :
    m.Agrees x L.Shares n (L.Over A) (.ok .undefined st) := by
  obtain ⟨ws, hnil, -, hstack⟩ := h.stack
  have hstep := h.advance (x := x) hs.toRuns hhas (fun _ => rfl)
  rw [execute_retUndefined (by decide)] at hstep
  exact h.left hs hcalled Value.only_undefined hstep hstack h.base h.callers
    { h.reflects with }

/-- So it is at the end of the code. -/
theorem Loaded.retEnd (h : L.Loaded A s [] p st m) (hs : A.Site Γ locals s)
    (hcalled : A.callers ≠ #[]) (hend : p = A.body.code.size) :
    m.Agrees x L.Shares n (L.Over A) (.ok .undefined st) := by
  obtain ⟨ws, hnil, -, hstack⟩ := h.stack
  have hend' : m.frame.routine.code.size ≤ m.frame.ip := by
    have hsize : A.body.routine.code.size = A.body.code.size := Code.size_bytes _
    rw [h.frame, hend, ← hsize, ← hs.routine]
  exact h.left hs hcalled Value.only_undefined (advance_of_end hend') hstack h.base h.callers
    { h.reflects with }

end ScriptEngine.Image
