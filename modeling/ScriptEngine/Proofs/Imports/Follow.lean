import Mathlib.Data.List.Basic
import ScriptEngine.Compile.Import
import ScriptEngine.Proofs.Imports.Order
import ScriptEngine.Proofs.Scoping.Verdict
/-!
What a part of the compiler does to the modules: it follows its imports in turn, whether it succeeds or
fails, and only adds to the constants and to the functions of the modules.
-/
namespace ScriptEngine

/-- The cause lies in how modules import one another. -/
def CompileCause.OfImports : CompileCause → Prop
  | .cyclicImport _ | .importDepth _ => True
  | _ => False

namespace Imports

open Compile
open Scoping (run_bind)

/-- How following imports ended, if this is what the compiler reports. -/
def Ending.of : CompileCause → Ending
  | .cyclicImport key => .cyclic key
  | _ => .stopped

/-- The module whose body a line of the trace announces. -/
def announced? (line : String) : Option String :=
  ("Module ".toList.isPrefixOf? (line.toList.dropWhile (· = ' '))).map String.ofList

/-- The modules whose bodies are compiled, as the trace tells. -/
def announced (trace : Array String) : List String := trace.toList.filterMap announced?

/-- The function of a script that has been compiled to its end. -/
def Compiled (o : ImportOptions) (key : String) (f : Value) : Prop :=
  ∃ body depth ctx s s' r, Script o.registry key body ∧
    (moduleRoutine (importModule o depth) ctx key ctx.importDir body).run s = .ok r s' ∧
    f = .function ⟨s'.maker, s'.made⟩ r

/-- The constants grew at their end, the functions of modules by ones that have been compiled, and the
trace, if one is kept, by the modules `entered`. -/
structure Grows (o : ImportOptions) (traced : Bool) (entered : List String) (s s' : CompileState) :
    Prop where
  pool : s.pool.toList <+: s'.pool.toList
  cache : ∃ new, s'.cache = new ++ s.cache ∧ ∀ e ∈ new, Compiled o e.1 e.2
  trace : traced = true → announced s'.trace = announced s.trace ++ entered

/-- The modules whose functions there are. -/
def known (s : CompileState) : List String := s.cache.map (·.1)

/-- Between the states the imports `names` are followed. -/
def Trip (o : ImportOptions) (traced : Bool) (chain names : List String) (ending : Ending)
    (s s' : CompileState) : Prop :=
  ∃ entered, Grows o traced entered s s' ∧
    Walk o.registry chain (known s) names entered ending (known s')

/-- Between the states modules were left alone: the constants grew at their end, and no module was
compiled or announced. -/
structure Still (traced : Bool) (s s' : CompileState) : Prop where
  pool : s.pool.toList <+: s'.pool.toList
  cache : s'.cache = s.cache
  trace : traced = true → announced s'.trace = announced s.trace

/-- A way to tell which imports were followed between two states, and how this ended. -/
structure Trail (traced : Bool) where
  Leads : (names : List String) → Ending → CompileState → CompileState → Prop
  still : ∀ {s s'}, Still traced s s' → Leads [] .finished s s'
  stop : ∀ {names s s'}, Still traced s s' → Leads names .stopped s s'
  append : ∀ {names names' ending s s' s''}, Leads names .finished s s' →
    Leads names' ending s' s'' → Leads (names ++ names') ending s s''
  append_left : ∀ {names names' ending s s'}, Leads names ending s s' → ending ≠ .finished →
    Leads (names ++ names') ending s s'

/-- From a state on, the imports `names` were followed along the trail. They were nested too deeply only
if `deep` holds. -/
def Trail.Outcome {traced : Bool} (T : Trail traced) (deep : Prop) (names : List String) {α : Type}
    (s : CompileState) : EStateM.Result CompileError CompileState α → Prop
  | .ok _ s' => T.Leads names .finished s s'
  | .error e s' => T.Leads names (.of e.cause) s s' ∧ ∀ x, e.cause = .importDepth x → deep

/-- The part follows the imports `names` along the trail, whether it succeeds or fails. -/
structure Along {traced : Bool} (T : Trail traced) (deep : Prop) (names : List String) {α : Type}
    (m : CompileM α) : Prop where
  run : ∀ s, T.Outcome deep names s (m.run s)

variable {α β : Type} {o : ImportOptions} {traced : Bool} {T : Trail traced} {deep : Prop}
  {chain names names' entered entered' : List String} {s s' s'' : CompileState} {m m' : CompileM α}
  {f : α → CompileM β} {ctx : CompileContext} {pos : Pos} {ending : Ending}

section Trace

theorem announced?_indented (n : Nat) (text : String) :
    announced? (String.ofList (List.replicate n ' ') ++ text) = announced? text := by
  have hdrop : (String.ofList (List.replicate n ' ') ++ text).toList.dropWhile (· = ' ') =
      text.toList.dropWhile (· = ' ') := by
    rw [String.toList_append, String.toList_ofList]
    induction n with
    | zero => rfl
    | succ n ih =>
      rw [List.replicate_succ, List.cons_append, List.dropWhile_cons_of_pos (by simp)]
      exact ih
  rw [announced?, hdrop, announced?]

theorem announced?_module (key : String) : announced? ("Module " ++ key) = some key := by
  simp [announced?, List.isPrefixOf?]

theorem announced?_file (file : String) : announced? ("File " ++ file) = none := by
  simp [announced?, List.isPrefixOf?]

theorem announced?_expr (e : Expr) (text : String) : announced? (e.label ++ text) = none := by
  cases e with
  | lit _ l => cases l <;> simp [announced?, Expr.label, Literal.label, List.isPrefixOf?]
  | _ => simp [announced?, Expr.label, List.isPrefixOf?]

theorem announced?_stmt (s : Stmt) (text : String) : announced? (s.label ++ text) = none := by
  cases s <;> simp [announced?, Stmt.label, List.isPrefixOf?]

end Trace

theorem Grows.refl (o : ImportOptions) (traced : Bool) (s : CompileState) : Grows o traced [] s s :=
  ⟨List.prefix_refl _, ⟨[], rfl, by simp⟩, fun _ => (List.append_nil _).symm⟩

theorem Still.refl (traced : Bool) (s : CompileState) : Still traced s s :=
  ⟨List.prefix_refl _, rfl, fun _ => rfl⟩

theorem Still.grows (h : Still traced s s') : Grows o traced [] s s' :=
  ⟨h.pool, ⟨[], h.cache, by simp⟩, fun ht => by rw [h.trace ht, List.append_nil]⟩

theorem Grows.trans (h : Grows o traced entered s s') (h' : Grows o traced entered' s' s'') :
    Grows o traced (entered ++ entered') s s'' := by
  obtain ⟨new, hnew, hall⟩ := h.cache
  obtain ⟨new', hnew', hall'⟩ := h'.cache
  refine ⟨h.pool.trans h'.pool, ⟨new' ++ new, ?_, fun e he => ?_⟩, fun ht => ?_⟩
  · rw [hnew', hnew, List.append_assoc]
  · rcases List.mem_append.mp he with he | he
    · exact hall' e he
    · exact hall e he
  · rw [h'.trace ht, h.trace ht, List.append_assoc]

theorem Trip.append (h : Trip o traced chain names .finished s s')
    (h' : Trip o traced chain names' ending s' s'') :
    Trip o traced chain (names ++ names') ending s s'' := by
  obtain ⟨entered, hgrows, hwalk⟩ := h
  obtain ⟨entered', hgrows', hwalk'⟩ := h'
  exact ⟨_, hgrows.trans hgrows', hwalk.append hwalk'⟩

theorem Trip.append_left (h : Trip o traced chain names ending s s') (hending : ending ≠ .finished) :
    Trip o traced chain (names ++ names') ending s s' := by
  obtain ⟨entered, hgrows, hwalk⟩ := h
  exact ⟨_, hgrows, hwalk.append_left hending⟩

theorem Ending.of_ne_finished (cause : CompileCause) : Ending.of cause ≠ .finished := by
  cases cause <;> simp [Ending.of]

theorem Ending.of_eq_stopped {cause : CompileCause} (h : ¬ cause.OfImports) :
    Ending.of cause = .stopped := by
  cases cause with
  | cyclicImport | importDepth => exact absurd trivial h
  | _ => rfl

namespace Along

/-- A part that imports nothing. -/
theorem of_still (h : ∀ s, match m.run s with
    | .ok _ s' => Still traced s s'
    | .error e s' => Still traced s s' ∧ ¬ e.cause.OfImports) : Along T deep [] m := by
  refine ⟨fun s => ?_⟩
  have hs := h s
  cases hrun : m.run s with
  | ok a s' =>
    rw [hrun] at hs
    exact T.still hs
  | error e s' =>
    rw [hrun] at hs
    obtain ⟨hstill, hcause⟩ := hs
    refine ⟨Ending.of_eq_stopped hcause ▸ T.stop hstill, fun x hx => ?_⟩
    rw [hx] at hcause
    exact absurd trivial hcause

theorem bind (hm : Along T deep names m)
    (hf : ∀ a, Along T deep names' (f a)) :
    Along T deep (names ++ names') (m >>= f) := by
  refine ⟨fun s => ?_⟩
  have hs := hm.run s
  rw [run_bind]
  cases hrun : m.run s with
  | error e s' =>
    rw [hrun] at hs
    exact ⟨T.append_left hs.1 (Ending.of_ne_finished _), hs.2⟩
  | ok a s' =>
    rw [hrun] at hs
    have hs' := (hf a).run s'
    dsimp only at hs ⊢
    cases hrun' : (f a).run s' with
    | ok b s'' =>
      rw [hrun'] at hs'
      exact T.append hs hs'
    | error e s'' =>
      rw [hrun'] at hs'
      exact ⟨T.append hs hs'.1, hs'.2⟩

/-- A part behind that imports nothing adds nothing. -/
theorem before (hm : Along T deep names m)
    (hf : ∀ a, Along T deep [] (f a)) :
    Along T deep names (m >>= f) :=
  List.append_nil names ▸ hm.bind hf

theorem pure (a : α) : Along T deep [] (pure a : CompileM α) :=
  .of_still fun s => .refl traced s

theorem get : Along T deep [] (get : CompileM CompileState) :=
  .of_still fun s => .refl traced s

theorem fail {cause : CompileCause} (h : ¬ cause.OfImports) :
    Along T deep names (fail ctx pos cause : CompileM α) := by
  refine ⟨fun s => ⟨Ending.of_eq_stopped h ▸ T.stop (.refl traced s), fun x hx => ?_⟩⟩
  rw [show cause = .importDepth x from hx] at h
  exact absurd trivial h

theorem ite {p : Prop} [Decidable p] (h : Along T deep names m)
    (h' : Along T deep names m') :
    Along T deep names (if p then m else m') := by
  split
  · exact h
  · exact h'

/-- A change that does not touch constants, modules and trace. -/
theorem modifyGet {g : CompileState → α × CompileState}
    (h : ∀ s, (g s).2.pool = s.pool ∧ (g s).2.cache = s.cache ∧ (g s).2.trace = s.trace) :
    Along T deep [] (modifyGet g : CompileM α) := by
  refine .of_still fun s => ?_
  obtain ⟨hpool, hcache, htrace⟩ := h s
  change Still traced s (g s).2
  exact ⟨hpool ▸ List.prefix_refl _, hcache, fun _ => by rw [htrace]⟩

theorem withSymbols {g : SymbolTable → α × SymbolTable} :
    Along T deep [] (withSymbols g) := .modifyGet fun _ => ⟨rfl, rfl, rfl⟩

theorem enterBlock : Along T deep [] enterBlock := .withSymbols

theorem leaveBlock : Along T deep [] leaveBlock := .withSymbols

theorem makeFunction (r : Routine) : Along T deep [] (makeFunction r) :=
  .modifyGet fun _ => ⟨rfl, rfl, rfl⟩

theorem lay (op : Opcode) : Along T deep [] (lay op) :=
  .modifyGet fun _ => ⟨rfl, rfl, rfl⟩

theorem moveTo (n : Nat) :
    Along T deep [] (modify fun s => { s with here := n } : CompileM PUnit) :=
  .modifyGet fun _ => ⟨rfl, rfl, rfl⟩

theorem restore (symbols : SymbolTable) (n : Nat) :
    Along T deep [] (modify fun s => { s with symbols, here := n } : CompileM PUnit) :=
  .modifyGet fun _ => ⟨rfl, rfl, rfl⟩

theorem here : Along T deep [] here := get.bind fun _ => .pure _

theorem emit (op : Opcode) (a b : Nat) : Along T deep [] (emit pos op a b) :=
  (lay op).bind fun _ => .pure _

theorem limit (n max : Nat) (what : Measured) :
    Along T deep [] (limit ctx pos n max what) := .ite (.fail id) (.pure _)

theorem target : Along T deep [] (target ctx pos) :=
  here.bind fun _ => (limit ..).bind fun _ => .pure _

theorem addConstant (v : Value) : Along T deep [] (addConstant ctx pos v) := by
  have hpush : Along T deep []
      (modify fun s => { s with pool := s.pool.push v } : CompileM PUnit) := by
    refine .of_still fun s => ⟨?_, rfl, fun _ => rfl⟩
    change s.pool.toList <+: (s.pool.push v).toList
    rw [Array.toList_push]
    exact List.prefix_append _ _
  exact get.bind fun s => .ite (.fail id) (hpush.bind fun _ => .pure _)

theorem emitConstant (v : Value) : Along T deep [] (emitConstant ctx pos v) :=
  (addConstant v).bind fun _ => .emit ..

theorem emitLiteral (l : Literal) : Along T deep [] (emitLiteral ctx pos l) := by
  cases l with
  | bool b => cases b <;> exact .emit ..
  | undefined => exact .emit ..
  | int | float | char | string => exact .emitConstant _

theorem emitLoad (σ : Symbol) : Along T deep [] (emitLoad pos σ) := by
  unfold Compile.emitLoad
  cases σ.storage <;> exact .emit ..

theorem emitStore (σ : Symbol) : Along T deep [] (emitStore pos σ) := by
  unfold Compile.emitStore
  cases σ.storage <;> exact .emit ..

theorem emitLoads (free : List Symbol) (code : Code) :
    Along T deep [] (emitLoads pos free code) := by
  induction free generalizing code with
  | nil => exact .pure _
  | cons σ rest ih => exact (emitLoad σ).bind fun _ => ih _

theorem emitFunction (r : Routine) (free : List Symbol) :
    Along T deep [] (emitFunction ctx pos r free) :=
  (makeFunction r).bind fun _ => .ite (.emitConstant _) <| (limit ..).bind fun _ =>
    (emitLoads ..).bind fun _ => (addConstant _).bind fun _ => (emit ..).bind fun _ => .pure _

theorem define (x : String) : Along T deep [] (define ctx pos x) := by
  refine withSymbols.bind fun σ => ?_
  cases σ.storage with
  | frame | global => exact .ite (.fail id) (.pure _)
  | builtin | free => exact .pure _

theorem defineParams (params : List String) :
    Along T deep [] (defineParams ctx pos params) := by
  induction params with
  | nil => exact .pure _
  | cons x rest ih => exact (define x).bind fun _ => ih

theorem resolve (x : String) : Along T deep [] (resolve ctx pos x) := by
  refine withSymbols.bind fun σ => ?_
  cases σ with
  | some σ => exact .pure σ
  | none => exact .fail id

theorem assignable (x : String) : Along T deep [] (assignable ctx pos x) := by
  refine (resolve x).bind fun σ => ?_
  cases σ.storage with
  | frame | global => exact .pure _
  | builtin | free => exact .fail id

/-- A line in the trace that announces no module. -/
theorem note {text : String} (h : announced? text = none) :
    Along T deep [] (note ctx text) := by
  refine .ite (.of_still fun s => ⟨List.prefix_refl _, rfl, fun _ => ?_⟩) (.pure _)
  change announced (s.trace.push _) = _
  simp [announced, announced?_indented, h]

theorem noteExpr (e : Expr) :
    Along T deep [] (Compile.note ctx (e.label ++ " @ " ++ e.pos.text)) := by
  refine note ?_
  rw [String.append_assoc]
  exact announced?_expr e _

theorem noteStmt (s : Stmt) :
    Along T deep [] (Compile.note ctx (s.label ++ " @ " ++ s.pos.text)) := by
  refine note ?_
  rw [String.append_assoc]
  exact announced?_stmt s _

end Along

/-- The imports of registered scripts within the modules `chain`. -/
def scriptTrail (o : ImportOptions) (traced : Bool) (chain : List String) : Trail traced where
  Leads := Trip o traced chain
  still h := ⟨[], h.grows, by rw [known, known, h.cache]; exact .nil⟩
  stop h := ⟨[], h.grows, by rw [known, known, h.cache]; exact .stop⟩
  append := Trip.append
  append_left := Trip.append_left

/-- Within the modules `chain`, the part follows the imports `names`. Imports are nested too deeply
only if `deep` holds. -/
abbrev Follows (o : ImportOptions) (traced : Bool) (deep : Prop) (chain names : List String) {α : Type}
    (m : CompileM α) : Prop :=
  Along (scriptTrail o traced chain) deep names m

end Imports

end ScriptEngine
