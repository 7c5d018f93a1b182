import ScriptEngine.Proofs.Parsing.Calls
/-!
A call of the parser is settled once the calls are that may nest in it: those that a rule opens with,
and those that it makes when it has passed a lexeme.
-/
namespace ScriptEngine.Parser

/-- The calls that may nest in this one are settled. -/
def Supported (n : Nat) (c : Call) (input : List Lexeme) : Prop :=
  ∀ c' input', Nests c input c' input' → Settles n c' input'

variable {c : Call} {input : List Lexeme} {n own fuel own' fuel' : Nat}
  {seen : Bool}

/-- The call at the front of another one. -/
theorem Supported.first (h : Supported n c input) (c' : Call) (hrule : c.rule.opens.contains c'.rule = true)
    (hown : n ≤ own) (hfuel : n ≤ fuel) (hown' : n ≤ own') (hfuel' : n ≤ fuel') :
    Alike input false true seen (c'.run own fuel) (c'.run own' fuel') := by
  have hrule : c'.rule ∈ c.rule.opens := List.contains_iff_mem.mp hrule
  refine ⟨fun rest hrest _ => ?_⟩
  obtain ⟨heq, hfinished, hleft⟩ := h c' rest (Or.inl ⟨hrule, hrest⟩) own fuel own' fuel' hown hfuel
    hown' hfuel'
  refine ⟨heq, hfinished, fun a rest' hrun => ?_⟩
  have hpassed := hleft a rest' hrun
  rw [Rule.passes_of_opens hrule] at hpassed
  exact hrest.trans hpassed

/-- A call behind a lexeme that has been passed. -/
theorem Supported.later (h : Supported n c input) (c' : Call) (hrule : c.rule.follows.contains c'.rule = true)
    (hown : n ≤ own) (hfuel : n ≤ fuel) (hown' : n ≤ own') (hfuel' : n ≤ fuel') :
    Alike input true true seen (c'.run own fuel) (c'.run own' fuel') := by
  have hrule : c'.rule ∈ c.rule.follows := List.contains_iff_mem.mp hrule
  refine ⟨fun rest hrest _ => ?_⟩
  obtain ⟨heq, hfinished, hleft⟩ := h c' rest (Or.inr ⟨hrule, hrest⟩) own fuel own' fuel' hown hfuel
    hown' hfuel'
  exact ⟨heq, hfinished, fun a rest' hrun => hrest.trans (hleft a rest' hrun)⟩

section Steps

variable (hn : n ≤ fuel) (hn' : n ≤ fuel')
include hn hn'

theorem Supported.expression (h : Supported n .expression input) :
    Alike input false true false (Parser.expression (fuel + 1)) (Parser.expression (fuel' + 1)) :=
  h.first (.binary 1) rfl hn hn hn' hn'

theorem Supported.binary {least : Nat} (h : Supported n (.binary least) input) :
    Alike input false true false (Parser.binary (fuel + 1) least)
      (Parser.binary (fuel' + 1) least) := by
  refine .bind (h.first .unary rfl hn hn hn' hn') fun left => ?_
  exact h.later (.binaryRest least left) rfl hn hn hn' hn'

theorem Supported.binaryRest {least : Nat} {left : Expr}
    (h : Supported n (.binaryRest least left) input) :
    Alike input false false false (Parser.binaryRest (fuel + 1) least left)
      (Parser.binaryRest (fuel' + 1) least left) := by
  refine .operator (fun ⟨op, pos⟩ => .weaken (.pass ?_)) (.pure _)
  refine .bind (h.later (.binary (op.precedence + 1)) rfl hn hn hn' hn') fun right => ?_
  exact h.later (.binaryRest least _) rfl hn hn hn' hn'

theorem Supported.unary (h : Supported n .unary input) :
    Alike input false true false (Parser.unary (fuel + 1)) (Parser.unary (fuel' + 1)) := by
  refine .peek fun next => ?_
  split
  · split
    · exact .pass (.bind (h.later .unary rfl hn hn hn' hn') fun operand => .pure _)
    · exact h.first .postfixed rfl hn hn hn' hn'
  · exact h.first .postfixed rfl hn hn hn' hn'

theorem Supported.postfixed (h : Supported n .postfixed input) :
    Alike input false true false (Parser.postfixed (fuel + 1)) (Parser.postfixed (fuel' + 1)) := by
  refine .bind (h.first .primary rfl hn hn hn' hn') fun target => ?_
  exact h.later (.postfixes target) rfl hn hn hn' hn'

theorem Supported.postfixes {target : Expr} (h : Supported n (.postfixes target) input) :
    Alike input false false false (Parser.postfixes (fuel + 1) target)
      (Parser.postfixes (fuel' + 1) target) := by
  have hagain (e : Expr) : Alike input true true false (Parser.postfixes fuel e)
      (Parser.postfixes fuel' e) := h.later (.postfixes e) rfl hn hn hn' hn'
  have hindex : Alike input true true false (Parser.expression fuel) (Parser.expression fuel') :=
    h.later .expression rfl hn hn hn' hn'
  refine .sameLine fun next => ?_
  split
  · refine .weaken (.pass (.bind ?_ fun args => hagain _))
    exact h.later (.items .rparen .value []) rfl hn hn hn' hn'
  · exact .weaken (.pass (.bind hindex fun index => .expect (hagain _)))
  · exact .weaken (.pass (.bind (.nameFor _) fun field => hagain _))
  · exact .pure _

theorem Supported.primary (h : Supported n .primary input) :
    Alike input false true false (Parser.primary (fuel + 1)) (Parser.primary (fuel' + 1)) := by
  have hinner : Alike input true true false (Parser.expression fuel) (Parser.expression fuel') :=
    h.later .expression rfl hn hn hn' hn'
  have hparams : Alike input true true false
      (Parser.items .rparen (Parser.nameFor .parameterName) fuel [])
      (Parser.items .rparen (Parser.nameFor .parameterName) fuel' []) :=
    h.later (.items .rparen .parameter []) rfl hn hn hn' hn'
  refine .peek fun next => ?_
  split
  iterate 8 exact .pass (.pure _)
  · exact .pass (.bind hinner fun inner => .expect (.pure _))
  · refine .pass (.bind ?_ fun elements => .pure _)
    exact h.later (.items .rbracket .value []) rfl hn hn hn' hn'
  · refine .pass (.bind ?_ fun entries => .pure _)
    exact h.later (.items .rbrace .entry []) rfl hn hn hn' hn'
  · refine .pass (.expect (.bind hparams fun params => ?_))
    split
    · exact .refuseAt (by simp) _
    · exact .bind (h.later .block rfl hn hn hn' hn') fun body => .pure _
  · refine .pass (.expect (.peek fun next => ?_))
    split
    · exact .pass (.expect (.pure _))
    · exact .refuse _
  · exact .refuse _

theorem Supported.mapEntry (h : Supported n .mapEntry input) :
    Alike input false true false (Parser.mapEntry (fuel + 1)) (Parser.mapEntry (fuel' + 1)) := by
  have hvalue (key : String) : Alike input true true false
      (Parser.expression fuel >>= fun value => Pure.pure (key, value))
      (Parser.expression fuel' >>= fun value => Pure.pure (key, value)) :=
    .bind (h.later .expression rfl hn hn hn' hn') fun value => .pure _
  refine .peek fun next => ?_
  split
  · exact .pass (.expect (hvalue _))
  · exact .pass (.expect (hvalue _))
  · exact .refuse _

theorem Supported.block (h : Supported n .block input) :
    Alike input false true false (Parser.block (fuel + 1)) (Parser.block (fuel' + 1)) := by
  refine .peek fun next => ?_
  split
  · exact .pass (.bind (h.later (.blockRest []) rfl hn hn hn' hn') fun stmts => .pure _)
  · exact .refuse _

theorem Supported.blockRest {found : List Stmt} (h : Supported n (.blockRest found) input) :
    Alike input false true false (Parser.blockRest (fuel + 1) found)
      (Parser.blockRest (fuel' + 1) found) := by
  have hagain (found : List Stmt) : Alike input true true false (Parser.blockRest fuel found)
      (Parser.blockRest fuel' found) := h.later (.blockRest found) rfl hn hn hn' hn'
  refine .peek fun next => ?_
  split
  · exact .refuse _
  · exact .pass (.pure _)
  · exact .pass (hagain _)
  · exact .bind (h.first .statement rfl hn hn hn' hn') fun stmt => hagain _

theorem Supported.statements {found : List Stmt} (h : Supported n (.statements found) input) :
    Alike input false false false (Parser.statements (fuel + 1) found)
      (Parser.statements (fuel' + 1) found) := by
  have hagain (found : List Stmt) : Alike input true true false (Parser.statements fuel found)
      (Parser.statements fuel' found) := h.later (.statements found) rfl hn hn hn' hn'
  refine .peek fun next => ?_
  split
  · exact .pure _
  · exact .weaken (.pass (hagain _))
  · exact .weaken (.bind (h.first .statement rfl hn hn hn' hn') fun stmt => hagain _)

theorem Supported.statement (h : Supported n .statement input) :
    Alike input false true false (Parser.statement (fuel + 1)) (Parser.statement (fuel' + 1)) := by
  have hvalue {seen : Bool} : Alike input true true seen (Parser.expression fuel)
      (Parser.expression fuel') := h.later .expression rfl hn hn hn' hn'
  have hclosed (s : Stmt) : Alike input true true false
      (Parser.eat .semicolon >>= fun _ => Pure.pure s)
      (Parser.eat .semicolon >>= fun _ => Pure.pure s) :=
    .eat (.pure _) (.pure _)
  have hended {seen : Bool} (s : Stmt) : Alike input true true seen
      (Parser.endStatement >>= fun _ => Pure.pure s)
      (Parser.endStatement >>= fun _ => Pure.pure s) :=
    .bind .endStatement fun _ => .pure _
  refine .peek fun next => ?_
  split
  · exact .pass (.bind (h.later (.branch _) rfl hn hn hn' hn') fun stmt => hclosed _)
  · exact .pass (.bind (h.later (.loop _) rfl hn hn hn' hn') fun stmt => hclosed _)
  · exact .bind (h.first .block rfl hn hn hn' hn') fun body => hclosed _
  · exact .pass (hended _)
  · exact .pass (hended _)
  · refine .pass (.sameLine fun next => ?_)
    split
    · exact hended _
    · exact hended _
    · exact hended _
    · exact .bind hvalue fun value => hended _
  · exact .pass (.bind hvalue fun value => hended _)
  · exact .bind (h.first .simple rfl hn hn hn' hn') fun stmt => hended _

theorem Supported.simple (h : Supported n .simple input) :
    Alike input false true false (Parser.simple (fuel + 1)) (Parser.simple (fuel' + 1)) := by
  have hvalue {seen : Bool} : Alike input true true seen (Parser.expression fuel)
      (Parser.expression fuel') := h.later .expression rfl hn hn hn' hn'
  refine .bind (h.first .expression rfl hn hn hn' hn') fun target => .sameLine fun next => ?_
  split
  · refine .pass ?_
    split
    · exact .bind hvalue fun value => .pure _
    · exact .refuseAt (by simp) _
  · refine .unseen (.assignment (fun op => .pass ?_) (.pure _))
    split
    · exact .bind hvalue fun value => .pure _
    · exact .refuseAt (by simp) _

theorem Supported.branch {pos : Pos} (h : Supported n (.branch pos) input) :
    Alike input false true false (Parser.branch (fuel + 1) pos) (Parser.branch (fuel' + 1) pos) := by
  refine .bind (h.first .expression rfl hn hn hn' hn') fun cond => ?_
  refine .bind (h.later .block rfl hn hn hn' hn') fun body => .peek fun next => ?_
  split
  · refine .pass (.peek fun next => ?_)
    split
    · exact .pass (.bind (h.later (.branch _) rfl hn hn hn' hn') fun rest => .pure _)
    · exact .bind (h.later .block rfl hn hn hn' hn') fun rest => .pure _
  · exact .pure _

theorem Supported.loop {pos : Pos} (h : Supported n (.loop pos) input) :
    Alike input false true false (Parser.loop (fuel + 1) pos) (Parser.loop (fuel' + 1) pos) := by
  have hrest (init : Option Stmt) : Alike input true true false (Parser.loopRest fuel pos init)
      (Parser.loopRest fuel' pos init) := h.later (.loopRest pos init) rfl hn hn hn' hn'
  have hbody {seen : Bool} (cond : Option Expr) : Alike input true true seen
      (Parser.block fuel >>= fun body => Pure.pure (Stmt.loop pos none cond none body))
      (Parser.block fuel' >>= fun body => Pure.pure (Stmt.loop pos none cond none body)) :=
    .bind (h.later .block rfl hn hn hn' hn') fun body => .pure _
  refine .atMark ?_ (.eat (hrest none) ?_)
  · exact .bind (h.first .block rfl hn hn hn' hn') fun body => .pure _
  · refine .bind (h.first .simple rfl hn hn hn' hn') fun first => .eat (hrest _) ?_
    cases first with
    | expr cond => exact hbody (some cond)
    | _ => exact .refuseAt (by simp) _

theorem Supported.loopRest {pos : Pos} {init : Option Stmt}
    (h : Supported n (.loopRest pos init) input) :
    Alike input false true false (Parser.loopRest (fuel + 1) pos init)
      (Parser.loopRest (fuel' + 1) pos init) := by
  have hbody {seen : Bool} (cond : Option Expr) (post : Option Stmt) : Alike input true true seen
      (Parser.block fuel >>= fun body => Pure.pure (Stmt.loop pos init cond post body))
      (Parser.block fuel' >>= fun body => Pure.pure (Stmt.loop pos init cond post body)) :=
    .bind (h.later .block rfl hn hn hn' hn') fun body => .pure _
  have hpost : Alike input true true false (Parser.simple fuel) (Parser.simple fuel') :=
    h.later .simple rfl hn hn hn' hn'
  have hrest {before seen : Bool} (cond : Option Expr) : Alike input before true seen
      (do
        Parser.expect .semicolon
        let post ← if ← Parser.atMark .lbrace then Pure.pure none else some <$> Parser.simple fuel
        let body ← Parser.block fuel
        Pure.pure (Stmt.loop pos init cond post body))
      (do
        Parser.expect .semicolon
        let post ← if ← Parser.atMark .lbrace then Pure.pure none else some <$> Parser.simple fuel'
        let body ← Parser.block fuel'
        Pure.pure (Stmt.loop pos init cond post body)) :=
    .expect (.atMark (hbody cond none) (.bind hpost.some fun post => hbody cond post))
  have hcond : Alike input false true false (Parser.expression fuel) (Parser.expression fuel') :=
    h.first .expression rfl hn hn hn' hn'
  exact .atMark (hrest none) (.bind hcond.some fun cond => hrest cond)

/-- An item stands at the front of what is left of a list; only names make no call. -/
theorem Supported.item {close : Mark} {item : Item} {found : List item.Made}
    (h : Supported n (.items close item found) input) :
    Alike input false true false (item.parser fuel) (item.parser fuel') := by
  cases item with
  | value => exact h.first .expression rfl hn hn hn' hn'
  | entry => exact h.first .mapEntry rfl hn hn hn' hn'
  | parameter => exact .nameFor _

theorem Supported.items {close : Mark} {item : Item} {found : List item.Made}
    (h : Supported n (.items close item found) input) (hown : n ≤ own) (hown' : n ≤ own') :
    Alike input false true false (Parser.items close (item.parser own) (fuel + 1) found)
      (Parser.items close (item.parser own') (fuel' + 1) found) := by
  have hagain (found : List item.Made) : Alike input true true false
      (Parser.items close (item.parser own) fuel found)
      (Parser.items close (item.parser own') fuel' found) :=
    h.later (.items close item found) rfl hown hn hown' hn'
  refine .eat (.pure _) (.bind (h.item hown hown') fun x => .eat (hagain _) ?_)
  exact .expect (.pure _)

end Steps

/-- A call is settled, with one more call, once those that may nest in it are. -/
theorem Supported.settles (h : Supported n c input) : Settles (n + 1) c input := by
  intro own fuel own' fuel' hown hfuel hown' hfuel'
  obtain ⟨fuel, rfl⟩ : ∃ k, fuel = k + 1 := ⟨fuel - 1, by omega⟩
  obtain ⟨fuel', rfl⟩ : ∃ k, fuel' = k + 1 := ⟨fuel' - 1, by omega⟩
  have hn : n ≤ fuel := by omega
  have hn' : n ≤ fuel' := by omega
  have halike : Alike input false c.rule.passes false (c.run own (fuel + 1))
      (c.run own' (fuel' + 1)) := by
    cases c with
    | expression => exact h.expression hn hn'
    | binary => exact h.binary hn hn'
    | binaryRest => exact h.binaryRest hn hn'
    | unary => exact h.unary hn hn'
    | postfixed => exact h.postfixed hn hn'
    | postfixes => exact h.postfixes hn hn'
    | primary => exact h.primary hn hn'
    | mapEntry => exact h.mapEntry hn hn'
    | items => exact h.items hn hn' (by omega) (by omega)
    | block => exact h.block hn hn'
    | blockRest => exact h.blockRest hn hn'
    | statement => exact h.statement hn hn'
    | simple => exact h.simple hn hn'
    | branch => exact h.branch hn hn'
    | loop => exact h.loop hn hn'
    | loopRest => exact h.loopRest hn hn'
    | statements => exact h.statements hn hn'
  exact halike.run input (.refl input) nofun

end ScriptEngine.Parser
