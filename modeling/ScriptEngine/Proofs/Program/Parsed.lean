import ScriptEngine.Program.Parser
import ScriptEngine.Proofs.Program.Every
import ScriptEngine.Proofs.Program.Lexed
/-!
What the parser promises of the trees it makes: they are spelled with the names and numbers of a
text, the parameters of a function have different names, what follows an `else` is a block or
another branch, and only simple statements stand in the head of a loop.
-/
namespace ScriptEngine

/-- The parameters of a function have different names. -/
def Expr.Distinct : Expr → Prop
  | .func _ params _ => params.Nodup
  | _ => True

/-- What follows an `else` is a block or another branch. -/
def Stmt.Plain : Stmt → Prop
  | .branch _ _ _ (some (.block _)) | .branch _ _ _ (some (.branch ..)) => True
  | .branch _ _ _ (some _) => False
  | _ => True

/-- The program is one that a parser can make. -/
abbrev Expr.Parsed (e : Expr) : Prop := e.Every Expr.Distinct Stmt.Plain

abbrev Stmt.Parsed (s : Stmt) : Prop := s.Every Expr.Distinct Stmt.Plain

abbrev Block.Parsed (b : Block) : Prop := b.Every Expr.Distinct Stmt.Plain

/-- The names and numbers of an expression can be written in a text, and the parameters of a function
have different names. -/
def Expr.Spelled : Expr → Prop
  | .lit _ (.int n) => 0 ≤ n.toInt
  | .name _ x | .field _ _ x => Token.IsName x
  | .func _ params _ => params.Nodup ∧ ∀ x ∈ params, Token.IsName x
  | _ => True

def Stmt.isSimple : Stmt → Bool
  | .expr _ | .define .. | .assign .. => true
  | _ => false

/-- The parts of a statement can stand where they stand. -/
def Stmt.Formed : Stmt → Prop
  | .define _ x _ => Token.IsName x
  | .assign _ _ target _ => target.isTarget
  | .branch pos cond body orElse => (Stmt.branch pos cond body orElse).Plain
  | .loop _ init _ post _ => (∀ s ∈ init, s.isSimple) ∧ ∀ s ∈ post, s.isSimple
  | _ => True

/-- The program is one that a text can spell. -/
abbrev Expr.Written (e : Expr) : Prop := e.Every Expr.Spelled Stmt.Formed

abbrev Stmt.Written (s : Stmt) : Prop := s.Every Expr.Spelled Stmt.Formed

abbrev Block.Written (b : Block) : Prop := b.Every Expr.Spelled Stmt.Formed

theorem Expr.Spelled.distinct {e : Expr} (h : e.Spelled) : e.Distinct := by
  cases e with
  | func => exact h.1
  | _ => trivial

theorem Stmt.Formed.plain {s : Stmt} (h : s.Formed) : s.Plain := by
  cases s with
  | branch => exact h
  | _ => trivial

namespace Parser

/-- The lexemes are as a text yields them. -/
def Sounds (input : List Lexeme) : Prop := ∀ l ∈ input, l.token.Sound

variable {α β : Type} {p : P α} {f : α → P β} {Φ Φ' : α → Prop} {Ψ : β → Prop} {fuel : Nat}

/-- What the parser yields, if it yields something, is as described. -/
structure Ensures (p : P α) (Φ : α → Prop) : Prop where
  run : ∀ input a rest, Sounds input → p input = .ok (a, rest) → Φ a ∧ Sounds rest

namespace Ensures

theorem pure {a : α} (h : Φ a) : Ensures (pure a : P α) Φ := ⟨fun _ _ _ hinput hrun => by
  cases hrun
  exact ⟨h, hinput⟩⟩

theorem bind (hp : Ensures p Φ) (hf : ∀ a, Φ a → Ensures (f a) Ψ) : Ensures (p >>= f) Ψ := by
  refine ⟨fun input b rest hinput hrun => ?_⟩
  change (p input >>= fun x => f x.1 x.2) = _ at hrun
  cases hfirst : p input with
  | error e =>
    rw [hfirst] at hrun
    cases hrun
  | ok x =>
    rw [hfirst] at hrun
    obtain ⟨ha, hrest⟩ := hp.run input x.1 x.2 hinput hfirst
    exact (hf x.1 ha).run x.2 b rest hrest hrun

/-- A part whose result does not matter. -/
theorem after (hp : Ensures p Φ) (hf : ∀ a, Ensures (f a) Ψ) : Ensures (p >>= f) Ψ :=
  hp.bind fun a _ => hf a

theorem refuse (what : Expected) : Ensures (refuse what : P α) Φ := by
  refine ⟨fun input _ _ _ hrun => ?_⟩
  cases input <;> cases hrun

theorem refuseAt (pos : Pos) (cause : SyntaxCause) : Ensures (refuseAt pos cause : P α) Φ :=
  ⟨fun _ _ _ _ hrun => nomatch hrun⟩

theorem unfinished : Ensures (unfinished : P α) Φ := ⟨fun _ _ _ _ hrun => nomatch hrun⟩

theorem ite {c : Prop} [Decidable c] {q : P α} (hp : Ensures p Φ) (hq : Ensures q Φ) :
    Ensures (if c then p else q) Φ := by
  split
  · exact hp
  · exact hq

theorem some (hp : Ensures p Φ) :
    Ensures (some <$> p) fun found => ∀ a ∈ found, Φ a :=
  hp.bind fun _ ha => .pure fun _ h => Option.some.inj h ▸ ha

theorem skip : Ensures Parser.skip fun _ => True := ⟨fun input _ _ hinput hrun => by
  cases input <;> cases hrun
  exact ⟨trivial, fun l hl => hinput l (List.mem_cons_of_mem _ hl)⟩⟩

/-- A look at the next lexeme finds a sound one. -/
theorem peek? : Ensures Parser.peek? fun next => ∀ l ∈ next, l.token.Sound :=
  ⟨fun input _ _ hinput hrun => by
    cases hrun
    exact ⟨fun l hl => hinput l (List.mem_of_mem_head? hl), hinput⟩⟩

theorem sameLine? : Ensures Parser.sameLine? fun _ => True := ⟨fun _ _ _ hinput hrun => by
  cases hrun
  exact ⟨trivial, hinput⟩⟩

theorem atMark (m : Mark) : Ensures (Parser.atMark m) fun _ => True :=
  ⟨fun input _ _ hinput hrun => by
    unfold Parser.atMark at hrun
    split at hrun
    · cases hrun
      exact ⟨trivial, hinput⟩
    · cases hrun
      exact ⟨trivial, hinput⟩⟩

theorem eat (m : Mark) : Ensures (Parser.eat m) fun _ => True :=
  .after (.atMark m) fun _ => .ite (.after .skip fun _ => .pure trivial) (.pure trivial)

theorem expect (m : Mark) : Ensures (Parser.expect m) fun _ => True :=
  .after (.eat m) fun _ => .ite (.pure trivial) (.refuse _)

theorem nameFor (what : Expected) : Ensures (Parser.nameFor what) Token.IsName := by
  refine .bind .peek? fun next hnext => ?_
  split
  · exact .after .skip fun _ => .pure (hnext _ rfl)
  · exact .refuse _

theorem endStatement : Ensures Parser.endStatement fun _ => True := by
  refine .after (.eat _) fun _ => .ite (.pure trivial) (.after .peek? fun next => ?_)
  split
  · exact .pure trivial
  · exact .pure trivial
  · exact .ite (.pure trivial) (.refuse _)

theorem operator? (least : Nat) : Ensures (Parser.operator? least) fun _ => True := by
  refine .after .sameLine? fun next => ?_
  split
  · split <;> exact .pure trivial
  · exact .pure trivial

theorem assignment? : Ensures Parser.assignment? fun _ => True := by
  refine .after .sameLine? fun next => ?_
  split <;> exact .pure trivial

/-- Items between commas are all as each of them is. -/
theorem items (close : Mark) (hp : Ensures p Φ) (fuel : Nat) (found : List α)
    (hfound : ∀ a ∈ found, Φ a) : Ensures (items close p fuel found) fun all => ∀ a ∈ all, Φ a := by
  induction fuel generalizing found with
  | zero => exact .unfinished
  | succ fuel ih =>
    have hreverse {l : List α} (h : ∀ a ∈ l, Φ a) : ∀ a ∈ l.reverse, Φ a :=
      fun a ha => h a (List.mem_reverse.mp ha)
    refine .after (.eat close) fun closed => .ite (.pure (hreverse hfound)) <|
      hp.bind fun a ha => .after (.eat .comma) fun comma => ?_
    have hmore : ∀ b ∈ a :: found, Φ b := List.forall_mem_cons.mpr ⟨ha, hfound⟩
    exact .ite (ih (a :: found) hmore) (.after (.expect close) fun _ => .pure (hreverse hmore))

end Ensures

theorem nodup_of_go (seen names : List String) (h : repeated?.go seen names = none) :
    names.Nodup ∧ ∀ x ∈ names, x ∉ seen := by
  induction names generalizing seen with
  | nil => simp
  | cons x rest ih =>
    rw [repeated?.go] at h
    by_cases hx : seen.contains x = true
    · rw [if_pos hx] at h
      cases h
    · rw [if_neg hx] at h
      obtain ⟨hnodup, hrest⟩ := ih (x :: seen) h
      have hseen : x ∉ seen := fun hmem => hx (List.contains_iff_mem.mpr hmem)
      refine ⟨List.nodup_cons.mpr ⟨fun hmem => hrest x hmem List.mem_cons_self, hnodup⟩, ?_⟩
      exact List.forall_mem_cons.mpr ⟨hseen, fun y hy hmem =>
        hrest y hy (List.mem_cons_of_mem _ hmem)⟩

theorem nodup_of_repeated {names : List String} (h : repeated? names = none) : names.Nodup :=
  (nodup_of_go [] names h).1

theorem go_of_nodup (seen names : List String) (h : names.Nodup) (hseen : ∀ x ∈ names, x ∉ seen) :
    repeated?.go seen names = none := by
  induction names generalizing seen with
  | nil => rfl
  | cons x rest ih =>
    obtain ⟨hx, hrest⟩ := List.nodup_cons.mp h
    obtain ⟨hfirst, hothers⟩ := List.forall_mem_cons.mp hseen
    rw [repeated?.go, if_neg (by simpa using hfirst)]
    refine ih (x :: seen) hrest fun y hy hmem => ?_
    rcases List.mem_cons.mp hmem with rfl | hmem
    · exact hx hy
    · exact hothers y hy hmem

theorem repeated?_of_nodup {names : List String} (h : names.Nodup) : repeated? names = none :=
  go_of_nodup [] names h (by simp)

/-- With so many calls that nest, the parser makes trees of the kind described. -/
structure Makes (fuel : Nat) : Prop where
  expression : Ensures (expression fuel) Expr.Written
  binary : ∀ least, Ensures (binary fuel least) Expr.Written
  binaryRest : ∀ least left, left.Written → Ensures (binaryRest fuel least left) Expr.Written
  unary : Ensures (unary fuel) Expr.Written
  postfixed : Ensures (postfixed fuel) Expr.Written
  postfixes : ∀ target, target.Written → Ensures (postfixes fuel target) Expr.Written
  primary : Ensures (primary fuel) Expr.Written
  mapEntry : Ensures (mapEntry fuel) fun entry => entry.2.Written
  block : Ensures (block fuel) Block.Written
  blockRest : ∀ found, (∀ s ∈ found, s.Written) →
    Ensures (blockRest fuel found) fun all => ∀ s ∈ all, s.Written
  statement : Ensures (statement fuel) Stmt.Written
  simple : Ensures (simple fuel) fun s => s.Written ∧ s.isSimple
  branch : ∀ pos, Ensures (branch fuel pos) fun s =>
    s.Written ∧ ∃ cond body orElse, s = .branch pos cond body orElse
  loop : ∀ pos, Ensures (loop fuel pos) Stmt.Written
  loopRest : ∀ pos init, (∀ s ∈ init, s.Written ∧ s.isSimple) →
    Ensures (loopRest fuel pos init) Stmt.Written

theorem Makes.zero : Makes 0 := by
  constructor <;> intros <;> exact .unfinished

section Steps

variable (h : Makes fuel)
include h

theorem Makes.binaryRest_succ (least : Nat) {left : Expr} (hleft : left.Written) :
    Ensures (Parser.binaryRest (fuel + 1) least left) Expr.Written := by
  refine .after (.operator? least) fun found => ?_
  cases found with
  | none => exact .pure hleft
  | some x =>
    exact .after .skip fun _ => (h.binary _).bind fun right hright =>
      h.binaryRest _ _ ⟨trivial, hleft, hright⟩

theorem Makes.unary_succ : Ensures (Parser.unary (fuel + 1)) Expr.Written := by
  refine .after .peek? fun next => ?_
  split
  · split
    · exact .after .skip fun _ => h.unary.bind fun e he => .pure ⟨trivial, he⟩
    · exact h.postfixed
  · exact h.postfixed

theorem Makes.postfixes_succ {target : Expr} (htarget : target.Written) :
    Ensures (Parser.postfixes (fuel + 1) target) Expr.Written := by
  refine .after .sameLine? fun next => ?_
  split
  · exact .after .skip fun _ => (h.expression.items _ _ _ (by simp)).bind fun args hargs =>
      h.postfixes _ ⟨trivial, htarget, (Expr.allEvery_iff args).mpr hargs⟩
  · exact .after .skip fun _ => h.expression.bind fun index hindex => .after (.expect .rbracket)
      fun _ => h.postfixes _ ⟨trivial, htarget, hindex⟩
  · exact .after .skip fun _ => .bind (.nameFor _) fun _ hx => h.postfixes _ ⟨hx, htarget⟩
  · exact .pure htarget

theorem Makes.primary_succ : Ensures (Parser.primary (fuel + 1)) Expr.Written := by
  refine .bind .peek? fun next hnext => ?_
  split
  iterate 8 exact .after .skip fun _ => .pure (hnext _ rfl)
  · exact .after .skip fun _ => h.expression.bind fun e he => .after (.expect .rparen) fun _ => .pure he
  · exact .after .skip fun _ => (h.expression.items _ _ _ (by simp)).bind fun items hitems =>
      .pure ⟨trivial, (Expr.allEvery_iff items).mpr hitems⟩
  · exact .after .skip fun _ => (h.mapEntry.items _ _ _ (by simp)).bind fun entries hentries =>
      .pure ⟨trivial, (Expr.entriesEvery_iff entries).mpr hentries⟩
  · refine .after .skip fun _ => .after (.expect .lparen) fun _ =>
      .bind (.items .rparen (.nameFor _) fuel [] (by simp)) fun params hnames => ?_
    cases hparams : repeated? params with
    | some x => exact .refuseAt ..
    | none => exact h.block.bind fun body hbody => .pure ⟨⟨nodup_of_repeated hparams, hnames⟩, hbody⟩
  · refine .after .skip fun _ => .after (.expect .lparen) fun _ => .after .peek? fun next => ?_
    split
    · exact .after .skip fun _ => .after (.expect .rparen) fun _ => .pure trivial
    · exact .refuse _
  · exact .refuse _

theorem Makes.mapEntry_succ : Ensures (Parser.mapEntry (fuel + 1)) fun entry => entry.2.Written := by
  refine .after .peek? fun next => ?_
  split
  · exact .after .skip fun _ => .after (.expect .colon) fun _ => h.expression.bind fun e he => .pure he
  · exact .after .skip fun _ => .after (.expect .colon) fun _ => h.expression.bind fun e he => .pure he
  · exact .refuse _

theorem Makes.block_succ : Ensures (Parser.block (fuel + 1)) Block.Written := by
  refine .after .peek? fun next => ?_
  split
  · exact .after .skip fun _ => (h.blockRest [] (by simp)).bind fun body hbody =>
      .pure ((Stmt.allEvery_iff body).mpr hbody)
  · exact .refuse _

theorem Makes.blockRest_succ {found : List Stmt} (hfound : ∀ s ∈ found, s.Written) :
    Ensures (Parser.blockRest (fuel + 1) found) fun all => ∀ s ∈ all, s.Written := by
  refine .after .peek? fun next => ?_
  split
  · exact .refuse _
  · exact .after .skip fun _ => .pure fun s hs => hfound s (List.mem_reverse.mp hs)
  · exact .after .skip fun _ => h.blockRest _ hfound
  · exact h.statement.bind fun s hs => h.blockRest _ (List.forall_mem_cons.mpr ⟨hs, hfound⟩)

theorem Makes.statement_succ : Ensures (Parser.statement (fuel + 1)) Stmt.Written := by
  refine .after .peek? fun next => ?_
  split
  · exact .after .skip fun _ => (h.branch _).bind fun s hs => .after (.eat .semicolon) fun _ =>
      .pure hs.1
  · exact .after .skip fun _ => (h.loop _).bind fun s hs => .after (.eat .semicolon) fun _ => .pure hs
  · exact h.block.bind fun body hbody => .after (.eat .semicolon) fun _ => .pure ⟨trivial, hbody⟩
  · exact .after .skip fun _ => .after .endStatement fun _ => .pure trivial
  · exact .after .skip fun _ => .after .endStatement fun _ => .pure trivial
  · refine .after .skip fun _ => .after .sameLine? fun next => ?_
    split
    iterate 3 exact .after .endStatement fun _ => .pure ⟨trivial, trivial⟩
    · exact h.expression.bind fun e he => .after .endStatement fun _ => .pure ⟨trivial, he⟩
  · exact .after .skip fun _ => h.expression.bind fun e he => .after .endStatement fun _ =>
      .pure ⟨trivial, he⟩
  · exact h.simple.bind fun s hs => .after .endStatement fun _ => .pure hs.1

theorem Makes.simple_succ :
    Ensures (Parser.simple (fuel + 1)) fun s => s.Written ∧ s.isSimple := by
  refine h.expression.bind fun target htarget => .after .sameLine? fun next => ?_
  split
  · refine .after .skip fun _ => ?_
    split
    · exact h.expression.bind fun e he => .pure ⟨⟨htarget, he⟩, rfl⟩
    · exact .refuseAt ..
  · refine .after .assignment? fun sign => ?_
    cases sign with
    | none => exact .pure ⟨⟨trivial, htarget⟩, rfl⟩
    | some op =>
      refine .after .skip fun _ => ?_
      split
      · rename_i hplace
        exact h.expression.bind fun e he => .pure ⟨⟨hplace, htarget, he⟩, rfl⟩
      · exact .refuseAt ..

theorem Makes.branch_succ (pos : Pos) : Ensures (Parser.branch (fuel + 1) pos) fun s =>
    s.Written ∧ ∃ cond body orElse, s = .branch pos cond body orElse := by
  refine h.expression.bind fun cond hcond => h.block.bind fun body hbody => .after .peek? fun next => ?_
  split
  · refine .after .skip fun _ => .after .peek? fun next => ?_
    split
    · refine .after .skip fun _ => (h.branch _).bind fun s hs => .pure ?_
      obtain ⟨hs, _, _, _, rfl⟩ := hs
      exact ⟨⟨trivial, hcond, hbody, hs⟩, _, _, _, rfl⟩
    · exact h.block.bind fun other hother =>
        .pure ⟨⟨trivial, hcond, hbody, trivial, hother⟩, _, _, _, rfl⟩
  · exact .pure ⟨⟨trivial, hcond, hbody, trivial⟩, _, _, _, rfl⟩

theorem Makes.loop_succ (pos : Pos) : Ensures (Parser.loop (fuel + 1) pos) Stmt.Written := by
  refine .after (.atMark .lbrace) fun _ => .ite ?_ (.after (.eat .semicolon) fun _ => .ite ?_ ?_)
  · exact h.block.bind fun body hbody =>
      .pure ⟨⟨nofun, nofun⟩, trivial, trivial, trivial, hbody⟩
  · exact h.loopRest pos none (by simp)
  · refine h.simple.bind fun first hfirst => .after (.eat .semicolon) fun _ => .ite ?_ ?_
    · exact h.loopRest pos (some first) fun s hs => Option.some.inj hs ▸ hfirst
    · split
      · exact h.block.bind fun body hbody =>
          .pure ⟨⟨nofun, nofun⟩, trivial, hfirst.1.2, trivial, hbody⟩
      · exact .refuseAt ..

theorem Makes.loopRest_succ (pos : Pos) {init : Option Stmt}
    (hinit : ∀ s ∈ init, s.Written ∧ s.isSimple) :
    Ensures (Parser.loopRest (fuel + 1) pos init) Stmt.Written := by
  have hbody (cond : Option Expr) (hcond : ∀ e ∈ cond, e.Written)
      (post : Option Stmt) (hpost : ∀ s ∈ post, s.Written ∧ s.isSimple) :
      Ensures (do
        let body ← Parser.block fuel
        pure (.loop pos init cond post body)) Stmt.Written :=
    h.block.bind fun body hbody => .pure
      ⟨⟨fun s hs => (hinit s hs).2, fun s hs => (hpost s hs).2⟩,
        (Stmt.partEvery_iff _).mpr fun s hs => (hinit s hs).1, (Expr.partEvery_iff _).mpr hcond,
        (Stmt.partEvery_iff _).mpr fun s hs => (hpost s hs).1, hbody⟩
  have hrest (cond : Option Expr) (hcond : ∀ e ∈ cond, e.Written) :
      Ensures (do
        expect .semicolon
        let post ← if ← atMark .lbrace then pure none else some <$> Parser.simple fuel
        let body ← Parser.block fuel
        pure (.loop pos init cond post body)) Stmt.Written :=
    .after (.expect .semicolon) fun _ => .after (.atMark .lbrace) fun _ =>
      .ite (.bind (.pure fun _ hs => nomatch hs) (hbody cond hcond))
        (h.simple.some.bind (hbody cond hcond))
  exact .after (.atMark .semicolon) fun _ => .ite
    (.bind (.pure fun _ he => nomatch he) hrest) (h.expression.some.bind hrest)

end Steps

theorem Makes.succ (h : Makes fuel) : Makes (fuel + 1) where
  expression := h.binary 1
  binary least := h.unary.bind fun left hleft => h.binaryRest least left hleft
  binaryRest least _ hleft := h.binaryRest_succ least hleft
  unary := h.unary_succ
  postfixed := h.primary.bind fun target htarget => h.postfixes target htarget
  postfixes _ htarget := h.postfixes_succ htarget
  primary := h.primary_succ
  mapEntry := h.mapEntry_succ
  block := h.block_succ
  blockRest _ hfound := h.blockRest_succ hfound
  statement := h.statement_succ
  simple := h.simple_succ
  branch pos := h.branch_succ pos
  loop pos := h.loop_succ pos
  loopRest pos _ hinit := h.loopRest_succ pos hinit

theorem makes (fuel : Nat) : Makes fuel := by
  induction fuel with
  | zero => exact .zero
  | succ fuel ih => exact ih.succ

theorem ensures_statements (fuel : Nat) (found : List Stmt) (hfound : ∀ s ∈ found, s.Written) :
    Ensures (statements fuel found) fun all => ∀ s ∈ all, s.Written := by
  induction fuel generalizing found with
  | zero => exact .unfinished
  | succ fuel ih =>
    refine .after .peek? fun next => ?_
    split
    · exact .pure fun s hs => hfound s (List.mem_reverse.mp hs)
    · exact .after .skip fun _ => ih found hfound
    · exact (makes fuel).statement.bind fun s hs => ih _ (List.forall_mem_cons.mpr ⟨hs, hfound⟩)

end Parser

theorem ofLexemes_written {input : List Lexeme} {body : List Stmt} (hinput : Parser.Sounds input)
    (h : Parser.ofLexemes input = .ok body) : Stmt.AllEvery Expr.Spelled Stmt.Formed body := by
  unfold Parser.ofLexemes StateT.run' at h
  cases hrun : Parser.statements (Parser.depthPerToken * (input.length + 1)) [] input with
  | error e =>
    rw [hrun] at h
    cases h
  | ok x =>
    rw [hrun] at h
    cases h
    exact (Stmt.allEvery_iff _).mpr
      ((Parser.ensures_statements _ [] (by simp)).run input x.1 x.2 hinput hrun).1

/-- The trees that the parser makes can be written. -/
theorem parse_written {file : String} {source : ByteArray} {body : List Stmt}
    (h : parse file source = .ok body) : Stmt.AllEvery Expr.Spelled Stmt.Formed body := by
  unfold parse parseText at h
  split at h
  · rename_i text _
    split at h
    · cases h
    · rename_i lexemes hscan
      split at h
      · cases h
        have hsounds := Lexeme.sound_scan text
        rw [hscan] at hsounds
        exact ofLexemes_written hsounds ‹_›
      · cases h
  · cases h

/-- Parameters have different names, and what follows an `else` is a block or another branch. -/
theorem parse_parsed {file : String} {source : ByteArray} {body : List Stmt}
    (h : parse file source = .ok body) : Stmt.AllEvery Expr.Distinct Stmt.Plain body :=
  have hbody := parse_written h
  Stmt.AllEvery.both (fun _ he _ => he.distinct) (fun _ hs _ => hs.plain) body hbody hbody

end ScriptEngine
