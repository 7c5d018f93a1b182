import ScriptEngine.Proofs.Grammar.Accepts
/-!
Which functions of the parser call which, and what a call needs in order to end. A call is settled
once no more fuel changes what it comes to.
-/
namespace ScriptEngine.Parser

/-- The functions and loops of the parser that call one another. -/
inductive Rule where
  | expression | binary | binaryRest | unary | postfixed | postfixes | primary | mapEntry | items
  | block | blockRest | statement | simple | branch | loop | loopRest | statements
  deriving DecidableEq, Repr

namespace Rule

/-- The rules that a rule may call before it has passed a lexeme. -/
def opens : Rule → List Rule
  | expression => [binary]
  | binary => [unary]
  | unary => [postfixed]
  | postfixed => [primary]
  | items => [expression, mapEntry]
  | blockRest => [statement]
  | statement => [block, simple]
  | simple => [expression]
  | branch => [expression]
  | loop => [block, simple]
  | loopRest => [expression]
  | statements => [statement]
  | binaryRest | postfixes | primary | mapEntry | block => []

/-- The rules that a rule calls when it has passed a lexeme at least. -/
def follows : Rule → List Rule
  | expression => []
  | binary => [binaryRest]
  | binaryRest => [binary, binaryRest]
  | unary => [unary]
  | postfixed => [postfixes]
  | postfixes => [items, expression, postfixes]
  | primary => [expression, items, block]
  | mapEntry => [expression]
  | items => [items]
  | block => [blockRest]
  | blockRest => [blockRest]
  | statement => [branch, loop, expression]
  | simple => [expression]
  | branch => [block, branch]
  | loop => [loopRest, block]
  | loopRest => [simple, block]
  | statements => [statements]

/-- Where the rule succeeds, it has passed a lexeme. The other rules may find nothing to do. -/
def passes : Rule → Bool
  | binaryRest | postfixes | statements => false
  | _ => true

/-- How many calls may nest below one before a lexeme is passed. -/
def rank : Rule → Nat
  | primary | block | binaryRest | postfixes | mapEntry => 0
  | postfixed => 1
  | unary => 2
  | binary => 3
  | expression => 4
  | items | simple | branch | loopRest => 5
  | statement | loop => 6
  | blockRest | statements => 7

theorem rank_lt {r s : Rule} (h : s ∈ r.opens) : s.rank < r.rank := by
  revert h
  cases r <;> cases s <;> decide

theorem rank_le (r : Rule) : r.rank ≤ 7 := by
  cases r <;> decide

theorem passes_of_opens {r s : Rule} (h : s ∈ r.opens) : s.passes = true := by
  revert h
  cases r <;> cases s <;> decide

end Rule

/-- What stands between the commas of a list. -/
inductive Item where
  | value | entry | parameter

namespace Item

abbrev Made : Item → Type
  | value => Expr
  | entry => String × Expr
  | parameter => String

def parser : (item : Item) → Nat → P item.Made
  | value, fuel => expression fuel
  | entry, fuel => mapEntry fuel
  | parameter, _ => nameFor .parameterName

end Item

/-- A call of the parser, with what it is given besides the input. -/
inductive Call where
  | expression
  | binary (least : Nat)
  | binaryRest (least : Nat) (left : Expr)
  | unary
  | postfixed
  | postfixes (target : Expr)
  | primary
  | mapEntry
  | items (close : Mark) (item : Item) (found : List item.Made)
  | block
  | blockRest (found : List Stmt)
  | statement
  | simple
  | branch (pos : Pos)
  | loop (pos : Pos)
  | loopRest (pos : Pos) (init : Option Stmt)
  | statements (found : List Stmt)

namespace Call

def rule : Call → Rule
  | expression => .expression
  | binary _ => .binary
  | binaryRest .. => .binaryRest
  | unary => .unary
  | postfixed => .postfixed
  | postfixes _ => .postfixes
  | primary => .primary
  | mapEntry => .mapEntry
  | items .. => .items
  | block => .block
  | blockRest _ => .blockRest
  | statement => .statement
  | simple => .simple
  | branch _ => .branch
  | loop _ => .loop
  | loopRest .. => .loopRest
  | statements _ => .statements

abbrev Made : Call → Type
  | expression | binary _ | binaryRest .. | unary | postfixed | postfixes _ | primary => Expr
  | mapEntry => String × Expr
  | items _ item _ => List item.Made
  | block => Block
  | blockRest _ | statements _ => List Stmt
  | statement | simple | branch _ | loop _ | loopRest .. => Stmt

/-- The call with so much fuel; the items of a list have fuel of their own. -/
def run (own fuel : Nat) : (c : Call) → P c.Made
  | expression => Parser.expression fuel
  | binary least => Parser.binary fuel least
  | binaryRest least left => Parser.binaryRest fuel least left
  | unary => Parser.unary fuel
  | postfixed => Parser.postfixed fuel
  | postfixes target => Parser.postfixes fuel target
  | primary => Parser.primary fuel
  | mapEntry => Parser.mapEntry fuel
  | items close item found => Parser.items close (item.parser own) fuel found
  | block => Parser.block fuel
  | blockRest found => Parser.blockRest fuel found
  | statement => Parser.statement fuel
  | simple => Parser.simple fuel
  | branch pos => Parser.branch fuel pos
  | loop pos => Parser.loop fuel pos
  | loopRest pos init => Parser.loopRest fuel pos init
  | statements found => Parser.statements fuel found

end Call

/-- What a call has left of its input; `passed` tells that a lexeme has been passed for sure. -/
structure Left (input : List Lexeme) (passed : Bool) (rest : List Lexeme) : Prop where
  suffix : rest <:+ input
  fewer : passed = true → rest.length < input.length

/-- Neither the fuel ran out nor was a lexeme passed where none was left. -/
def Finished {β : Type} (r : Except Fault β) : Prop := ∀ pos, r ≠ .error ⟨pos, .unfinished⟩

/-- A call that is made while another one is under way. -/
def Nests (c : Call) (input : List Lexeme) (c' : Call) (input' : List Lexeme) : Prop :=
  c'.rule ∈ c.rule.opens ∧ Left input false input' ∨
    c'.rule ∈ c.rule.follows ∧ Left input true input'

/-- With fuel for `n` nested calls or more, a call comes to an end, and always to the same. -/
def Settles (n : Nat) (c : Call) (input : List Lexeme) : Prop :=
  ∀ own fuel own' fuel', n ≤ own → n ≤ fuel → n ≤ own' → n ≤ fuel' →
    c.run own fuel input = c.run own' fuel' input ∧ Finished (c.run own fuel input) ∧
      ∀ a rest, c.run own fuel input = .ok (a, rest) → Left input c.rule.passes rest

namespace Left

variable {input middle rest : List Lexeme} {passed passed' : Bool}

theorem refl (input : List Lexeme) : Left input false input := ⟨List.suffix_refl _, nofun⟩

theorem trans (h : Left input passed middle) (h' : Left middle passed' rest) :
    Left input (passed || passed') rest := by
  have hlength := h'.suffix.length_le
  refine ⟨h'.suffix.trans h.suffix, fun hpassed => ?_⟩
  rcases Bool.or_eq_true_iff.mp hpassed with hp | hp
  · exact Nat.lt_of_le_of_lt hlength (h.fewer hp)
  · exact Nat.lt_of_lt_of_le (h'.fewer hp) h.suffix.length_le

theorem weaken (h : Left input true rest) : Left input passed rest :=
  ⟨h.suffix, fun _ => h.fewer rfl⟩

end Left

/-- Two parsers do the same on what is left of an input, end, and leave what is described. The input
may be known to hold a lexeme. -/
structure Alike {α : Type} (input : List Lexeme) (before after seen : Bool) (p q : P α) : Prop where
  run : ∀ rest, Left input before rest → (seen = true → rest ≠ []) →
    p rest = q rest ∧ Finished (p rest) ∧ ∀ a rest', p rest = .ok (a, rest') → Left input after rest'

namespace Alike

variable {α β : Type} {input : List Lexeme} {before middle after seen : Bool} {p q : P α}
  {f g : α → P β}

theorem unseen (h : Alike input before after false p q) : Alike input before after seen p q :=
  ⟨fun rest hrest _ => h.run rest hrest nofun⟩

theorem weaken (h : Alike input before true seen p q) : Alike input before after seen p q := by
  refine ⟨fun rest hrest hseen => ?_⟩
  obtain ⟨heq, hfinished, hleft⟩ := h.run rest hrest hseen
  exact ⟨heq, hfinished, fun a rest' hrun => (hleft a rest' hrun).weaken⟩

theorem pure (a : α) : Alike input before before seen (pure a) (pure a) := by
  refine ⟨fun rest hrest _ => ⟨rfl, nofun, fun b rest' hrun => ?_⟩⟩
  cases hrun
  exact hrest

theorem bind (hp : Alike input before middle seen p q)
    (hf : ∀ a, Alike input middle after false (f a) (g a)) :
    Alike input before after seen (p >>= f) (q >>= g) := by
  refine ⟨fun rest hrest hseen => ?_⟩
  obtain ⟨heq, hfinished, hleft⟩ := hp.run rest hrest hseen
  change (p rest >>= fun x => f x.1 x.2) = (q rest >>= fun x => g x.1 x.2) ∧
    Finished (p rest >>= fun x => f x.1 x.2) ∧
      ∀ b rest', (p rest >>= fun x => f x.1 x.2) = .ok (b, rest') → Left input after rest'
  rw [← heq]
  cases hrun : p rest with
  | error e =>
    refine ⟨rfl, fun pos hpos => ?_, nofun⟩
    rw [hrun] at hfinished
    cases hpos
    exact hfinished pos rfl
  | ok x => exact (hf x.1).run x.2 (hleft x.1 x.2 hrun) nofun

theorem refuse (what : Expected) :
    Alike input before after seen (Parser.refuse what : P α) (Parser.refuse what) := by
  refine ⟨fun rest _ _ => ⟨rfl, fun pos hpos => ?_, fun a rest' hrun => ?_⟩⟩
  · cases rest <;> cases hpos
  · cases rest <;> cases hrun

theorem refuseAt {cause : SyntaxCause} (h : cause ≠ .unfinished) (pos : Pos) :
    Alike input before after seen (Parser.refuseAt pos cause : P α) (Parser.refuseAt pos cause) := by
  refine ⟨fun rest _ _ => ⟨rfl, fun pos' hpos => ?_, nofun⟩⟩
  cases hpos
  exact h rfl

theorem ite {c : Prop} [Decidable c] {p' q' : P α} (hp : Alike input before after seen p q)
    (hp' : Alike input before after seen p' q') :
    Alike input before after seen (if c then p else p') (if c then q else q') := by
  split
  · exact hp
  · exact hp'

/-- A look takes nothing. -/
theorem peek {f g : Option Lexeme → P β}
    (hf : ∀ next, Alike input before after next.isSome (f next) (g next)) :
    Alike input before after seen (peek? >>= f) (peek? >>= g) := by
  refine ⟨fun rest hrest _ => (hf rest.head?).run rest hrest fun hsome => ?_⟩
  rintro rfl
  cases hsome

theorem sameLine {f g : Option Lexeme → P β}
    (hf : ∀ next, Alike input before after next.isSome (f next) (g next)) :
    Alike input before after seen (sameLine? >>= f) (sameLine? >>= g) := by
  refine ⟨fun rest hrest _ =>
    (hf (rest.head?.filter fun next => !next.newlineBefore)).run rest hrest fun hsome => ?_⟩
  rintro rfl
  cases hsome

/-- The lexeme that was seen is passed. -/
theorem pass {f g : Unit → P β} (hf : Alike input true after false (f ()) (g ())) :
    Alike input before after true (skip >>= f) (skip >>= g) := by
  refine ⟨fun rest hrest hseen => ?_⟩
  cases rest with
  | nil => exact absurd rfl (hseen rfl)
  | cons l more =>
    refine hf.run more ⟨(List.suffix_cons l more).trans hrest.suffix, fun _ => ?_⟩ nofun
    have hlength := hrest.suffix.length_le
    rw [List.length_cons] at hlength
    omega

theorem atMark {f g : Bool → P β} {k : Mark} (htrue : Alike input before after true (f true) (g true))
    (hfalse : Alike input before after false (f false) (g false)) :
    Alike input before after seen (atMark k >>= f) (atMark k >>= g) := by
  refine ⟨fun rest hrest _ => ?_⟩
  rcases rest with _ | ⟨⟨t, pos, stop, fresh⟩, more⟩
  · exact hfalse.run [] hrest nofun
  cases t with
  | mark n =>
    change f (decide (n = k)) _ = g (decide (n = k)) _ ∧ Finished (f (decide (n = k)) _) ∧
      ∀ a rest', f (decide (n = k)) _ = .ok (a, rest') → Left input after rest'
    by_cases hn : n = k
    · rw [decide_eq_true hn]
      exact htrue.run _ hrest nofun
    · rw [decide_eq_false hn]
      exact hfalse.run _ hrest nofun
  | _ => exact hfalse.run _ hrest nofun

theorem eat {f g : Bool → P β} {k : Mark} (htrue : Alike input true after false (f true) (g true))
    (hfalse : Alike input before after false (f false) (g false)) :
    Alike input before after seen (eat k >>= f) (eat k >>= g) := by
  have hbranch {f : Bool → P β} : (Parser.eat k >>= f) = (Parser.atMark k >>= fun found =>
      if found then skip >>= fun _ => f true else f false) := by
    rw [Parser.eat, bind_assoc]
    congr 1
    funext found
    cases found with
    | true => exact (bind_assoc ..).trans rfl
    | false => rfl
  rw [hbranch, hbranch]
  exact .atMark (.pass htrue) hfalse

/-- A mark that has to come is passed. -/
theorem expect {f g : Unit → P β} {k : Mark} (hf : Alike input true after false (f ()) (g ())) :
    Alike input before after seen (expect k >>= f) (expect k >>= g) := by
  have hbranch {f : Unit → P β} : (Parser.expect k >>= f) = (Parser.eat k >>= fun found =>
      (if found then Pure.pure () else Parser.refuse (.mark k)) >>= f) := by
    rw [Parser.expect, bind_assoc]
  rw [hbranch, hbranch]
  have hrefuse : Alike input before true false (Parser.refuse (.mark k) : P Unit)
      (Parser.refuse (.mark k)) :=
    .refuse _
  exact .eat hf (hrefuse.bind fun _ => hf)

theorem nameFor (what : Expected) :
    Alike input before true seen (nameFor what) (nameFor what) := by
  refine .peek fun next => ?_
  split
  · exact .pass (.pure _)
  · exact .refuse _

theorem endStatement : Alike input true true seen endStatement endStatement := by
  refine .eat (.pure ()) (.peek fun next => ?_)
  split
  · exact .pure ()
  · exact .pure ()
  · exact .ite (.pure ()) (.refuse _)

/-- A look for an operator takes nothing. -/
theorem operator {least : Nat} {f g : Option (BinaryOp × Pos) → P β}
    (hsome : ∀ x, Alike input before after true (f (some x)) (g (some x)))
    (hnone : Alike input before after false (f none) (g none)) :
    Alike input before after seen (operator? least >>= f) (operator? least >>= g) := by
  unfold operator?
  rw [bind_assoc, bind_assoc]
  refine .sameLine fun next => ?_
  split
  · rename_i m pos _ _
    cases m.binary? with
    | none => exact hnone.unseen
    | some op =>
      dsimp only
      split
      · exact hsome (op, pos)
      · exact hnone.unseen
  · exact hnone.unseen

/-- A look for an assignment sign takes nothing. -/
theorem assignment {f g : Option (Option ArithOp) → P β}
    (hsome : ∀ op, Alike input before after true (f (some op)) (g (some op)))
    (hnone : Alike input before after false (f none) (g none)) :
    Alike input before after seen (assignment? >>= f) (assignment? >>= g) := by
  unfold assignment?
  rw [bind_assoc, bind_assoc]
  refine .sameLine fun next => ?_
  split
  · rename_i m _ _ _
    change Alike _ _ _ _ (f m.assignment?) (g m.assignment?)
    cases m.assignment? with
    | none => exact hnone.unseen
    | some op => exact hsome op
  · exact hnone.unseen

theorem some (hp : Alike input before after seen p q) :
    Alike input before after seen (some <$> p) (some <$> q) :=
  hp.bind fun a => pure (Option.some a)

end Alike

end ScriptEngine.Parser
