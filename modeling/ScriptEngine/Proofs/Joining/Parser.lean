import ScriptEngine.Proofs.Grammar.Accepts
import ScriptEngine.Proofs.Joining.Moved
/-!
The parser does at a line break what it does at the end of a text: where it goes through a text, it
goes the same way when more text stands on the next line, and leaves that.
-/
namespace ScriptEngine.Parser

/-- Neither an expression nor a statement starts here: the input ends, or an `else` is next. -/
def Barred (input : List Lexeme) : Prop := ∀ l ∈ input.head?, l.token = .keyword .«else»

/-- The parser yields nothing on the input. -/
def Stuck {α : Type} (p : P α) (input : List Lexeme) : Prop := ∀ a rest, p input ≠ .ok (a, rest)

section Stuck

variable {α β : Type} {p : P α} {f : α → P β} {input : List Lexeme}

theorem Stuck.bind (h : Stuck p input) : Stuck (p >>= f) input := by
  intro b rest hrun
  obtain ⟨a, middle, hfirst, -⟩ := run_of_bind hrun
  exact h a middle hfirst

theorem Stuck.some (h : Stuck p input) : Stuck (some <$> p) input :=
  h.bind (f := fun a => pure (Option.some a))

theorem stuck_unfinished : Stuck (unfinished : P α) input := nofun

theorem stuck_refuseAt (pos : Pos) (cause : SyntaxCause) : Stuck (refuseAt pos cause : P α) input :=
  nofun

theorem stuck_refuse (what : Expected) : Stuck (refuse what : P α) input := by
  intro a rest hrun
  cases input <;> cases hrun

theorem stuck_expect (k : Mark) : Stuck (expect k) [] := nofun

theorem stuck_eat {f : Bool → P β} (k : Mark) (h : Stuck (f false) []) : Stuck (eat k >>= f) [] := h

theorem barred_nil : Barred [] := nofun

namespace Barred

variable (h : Barred input)
include h

/-- What a look finds where nothing starts. -/
theorem peek {f : Option Lexeme → P β} (hnone : Stuck (f none) input)
    (helse : ∀ pos stop fresh, Stuck (f (some ⟨.keyword .«else», pos, stop, fresh⟩)) input) :
    Stuck (peek? >>= f) input := by
  change Stuck (f input.head?) input
  cases hhead : input.head? with
  | none => exact hnone
  | some l =>
    obtain ⟨t, pos, stop, fresh⟩ := l
    obtain rfl : t = .keyword .«else» := h _ hhead
    exact helse pos stop fresh

theorem primary : (fuel : Nat) → Stuck (primary fuel) input
  | 0 => stuck_unfinished
  | _ + 1 => h.peek (stuck_refuse _) fun _ _ _ => stuck_refuse _

theorem postfixed : (fuel : Nat) → Stuck (postfixed fuel) input
  | 0 => stuck_unfinished
  | fuel + 1 => (h.primary fuel).bind

theorem unary : (fuel : Nat) → Stuck (unary fuel) input
  | 0 => stuck_unfinished
  | fuel + 1 => h.peek (h.postfixed fuel) fun _ _ _ => h.postfixed fuel

theorem binary (least : Nat) : (fuel : Nat) → Stuck (binary fuel least) input
  | 0 => stuck_unfinished
  | fuel + 1 => (h.unary fuel).bind

theorem expression : (fuel : Nat) → Stuck (expression fuel) input
  | 0 => stuck_unfinished
  | fuel + 1 => h.binary 1 fuel

theorem simple : (fuel : Nat) → Stuck (simple fuel) input
  | 0 => stuck_unfinished
  | fuel + 1 => (h.expression fuel).bind

theorem block : (fuel : Nat) → Stuck (block fuel) input
  | 0 => stuck_unfinished
  | _ + 1 => h.peek (stuck_refuse _) fun _ _ _ => stuck_refuse _

theorem statement : (fuel : Nat) → Stuck (statement fuel) input
  | 0 => stuck_unfinished
  | fuel + 1 => h.peek (h.simple fuel).bind fun _ _ _ => (h.simple fuel).bind

theorem nameFor (what : Expected) : Stuck (nameFor what) input :=
  h.peek (stuck_refuse _) fun _ _ _ => stuck_refuse _

theorem mapEntry : (fuel : Nat) → Stuck (mapEntry fuel) input
  | 0 => stuck_unfinished
  | _ + 1 => h.peek (stuck_refuse _) fun _ _ _ => stuck_refuse _

end Barred

end Stuck

/-- Text that stands on the lines below another one, whose tokens may be moved. -/
structure Joint where
  move : Pos → Pos
  bytes : Nat
  tail : List Lexeme
  fresh : ∀ l ∈ tail.head?, l.newlineBefore = true
  whole : ∀ l ∈ tail.head?, l.token ≠ .keyword .«else»

namespace Joint

variable (J : Joint)

/-- The input with the text behind it. -/
def put (input : List Lexeme) : List Lexeme := input.map (Lexeme.moved J.move J.bytes) ++ J.tail

/-- What is left is followed by the text. -/
def Same (rest rest' : List Lexeme) : Prop := rest' = J.put rest

/-- What is left is followed by the text, but for a semicolon that the text may begin with. -/
def Passed (rest rest' : List Lexeme) : Prop :=
  J.Same rest rest' ∨ rest = [] ∧ ∃ l, J.tail = l :: rest' ∧ l.token = .mark .semicolon

variable {α β : Type}

/-- Where `p` yields something, `q` does so too with the text behind, and leaves it as described. The
input may be known to hold a token. -/
structure Replays (left : List Lexeme → List Lexeme → Prop) (seen : Bool) (p q : P α) (m : α → α) :
    Prop where
  run : ∀ input a rest, (seen = true → input ≠ []) → p input = .ok (a, rest) →
    ∃ rest', left rest rest' ∧ q (J.put input) = .ok (m a, rest')

variable {J} {left : List Lexeme → List Lexeme → Prop} {seen : Bool} {p q : P α} {f g : α → P β}
  {m : α → α} {m' : β → β}

/-- Two parsers one after the other, of which the first yields something. -/
theorem bind_run {input middle : List Lexeme} {a : α} (h : p input = .ok (a, middle)) :
    (p >>= f) input = f a middle := by
  change (p input >>= fun x => f x.1 x.2) = _
  rw [h]
  rfl

theorem eat_mark {k : Mark} {l : Lexeme} (h : l.token = .mark k) (rest : List Lexeme) :
    eat k (l :: rest) = .ok (true, rest) := by
  obtain ⟨t, pos, stop, fresh⟩ := l
  obtain rfl : t = .mark k := h
  change (if (decide (k = k)) = true then skip >>= fun _ => Pure.pure true
    else Pure.pure false : P Bool) _ = _
  rw [decide_eq_true rfl]
  rfl

theorem eat_other {k : Mark} {input : List Lexeme} (h : ∀ l ∈ input.head?, l.token ≠ .mark k) :
    eat k input = .ok (false, input) := by
  rcases input with _ | ⟨⟨t, pos, stop, fresh⟩, rest⟩
  · rfl
  cases t with
  | mark n =>
    have hn : n ≠ k := fun hn => h _ rfl (congrArg Token.mark hn)
    change (if (decide (n = k)) = true then skip >>= fun _ => Pure.pure true
      else Pure.pure false : P Bool) _ = _
    rw [decide_eq_false hn]
    rfl
  | _ => rfl

namespace Replays

theorem unseen (h : J.Replays left false p q m) : J.Replays left seen p q m :=
  ⟨fun input a rest _ hrun => h.run input a rest nofun hrun⟩

theorem passed (h : J.Replays J.Same seen p q m) : J.Replays J.Passed seen p q m := by
  refine ⟨fun input a rest hseen hrun => ?_⟩
  obtain ⟨rest', hrest, hsame⟩ := h.run input a rest hseen hrun
  exact ⟨rest', .inl hrest, hsame⟩

theorem never (h : ∀ input, Stuck p input) : J.Replays left seen p q m :=
  ⟨fun input a rest _ hrun => absurd hrun (h input a rest)⟩

theorem pure {a a' : α} (h : a' = m a) :
    J.Replays J.Same seen (pure a : P α) (pure a' : P α) m := by
  refine ⟨fun input b rest _ hrun => ?_⟩
  cases hrun
  exact ⟨_, rfl, by rw [h]; rfl⟩

theorem bind (hp : J.Replays J.Same seen p q m)
    (hf : ∀ a, J.Replays left false (f a) (g (m a)) m') :
    J.Replays left seen (p >>= f) (q >>= g) m' := by
  refine ⟨fun input b rest hseen hrun => ?_⟩
  obtain ⟨a, middle, hfirst, hsecond⟩ := run_of_bind hrun
  obtain ⟨_, rfl, hsame⟩ := hp.run input a middle hseen hfirst
  rw [bind_run hsame]
  exact (hf a).run middle b rest nofun hsecond

/-- What the first parser yields is put into a larger tree. -/
theorem map {F : α → β} {G : α → β} (hp : J.Replays left seen p q m) (hF : ∀ a, G (m a) = m' (F a)) :
    J.Replays left seen (p >>= fun a => Pure.pure (F a)) (q >>= fun a => Pure.pure (G a)) m' := by
  refine ⟨fun input b rest hseen hrun => ?_⟩
  obtain ⟨a, middle, hfirst, hsecond⟩ := run_of_bind hrun
  cases hsecond
  obtain ⟨rest', hrest, hsame⟩ := hp.run input a rest hseen hfirst
  refine ⟨rest', hrest, ?_⟩
  rw [bind_run hsame, ← hF]
  rfl

/-- Where the second parser needs a token, the first one has left the text alone. -/
theorem bind_passed (hp : J.Replays J.Passed seen p q m)
    (hf : ∀ a, J.Replays left false (f a) (g (m a)) m') (hstuck : ∀ a, Stuck (f a) []) :
    J.Replays left seen (p >>= f) (q >>= g) m' := by
  refine ⟨fun input b rest hseen hrun => ?_⟩
  obtain ⟨a, middle, hfirst, hsecond⟩ := run_of_bind hrun
  obtain ⟨middle', hmiddle, hsame⟩ := hp.run input a middle hseen hfirst
  rw [bind_run hsame]
  rcases hmiddle with rfl | ⟨rfl, -⟩
  · exact (hf a).run middle b rest nofun hsecond
  · exact absurd hsecond (hstuck a b rest)

/-- A look at a token, where one has to come. -/
theorem peek {f g : Option Lexeme → P β}
    (hsome : ∀ t pos stop fresh stop', J.Replays left true (f (some ⟨t, pos, stop, fresh⟩))
      (g (some ⟨t, J.move pos, stop', fresh⟩)) m') (hnone : Stuck (f none) []) :
    J.Replays left false (peek? >>= f) (peek? >>= g) m' := by
  refine ⟨fun input b rest _ hrun => ?_⟩
  change f input.head? input = _ at hrun
  cases input with
  | nil => exact absurd hrun (hnone b rest)
  | cons l more => exact (hsome ..).run (l :: more) b rest nofun hrun

/-- A look that may be the last one, and then does not tell the text from nothing. -/
theorem look {f g : Option Lexeme → P β}
    (hsome : ∀ t pos stop fresh stop', J.Replays left true (f (some ⟨t, pos, stop, fresh⟩))
      (g (some ⟨t, J.move pos, stop', fresh⟩)) m') (hnone : J.Replays left false (f none) (g none) m')
    (htail : ∀ l ∈ J.tail.head?, g (some l) = g none) :
    J.Replays left false (peek? >>= f) (peek? >>= g) m' := by
  refine ⟨fun input b rest _ hrun => ?_⟩
  change f input.head? input = _ at hrun
  change ∃ rest', left rest rest' ∧ g (J.put input).head? (J.put input) = _
  cases input with
  | nil =>
    have hlast : g (J.put []).head? = g none := by
      cases hhead : (J.put []).head? with
      | none => rfl
      | some l => exact htail l hhead
    rw [hlast]
    exact hnone.run [] b rest nofun hrun
  | cons l more => exact (hsome ..).run (l :: more) b rest nofun hrun

/-- A look along the line. -/
theorem sameLine {f g : Option Lexeme → P β}
    (hsome : ∀ t pos stop fresh stop', J.Replays left true (f (some ⟨t, pos, stop, fresh⟩))
      (g (some ⟨t, J.move pos, stop', fresh⟩)) m') (hnone : J.Replays left false (f none) (g none) m') :
    J.Replays left false (sameLine? >>= f) (sameLine? >>= g) m' := by
  refine ⟨fun input b rest _ hrun => ?_⟩
  change f (input.head?.filter fun next => !next.newlineBefore) input = _ at hrun
  change ∃ rest', left rest rest' ∧
    g ((J.put input).head?.filter fun next => !next.newlineBefore) (J.put input) = _
  cases input with
  | nil =>
    have htail : (J.put []).head?.filter (fun next => !next.newlineBefore) = none := by
      refine Option.filter_eq_none_iff.mpr fun l hl => ?_
      simp [J.fresh l hl]
    rw [htail]
    exact hnone.run [] b rest nofun hrun
  | cons l more =>
    obtain ⟨t, pos, stop, fresh⟩ := l
    cases fresh with
    | true => exact hnone.run _ b rest nofun hrun
    | false => exact (hsome ..).run _ b rest nofun hrun

/-- The token that was seen is passed. -/
theorem pass {f g : Unit → P β} (hf : J.Replays left false (f ()) (g ()) m') :
    J.Replays left true (skip >>= f) (skip >>= g) m' := by
  refine ⟨fun input b rest hseen hrun => ?_⟩
  cases input with
  | nil => exact absurd rfl (hseen rfl)
  | cons l more => exact hf.run more b rest nofun hrun

/-- A look for a mark, behind which a token has to come where it is missing. -/
theorem atMark {f g : Bool → P β} {k : Mark} (htrue : J.Replays left true (f true) (g true) m')
    (hfalse : J.Replays left false (f false) (g false) m') (hstuck : Stuck (f false) []) :
    J.Replays left false (atMark k >>= f) (atMark k >>= g) m' := by
  refine ⟨fun input b rest _ hrun => ?_⟩
  cases input with
  | nil => exact absurd hrun (hstuck b rest)
  | cons l more =>
    obtain ⟨t, pos, stop, fresh⟩ := l
    cases t with
    | mark n =>
      change f (decide (n = k)) _ = _ at hrun
      change ∃ rest', left rest rest' ∧ g (decide (n = k)) _ = _
      by_cases hn : n = k
      · rw [decide_eq_true hn] at hrun ⊢
        exact htrue.run _ b rest nofun hrun
      · rw [decide_eq_false hn] at hrun ⊢
        exact hfalse.run _ b rest nofun hrun
    | _ => exact hfalse.run _ b rest nofun hrun

theorem eat {f g : Bool → P β} {k : Mark} (htrue : J.Replays left false (f true) (g true) m')
    (hfalse : J.Replays left false (f false) (g false) m') (hstuck : Stuck (f false) []) :
    J.Replays left false (eat k >>= f) (eat k >>= g) m' := by
  have hbranch {f : Bool → P β} : (Parser.eat k >>= f) = (Parser.atMark k >>= fun found =>
      (if found then skip >>= fun _ => Pure.pure true else Pure.pure false) >>= f) := by
    rw [Parser.eat, bind_assoc]
  rw [hbranch, hbranch]
  have hpass {f : Bool → P β} : ((if true = true then skip >>= fun _ => Pure.pure true
      else Pure.pure false) >>= f) = (skip >>= fun _ => f true) := by
    rw [if_pos rfl, bind_assoc]
    rfl
  refine .atMark ?_ hfalse hstuck
  rw [hpass, hpass]
  exact .pass htrue

theorem expected {f g : Unit → P β} {k : Mark} (hf : J.Replays left false (f ()) (g ()) m') :
    J.Replays left false (expect k >>= f) (expect k >>= g) m' := by
  have hbranch {f : Unit → P β} : (expect k >>= f) = (Parser.eat k >>= fun found =>
      (if found then Pure.pure () else refuse (.mark k)) >>= f) := by
    rw [expect, bind_assoc]
  rw [hbranch, hbranch]
  exact .eat hf (.never fun _ => (stuck_refuse _).bind) (stuck_refuse _).bind

theorem nameFor (what : Expected) : J.Replays J.Same false (nameFor what) (nameFor what) id := by
  refine .peek (fun t pos stop fresh stop' => ?_) (stuck_refuse _)
  cases t with
  | name x => exact .pass (.pure rfl)
  | _ => exact .never fun _ => stuck_refuse _

/-- A look for an operator. -/
theorem operator {least : Nat} {f g : Option (BinaryOp × Pos) → P β}
    (hsome : ∀ op pos, J.Replays left true (f (some (op, pos))) (g (some (op, J.move pos))) m')
    (hnone : J.Replays left false (f none) (g none) m') :
    J.Replays left false (operator? least >>= f) (operator? least >>= g) m' := by
  unfold operator?
  rw [bind_assoc, bind_assoc]
  refine .sameLine (fun t pos stop fresh stop' => ?_) hnone
  cases t with
  | mark k =>
    dsimp only
    cases k.binary? with
    | none => exact hnone.unseen
    | some op =>
      dsimp only
      split
      · exact hsome op pos
      · exact hnone.unseen
  | _ => exact hnone.unseen

/-- A look for an assignment sign. -/
theorem assignment {f g : Option (Option ArithOp) → P β}
    (hsome : ∀ op, J.Replays left true (f (some op)) (g (some op)) m')
    (hnone : J.Replays left false (f none) (g none) m') :
    J.Replays left false (assignment? >>= f) (assignment? >>= g) m' := by
  unfold assignment?
  rw [bind_assoc, bind_assoc]
  refine .sameLine (fun t pos stop fresh stop' => ?_) hnone
  cases t with
  | mark k =>
    change J.Replays left true (f k.assignment?) (g k.assignment?) m'
    cases k.assignment? with
    | none => exact hnone.unseen
    | some op => exact hsome op
  | _ => exact hnone.unseen

theorem some (hp : J.Replays J.Same seen p q m) :
    J.Replays J.Same seen (some <$> p) (some <$> q) (Option.map m) := by
  change J.Replays J.Same seen (p >>= fun a => Pure.pure (Option.some a))
    (q >>= fun a => Pure.pure (Option.some a)) _
  exact hp.bind fun _ => .pure rfl

/-- Items between commas, each of which needs a token. -/
theorem items (close : Mark) (hp : J.Replays J.Same false p q m) (hstuck : Stuck p [])
    {fuel fuel' : Nat} (hfuel : fuel ≤ fuel') (found : List α) :
    J.Replays J.Same false (items close p fuel found) (items close q fuel' (found.map m))
      (List.map m) := by
  induction fuel generalizing fuel' found with
  | zero => exact .never fun _ => stuck_unfinished
  | succ fuel ih =>
    obtain _ | fuel' := fuel'
    · cases hfuel
    have hmore := ih (Nat.le_of_succ_le_succ hfuel)
    refine .eat (.pure (List.map_reverse ..).symm) ?_ hstuck.bind
    refine hp.bind fun a => .eat (hmore (a :: found)) ?_ (stuck_expect close).bind
    exact .expected (.pure (by rw [List.map_reverse, List.map_cons]))

/-- The semicolon that may end a statement, of which the text can hold the first one. -/
theorem semicolon {f g : Bool → P β} (htrue : J.Replays J.Passed false (f true) (g true) m')
    (hfalse : J.Replays J.Passed false (f false) (g false) m')
    (hend : ∀ b rest, f false [] = .ok (b, rest) → rest = [] ∧
      ∀ input, g true input = .ok (m' b, input)) :
    J.Replays J.Passed false (Parser.eat .semicolon >>= f) (Parser.eat .semicolon >>= g) m' := by
  refine ⟨fun input b rest _ hrun => ?_⟩
  rcases input with _ | ⟨l, more⟩
  · change f false [] = _ at hrun
    by_cases hsemicolon : ∃ l rest', J.tail = l :: rest' ∧ l.token = .mark .semicolon
    · obtain ⟨l, rest', htail, hl⟩ := hsemicolon
      obtain ⟨rfl, hmore⟩ := hend b rest hrun
      refine ⟨rest', .inr ⟨rfl, l, htail, hl⟩, ?_⟩
      rw [put, htail, List.map_nil, List.nil_append, bind_run (eat_mark hl rest')]
      exact hmore rest'
    · have hput : Parser.eat .semicolon (J.put []) = .ok (false, J.put []) := by
        refine eat_other fun l hl htoken => hsemicolon ?_
        obtain ⟨rest', htail⟩ := List.head?_eq_some_iff.mp hl
        exact ⟨l, rest', htail, htoken⟩
      rw [bind_run hput]
      exact hfalse.run [] b rest nofun hrun
  · by_cases hl : l.token = .mark .semicolon
    · rw [bind_run (eat_mark hl more)] at hrun
      obtain ⟨rest', hrest, hsame⟩ := htrue.run more b rest nofun hrun
      have hput : Parser.eat .semicolon (J.put (l :: more)) = .ok (true, J.put more) :=
        @eat_mark .semicolon (l.moved J.move J.bytes) hl (J.put more)
      exact ⟨rest', hrest, (bind_run hput).trans hsame⟩
    · rw [bind_run (eat_other fun _ h => Option.some.inj h ▸ hl)] at hrun
      have hput : Parser.eat .semicolon (J.put (l :: more)) = .ok (false, J.put (l :: more)) :=
        eat_other fun _ h => Option.some.inj h ▸ hl
      rw [bind_run hput]
      exact hfalse.run (l :: more) b rest nofun hrun

/-- A semicolon may stand behind a statement. -/
theorem lastSemicolon {a a' : α} (h : a' = m a) :
    J.Replays J.Passed false (do let _ ← Parser.eat .semicolon; Pure.pure a)
      (do let _ ← Parser.eat .semicolon; Pure.pure a') m := by
  refine .semicolon (passed (.pure h)) (passed (.pure h)) fun b rest hrun => ?_
  cases hrun
  exact ⟨rfl, fun _ => by rw [h]; rfl⟩

theorem endStatement : J.Replays J.Passed false endStatement endStatement id := by
  refine .semicolon (passed (.pure rfl)) (passed (.look (fun t pos stop fresh stop' => ?_) (.pure rfl)
    fun l hl => ?_)) fun b rest hrun => ?_
  · have hlast : J.Replays J.Same true (if fresh then Pure.pure () else refuse .statementEnd : P Unit)
        (if fresh then Pure.pure () else refuse .statementEnd) id := by
      cases fresh with
      | true => exact .pure rfl
      | false => exact .never fun _ => stuck_refuse _
    cases t with
    | mark k =>
      cases k with
      | rbrace => exact .pure rfl
      | _ => exact hlast
    | _ => exact hlast
  · obtain ⟨t, pos, stop, fresh⟩ := l
    obtain rfl : fresh = true := J.fresh _ hl
    cases t with
    | mark k => cases k <;> rfl
    | _ => rfl
  · cases hrun
    exact ⟨rfl, fun _ => rfl⟩

end Replays

/-- Parsers of so many calls that nest go the same way when more text follows. -/
structure Extends (J : Joint) (fuel fuel' : Nat) : Prop where
  expression : J.Replays J.Same false (expression fuel) (expression fuel') (Expr.moved J.move)
  binary : ∀ least, J.Replays J.Same false (binary fuel least) (binary fuel' least)
    (Expr.moved J.move)
  binaryRest : ∀ least left, J.Replays J.Same false (binaryRest fuel least left)
    (binaryRest fuel' least (left.moved J.move)) (Expr.moved J.move)
  unary : J.Replays J.Same false (unary fuel) (unary fuel') (Expr.moved J.move)
  postfixed : J.Replays J.Same false (postfixed fuel) (postfixed fuel') (Expr.moved J.move)
  postfixes : ∀ target, J.Replays J.Same false (postfixes fuel target)
    (postfixes fuel' (target.moved J.move)) (Expr.moved J.move)
  primary : J.Replays J.Same false (primary fuel) (primary fuel') (Expr.moved J.move)
  mapEntry : J.Replays J.Same false (mapEntry fuel) (mapEntry fuel')
    fun entry => (entry.1, entry.2.moved J.move)
  block : J.Replays J.Same false (block fuel) (block fuel') (Block.moved J.move)
  blockRest : ∀ found, J.Replays J.Same false (blockRest fuel found)
    (blockRest fuel' (found.map (Stmt.moved J.move))) (List.map (Stmt.moved J.move))
  statement : J.Replays J.Passed false (statement fuel) (statement fuel') (Stmt.moved J.move)
  simple : J.Replays J.Same false (simple fuel) (simple fuel') (Stmt.moved J.move)
  branch : ∀ pos, J.Replays J.Same false (branch fuel pos) (branch fuel' (J.move pos))
    (Stmt.moved J.move)
  loop : ∀ pos, J.Replays J.Same false (loop fuel pos) (loop fuel' (J.move pos)) (Stmt.moved J.move)
  loopRest : ∀ pos init, J.Replays J.Same false (loopRest fuel pos init)
    (loopRest fuel' (J.move pos) (Stmt.partMoved J.move init)) (Stmt.moved J.move)

theorem Extends.zero {fuel' : Nat} : J.Extends 0 fuel' := by
  constructor <;> intros <;> exact .never fun _ => stuck_unfinished

section Steps

variable {fuel fuel' : Nat} (h : J.Extends fuel fuel')
include h

theorem Extends.binaryRest_succ (least : Nat) (left : Expr) :
    J.Replays J.Same false (Parser.binaryRest (fuel + 1) least left)
      (Parser.binaryRest (fuel' + 1) least (left.moved J.move)) (Expr.moved J.move) := by
  refine .operator (fun op pos => .pass ?_) (.pure rfl)
  exact (h.binary _).bind fun right => h.binaryRest least (.binary pos op left right)

theorem Extends.unary_succ :
    J.Replays J.Same false (Parser.unary (fuel + 1)) (Parser.unary (fuel' + 1))
      (Expr.moved J.move) := by
  refine .peek (fun t pos stop fresh stop' => ?_) (barred_nil.postfixed fuel)
  cases t with
  | mark k =>
    dsimp only
    cases k.unary? with
    | none => exact h.postfixed.unseen
    | some op => exact .pass (h.unary.bind fun e => .pure rfl)
  | _ => exact h.postfixed.unseen

theorem Extends.postfixes_succ (hfuel : fuel ≤ fuel') (target : Expr) :
    J.Replays J.Same false (Parser.postfixes (fuel + 1) target)
      (Parser.postfixes (fuel' + 1) (target.moved J.move)) (Expr.moved J.move) := by
  have hend : J.Replays J.Same false (Pure.pure target : P Expr)
    (Pure.pure (target.moved J.move)) (Expr.moved J.move) := .pure rfl
  refine .sameLine (fun t pos stop fresh stop' => ?_) hend
  cases t with
  | mark k =>
    cases k with
    | lparen =>
      refine .pass ((h.expression.items .rparen (barred_nil.expression fuel) hfuel []).bind
        fun args => ?_)
      rw [← Expr.allMoved_eq]
      exact h.postfixes (.call pos target args)
    | lbracket =>
      exact .pass (h.expression.bind fun index => .expected (h.postfixes (.index pos target index)))
    | dot => exact .pass (.bind (.nameFor _) fun x => h.postfixes (.field pos target x))
    | _ => exact hend.unseen
  | _ => exact hend.unseen

theorem Extends.primary_succ (hfuel : fuel ≤ fuel') :
    J.Replays J.Same false (Parser.primary (fuel + 1)) (Parser.primary (fuel' + 1))
      (Expr.moved J.move) := by
  refine .peek (fun t pos stop fresh stop' => ?_) (stuck_refuse _)
  cases t with
  | int _ | float _ | string _ | char _ | name _ => exact .pass (.pure rfl)
  | keyword k =>
    cases k with
    | «true» | «false» | «undefined» => exact .pass (.pure rfl)
    | «func» =>
      refine .pass (.expected (.bind (.items .rparen (.nameFor _) (barred_nil.nameFor _) hfuel [])
        fun params => ?_))
      rw [List.map_id]
      split
      · exact .never fun _ => stuck_refuseAt _ _
      · exact h.block.bind fun body => .pure rfl
    | «import» =>
      refine .pass (.expected (.peek (fun t pos' stop fresh stop' => ?_) (stuck_refuse _)))
      cases t with
      | string module => exact .pass (.expected (.pure rfl))
      | _ => exact .never fun _ => stuck_refuse _
    | _ => exact .never fun _ => stuck_refuse _
  | mark k =>
    cases k with
    | lparen => exact .pass (h.expression.bind fun e => .expected (.pure rfl))
    | lbracket =>
      refine .pass ((h.expression.items .rbracket (barred_nil.expression fuel) hfuel []).bind
        fun items => .pure ?_)
      rw [Expr.moved, Expr.allMoved_eq]
    | lbrace =>
      refine .pass ((h.mapEntry.items .rbrace (barred_nil.mapEntry fuel) hfuel []).bind
        fun entries => .pure ?_)
      rw [Expr.moved, Expr.entriesMoved_eq]
    | _ => exact .never fun _ => stuck_refuse _

theorem Extends.mapEntry_succ :
    J.Replays J.Same false (Parser.mapEntry (fuel + 1)) (Parser.mapEntry (fuel' + 1))
      fun entry => (entry.1, entry.2.moved J.move) := by
  refine .peek (fun t pos stop fresh stop' => ?_) (stuck_refuse _)
  cases t with
  | name key | string key =>
    exact .pass (.expected (h.expression.bind fun value => .pure rfl))
  | _ => exact .never fun _ => stuck_refuse _

theorem Extends.block_succ :
    J.Replays J.Same false (Parser.block (fuel + 1)) (Parser.block (fuel' + 1))
      (Block.moved J.move) := by
  refine .peek (fun t pos stop fresh stop' => ?_) (stuck_refuse _)
  cases t with
  | mark k =>
    cases k with
    | lbrace =>
      refine .pass ((h.blockRest []).bind fun stmts => .pure ?_)
      rw [Block.moved, Stmt.allMoved_eq]
    | _ => exact .never fun _ => stuck_refuse _
  | _ => exact .never fun _ => stuck_refuse _

theorem Extends.blockRest_succ (found : List Stmt) :
    J.Replays J.Same false (Parser.blockRest (fuel + 1) found)
      (Parser.blockRest (fuel' + 1) (found.map (Stmt.moved J.move)))
      (List.map (Stmt.moved J.move)) := by
  have hstuck (fuel : Nat) (found : List Stmt) : Stuck (Parser.blockRest fuel found) [] := by
    cases fuel with
    | zero => exact stuck_unfinished
    | succ fuel => exact fun _ _ hrun => nomatch hrun
  have hnext : J.Replays J.Same false
      (Parser.statement fuel >>= fun s => Parser.blockRest fuel (s :: found))
      (Parser.statement fuel' >>= fun s =>
        Parser.blockRest fuel' (s :: found.map (Stmt.moved J.move)))
      (List.map (Stmt.moved J.move)) :=
    h.statement.bind_passed (fun s => h.blockRest (s :: found)) fun s => hstuck fuel (s :: found)
  refine .peek (fun t pos stop fresh stop' => ?_) (stuck_refuse _)
  cases t with
  | mark k =>
    cases k with
    | rbrace => exact .pass (.pure (List.map_reverse ..).symm)
    | semicolon => exact .pass (h.blockRest found)
    | _ => exact hnext.unseen
  | _ => exact hnext.unseen

theorem Extends.statement_succ :
    J.Replays J.Passed false (Parser.statement (fuel + 1)) (Parser.statement (fuel' + 1))
      (Stmt.moved J.move) := by
  have hclose (s : Stmt) : J.Replays J.Passed false (do Parser.endStatement; Pure.pure s)
      (do Parser.endStatement; Pure.pure (s.moved J.move)) (Stmt.moved J.move) :=
    Replays.endStatement.map fun _ => rfl
  have hsimple : J.Replays J.Passed false
      (Parser.simple fuel >>= fun s => do Parser.endStatement; Pure.pure s)
      (Parser.simple fuel' >>= fun s => do Parser.endStatement; Pure.pure s) (Stmt.moved J.move) :=
    h.simple.bind hclose
  refine .peek (fun t pos stop fresh stop' => ?_) (barred_nil.simple fuel).bind
  cases t with
  | keyword k =>
    cases k with
    | «if» => exact .pass ((h.branch pos).bind fun s => .lastSemicolon rfl)
    | «for» => exact .pass ((h.loop pos).bind fun s => .lastSemicolon rfl)
    | «break» => exact .pass (hclose (.breakLoop pos))
    | «continue» => exact .pass (hclose (.continueLoop pos))
    | «return» =>
      have hvalue : J.Replays J.Passed false
          (Parser.expression fuel >>= fun value => do
            Parser.endStatement
            Pure.pure (Stmt.returnValue pos (some value)))
          (Parser.expression fuel' >>= fun value => do
            Parser.endStatement
            Pure.pure (Stmt.returnValue (J.move pos) (some value))) (Stmt.moved J.move) :=
        h.expression.bind fun value => hclose (.returnValue pos (some value))
      refine .pass (.sameLine (fun t pos' stop fresh stop' => ?_) (hclose (.returnValue pos none)))
      cases t with
      | mark k =>
        cases k with
        | rbrace | semicolon => exact (hclose (.returnValue pos none)).unseen
        | _ => exact hvalue.unseen
      | _ => exact hvalue.unseen
    | «export» => exact .pass (h.expression.bind fun value => hclose (.exportValue pos value))
    | _ => exact hsimple.unseen
  | mark k =>
    cases k with
    | lbrace => exact (h.block.bind fun body => .lastSemicolon (by rfl)).unseen
    | _ => exact hsimple.unseen
  | _ => exact hsimple.unseen

/-- What follows a first expression that no definition is made to: it is assigned to, or stands alone. -/
def assigned (fuel : Nat) (target : Expr) : P Stmt := do
  match ← assignment? with
  | none => Pure.pure (.expr target)
  | some op =>
    skip
    if target.isTarget then
      let value ← Parser.expression fuel
      Pure.pure (.assign target.pos op target value)
    else refuseAt target.pos .assignTarget

theorem Extends.simple_succ :
    J.Replays J.Same false (Parser.simple (fuel + 1)) (Parser.simple (fuel' + 1))
      (Stmt.moved J.move) := by
  refine h.expression.bind fun target => ?_
  have hassign : J.Replays J.Same false (assigned fuel target)
      (assigned fuel' (target.moved J.move)) (Stmt.moved J.move) := by
    refine .assignment (fun op => .pass ?_) (.pure rfl)
    rw [Expr.isTarget_moved, Expr.pos_moved]
    split
    · exact h.expression.bind fun value => .pure rfl
    · exact .never fun _ => stuck_refuseAt _ _
  refine .sameLine (fun t pos stop fresh stop' => ?_) hassign
  cases t with
  | mark k =>
    cases k with
    | define =>
      refine .pass ?_
      cases target with
      | name start x => exact h.expression.bind fun value => .pure rfl
      | _ => exact .never fun _ => stuck_refuseAt _ _
    | _ => exact hassign.unseen
  | _ => exact hassign.unseen

theorem Extends.branch_succ (pos : Pos) :
    J.Replays J.Same false (Parser.branch (fuel + 1) pos) (Parser.branch (fuel' + 1) (J.move pos))
      (Stmt.moved J.move) := by
  refine h.expression.bind fun cond => h.block.bind fun body => ?_
  have hend : J.Replays J.Same false (Pure.pure (Stmt.branch pos cond body none) : P Stmt)
    (Pure.pure (.branch (J.move pos) (cond.moved J.move) (body.moved J.move) none))
    (Stmt.moved J.move) := .pure rfl
  refine .look (fun t pos' stop fresh stop' => ?_) hend fun l hl => ?_
  · cases t with
    | keyword k =>
      cases k with
      | «else» =>
        have hblock : J.Replays J.Same false
            (Parser.block fuel >>= fun rest => Pure.pure (.branch pos cond body (some (.block rest))))
            (Parser.block fuel' >>= fun rest => Pure.pure
              (.branch (J.move pos) (cond.moved J.move) (body.moved J.move) (some (.block rest))))
            (Stmt.moved J.move) := h.block.map fun _ => rfl
        refine .pass (.peek (fun t pos' stop fresh stop' => ?_) (barred_nil.block fuel).bind)
        cases t with
        | keyword k =>
          cases k with
          | «if» => exact .pass ((h.branch pos').bind fun rest => .pure rfl)
          | _ => exact hblock.unseen
        | _ => exact hblock.unseen
      | _ => exact hend.unseen
    | _ => exact hend.unseen
  · obtain ⟨t, pos, stop, fresh⟩ := l
    cases t with
    | keyword k =>
      cases k with
      | «else» => exact absurd rfl (J.whole _ hl)
      | _ => rfl
    | _ => rfl

theorem Extends.loop_succ (pos : Pos) :
    J.Replays J.Same false (Parser.loop (fuel + 1) pos) (Parser.loop (fuel' + 1) (J.move pos))
      (Stmt.moved J.move) := by
  have hendless : J.Replays J.Same false
      (Parser.block fuel >>= fun body => Pure.pure (.loop pos none none none body))
      (Parser.block fuel' >>= fun body => Pure.pure (.loop (J.move pos) none none none body))
      (Stmt.moved J.move) := h.block.map fun _ => rfl
  have hnone : Stuck (Parser.simple fuel) [] := barred_nil.simple fuel
  refine .atMark hendless.unseen (.eat (h.loopRest pos none) ?_ hnone.bind) (stuck_eat _ hnone.bind)
  refine h.simple.bind fun first => .eat (h.loopRest pos (some first)) ?_ ?_
  · cases first with
    | expr cond => exact h.block.map fun _ => rfl
    | _ => exact .never fun _ => stuck_refuseAt _ _
  · cases first with
    | expr cond => exact (barred_nil.block fuel).bind
    | _ => exact stuck_refuseAt _ _

theorem Extends.loopRest_succ (pos : Pos) (init : Option Stmt) :
    J.Replays J.Same false (Parser.loopRest (fuel + 1) pos init)
      (Parser.loopRest (fuel' + 1) (J.move pos) (Stmt.partMoved J.move init))
      (Stmt.moved J.move) := by
  have hbody (cond : Option Expr) (post : Option Stmt) : J.Replays J.Same false
      (Parser.block fuel >>= fun body => Pure.pure (.loop pos init cond post body))
      (Parser.block fuel' >>= fun body => Pure.pure (.loop (J.move pos)
        (Stmt.partMoved J.move init) (cond.map (Expr.moved J.move)) (post.map (Stmt.moved J.move))
        body)) (Stmt.moved J.move) := by
    refine h.block.map fun body => ?_
    rw [Stmt.moved, Expr.partMoved_eq, Stmt.partMoved_eq J.move post]
  have hrest (cond : Option Expr) : J.Replays J.Same false
      (do
        expect .semicolon
        let post ← if ← atMark .lbrace then Pure.pure none else some <$> Parser.simple fuel
        let body ← Parser.block fuel
        Pure.pure (Stmt.loop pos init cond post body))
      (do
        expect .semicolon
        let post ← if ← atMark .lbrace then Pure.pure none else some <$> Parser.simple fuel'
        let body ← Parser.block fuel'
        Pure.pure (.loop (J.move pos) (Stmt.partMoved J.move init) (cond.map (Expr.moved J.move))
          post body)) (Stmt.moved J.move) :=
    .expected (.atMark (hbody cond none).unseen (h.simple.some.bind (hbody cond))
      (barred_nil.simple fuel).some.bind)
  exact .atMark (hrest none).unseen (h.expression.some.bind hrest) (barred_nil.expression fuel).some.bind

end Steps

theorem Extends.succ {fuel fuel' : Nat} (h : J.Extends fuel fuel') (hfuel : fuel ≤ fuel') :
    J.Extends (fuel + 1) (fuel' + 1) where
  expression := h.binary 1
  binary least := h.unary.bind fun left => h.binaryRest least left
  binaryRest least left := h.binaryRest_succ least left
  unary := h.unary_succ
  postfixed := h.primary.bind fun target => h.postfixes target
  postfixes target := h.postfixes_succ hfuel target
  primary := h.primary_succ hfuel
  mapEntry := h.mapEntry_succ
  block := h.block_succ
  blockRest found := h.blockRest_succ found
  statement := h.statement_succ
  simple := h.simple_succ
  branch pos := h.branch_succ pos
  loop pos := h.loop_succ pos
  loopRest pos init := h.loopRest_succ pos init

theorem extends_of_le {fuel fuel' : Nat} (h : fuel ≤ fuel') : J.Extends fuel fuel' := by
  induction fuel generalizing fuel' with
  | zero => exact .zero
  | succ fuel ih =>
    obtain _ | fuel' := fuel'
    · cases h
    have hless := Nat.le_of_succ_le_succ h
    exact (ih hless).succ hless

end Joint

end ScriptEngine.Parser
