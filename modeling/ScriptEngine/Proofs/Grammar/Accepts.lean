import ScriptEngine.Program.Parser
import ScriptEngine.Proofs.Grammar.Spells
/-!
The parser takes tokens off the front of its input, each of them once, and those that it takes spell
what it yields.
-/
namespace ScriptEngine

theorem Mark.eq_of_binary {m : Mark} {op : BinaryOp} (h : m.binary? = some op) : m = op.mark := by
  cases m <;> cases h <;> rfl

theorem Mark.eq_of_unary {m : Mark} {op : UnaryOp} (h : m.unary? = some op) : m = op.mark := by
  cases m <;> cases h <;> rfl

theorem Mark.eq_of_assignment {m : Mark} {op : Option ArithOp} (h : m.assignment? = some op) :
    m = assignmentMark op := by
  cases m <;> cases h <;> rfl

namespace Parser

open Token (Grouped Listed Keyed Blank)

variable {α β : Type} {p : P α} {f : α → P β} {Φ Φ' : α → List Token → Prop}
  {Ψ : β → List Token → Prop} {seen : Option Token} {t : Token} {fuel : Nat}

/-- Where two parsers that follow one another yield something, each of them does. -/
theorem run_of_bind {input rest : List Lexeme} {b : β} (h : (p >>= f) input = .ok (b, rest)) :
    ∃ a middle, p input = .ok (a, middle) ∧ f a middle = .ok (b, rest) := by
  change (p input >>= fun x => f x.1 x.2) = _ at h
  cases hfirst : p input with
  | error e =>
    rw [hfirst] at h
    cases h
  | ok x =>
    rw [hfirst] at h
    exact ⟨x.1, x.2, rfl, h⟩

/-- The parser takes a row of tokens off the front of the input that is as described, with what it
yields. The first token may have been seen. -/
structure Spends (seen : Option Token) (p : P α) (Φ : α → List Token → Prop) : Prop where
  run : ∀ input a rest, (∀ t ∈ seen, input.head?.map Lexeme.token = some t) →
    p input = .ok (a, rest) → ∃ taken, input = taken ++ rest ∧ Φ a (taken.map Lexeme.token)

namespace Spends

theorem unseen (h : Spends none p Φ) : Spends seen p Φ :=
  ⟨fun input a rest _ hrun => h.run input a rest nofun hrun⟩

theorem imp (h : Spends seen p Φ) (himp : ∀ a ts, Φ a ts → Φ' a ts) : Spends seen p Φ' := by
  refine ⟨fun input a rest hseen hrun => ?_⟩
  obtain ⟨taken, hinput, ha⟩ := h.run input a rest hseen hrun
  exact ⟨taken, hinput, himp _ _ ha⟩

theorem pure {a : α} (h : Φ a []) : Spends seen (pure a : P α) Φ := ⟨fun input _ _ _ hrun => by
  cases hrun
  exact ⟨[], rfl, h⟩⟩

theorem bind (hp : Spends seen p Φ)
    (hf : ∀ a ts, Φ a ts → Spends none (f a) fun b us => Ψ b (ts ++ us)) :
    Spends seen (p >>= f) Ψ := by
  refine ⟨fun input b rest hseen hrun => ?_⟩
  obtain ⟨a, middle, hfirst, hsecond⟩ := run_of_bind hrun
  obtain ⟨taken, hinput, ha⟩ := hp.run input a middle hseen hfirst
  obtain ⟨more, hrest, hb⟩ := (hf a _ ha).run middle b rest nofun hsecond
  exact ⟨taken ++ more, by rw [hinput, hrest, List.append_assoc], by rwa [List.map_append]⟩

theorem refuse (what : Expected) : Spends seen (refuse what : P α) Φ := by
  refine ⟨fun input _ _ _ hrun => ?_⟩
  cases input <;> cases hrun

theorem refuseAt (pos : Pos) (cause : SyntaxCause) : Spends seen (refuseAt pos cause : P α) Φ :=
  ⟨fun _ _ _ _ hrun => nomatch hrun⟩

theorem unfinished : Spends seen (unfinished : P α) Φ := ⟨fun _ _ _ _ hrun => nomatch hrun⟩

theorem ite {c : Prop} [Decidable c] {q : P α} (hp : Spends seen p Φ) (hq : Spends seen q Φ) :
    Spends seen (if c then p else q) Φ := by
  split
  · exact hp
  · exact hq

/-- A look takes nothing, and what is seen is the first token. -/
theorem peek {f : Option Lexeme → P β} (hf : ∀ next, Spends (next.map Lexeme.token) (f next) Ψ) :
    Spends none (Parser.peek? >>= f) Ψ := by
  refine ⟨fun input b rest _ hrun => (hf input.head?).run input b rest (fun t ht => ?_) hrun⟩
  exact ht

theorem sameLine {f : Option Lexeme → P β}
    (hf : ∀ next, Spends (next.map Lexeme.token) (f next) Ψ) :
    Spends none (Parser.sameLine? >>= f) Ψ := by
  refine ⟨fun input b rest _ hrun =>
    (hf (input.head?.filter fun next => !next.newlineBefore)).run input b rest (fun t ht => ?_) hrun⟩
  obtain ⟨l, hl, rfl⟩ := Option.map_eq_some_iff.mp ht
  rw [(Option.filter_eq_some_iff.mp hl).1]
  rfl

/-- The token that was seen is passed. -/
theorem pass {f : Unit → P β} (hf : Spends none (f ()) fun b us => Ψ b (t :: us)) :
    Spends (some t) (Parser.skip >>= f) Ψ := by
  refine ⟨fun input b rest hseen hrun => ?_⟩
  obtain ⟨l, hl, rfl⟩ := Option.map_eq_some_iff.mp (hseen t rfl)
  obtain ⟨more, rfl⟩ := List.head?_eq_some_iff.mp hl
  obtain ⟨taken, hmore, hb⟩ := hf.run more b rest nofun hrun
  exact ⟨l :: taken, by rw [hmore]; rfl, hb⟩

/-- A look for a mark takes nothing. -/
theorem atMark {f : Bool → P β} (m : Mark)
    (htrue : Spends (some (.mark m)) (f true) Ψ) (hfalse : Spends none (f false) Ψ) :
    Spends none (Parser.atMark m >>= f) Ψ := by
  refine ⟨fun input b rest _ hrun => ?_⟩
  change (Parser.atMark m input >>= fun x => f x.1 x.2) = _ at hrun
  unfold Parser.atMark at hrun
  split at hrun
  · rename_i n _ _ _ _ _
    by_cases hn : n = m
    · rw [decide_eq_true hn] at hrun
      exact htrue.run _ b rest (fun t ht => by rw [← Option.some.inj ht, ← hn]; rfl) hrun
    · rw [decide_eq_false hn] at hrun
      exact hfalse.run _ b rest nofun hrun
  · exact hfalse.run _ b rest nofun hrun

theorem eat (m : Mark) :
    Spends none (Parser.eat m) fun b ts => ts = if b then [.mark m] else [] :=
  .atMark m (.pass (.pure rfl)) (.pure rfl)

theorem expect (m : Mark) : Spends none (Parser.expect m) fun _ ts => ts = [.mark m] := by
  refine .bind (.eat m) fun b ts hts => ?_
  cases b with
  | true => exact .pure (by simpa using hts)
  | false => exact .refuse _

/-- A mark that has to come is passed. -/
theorem expected {f : Unit → P β} {m : Mark}
    (hf : Spends none (f ()) fun b us => Ψ b (.mark m :: us)) :
    Spends none (Parser.expect m >>= f) Ψ :=
  .bind (.expect m) fun _ ts hts => by
    rw [hts]
    exact hf

theorem nameFor (what : Expected) : Spends none (Parser.nameFor what) fun x ts => ts = [.name x] := by
  refine .peek fun next => ?_
  split
  · exact .pass (.pure rfl)
  · exact .refuse _

/-- A statement ends with a semicolon or without one. -/
theorem endStatement : Spends none Parser.endStatement fun _ ts => Blank ts := by
  refine .bind (.eat .semicolon) fun b ts hts => ?_
  cases b with
  | true =>
    obtain rfl : ts = [.mark .semicolon] := hts
    exact .pure Token.blank_semicolon
  | false =>
    obtain rfl : ts = [] := hts
    refine .peek fun next => ?_
    split
    · exact .pure Token.blank_nil
    · exact .pure Token.blank_nil
    · exact .ite (.pure Token.blank_nil) (.refuse _)

/-- A look for an operator takes nothing. -/
theorem operator {least : Nat} {f : Option (BinaryOp × Pos) → P β} (hnone : Spends none (f none) Ψ)
    (hsome : ∀ op pos, Spends (some (.mark op.mark)) (f (some (op, pos))) Ψ) :
    Spends none (Parser.operator? least >>= f) Ψ := by
  have hrest {g : Option Lexeme → P (Option (BinaryOp × Pos))}
      (hg : ∀ next, Spends (next.map Lexeme.token) (g next >>= f) Ψ) :
      Spends none ((Parser.sameLine? >>= g) >>= f) Ψ := by
    rw [bind_assoc]
    exact .sameLine hg
  refine hrest fun next => ?_
  split
  · rename_i m pos _ _
    split
    · rename_i op hop
      obtain rfl := Mark.eq_of_binary hop
      split
      · exact hsome op pos
      · exact hnone.unseen
    · exact hnone.unseen
  · exact hnone.unseen

/-- A look for an assignment sign takes nothing. -/
theorem assignment {f : Option (Option ArithOp) → P β} (hnone : Spends none (f none) Ψ)
    (hsome : ∀ op, Spends (some (.mark (assignmentMark op))) (f (some op)) Ψ) :
    Spends none (Parser.assignment? >>= f) Ψ := by
  have hrest {g : Option Lexeme → P (Option (Option ArithOp))}
      (hg : ∀ next, Spends (next.map Lexeme.token) (g next >>= f) Ψ) :
      Spends none ((Parser.sameLine? >>= g) >>= f) Ψ := by
    rw [bind_assoc]
    exact .sameLine hg
  refine hrest fun next => ?_
  split
  · rename_i m _ _ _
    change Spends _ (f m.assignment?) Ψ
    cases hm : m.assignment? with
    | none => exact hnone.unseen
    | some op =>
      obtain rfl := Mark.eq_of_assignment hm
      exact hsome op
  · exact hnone.unseen

theorem some (hp : Spends seen p Φ) : Spends seen (some <$> p) fun found ts =>
    ∃ a, found = Option.some a ∧ Φ a ts :=
  hp.bind fun _ ts ha => .pure ⟨_, rfl, by rwa [List.append_nil]⟩

/-- Items between commas are taken one after the other. -/
theorem items (close : Mark) (hp : Spends none p Φ) (fuel : Nat) (found : List α) :
    Spends none (items close p fuel found) fun all ts =>
      ∃ more, all = found.reverse ++ more ∧ Listed close (more.map Φ) ts := by
  induction fuel generalizing found with
  | zero => exact .unfinished
  | succ fuel ih =>
    refine .bind (.eat close) fun closed ts hts => ?_
    cases closed with
    | true =>
      obtain rfl : ts = [.mark close] := hts
      exact .pure ⟨[], (List.append_nil _).symm, .nil⟩
    | false =>
      obtain rfl : ts = [] := hts
      refine hp.bind fun a us ha => .bind (.eat .comma) fun comma vs hvs => ?_
      cases comma with
      | true =>
        obtain rfl : vs = [.mark .comma] := hvs
        refine (ih (a :: found)).imp fun all ws hall => ?_
        obtain ⟨more, rfl, hmore⟩ := hall
        exact ⟨a :: more, by simp, .cons ha hmore⟩
      | false =>
        obtain rfl : vs = [] := hvs
        exact .bind (.expect close) fun _ ws hws => .pure ⟨[a], by simp, by
          rw [hws]
          exact .last ha⟩

end Spends

/-- With so many calls that nest, the tokens that the parser takes spell what it yields. -/
structure Accepts (fuel : Nat) : Prop where
  expression : Spends none (expression fuel) Expr.Spells
  binary : ∀ least, Spends none (binary fuel least) Expr.Spells
  binaryRest : ∀ least left, Spends none (binaryRest fuel least left) fun e us =>
    ∀ ts, left.Spells ts → e.Spells (ts ++ us)
  unary : Spends none (unary fuel) Expr.Spells
  postfixed : Spends none (postfixed fuel) Expr.Spells
  postfixes : ∀ target, Spends none (postfixes fuel target) fun e us =>
    ∀ ts, target.Spells ts → e.Spells (ts ++ us)
  primary : Spends none (primary fuel) Expr.Spells
  mapEntry : Spends none (mapEntry fuel) fun entry => Keyed entry.1 entry.2.Spells
  block : Spends none (block fuel) Block.Spells
  blockRest : ∀ found, Spends none (blockRest fuel found) fun all ts =>
    ∃ more us, all = found.reverse ++ more ∧ Stmt.AllSpells more us ∧ ts = us ++ [.mark .rbrace]
  statement : Spends none (statement fuel) fun s ts => ∃ us vs, s.Spells us ∧ Blank vs ∧ ts = us ++ vs
  simple : Spends none (simple fuel) Stmt.Spells
  branch : ∀ pos, Spends none (branch fuel pos) fun s ts => s.Spells (.keyword .«if» :: ts)
  loop : ∀ pos, Spends none (loop fuel pos) fun s ts => s.Spells (.keyword .«for» :: ts)
  loopRest : ∀ pos init, Spends none (loopRest fuel pos init) fun s ts =>
    ∀ us, Stmt.PartSpells init us → s.Spells (.keyword .«for» :: (us ++ .mark .semicolon :: ts))

theorem Accepts.zero : Accepts 0 := by
  constructor <;> intros <;> exact .unfinished

section Steps

variable (h : Accepts fuel)
include h

theorem Accepts.binaryRest_succ (least : Nat) (left : Expr) :
    Spends none (Parser.binaryRest (fuel + 1) least left) fun e us =>
      ∀ ts, left.Spells ts → e.Spells (ts ++ us) := by
  refine .operator (.pure fun ts hts => by rwa [List.append_nil]) fun op pos => .pass ?_
  refine (h.binary _).bind fun right us hright => (h.binaryRest _ _).imp fun e vs he ts hleft => ?_
  have hboth := he (ts ++ .mark op.mark :: us) (.bare ⟨ts, us, hleft, hright, rfl⟩)
  rwa [List.append_assoc] at hboth

theorem Accepts.unary_succ : Spends none (Parser.unary (fuel + 1)) Expr.Spells := by
  refine .peek fun next => ?_
  split
  · rename_i m _ _ _
    split
    · rename_i op hop
      obtain rfl := Mark.eq_of_unary hop
      exact .pass (h.unary.bind fun e us he => .pure (.bare ⟨us, he, by rw [List.append_nil]⟩))
    · exact h.postfixed.unseen
  · exact h.postfixed.unseen

theorem Accepts.postfixes_succ (target : Expr) :
    Spends none (Parser.postfixes (fuel + 1) target) fun e us =>
      ∀ ts, target.Spells ts → e.Spells (ts ++ us) := by
  refine .sameLine fun next => ?_
  split
  · refine .pass ((h.expression.items .rparen fuel []).bind fun args us hargs =>
      (h.postfixes _).imp fun e vs he ts htarget => ?_)
    obtain ⟨_, rfl, hargs⟩ := hargs
    have hcall := he (ts ++ .mark .lparen :: us)
      (.bare ⟨ts, us, htarget, by rwa [Expr.pieces_eq], rfl⟩)
    rwa [List.append_assoc] at hcall
  · refine .pass (h.expression.bind fun index us hindex => .expected ?_)
    refine (h.postfixes _).imp fun e vs he ts htarget => ?_
    have helement := he (ts ++ .mark .lbracket :: (us ++ [.mark .rbracket]))
      (.bare ⟨ts, us, htarget, hindex, rfl⟩)
    simpa using helement
  · refine .pass (.bind (.nameFor _) fun x us hx => (h.postfixes _).imp fun e vs he ts htarget => ?_)
    have hfield := he (ts ++ [.mark .dot, .name x]) (.bare ⟨ts, htarget, rfl⟩)
    simpa [hx] using hfield
  · exact Spends.pure (fun ts hts => by rwa [List.append_nil])

theorem Accepts.primary_succ : Spends none (Parser.primary (fuel + 1)) Expr.Spells := by
  refine .peek fun next => ?_
  split
  iterate 8 exact .pass (.pure (.bare rfl))
  · exact .pass (h.expression.bind fun e us he => .expected (.pure (.group he)))
  · refine .pass ((h.expression.items .rbracket fuel []).bind fun items us hitems => .pure ?_)
    obtain ⟨_, rfl, hitems⟩ := hitems
    exact .bare ⟨us, by rwa [Expr.pieces_eq],
      by rw [List.append_nil]⟩
  · refine .pass ((h.mapEntry.items .rbrace fuel []).bind fun entries us hentries => .pure ?_)
    obtain ⟨_, rfl, hentries⟩ := hentries
    exact .bare ⟨us, by rwa [Expr.entryPieces_eq],
      by rw [List.append_nil]⟩
  · refine .pass (.expected (.bind (.items .rparen (.nameFor _) fuel []) fun params us hparams => ?_))
    split
    · exact .refuseAt ..
    · refine h.block.bind fun body vs hbody => .pure ?_
      obtain ⟨_, rfl, hparams⟩ := hparams
      exact .bare ⟨us, vs, hparams, hbody, by rw [List.append_nil]⟩
  · refine .pass (.expected (.peek fun next => ?_))
    split
    · exact .pass (.expected (.pure (.bare rfl)))
    · exact .refuse _
  · exact .refuse _

theorem Accepts.mapEntry_succ :
    Spends none (Parser.mapEntry (fuel + 1)) fun entry => Keyed entry.1 entry.2.Spells := by
  refine .peek fun next => ?_
  split
  · exact .pass (.expected (h.expression.bind fun e us he =>
      .pure ⟨us, he, .inl (by rw [List.append_nil])⟩))
  · exact .pass (.expected (h.expression.bind fun e us he =>
      .pure ⟨us, he, .inr (by rw [List.append_nil])⟩))
  · exact .refuse _

theorem Accepts.block_succ : Spends none (Parser.block (fuel + 1)) Block.Spells := by
  refine .peek fun next => ?_
  split
  · refine .pass ((h.blockRest []).bind fun body ts hbody => .pure ?_)
    obtain ⟨_, us, rfl, hus, rfl⟩ := hbody
    exact ⟨us, hus, by rw [List.append_nil]⟩
  · exact .refuse _

theorem Accepts.blockRest_succ (found : List Stmt) :
    Spends none (Parser.blockRest (fuel + 1) found) fun all ts =>
      ∃ more us, all = found.reverse ++ more ∧ Stmt.AllSpells more us ∧
        ts = us ++ [.mark .rbrace] := by
  refine .peek fun next => ?_
  split
  · exact .refuse _
  · exact .pass (.pure ⟨[], [], (List.append_nil _).symm, Token.blank_nil, rfl⟩)
  · refine .pass ((h.blockRest found).imp fun all ts hall => ?_)
    obtain ⟨more, us, rfl, hus, rfl⟩ := hall
    exact ⟨more, _, rfl, hus.blank Token.blank_semicolon, rfl⟩
  · refine (h.statement.bind fun s ts hs => (h.blockRest _).imp fun all ws hall => ?_).unseen
    obtain ⟨more, us, rfl, hus, rfl⟩ := hall
    obtain ⟨vs, vs', hvs, hvs', rfl⟩ := hs
    exact ⟨s :: more, vs ++ (vs' ++ us), by simp, .cons hvs (hus.blank hvs'), by simp⟩

theorem Accepts.statement_succ : Spends none (Parser.statement (fuel + 1)) fun s ts =>
    ∃ us vs, s.Spells us ∧ Blank vs ∧ ts = us ++ vs := by
  refine .peek fun next => ?_
  split
  · refine .pass ((h.branch _).bind fun s us hs => .bind (.eat .semicolon) fun b vs hvs => .pure ?_)
    exact ⟨_, vs, hs, Token.blank_eaten hvs, by simp⟩
  · refine .pass ((h.loop _).bind fun s us hs => .bind (.eat .semicolon) fun b vs hvs => .pure ?_)
    exact ⟨_, vs, hs, Token.blank_eaten hvs, by simp⟩
  · refine (h.block.bind fun body us hbody => .bind (.eat .semicolon) fun b vs hvs => .pure ?_).unseen
    exact ⟨us, vs, hbody, Token.blank_eaten hvs, by simp⟩
  · exact .pass (.bind .endStatement fun _ vs hvs => .pure ⟨[_], vs, rfl, hvs, by simp⟩)
  · exact .pass (.bind .endStatement fun _ vs hvs => .pure ⟨[_], vs, rfl, hvs, by simp⟩)
  · refine .pass (.sameLine fun next => ?_)
    have hnone (pos : Pos) : Spends none (do
        Parser.endStatement
        Pure.pure (Stmt.returnValue pos none)) fun s ts => ∃ us vs, s.Spells us ∧ Blank vs ∧
          .keyword .«return» :: ts = us ++ vs :=
      .bind .endStatement fun _ vs hvs => .pure ⟨[_], vs, ⟨[], rfl, rfl⟩, hvs, by simp⟩
    split
    iterate 3 exact (hnone _).unseen
    · refine (h.expression.bind fun e us he => .bind .endStatement fun _ vs hvs => .pure ?_).unseen
      exact ⟨_ :: us, vs, ⟨us, he, rfl⟩, hvs, by simp⟩
  · refine .pass (h.expression.bind fun e us he => .bind .endStatement fun _ vs hvs => .pure ?_)
    exact ⟨_ :: us, vs, ⟨us, he, rfl⟩, hvs, by simp⟩
  · refine (h.simple.bind fun s us hs => .bind .endStatement fun _ vs hvs => .pure ?_).unseen
    exact ⟨us, vs, hs, hvs, by simp⟩

theorem Accepts.simple_succ : Spends none (Parser.simple (fuel + 1)) Stmt.Spells := by
  refine h.expression.bind fun target us htarget => .sameLine fun next => ?_
  split
  · refine .pass ?_
    split
    · refine h.expression.bind fun e vs he => .pure ?_
      exact ⟨us, vs, htarget, he, by rw [List.append_nil]⟩
    · exact .refuseAt ..
  · refine Spends.unseen (.assignment (.pure ?_) fun op => .pass ?_)
    · rwa [List.append_nil]
    · split
      · refine h.expression.bind fun e vs he => .pure ?_
        exact ⟨us, vs, htarget, he, by rw [List.append_nil]⟩
      · exact .refuseAt ..

theorem Accepts.branch_succ (pos : Pos) : Spends none (Parser.branch (fuel + 1) pos) fun s ts =>
    s.Spells (.keyword .«if» :: ts) := by
  refine h.expression.bind fun cond us hcond => h.block.bind fun body vs hbody => .peek fun next => ?_
  have hbranch (orElse : Option Stmt) (ws : List Token) (hws : Stmt.ElseSpells orElse ws) :
      (Stmt.branch pos cond body orElse).Spells (.keyword .«if» :: (us ++ (vs ++ ws))) :=
    ⟨us, vs, ws, hcond, hbody, hws, rfl⟩
  split
  · refine .pass (.peek fun next => ?_)
    split
    · refine .pass ((h.branch _).bind fun s ws hs => .pure (hbranch (some s) _ ?_))
      exact ⟨_, hs, by rw [List.append_nil]⟩
    · refine Spends.unseen (h.block.bind fun other ws hother => .pure (hbranch (some _) _ ?_))
      exact ⟨ws, hother, by rw [List.append_nil]⟩
  · exact .pure (hbranch none [] rfl)

theorem Accepts.loop_succ (pos : Pos) : Spends none (Parser.loop (fuel + 1) pos) fun s ts =>
    s.Spells (.keyword .«for» :: ts) := by
  refine .atMark .lbrace (h.block.bind fun body vs hbody => .pure ?_).unseen ?_
  · exact ⟨[], vs, .inl ⟨rfl, rfl, rfl⟩, hbody, by rw [List.append_nil]; rfl⟩
  refine .bind (.eat .semicolon) fun b ts hts => ?_
  cases b with
  | true =>
    obtain rfl : ts = [.mark .semicolon] := hts
    exact (h.loopRest pos none).imp fun s us hs => hs [] rfl
  | false =>
    obtain rfl : ts = [] := hts
    refine h.simple.bind fun first us hfirst => .bind (.eat .semicolon) fun b ts hts => ?_
    cases b with
    | true =>
      obtain rfl : ts = [.mark .semicolon] := hts
      exact (h.loopRest pos (some first)).imp fun s vs hs => hs us hfirst
    | false =>
      obtain rfl : ts = [] := hts
      cases first with
      | expr cond =>
        refine h.block.bind fun body vs hbody => .pure ?_
        exact ⟨us, vs, .inl ⟨rfl, rfl, hfirst⟩, hbody, by simp⟩
      | _ => exact .refuseAt ..

theorem Accepts.loopRest_succ (pos : Pos) (init : Option Stmt) :
    Spends none (Parser.loopRest (fuel + 1) pos init) fun s ts =>
      ∀ us, Stmt.PartSpells init us → s.Spells (.keyword .«for» :: (us ++ .mark .semicolon :: ts)) := by
  have hbody (cond : Option Expr) (post : Option Stmt) (cs ps : List Token)
      (hcond : Expr.PartSpells cond cs) (hpost : Stmt.PartSpells post ps) : Spends none (do
        let body ← Parser.block fuel
        Pure.pure (Stmt.loop pos init cond post body)) fun s ts =>
          ∀ us, Stmt.PartSpells init us → s.Spells (.keyword .«for» ::
            (us ++ .mark .semicolon :: (cs ++ .mark .semicolon :: (ps ++ ts)))) :=
    h.block.bind fun body vs hbody => .pure fun us hinit =>
      ⟨_, vs, .inr ⟨us, cs, ps, hinit, hcond, hpost, rfl⟩, hbody, by simp⟩
  have hrest (cond : Option Expr) (cs : List Token) (hcond : Expr.PartSpells cond cs) :
      Spends none (do
        Parser.expect .semicolon
        let post ← if ← Parser.atMark .lbrace then Pure.pure none else some <$> Parser.simple fuel
        let body ← Parser.block fuel
        Pure.pure (Stmt.loop pos init cond post body)) fun s ts =>
          ∀ us, Stmt.PartSpells init us → s.Spells (.keyword .«for» ::
            (us ++ .mark .semicolon :: (cs ++ ts))) :=
    .expected (.atMark .lbrace (Spends.unseen (hbody cond none cs [] hcond rfl))
      (.bind h.simple.some fun _ ps ⟨_, hpost, hps⟩ => hpost ▸ hbody cond _ cs ps hcond hps))
  exact .atMark .semicolon (Spends.unseen (hrest none [] rfl))
    (.bind h.expression.some fun _ cs ⟨_, hcond, hcs⟩ => hcond ▸ hrest _ cs hcs)

end Steps

theorem Accepts.succ (h : Accepts fuel) : Accepts (fuel + 1) where
  expression := h.binary 1
  binary least := h.unary.bind fun left us hleft => (h.binaryRest least left).imp fun _ _ he =>
    he us hleft
  binaryRest least left := h.binaryRest_succ least left
  unary := h.unary_succ
  postfixed := h.primary.bind fun target us htarget => (h.postfixes target).imp fun _ _ he =>
    he us htarget
  postfixes target := h.postfixes_succ target
  primary := h.primary_succ
  mapEntry := h.mapEntry_succ
  block := h.block_succ
  blockRest found := h.blockRest_succ found
  statement := h.statement_succ
  simple := h.simple_succ
  branch pos := h.branch_succ pos
  loop pos := h.loop_succ pos
  loopRest pos init := h.loopRest_succ pos init

theorem accepts (fuel : Nat) : Accepts fuel := by
  induction fuel with
  | zero => exact .zero
  | succ fuel ih => exact ih.succ

/-- A whole text is taken to its end. -/
theorem spends_statements (fuel : Nat) (found : List Stmt) :
    Spends none (statements fuel found) fun all ts =>
      ∃ more, all = found.reverse ++ more ∧ Stmt.AllSpells more ts := by
  induction fuel generalizing found with
  | zero => exact .unfinished
  | succ fuel ih =>
    refine .peek fun next => ?_
    split
    · exact .pure ⟨[], (List.append_nil _).symm, Token.blank_nil⟩
    · refine .pass ((ih found).imp fun all ts hall => ?_)
      obtain ⟨more, rfl, hmore⟩ := hall
      exact ⟨more, rfl, hmore.blank Token.blank_semicolon⟩
    · refine Spends.unseen ((accepts fuel).statement.bind fun s ts hs => (ih _).imp fun all us hall => ?_)
      obtain ⟨more, rfl, hmore⟩ := hall
      obtain ⟨vs, ws, hvs, hws, rfl⟩ := hs
      exact ⟨s :: more, by simp, by simpa using Stmt.AllSpells.cons hvs (hmore.blank hws)⟩

theorem rest_of_statements {found all : List Stmt} {input rest : List Lexeme}
    (h : statements fuel found input = .ok (all, rest)) : rest = [] := by
  induction fuel generalizing found input with
  | zero => cases h
  | succ fuel ih =>
    obtain ⟨next, _, hpeek, h⟩ := run_of_bind h
    obtain ⟨hnext, rfl⟩ := Prod.mk.inj (Except.ok.inj hpeek)
    split at h
    · obtain ⟨-, rfl⟩ := Prod.mk.inj (Except.ok.inj h)
      exact List.head?_eq_none_iff.mp hnext
    · obtain ⟨_, _, -, h⟩ := run_of_bind h
      exact ih h
    · obtain ⟨_, _, -, h⟩ := run_of_bind h
      exact ih h

end Parser

theorem Parser.ofLexemes_ok {input rest : List Lexeme} {body : List Stmt}
    (h : statements (depthPerToken * (input.length + 1)) [] input = .ok (body, rest)) :
    ofLexemes input = .ok body := by
  change (statements _ [] input >>= fun x => pure x.1) = _
  rw [h]
  rfl

/-- A text that is read as a program is cut into tokens, and the parser goes through all of them. -/
theorem parseText_ok {file : String} {text : List Char} {body : List Stmt}
    (h : parseText file text = .ok body) :
    ∃ lexemes, Lexeme.scan text = (lexemes, none) ∧
      Parser.statements (Parser.depthPerToken * (lexemes.length + 1)) [] lexemes = .ok (body, []) := by
  unfold parseText at h
  split at h
  · cases h
  · rename_i lexemes hscan
    refine ⟨lexemes, hscan, ?_⟩
    cases hrun : Parser.statements (Parser.depthPerToken * (lexemes.length + 1)) [] lexemes with
    | error fault =>
      have hfault : Parser.ofLexemes lexemes = .error fault := by
        change (Parser.statements _ [] lexemes >>= fun x => pure x.1) = _
        rw [hrun]
        rfl
      rw [hfault] at h
      cases h
    | ok result =>
      obtain ⟨all, rest⟩ := result
      obtain rfl := Parser.rest_of_statements hrun
      rw [Parser.ofLexemes_ok hrun] at h
      cases h
      rfl

/-- A text is read as a program if it is cut into tokens through which the parser goes. -/
theorem parseText_of_statements {file : String} {text : List Char} {body : List Stmt}
    {lexemes : List Lexeme} (hscan : Lexeme.scan text = (lexemes, none))
    (hrun : Parser.statements (Parser.depthPerToken * (lexemes.length + 1)) [] lexemes =
      .ok (body, [])) : parseText file text = .ok body := by
  rw [parseText, hscan]
  dsimp only
  rw [Parser.ofLexemes_ok hrun]

end ScriptEngine
