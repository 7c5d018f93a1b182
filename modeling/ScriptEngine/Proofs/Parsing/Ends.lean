import Mathlib.Logic.Relation
import ScriptEngine.Proofs.Parsing.Steps
/-!
The parser ends on every row of lexemes. Calls that nest pass a lexeme or go down in rank, so that the
fuel is never used up; and none is passed where none is left.
-/
namespace ScriptEngine.Parser

/-- Fuel for a call and all that nest in it. -/
def Call.bound (c : Call) (input : List Lexeme) : Nat :=
  depthPerToken * input.length + c.rule.rank + 1

/-- A call nests in another one, directly or through others. -/
def NestsDeep (c : Call) (input : List Lexeme) (c' : Call) (input' : List Lexeme) : Prop :=
  Relation.TransGen (fun x y : Call × List Lexeme => Nests x.1 x.2 y.1 y.2) (c, input) (c', input')

variable {c c' : Call} {input input' : List Lexeme} {n m : Nat}

theorem Settles.mono (h : Settles n c input) (hnm : n ≤ m) : Settles m c input := by
  intro own fuel own' fuel' hown hfuel hown' hfuel'
  apply h own fuel own' fuel' <;> omega

theorem Nests.bound_lt (h : Nests c input c' input') : c'.bound input' < c.bound input := by
  have hdepth : depthPerToken = 16 := rfl
  simp only [Call.bound, hdepth]
  rcases h with ⟨hrule, hleft⟩ | ⟨-, hleft⟩
  · have hrank := Rule.rank_lt hrule
    have hlength := hleft.suffix.length_le
    omega
  · have hrank := c'.rule.rank_le
    have hlength := hleft.fewer rfl
    omega

theorem Nests.suffix (h : Nests c input c' input') : input' <:+ input := by
  rcases h with ⟨-, hleft⟩ | ⟨-, hleft⟩ <;> exact hleft.suffix

/-- Every call is settled. -/
theorem settles (c : Call) (input : List Lexeme) : Settles (c.bound input) c input := by
  have hall (n : Nat) : ∀ c input, c.bound input ≤ n → Settles n c input := by
    induction n with
    | zero =>
      intro c input hbound
      simp [Call.bound] at hbound
    | succ n ih =>
      intro c input hbound
      apply Supported.settles
      intro c' input' hnests
      have hlt := hnests.bound_lt
      exact ih c' input' (by omega)
  exact hall _ c input (Nat.le_refl _)

/-- A call that comes up again has passed a lexeme. -/
theorem NestsDeep.left (h : NestsDeep c input c' input') (hrule : c'.rule = c.rule) :
    Left input true input' := by
  have hdeep (x : Call × List Lexeme) (h : Relation.TransGen
      (fun x y : Call × List Lexeme => Nests x.1 x.2 y.1 y.2) (c, input) x) :
      x.1.bound x.2 < c.bound input ∧ x.2 <:+ input := by
    induction h with
    | single hnests => exact ⟨Nests.bound_lt hnests, Nests.suffix hnests⟩
    | tail _ hnests ih =>
      exact ⟨Nat.lt_trans (Nests.bound_lt hnests) ih.1, (Nests.suffix hnests).trans ih.2⟩
  obtain ⟨hlt, hsuffix⟩ := hdeep (c', input') h
  refine ⟨hsuffix, fun _ => ?_⟩
  have hdepth : depthPerToken = 16 := rfl
  simp only [Call.bound, hrule, hdepth] at hlt
  omega

/-- The parser comes to an end with as much fuel as it is given, and more fuel changes nothing. -/
theorem ofLexemes_ends (input : List Lexeme) : Finished (ofLexemes input) ∧
    ∀ fuel, depthPerToken * (input.length + 1) ≤ fuel →
      (statements fuel []).run' input = ofLexemes input := by
  have hbound : (Call.statements []).bound input ≤ depthPerToken * (input.length + 1) := by
    have hdepth : depthPerToken = 16 := rfl
    have hrank : (Call.statements []).rule.rank = 7 := rfl
    simp only [Call.bound, hrank, hdepth]
    omega
  have hsettles := (settles (.statements []) input).mono hbound
  constructor
  · obtain ⟨-, hfinished, -⟩ := hsettles _ _ _ _ (Nat.le_refl _) (Nat.le_refl _) (Nat.le_refl _)
      (Nat.le_refl _)
    intro pos hpos
    change (Prod.fst <$> statements (depthPerToken * (input.length + 1)) [] input) = _ at hpos
    cases hrun : statements (depthPerToken * (input.length + 1)) [] input with
    | error e =>
      rw [hrun] at hpos
      obtain rfl := Except.error.inj hpos
      exact hfinished pos hrun
    | ok x =>
      rw [hrun] at hpos
      cases hpos
  · intro fuel hfuel
    obtain ⟨heq, -⟩ := hsettles fuel fuel _ _ hfuel hfuel (Nat.le_refl _) (Nat.le_refl _)
    exact congrArg (Prod.fst <$> ·) heq

/-- Parsing ends. Whatever the lexemes are, the parser yields a tree or a fault of theirs; a call that
succeeds leaves a part of its input, and less of it if its rule says so; what a call comes to depends
only on the calls that may nest in it; and between a call and another one of its rule in it, as a
round of a loop is in the round before, a lexeme is passed. -/
theorem parsing_ends :
    (∀ input, Finished (ofLexemes input) ∧ ∀ fuel, depthPerToken * (input.length + 1) ≤ fuel →
      (statements fuel []).run' input = ofLexemes input) ∧
    (∀ c input, Settles (Call.bound c input) c input) ∧
    (∀ n c input, Supported n c input → Settles (n + 1) c input) ∧
    (∀ c input c' input', NestsDeep c input c' input' → c'.rule = c.rule → Left input true input') :=
  ⟨ofLexemes_ends, settles, fun _ _ _ => Supported.settles, fun _ _ _ _ => NestsDeep.left⟩

end ScriptEngine.Parser
