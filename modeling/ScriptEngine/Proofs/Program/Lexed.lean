import ScriptEngine.Token.Lexeme
/-!
What the lexer promises of the tokens it finds: a name is a word that is no keyword, and a number
has no sign.
-/
namespace ScriptEngine

namespace Token

/-- A word that is no keyword. -/
structure IsName (x : String) : Prop where
  start : ∃ c cs, x.toList = c :: cs ∧ isWordStart c
  chars : ∀ c ∈ x.toList, isWordChar c
  free : Keyword.ofText? x = none

/-- What is true of the tokens that a text is cut into: names are no keywords, and numbers have no
sign. -/
def Sound : Token → Prop
  | name x => IsName x
  | int n => 0 ≤ n.toInt
  | _ => True

variable {cs rest text : List Char} {c : Char} {t : Token}

theorem isWordChar_of_start (h : isWordStart c) : isWordChar c := by
  simp only [isWordStart, isWordChar, Char.isAlphanum, Bool.or_eq_true] at h ⊢
  rcases h with h | h
  · exact .inl (.inl h)
  · exact .inr h

theorem digits_of_isNumeral (h : Decimal.isNumeral cs) : cs ≠ [] ∧ ∀ c ∈ cs, c.isDigit := by
  simpa [Decimal.isNumeral] using h

theorem splitSign_of_isNumeral (h : Decimal.isNumeral cs) : Decimal.splitSign cs = (false, cs) := by
  unfold Decimal.splitSign
  split
  · exact absurd ((digits_of_isNumeral h).2 '+' List.mem_cons_self) (by decide)
  · exact absurd ((digits_of_isNumeral h).2 '-' List.mem_cons_self) (by decide)
  · rfl

theorem sound_firstWord (h : isWordStart c) (rest : List Char) :
    (firstWord (c :: rest)).2.Sound := by
  have hword : (c :: rest).takeWhile isWordChar = c :: rest.takeWhile isWordChar :=
    List.takeWhile_cons_of_pos (isWordChar_of_start h)
  unfold firstWord
  dsimp only
  cases hk : Keyword.ofText? (String.ofList ((c :: rest).takeWhile isWordChar)) with
  | some k => trivial
  | none =>
    refine ⟨⟨c, rest.takeWhile isWordChar, ?_, h⟩, ?_, hk⟩
    · rw [String.toList_ofList, hword]
    · rw [String.toList_ofList]
      exact List.all_eq_true.mp List.all_takeWhile

theorem readInt?_nonneg {n : Int64} (hcs : Decimal.isNumeral cs) (h : Decimal.readInt? cs = some n) :
    0 ≤ n.toInt := by
  simp only [Decimal.readInt?, splitSign_of_isNumeral hcs, Decimal.readNat?, if_pos hcs,
    Option.bind_eq_bind, Option.bind_some, Bool.false_eq_true, if_false] at h
  by_cases hmax : Text.digitsValue cs ≤ Int64.maxValue.toInt.natAbs
  · rw [if_pos hmax] at h
    have hvalue : Int64.maxValue.toInt.natAbs = 2 ^ 63 - 1 := rfl
    obtain rfl := Option.some.inj h
    rw [Int64.toInt_ofNat_of_lt (by omega)]
    omega
  · rw [if_neg hmax] at h
    cases h

theorem sound_firstNumber (hc : c.isDigit) (h : firstNumber (c :: rest) = .ok (text, t)) :
    t.Sound := by
  have hwhole : Decimal.isNumeral ((c :: rest).takeWhile Char.isDigit) := by
    rw [Decimal.isNumeral, List.all_takeWhile, List.takeWhile_cons_of_pos hc]
    rfl
  unfold firstNumber at h
  extract_lets whole places at h
  by_cases hplaces : places.isEmpty = true
  · rw [if_pos hplaces] at h
    split at h
    · rename_i n hread
      obtain rfl : Token.int n = t := congrArg Prod.snd (Except.ok.inj h)
      exact readInt?_nonneg hwhole hread
    · cases h
  · rw [if_neg hplaces] at h
    split at h
    · rename_i x _
      obtain rfl : Token.float x = t := congrArg Prod.snd (Except.ok.inj h)
      trivial
    · cases h

theorem sound_firstString (h : firstString rest = .ok (text, t)) : t.Sound := by
  unfold firstString at h
  split at h
  · cases h
  · split at h
    · cases h
      trivial
    · cases h

theorem sound_firstChar (h : firstChar rest = .ok (text, t)) : t.Sound := by
  unfold firstChar at h
  split at h
  · cases h
  · split at h
    · cases h
      trivial
    · cases h

theorem sound_first (h : first c rest = .ok (text, t)) : t.Sound := by
  unfold first at h
  by_cases hword : isWordStart c = true
  · rw [if_pos hword] at h
    have hfirst := sound_firstWord hword rest
    rw [Except.ok.inj h] at hfirst
    exact hfirst
  rw [if_neg hword] at h
  by_cases hdigit : c.isDigit = true
  · rw [if_pos hdigit] at h
    exact sound_firstNumber hdigit h
  rw [if_neg hdigit] at h
  split at h
  · exact sound_firstString h
  split at h
  · exact sound_firstChar h
  split at h
  · cases h
    trivial
  · cases h

end Token

namespace Lexeme

/-- The tokens of a text are sound. -/
theorem sound_scanFrom (cs : List Char) (n : Nat) (pos : Pos) (newline : Bool) (found : List Lexeme)
    (hfound : ∀ l ∈ found, l.token.Sound) :
    ∀ l ∈ (scanFrom cs n pos newline found).1, l.token.Sound := by
  have hreverse {found : List Lexeme} (h : ∀ l ∈ found, l.token.Sound) :
      ∀ l ∈ found.reverse, l.token.Sound := fun l hl => h l (List.mem_reverse.mp hl)
  fun_induction scanFrom cs n pos newline found with
  | case1 => exact hreverse hfound
  | case2 _ _ _ _ _ _ ih | case3 _ _ _ _ _ _ ih | case4 _ _ _ _ _ _ _ ih => exact ih hfound
  | case5 c rest pos newline found _ _ text token hfirst lexeme ih =>
    exact ih (List.forall_mem_cons.mpr ⟨Token.sound_first hfirst, hfound⟩)
  | case6 => exact hreverse hfound

theorem sound_scan (cs : List Char) : ∀ l ∈ (scan cs).1, l.token.Sound :=
  sound_scanFrom cs 0 .start true [] (by simp)

end Lexeme

end ScriptEngine
