import ScriptEngine.Proofs.Program.Lexed
/-!
Tokens as text. A token that is written out and followed by a blank is the first token of that text.
-/
namespace ScriptEngine

namespace Token

/-- A character as it stands between two marks `quote`. -/
def escape (quote c : Char) : List Char :=
  if c = '\n' then ['\\', 'n'] else if c = '\\' || c = quote then ['\\', c] else [c]

def quoted (quote : Char) (cs : List Char) : List Char :=
  quote :: (cs.flatMap (escape quote) ++ [quote])

/-- A token as text. How a float is written is a parameter. -/
def spell (written : Float → List Char) : Token → List Char
  | keyword word => word.text.toList
  | mark sign => sign.text.toList
  | name text => text.toList
  | int n => Text.decimalDigits n.toNatClampNeg
  | float x => written x
  | string text => quoted '"' text.toList
  | char c => quoted '\'' [c]

/-- The end of a float's text: nothing, or an exponent with its digits. -/
def IsExponent (cs : List Char) : Prop :=
  cs = [] ∨ ∃ e sign digits, cs = e :: (sign ++ digits) ∧ (e = 'e' ∨ e = 'E') ∧
    (sign = [] ∨ sign = ['+'] ∨ sign = ['-']) ∧ Decimal.isNumeral digits

/-- The text of a float: a point between digits, perhaps with an exponent. -/
def IsFloatText (cs : List Char) : Prop :=
  ∃ whole places exponent, cs = whole ++ '.' :: (places ++ exponent) ∧ Decimal.isNumeral whole ∧
    Decimal.isNumeral places ∧ IsExponent exponent

/-- A float is written in the form of float tokens, and its text reads back as the same number. -/
structure Readable (written : Float → List Char) (x : Float) : Prop where
  form : IsFloatText (written x)
  reads : Decimal.readDecimal? (written x) = some x

/-- If the token is a float, it is readable. -/
def Shown (written : Float → List Char) : Token → Prop
  | float x => Readable written x
  | _ => True

/-- What follows is blank. -/
def Apart (rest : List Char) : Prop := ∀ c ∈ rest.head?, c = ' ' ∨ c = '\n'

variable {written : Float → List Char} {rest cs : List Char} {quote c : Char} {t : Token}

theorem Apart.takeWhile {p : Char → Bool} (h : Apart rest) (hspace : p ' ' = false)
    (hline : p '\n' = false) : rest.takeWhile p = [] := by
  cases rest with
  | nil => rfl
  | cons c rest =>
    rcases h c rfl with rfl | rfl
    · rw [List.takeWhile_cons_of_neg (by simp [hspace])]
    · rw [List.takeWhile_cons_of_neg (by simp [hline])]

theorem Apart.takeWhile_append {p : Char → Bool} (h : Apart rest) (hspace : p ' ' = false)
    (hline : p '\n' = false) (hcs : ∀ c ∈ cs, p c) : (cs ++ rest).takeWhile p = cs := by
  rw [List.takeWhile_append_of_pos hcs, h.takeWhile hspace hline, List.append_nil]

/-- The text starts with the token, whatever blank follows. -/
def Leads (text rest : List Char) (t : Token) : Prop :=
  ∃ c cs, text = c :: cs ∧ isSpace c = false ∧ (c = '/' → (cs ++ rest).head? ≠ some '/') ∧
    first c (cs ++ rest) = .ok (text, t)

section Words

/-- A word is read to its end. -/
theorem firstWord_append {found : Option Keyword} (hapart : Apart rest)
    (hcs : ∀ c ∈ cs, isWordChar c) (hfound : Keyword.ofText? (String.ofList cs) = found) :
    firstWord (cs ++ rest) = (cs, (found.map keyword).getD (.name (String.ofList cs))) := by
  cases found <;> simp [firstWord, hapart.takeWhile_append rfl rfl hcs, hfound]

theorem isSpace_of_start (h : isWordStart c) : isSpace c = false ∧ c ≠ '/' := by
  have hne (d : Char) (hd : isWordStart d = false) : c ≠ d := by
    rintro rfl
    simp [hd] at h
  refine ⟨?_, hne '/' (by decide)⟩
  simp [isSpace, hne ' ' (by decide), hne '\t' (by decide), hne '\r' (by decide),
    hne '\n' (by decide), hne '\x0c' (by decide)]

theorem leads_word (hstart : ∃ c cs', cs = c :: cs' ∧ isWordStart c)
    (h : firstWord (cs ++ rest) = (cs, t)) : Leads cs rest t := by
  obtain ⟨c, cs', rfl, hc⟩ := hstart
  obtain ⟨hspace, hslash⟩ := isSpace_of_start hc
  refine ⟨c, cs', rfl, hspace, fun h => absurd h hslash, ?_⟩
  unfold first
  rw [if_pos hc]
  exact congrArg Except.ok h

theorem leads_name {x : String} (hx : IsName x) (hapart : Apart rest) :
    Leads x.toList rest (.name x) := by
  have hword := firstWord_append hapart hx.chars ((congrArg _ String.ofList_toList).trans hx.free)
  rw [String.ofList_toList] at hword
  exact leads_word hx.start hword

theorem leads_keyword (word : Keyword) (hapart : Apart rest) :
    Leads word.text.toList rest (.keyword word) := by
  have hchars : ∀ c ∈ word.text.toList, isWordChar c :=
    List.all_eq_true.mp (by cases word <;> rfl)
  have hfound : Keyword.ofText? (String.ofList word.text.toList) = some word := by
    rw [String.ofList_toList]
    cases word <;> decide
  have hstart : ∃ c cs, word.text.toList = c :: cs ∧ isWordStart c := by
    cases word <;> exact ⟨_, _, rfl, by decide⟩
  exact leads_word hstart (firstWord_append hapart hchars hfound)

end Words

/-- Marks start as no other token does, and not as a comment does. -/
theorem mark_start (sign : Mark) : ∃ c cs, sign.text.toList = c :: cs ∧ isSpace c = false ∧
    (c = '/' → cs = [] ∨ cs.head? = some '=') ∧ isWordStart c = false ∧ c.isDigit = false ∧
      c ≠ '"' ∧ c ≠ '\'' := by
  cases sign <;> exact ⟨_, _, rfl, by decide⟩

theorem leads_mark (sign : Mark) (hapart : Apart rest) :
    Leads sign.text.toList rest (.mark sign) := by
  obtain ⟨c, cs, hlist, hspace, hcomment, hword, hdigit, hquote, hquote'⟩ := mark_start sign
  have hfirst : Mark.first? (c :: (cs ++ rest)) = some sign := by
    rw [← List.cons_append, ← hlist]
    cases rest with
    | nil => cases sign <;> decide
    | cons d rest =>
      rcases hapart d rfl with rfl | rfl
      · cases sign <;> rfl
      · cases sign <;> rfl
  refine ⟨c, cs, hlist, hspace, fun hslash => ?_, ?_⟩
  · rcases hcomment hslash with rfl | hcs
    · intro hhead
      rcases hapart '/' hhead with h | h <;> cases h
    · rw [List.head?_append, hcs]
      simp
  · unfold first
    rw [if_neg (by simp [hword]), if_neg (by simp [hdigit]), if_neg hquote, if_neg hquote', hfirst]

section Numbers

theorem isNumeral_decimalDigits (n : Nat) : Decimal.isNumeral (Text.decimalDigits n) := by
  have hdigits : ∀ c ∈ Nat.toDigits 10 n, c.isDigit := fun c hc =>
    Nat.isDigit_of_mem_toDigits (by decide) (by decide) hc
  simpa [Decimal.isNumeral, Text.decimalDigits] using hdigits

/-- The digits of a number name it. -/
theorem digitsValue_decimalDigits (n : Nat) : Text.digitsValue (Text.decimalDigits n) = n :=
  Nat.ofDigitChars_ten_toDigits

theorem readInt?_decimalDigits {n : Int64} (hn : 0 ≤ n.toInt) :
    Decimal.readInt? (Text.decimalDigits n.toNatClampNeg) = some n := by
  have hnumeral := isNumeral_decimalDigits n.toNatClampNeg
  have hmax : n.toNatClampNeg ≤ Int64.maxValue.toInt.natAbs := by
    have hlt := n.toNatClampNeg_lt
    have hvalue : Int64.maxValue.toInt.natAbs = 2 ^ 63 - 1 := rfl
    omega
  have hback : Int64.ofNat n.toNatClampNeg = n := by
    rw [← Int64.toInt_inj, Int64.toInt_ofNat_of_lt n.toNatClampNeg_lt]
    change ((n.toInt.toNat : Nat) : Int) = n.toInt
    omega
  simp [Decimal.readInt?, splitSign_of_isNumeral hnumeral, Decimal.readNat?, hnumeral,
    digitsValue_decimalDigits, hmax, hback]

theorem isWordStart_of_isDigit (h : c.isDigit) :
    isWordStart c = false ∧ isSpace c = false ∧ c ≠ '/' := by
  have hne (d : Char) (hd : d.isDigit = false) : c ≠ d := by
    rintro rfl
    simp [hd] at h
  refine ⟨?_, ?_, hne '/' (by decide)⟩
  · have halpha : c.isAlpha = false := by
      delta Char.isAlpha Char.isUpper Char.isLower
      simp only [Char.isDigit, Bool.and_eq_true, decide_eq_true_eq, Bool.or_eq_false_iff, Bool.and_eq_false_iff, decide_eq_false_iff_not,
        ge_iff_le, UInt32.le_iff_toNat_le] at h ⊢
      have hdigits : '0'.val.toNat = 48 ∧ '9'.val.toNat = 57 := by decide
      have hletters : 'A'.val.toNat = 65 ∧ 'a'.val.toNat = 97 := by decide
      omega
    simp [isWordStart, halpha, hne '_' (by decide)]
  · simp [isSpace, hne ' ' (by decide), hne '\t' (by decide), hne '\r' (by decide),
      hne '\n' (by decide), hne '\x0c' (by decide)]

theorem leads_digits (hcs : ∃ c cs', cs = c :: cs' ∧ c.isDigit)
    (h : firstNumber (cs ++ rest) = .ok (cs, t)) : Leads cs rest t := by
  obtain ⟨c, cs', rfl, hc⟩ := hcs
  obtain ⟨hword, hspace, hslash⟩ := isWordStart_of_isDigit hc
  refine ⟨c, cs', rfl, hspace, fun h => absurd h hslash, ?_⟩
  unfold first
  rw [if_neg (by simp [hword]), if_pos hc]
  exact h

theorem isNumeral_start (h : Decimal.isNumeral cs) : ∃ c cs', cs = c :: cs' ∧ c.isDigit := by
  obtain ⟨hne, hall⟩ := digits_of_isNumeral h
  cases cs with
  | nil => exact absurd rfl hne
  | cons c cs' => exact ⟨c, cs', rfl, hall c List.mem_cons_self⟩

theorem leads_int {n : Int64} (hn : 0 ≤ n.toInt) (hapart : Apart rest) :
    Leads (Text.decimalDigits n.toNatClampNeg) rest (.int n) := by
  have hnumeral := isNumeral_decimalDigits n.toNatClampNeg
  have hdigits := (digits_of_isNumeral hnumeral).2
  refine leads_digits (isNumeral_start hnumeral) ?_
  unfold firstNumber
  rw [hapart.takeWhile_append rfl rfl hdigits, List.dropWhile_append_of_pos hdigits]
  have hcases : rest = [] ∨ (∃ more, rest = ' ' :: more) ∨ ∃ more, rest = '\n' :: more := by
    cases rest with
    | nil => exact .inl rfl
    | cons d more =>
      rcases hapart d rfl with rfl | rfl
      · exact .inr (.inl ⟨more, rfl⟩)
      · exact .inr (.inr ⟨more, rfl⟩)
  have hread := readInt?_decimalDigits hn
  rcases hcases with rfl | ⟨more, rfl⟩ | ⟨more, rfl⟩ <;> simp [List.dropWhile, hread]

/-- The sign before the digits of an exponent. -/
theorem takeSign {sign digits : List Char} (hsign : sign = [] ∨ sign = ['+'] ∨ sign = ['-'])
    (hdigits : Decimal.isNumeral digits) (rest : List Char) :
    ((sign ++ (digits ++ rest)).take 1).filter (fun c => c = '+' || c = '-') = sign := by
  rcases hsign with rfl | rfl | rfl
  · obtain ⟨c, cs', rfl, hc⟩ := isNumeral_start hdigits
    have hplus : c ≠ '+' := by
      rintro rfl
      cases hc
    have hminus : c ≠ '-' := by
      rintro rfl
      cases hc
    simp [hplus, hminus]
  · rfl
  · rfl

theorem exponentFront_append (h : IsExponent cs) (hapart : Apart rest) :
    exponentFront (cs ++ rest) = cs := by
  rcases h with rfl | ⟨e, sign, digits, rfl, he, hsign, hdigits⟩
  · cases rest with
    | nil => rfl
    | cons d rest => rcases hapart d rfl with rfl | rfl <;> rfl
  obtain ⟨hne, hall⟩ := digits_of_isNumeral hdigits
  have htaken : ((sign ++ (digits ++ rest)).drop sign.length).takeWhile Char.isDigit = digits := by
    rw [List.drop_left, hapart.takeWhile_append rfl rfl hall]
  rw [List.cons_append, List.append_assoc]
  unfold exponentFront
  dsimp only
  rw [takeSign hsign hdigits, htaken]
  simp [he, hne]

theorem leads_float {x : Float} (h : Readable written x) (hapart : Apart rest) :
    Leads (written x) rest (.float x) := by
  obtain ⟨whole, places, exponent, hform, hwhole, hplaces, hexponent⟩ := h.form
  have hreads := h.reads
  rw [hform] at hreads ⊢
  obtain ⟨hwne, hwall⟩ := digits_of_isNumeral hwhole
  obtain ⟨hpne, hpall⟩ := digits_of_isNumeral hplaces
  refine leads_digits ?_ ?_
  · obtain ⟨c, cs', rfl, hc⟩ := isNumeral_start hwhole
    exact ⟨c, _, rfl, hc⟩
  have hend : (exponent ++ rest).takeWhile Char.isDigit = [] := by
    rcases hexponent with rfl | ⟨e, _, _, rfl, rfl | rfl, -⟩
    · exact hapart.takeWhile rfl rfl
    · rfl
    · rfl
  have hwhole' : (whole ++ '.' :: (places ++ (exponent ++ rest))).takeWhile Char.isDigit = whole := by
    rw [List.takeWhile_append_of_pos hwall, List.takeWhile_cons_of_neg (by decide), List.append_nil]
  have hpoint : (whole ++ '.' :: (places ++ (exponent ++ rest))).dropWhile Char.isDigit =
      '.' :: (places ++ (exponent ++ rest)) := by
    rw [List.dropWhile_append_of_pos hwall, List.dropWhile_cons_of_neg (by decide)]
  have hplaces' : (places ++ (exponent ++ rest)).takeWhile Char.isDigit = places := by
    rw [List.takeWhile_append_of_pos hpall, hend, List.append_nil]
  have hdrop : (whole ++ '.' :: (places ++ (exponent ++ rest))).drop (whole ++ '.' :: places).length =
      exponent ++ rest := by
    rw [← List.cons_append, ← List.append_assoc, List.drop_left]
  have hassoc : whole ++ '.' :: places ++ exponent = whole ++ '.' :: (places ++ exponent) := by simp
  rw [List.append_assoc, List.cons_append, List.append_assoc]
  unfold firstNumber
  dsimp only
  rw [hwhole', hpoint]
  simp only [hplaces']
  rw [if_neg (by simpa using hpne), hdrop, exponentFront_append hexponent hapart, hassoc,
    hreads]

end Numbers

section Quotes

/-- What stands between quotes ends at the closing one. -/
theorem quotedFrom_escape (hslash : quote ≠ '\\') (cs read : List Char) :
    quotedFrom quote (cs.flatMap (escape quote) ++ quote :: rest) read =
      some (read.reverse ++ cs.flatMap (escape quote)) := by
  induction cs generalizing read with
  | nil =>
    rw [List.flatMap_nil, List.nil_append, quotedFrom.eq_def]
    simp
  | cons c cs ih =>
    rw [List.flatMap_cons, List.append_assoc]
    by_cases hc : c = '\n'
    · simp [escape, hc, quotedFrom, hslash.symm, ih]
    by_cases hc' : c = '\\' ∨ c = quote
    · have hescape : escape quote c = ['\\', c] := by simp [escape, hc, hc']
      simp [hescape, quotedFrom, hslash.symm, hc, ih]
    · have hescape : escape quote c = [c] := by simp [escape, hc, hc']
      rw [not_or] at hc'
      rw [hescape, List.singleton_append, quotedFrom.eq_def]
      simp [hc, hc'.1, hc'.2, ih]

/-- Escapes are replaced by what was escaped. -/
theorem unescapeFrom_escape (hquote : quote = '"' ∨ quote = '\'') (cs read : List Char) :
    unescapeFrom (cs.flatMap (escape quote)) read = some (read.reverse ++ cs) := by
  induction cs generalizing read with
  | nil => simp [unescapeFrom]
  | cons c cs ih =>
    rw [List.flatMap_cons]
    by_cases hc : c = '\n'
    · simp [escape, hc, unescapeFrom, unescapeChar?, ih]
    by_cases hc' : c = '\\' ∨ c = quote
    · have hescape : escape quote c = ['\\', c] := by simp [escape, hc, hc']
      have hback : unescapeChar? c = some c := by
        rcases hc' with rfl | rfl
        · rfl
        · rcases hquote with rfl | rfl <;> rfl
      simp [hescape, unescapeFrom, hback, ih]
    · have hescape : escape quote c = [c] := by simp [escape, hc, hc']
      rw [not_or] at hc'
      simp [hescape, unescapeFrom, hc'.1, ih]

theorem leads_string (text : String) : Leads (quoted '"' text.toList) rest (.string text) := by
  refine ⟨'"', _, rfl, by decide, nofun, ?_⟩
  rw [List.append_assoc, List.singleton_append]
  change firstString _ = _
  unfold firstString unescape
  rw [quotedFrom_escape (by decide), List.reverse_nil, List.nil_append]
  dsimp only
  rw [unescapeFrom_escape (.inl rfl), List.reverse_nil, List.nil_append]
  dsimp only
  rw [String.ofList_toList]
  rfl

theorem leads_char (c : Char) : Leads (quoted '\'' [c]) rest (.char c) := by
  refine ⟨'\'', _, rfl, by decide, nofun, ?_⟩
  rw [List.append_assoc, List.singleton_append]
  change firstChar _ = _
  unfold firstChar unescape
  rw [quotedFrom_escape (by decide), List.reverse_nil, List.nil_append]
  dsimp only
  rw [unescapeFrom_escape (.inr rfl)]
  rfl

end Quotes

/-- A token that is written out and followed by a blank is read back. -/
theorem leads_spell (hsound : t.Sound) (hshown : t.Shown written) (hapart : Apart rest) :
    Leads (t.spell written) rest t := by
  cases t with
  | keyword word => exact leads_keyword word hapart
  | mark sign => exact leads_mark sign hapart
  | name x => exact leads_name hsound hapart
  | int n => exact leads_int hsound hapart
  | float x => exact leads_float hshown hapart
  | string text => exact leads_string text
  | char c => exact leads_char c

end Token

end ScriptEngine
