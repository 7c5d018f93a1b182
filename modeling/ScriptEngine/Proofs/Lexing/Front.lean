import Mathlib.Data.List.TakeWhile
import ScriptEngine.Proofs.Joining.Scan
import ScriptEngine.Proofs.Printing.Spelling
/-!
The token at the front of a text. It is written in one of the forms that tokens have, no longer front
of the text is, and its own text alone is cut into the same token.
-/
namespace ScriptEngine

namespace Token

/-- What may stand between two marks `quote`: one line, in which a backslash takes the character
behind it along. -/
inductive Quotable (quote : Char) : List Char → Prop where
  | nil : Quotable quote []
  | plain {c : Char} {cs : List Char} : c ≠ quote → c ≠ '\\' → c ≠ '\n' → Quotable quote cs →
      Quotable quote (c :: cs)
  | escape {c : Char} {cs : List Char} : c ≠ '\n' → Quotable quote cs →
      Quotable quote ('\\' :: c :: cs)

/-- The forms in which tokens are written; keywords are words as names are. -/
inductive Written : List Char → Prop where
  | word {c : Char} {cs : List Char} : isWordStart c → (∀ d ∈ cs, isWordChar d) → Written (c :: cs)
  | int {cs : List Char} : Decimal.isNumeral cs → Written cs
  | float {cs : List Char} : IsFloatText cs → Written cs
  | string {raw : List Char} : Quotable '"' raw → Written ('"' :: (raw ++ ['"']))
  | char {raw : List Char} : raw ≠ [] → Quotable '\'' raw → Written ('\'' :: (raw ++ ['\'']))
  | mark (m : Mark) : Written m.text.toList

variable {c quote : Char} {cs more rest raw text : List Char} {t : Token}

theorem apart_nil : Apart [] := by
  rintro c ⟨⟩

theorem firstWord_eq (cs : List Char) : firstWord cs = (cs.takeWhile isWordChar,
    match Keyword.ofText? (String.ofList (cs.takeWhile isWordChar)) with
    | some k => .keyword k
    | none => .name (String.ofList (cs.takeWhile isWordChar))) := by
  unfold firstWord
  cases hk : Keyword.ofText? (String.ofList (cs.takeWhile isWordChar)) <;> simp only [hk]

section Words

theorem takeWhile_word (h : isWordStart c) :
    (c :: rest).takeWhile isWordChar = c :: rest.takeWhile isWordChar :=
  List.takeWhile_cons_of_pos (isWordChar_of_start h)

theorem leads_firstWord (h : isWordStart c) :
    Leads (firstWord (c :: rest)).1 [] (firstWord (c :: rest)).2 := by
  have htake : (firstWord (c :: rest)).1 = (c :: rest).takeWhile isWordChar := by
    rw [firstWord_eq]
  have hagain : firstWord ((firstWord (c :: rest)).1 ++ []) = firstWord (c :: rest) := by
    rw [List.append_nil, htake, firstWord_eq ((c :: rest).takeWhile isWordChar),
      List.takeWhile_idem, firstWord_eq]
  apply leads_word _ hagain
  exact ⟨c, _, htake.trans (takeWhile_word h), h⟩

theorem written_firstWord (h : isWordStart c) : Written (firstWord (c :: rest)).1 := by
  rw [firstWord_eq, takeWhile_word h]
  exact .word h (List.all_eq_true.mp List.all_takeWhile)

end Words

section Numbers

theorem exists_sign (cs : List Char) : ∃ sign behind, cs = sign ++ behind ∧
    (sign = [] ∨ sign = ['+'] ∨ sign = ['-']) ∧
      (cs.take 1).filter (fun c => c = '+' || c = '-') = sign := by
  rcases cs with _ | ⟨c, cs⟩
  · exact ⟨[], [], rfl, Or.inl rfl, rfl⟩
  by_cases hplus : c = '+'
  · exact ⟨['+'], cs, by simp [hplus], Or.inr (Or.inl rfl), by simp [hplus]⟩
  by_cases hminus : c = '-'
  · exact ⟨['-'], cs, by simp [hminus], Or.inr (Or.inr rfl), by simp [hminus]⟩
  · exact ⟨[], c :: cs, rfl, Or.inl rfl, by simp [hplus, hminus]⟩

/-- An exponent is its letter, a sign or none, and the digits behind. -/
theorem exponentFront_cons (e : Char) (cs : List Char) : ∃ sign behind, cs = sign ++ behind ∧
    (sign = [] ∨ sign = ['+'] ∨ sign = ['-']) ∧ exponentFront (e :: cs) =
      if (e = 'e' || e = 'E') && !(behind.takeWhile Char.isDigit).isEmpty then
        e :: (sign ++ behind.takeWhile Char.isDigit)
      else [] := by
  obtain ⟨sign, behind, rfl, hsign, htake⟩ := exists_sign cs
  refine ⟨sign, behind, rfl, hsign, ?_⟩
  rw [exponentFront, htake, List.drop_left]

theorem exponentFront_form (cs : List Char) :
    IsExponent (exponentFront cs) ∧ exponentFront cs <+: cs := by
  rcases cs with _ | ⟨e, cs⟩
  · exact ⟨Or.inl rfl, List.prefix_refl _⟩
  obtain ⟨sign, behind, rfl, hsign, heq⟩ := exponentFront_cons e cs
  rw [heq]
  split
  · rename_i hfull
    simp only [Bool.and_eq_true, Bool.or_eq_true, decide_eq_true_eq] at hfull
    constructor
    · refine Or.inr ⟨e, sign, _, rfl, hfull.1, hsign, ?_⟩
      rw [Decimal.isNumeral, hfull.2, List.all_takeWhile]
      rfl
    · rw [List.prefix_cons_inj, List.prefix_append_right_inj]
      exact List.takeWhile_prefix _
  · exact ⟨Or.inl rfl, List.nil_prefix⟩

section Places

variable {whole : List Char}

theorem takeWhile_point (hwhole : ∀ d ∈ whole, d.isDigit) (rest : List Char) :
    (whole ++ '.' :: rest).takeWhile Char.isDigit = whole := by
  rw [List.takeWhile_append_of_pos hwhole, List.takeWhile_cons_of_neg (by decide), List.append_nil]

theorem firstPlaces_point (hwhole : ∀ d ∈ whole, d.isDigit) (rest : List Char) :
    firstPlaces (whole ++ '.' :: rest) = rest.takeWhile Char.isDigit := by
  have hpoint : (whole ++ '.' :: rest).dropWhile Char.isDigit = '.' :: rest := by
    rw [List.dropWhile_append_of_pos hwhole, List.dropWhile_cons_of_neg (by decide)]
  unfold firstPlaces
  simp only [hpoint]

/-- A number with places: its digits, a point, more digits and the exponent behind them. -/
theorem firstDecimal_point (hwhole : ∀ d ∈ whole, d.isDigit) (rest : List Char) :
    firstDecimal (whole ++ '.' :: rest) = whole ++ '.' ::
      (rest.takeWhile Char.isDigit ++ exponentFront (rest.dropWhile Char.isDigit)) := by
  have hsplit : whole ++ '.' :: rest =
      (whole ++ '.' :: rest.takeWhile Char.isDigit) ++ rest.dropWhile Char.isDigit := by
    rw [List.append_assoc, List.cons_append, List.takeWhile_append_dropWhile]
  unfold firstDecimal
  dsimp only
  rw [takeWhile_point hwhole, firstPlaces_point hwhole, hsplit, List.drop_left, List.append_assoc,
    List.cons_append]

theorem exists_point (h : firstPlaces cs ≠ []) : ∃ whole rest, cs = whole ++ '.' :: rest ∧
    whole = cs.takeWhile Char.isDigit ∧ ∀ d ∈ whole, d.isDigit := by
  obtain ⟨rest, hpoint⟩ : ∃ rest, cs.dropWhile Char.isDigit = '.' :: rest := by
    unfold firstPlaces at h
    split at h
    · rename_i rest hpoint
      exact ⟨rest, hpoint⟩
    · exact absurd rfl h
  refine ⟨_, rest, ?_, rfl, List.all_eq_true.mp List.all_takeWhile⟩
  rw [← hpoint, List.takeWhile_append_dropWhile]

theorem firstDecimal_form (hdigit : cs.takeWhile Char.isDigit ≠ []) (h : firstPlaces cs ≠ []) :
    IsFloatText (firstDecimal cs) ∧ firstDecimal cs <+: cs := by
  obtain ⟨whole, rest, rfl, hwhole, hall⟩ := exists_point h
  obtain ⟨hexponent, hfront⟩ := exponentFront_form (rest.dropWhile Char.isDigit)
  rw [← hwhole] at hdigit
  rw [firstPlaces_point hall] at h
  rw [firstDecimal_point hall]
  constructor
  · refine ⟨whole, _, _, rfl, ?_, ?_, hexponent⟩
    · rw [Decimal.isNumeral, List.all_eq_true.mpr hall]
      simpa using hdigit
    · rw [Decimal.isNumeral, List.all_takeWhile]
      simpa using h
  · rw [List.prefix_append_right_inj, List.prefix_cons_inj]
    have hrest := (List.prefix_append_right_inj (rest.takeWhile Char.isDigit)).mpr hfront
    rwa [List.takeWhile_append_dropWhile] at hrest

end Places

theorem firstNumber_form (hc : c.isDigit) (h : firstNumber (c :: rest) = .ok (text, t)) :
    Leads text [] t ∧ Written text ∧ text <+: c :: rest := by
  have hwhole : (c :: rest).takeWhile Char.isDigit = c :: rest.takeWhile Char.isDigit :=
    List.takeWhile_cons_of_pos hc
  rw [firstNumber_eq] at h
  by_cases hplaces : firstPlaces (c :: rest) = []
  · rw [hplaces, if_pos (by rfl)] at h
    have hall := List.all_takeWhile (p := Char.isDigit) (l := c :: rest)
    have hnone : firstPlaces ((c :: rest).takeWhile Char.isDigit) = [] := by
      unfold firstPlaces
      rw [List.dropWhile_eq_nil_iff.mpr (List.all_eq_true.mp hall)]
    cases hread : Decimal.readInt? ((c :: rest).takeWhile Char.isDigit) with
    | none =>
      rw [hread] at h
      cases h
    | some n =>
      rw [hread] at h
      obtain ⟨rfl, rfl⟩ := Prod.mk.inj (Except.ok.inj h)
      refine ⟨leads_digits ⟨c, _, hwhole, hc⟩ ?_, .int ?_, List.takeWhile_prefix _⟩
      · rw [List.append_nil, firstNumber_eq, hnone, if_pos (by rfl), List.takeWhile_idem, hread]
      · rw [Decimal.isNumeral, hall, hwhole]
        rfl
  · rw [if_neg (by simpa using hplaces)] at h
    obtain ⟨hform, hfront⟩ := firstDecimal_form (by simp [hwhole]) hplaces
    cases hread : Decimal.readDecimal? (firstDecimal (c :: rest)) with
    | none =>
      rw [hread] at h
      cases h
    | some x =>
      rw [hread] at h
      obtain ⟨rfl, rfl⟩ := Prod.mk.inj (Except.ok.inj h)
      have hreadable : Readable (fun _ => firstDecimal (c :: rest)) x := ⟨hform, hread⟩
      exact ⟨leads_float hreadable apart_nil, .float hform, hfront⟩

end Numbers

section Quotes

/-- The raw text of a literal ends at the next quote that no backslash takes along. -/
theorem quotedFrom_form {read : List Char} (h : quotedFrom quote cs read = some raw) :
    ∃ mid behind, raw = read.reverse ++ mid ∧ cs = mid ++ quote :: behind ∧ Quotable quote mid := by
  fun_induction quotedFrom quote cs read with
  | case1 | case3 | case4 | case5 => cases h
  | case2 rest read =>
    obtain rfl := Option.some.inj h
    exact ⟨[], rest, (List.append_nil _).symm, rfl, .nil⟩
  | case6 read d rest hd hquote hline ih =>
    obtain ⟨mid, behind, rfl, rfl, hmid⟩ := ih h
    exact ⟨'\\' :: d :: mid, behind, by simp, rfl, .escape hd hmid⟩
  | case7 c rest read hquote hline hescape ih =>
    obtain ⟨mid, behind, rfl, rfl, hmid⟩ := ih h
    exact ⟨c :: mid, behind, by simp, rfl, .plain hquote hescape hline hmid⟩

theorem quotedFrom_quotable {mid : List Char} (hslash : quote ≠ '\\') (h : Quotable quote mid)
    (behind read : List Char) :
    quotedFrom quote (mid ++ quote :: behind) read = some (read.reverse ++ mid) := by
  induction h generalizing read with
  | nil => rw [List.nil_append, quotedFrom.eq_def, List.append_nil]; simp
  | plain hquote hescape hline _ ih =>
    rw [List.cons_append, quotedFrom.eq_def]
    dsimp only
    rw [if_neg hquote, if_neg hline, if_neg hescape, ih]
    simp
  | escape hline _ ih =>
    rw [List.cons_append, List.cons_append, quotedFrom.eq_def]
    dsimp only
    rw [if_neg hslash.symm, if_neg (by decide), if_pos rfl, if_neg hline, ih]
    simp

variable {fault : LexFault} {read : List Char → Option Token}

theorem firstQuoted_form (hslash : quote ≠ '\\')
    (h : firstQuoted quote fault read cs = .ok (text, t)) : ∃ raw behind,
      text = quote :: (raw ++ [quote]) ∧ cs = raw ++ quote :: behind ∧ Quotable quote raw ∧
        read raw = some t ∧ firstQuoted quote fault read (raw ++ [quote]) = .ok (text, t) := by
  unfold firstQuoted at h ⊢
  cases hraw : quotedFrom quote cs [] with
  | none =>
    rw [hraw] at h
    cases h
  | some raw =>
    rw [hraw] at h
    obtain ⟨mid, behind, hmid, hcs, hquotable⟩ := quotedFrom_form hraw
    obtain rfl : raw = mid := hmid
    dsimp only at h
    cases hread : read raw with
    | none =>
      rw [hread] at h
      cases h
    | some u =>
      rw [hread] at h
      obtain ⟨rfl, rfl⟩ := Prod.mk.inj (Except.ok.inj h)
      refine ⟨raw, behind, rfl, hcs, hquotable, hread, ?_⟩
      rw [quotedFrom_quotable hslash hquotable [] []]
      simp [hread]

/-- Only one quote ends a literal. -/
theorem quotable_unique {raw' behind behind' : List Char} (hslash : quote ≠ '\\')
    (h : Quotable quote raw) (h' : Quotable quote raw')
    (heq : raw ++ quote :: behind = raw' ++ quote :: behind') : raw = raw' := by
  have hraw := quotedFrom_quotable hslash h behind []
  have hraw' := quotedFrom_quotable hslash h' behind' []
  rw [heq, hraw'] at hraw
  exact (Option.some.inj hraw).symm

end Quotes

section Marks

theorem prefix_of_first? {m : Mark} (h : Mark.first? cs = some m) : m.text.toList <+: cs := by
  unfold Mark.first? at h
  split at h
  case h_32 => cases h
  all_goals
    obtain rfl := Option.some.inj h
    exact ⟨_, rfl⟩

theorem length_mark (m : Mark) : m.text.toList.length = 1 ∨ m.text.toList.length = 2 := by
  cases m <;> decide

theorem first?_pair {m : Mark} (h : m.text.toList.length = 2) (behind : List Char) :
    Mark.first? (m.text.toList ++ behind) = some m := by
  cases m <;> first | rfl | exact absurd h (by decide)

/-- No mark is longer than the one found. -/
theorem length_le_first? {m m' : Mark} (h : Mark.first? cs = some m)
    (hfront : m'.text.toList <+: cs) : m'.text.toList.length ≤ m.text.toList.length := by
  obtain ⟨behind, rfl⟩ := hfront
  rcases length_mark m' with hone | htwo
  · have hm := length_mark m
    omega
  · rw [first?_pair htwo] at h
    obtain rfl := Option.some.inj h
    exact Nat.le_refl _

end Marks

section Longest

theorem length_takeWhile_le {p : Char → Bool} (hfront : cs <+: more) (hall : ∀ d ∈ cs, p d) :
    cs.length ≤ (more.takeWhile p).length := by
  obtain ⟨behind, rfl⟩ := hfront
  rw [List.takeWhile_append_of_pos hall, List.length_append]
  omega

theorem length_whole_le (h : firstNumber cs = .ok (text, t)) :
    (cs.takeWhile Char.isDigit).length ≤ text.length := by
  rw [firstNumber_eq] at h
  by_cases hplaces : firstPlaces cs = []
  · rw [hplaces, if_pos (by rfl)] at h
    split at h
    · obtain ⟨rfl, -⟩ := Prod.mk.inj (Except.ok.inj h)
      exact Nat.le_refl _
    · cases h
  · rw [if_neg (by simpa using hplaces)] at h
    split at h
    · obtain ⟨rfl, -⟩ := Prod.mk.inj (Except.ok.inj h)
      obtain ⟨whole, rest, rfl, hwhole, hall⟩ := exists_point hplaces
      rw [firstDecimal_point hall, ← hwhole, List.length_append]
      omega
    · cases h

/-- No exponent is longer than the one found. -/
theorem length_exponent_le {exponent : List Char} (h : IsExponent exponent) (behind : List Char) :
    exponent.length ≤ (exponentFront (exponent ++ behind)).length := by
  rcases h with rfl | ⟨e, sign, digits, rfl, he, hsign, hdigits⟩
  · exact Nat.zero_le _
  obtain ⟨hne, hall⟩ := digits_of_isNumeral hdigits
  have htaken : ((sign ++ (digits ++ behind)).drop sign.length).takeWhile Char.isDigit =
      digits ++ behind.takeWhile Char.isDigit := by
    rw [List.drop_left, List.takeWhile_append_of_pos hall]
  rw [List.cons_append, List.append_assoc]
  unfold exponentFront
  dsimp only
  rw [takeSign hsign hdigits, htaken, if_pos (by simp [he, hne])]
  simp only [List.length_cons, List.length_append]
  omega

theorem length_float_le (h : firstNumber cs = .ok (text, t)) {float : List Char}
    (hfloat : IsFloatText float) (hfront : float <+: cs) : float.length ≤ text.length := by
  obtain ⟨behind, rfl⟩ := hfront
  obtain ⟨whole, places, exponent, rfl, hwhole, hplaces, hexponent⟩ := hfloat
  obtain ⟨-, hwall⟩ := digits_of_isNumeral hwhole
  obtain ⟨hpne, hpall⟩ := digits_of_isNumeral hplaces
  have hassoc : whole ++ '.' :: (places ++ exponent) ++ behind =
      whole ++ '.' :: (places ++ (exponent ++ behind)) := by
    simp
  have htake : (places ++ (exponent ++ behind)).takeWhile Char.isDigit =
      places ++ (exponent ++ behind).takeWhile Char.isDigit :=
    List.takeWhile_append_of_pos hpall
  have hdrop : (places ++ (exponent ++ behind)).dropWhile Char.isDigit =
      (exponent ++ behind).dropWhile Char.isDigit :=
    List.dropWhile_append_of_pos hpall
  rw [hassoc, firstNumber_eq, firstPlaces_point hwall, htake, if_neg (by simp [hpne]),
    firstDecimal_point hwall, htake, hdrop] at h
  split at h
  · obtain ⟨rfl, -⟩ := Prod.mk.inj (Except.ok.inj h)
    have hlength : exponent.length ≤ ((exponent ++ behind).takeWhile Char.isDigit).length +
        (exponentFront ((exponent ++ behind).dropWhile Char.isDigit)).length := by
      rcases hexponent with rfl | ⟨e, sign, digits, rfl, he, hdigits⟩
      · exact Nat.zero_le _
      · have hletter : e.isDigit = false := by
          rcases he with rfl | rfl <;> rfl
        have hdrop' : (e :: (sign ++ digits) ++ behind).dropWhile Char.isDigit =
            e :: (sign ++ digits) ++ behind :=
          List.dropWhile_cons_of_neg (by simp [hletter])
        rw [hdrop']
        have := length_exponent_le (Or.inr ⟨e, sign, digits, rfl, he, hdigits⟩) behind
        omega
    simp only [List.length_append, List.length_cons] at hlength ⊢
    omega
  · cases h

/-- No front of the text that is written as a token is longer than the token found. -/
theorem longest_first (h : first c rest = .ok (text, t)) {front : List Char}
    (hahead : front <+: c :: rest) (hwritten : Written front) : front.length ≤ text.length := by
  have hhead {d : Char} {ds : List Char} (hds : d :: ds <+: c :: rest) : d = c ∧ ds <+: rest :=
    List.cons_prefix_cons.mp hds
  cases hwritten with
  | @word d ds hstart hall =>
    obtain ⟨rfl, -⟩ := hhead hahead
    rw [first, if_pos hstart] at h
    obtain ⟨rfl, -⟩ := Prod.mk.inj ((firstWord_eq _).symm.trans (Except.ok.inj h))
    apply length_takeWhile_le hahead
    exact List.forall_mem_cons.mpr ⟨isWordChar_of_start hstart, hall⟩
  | int hnumeral =>
    obtain ⟨d, ds, rfl, hd⟩ := isNumeral_start hnumeral
    obtain ⟨rfl, -⟩ := hhead hahead
    rw [first, if_neg (by simp [(isWordStart_of_isDigit hd).1]), if_pos hd] at h
    exact Nat.le_trans (length_takeWhile_le hahead (digits_of_isNumeral hnumeral).2)
      (length_whole_le h)
  | float hfloat =>
    obtain ⟨whole, places, exponent, rfl, hwhole, -⟩ := id hfloat
    obtain ⟨d, ds, rfl, hd⟩ := isNumeral_start hwhole
    obtain ⟨rfl, -⟩ := hhead hahead
    rw [first, if_neg (by simp [(isWordStart_of_isDigit hd).1]), if_pos hd] at h
    exact length_float_le h hfloat hahead
  | @string raw hraw =>
    obtain ⟨rfl, behind, hbehind⟩ := hhead hahead
    change firstString rest = _ at h
    rw [firstString_eq] at h
    obtain ⟨raw', behind', rfl, hrest, hraw', -⟩ := firstQuoted_form (by decide) h
    rw [hrest, List.append_assoc] at hbehind
    rw [quotable_unique (by decide) hraw hraw' hbehind]
  | @char raw hne hraw =>
    obtain ⟨rfl, behind, hbehind⟩ := hhead hahead
    change firstChar rest = _ at h
    rw [firstChar_eq] at h
    obtain ⟨raw', behind', rfl, hrest, hraw', -⟩ := firstQuoted_form (by decide) h
    rw [hrest, List.append_assoc] at hbehind
    rw [quotable_unique (by decide) hraw hraw' hbehind]
  | mark m =>
    obtain ⟨d, ds, hlist, -, -, hword, hdigit, hquote, hquote'⟩ := mark_start m
    obtain ⟨rfl, -⟩ := hhead (hlist ▸ hahead)
    rw [first, if_neg (by simp [hword]), if_neg (by simp [hdigit]), if_neg hquote,
      if_neg hquote'] at h
    cases hmark : Mark.first? (d :: rest) with
    | none =>
      rw [hmark] at h
      cases h
    | some m' =>
      rw [hmark] at h
      obtain ⟨rfl, -⟩ := Prod.mk.inj (Except.ok.inj h)
      exact length_le_first? hmark hahead

end Longest

/-- The token found at the front of a text. -/
structure Fronts (text cs : List Char) (t : Token) : Prop where
  leads : Leads text [] t
  within : text <+: cs
  written : Written text
  longest : ∀ front, front <+: cs → Written front → front.length ≤ text.length

theorem first_form (h : first c rest = .ok (text, t)) :
    Leads text [] t ∧ Written text ∧ text <+: c :: rest := by
  unfold first at h
  by_cases hword : isWordStart c = true
  · rw [if_pos hword] at h
    have hfirst := Except.ok.inj h
    have hleads : Leads (firstWord (c :: rest)).1 [] (firstWord (c :: rest)).2 :=
      leads_firstWord hword
    have hwritten : Written (firstWord (c :: rest)).1 := written_firstWord hword
    have hfront : (firstWord (c :: rest)).1 <+: c :: rest := by
      rw [firstWord_eq]
      exact List.takeWhile_prefix _
    rw [hfirst] at hleads hwritten hfront
    exact ⟨hleads, hwritten, hfront⟩
  rw [if_neg hword] at h
  by_cases hdigit : c.isDigit = true
  · rw [if_pos hdigit] at h
    exact firstNumber_form hdigit h
  rw [if_neg hdigit] at h
  split at h
  · rename_i hquote
    subst hquote
    rw [firstString_eq] at h
    obtain ⟨raw, behind, rfl, rfl, hraw, -, hagain⟩ := firstQuoted_form (by decide) h
    refine ⟨⟨'"', raw ++ ['"'], rfl, by decide, by simp, ?_⟩, .string hraw, ⟨behind, by simp⟩⟩
    rw [List.append_nil]
    exact (firstString_eq _).trans hagain
  split at h
  · rename_i hquote
    subst hquote
    rw [firstChar_eq] at h
    obtain ⟨raw, behind, rfl, rfl, hraw, hread, hagain⟩ := firstQuoted_form (by decide) h
    have hne : raw ≠ [] := by
      rintro rfl
      cases hread
    refine ⟨⟨'\'', raw ++ ['\''], rfl, by decide, by simp, ?_⟩, .char hne hraw,
      ⟨behind, by simp⟩⟩
    rw [List.append_nil]
    exact (firstChar_eq _).trans hagain
  cases hmark : Mark.first? (c :: rest) with
  | none =>
    rw [hmark] at h
    cases h
  | some m =>
    rw [hmark] at h
    obtain ⟨rfl, rfl⟩ := Prod.mk.inj (Except.ok.inj h)
    exact ⟨leads_mark m apart_nil, .mark m, prefix_of_first? hmark⟩

theorem fronts_first (h : first c rest = .ok (text, t)) : Fronts text (c :: rest) t := by
  obtain ⟨hleads, hwritten, hwithin⟩ := first_form h
  exact ⟨hleads, hwithin, hwritten, fun front hahead hwritten => longest_first h hahead hwritten⟩

end Token

end ScriptEngine
