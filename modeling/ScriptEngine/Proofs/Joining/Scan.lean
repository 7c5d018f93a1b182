import Mathlib.Data.String.Basic
import ScriptEngine.Proofs.Joining.Moved
/-!
A line break separates tokens: a text that is cut into tokens is cut into the same ones when a line
break and more text follow, and that text is cut as if it stood alone.
-/
namespace ScriptEngine

namespace Token

variable {c quote : Char} {cs more rest raw text : List Char} {t : Token} {p : Char → Bool}

theorem takeWhile_line (hline : p '\n' = false) (cs more : List Char) :
    (cs ++ '\n' :: more).takeWhile p = cs.takeWhile p := by
  have hmore : ('\n' :: more).takeWhile p = [] := List.takeWhile_cons_of_neg (by simp [hline])
  rw [List.takeWhile_append, hmore, List.append_nil]
  split
  · rename_i hall
    exact ((List.takeWhile_prefix p).eq_of_length hall).symm
  · rfl

theorem dropWhile_line (hline : p '\n' = false) (cs more : List Char) :
    (cs ++ '\n' :: more).dropWhile p = cs.dropWhile p ++ '\n' :: more := by
  have hmore : ('\n' :: more).dropWhile p = '\n' :: more :=
    List.dropWhile_cons_of_neg (by simp [hline])
  rw [List.dropWhile_append, hmore]
  split
  · rename_i hnone
    rw [List.isEmpty_iff.mp hnone, List.nil_append]
  · rfl

theorem firstWord_line (cs more : List Char) : firstWord (cs ++ '\n' :: more) = firstWord cs := by
  unfold firstWord
  rw [takeWhile_line rfl]

theorem length_firstWord (cs : List Char) : (firstWord cs).1.length ≤ cs.length := by
  have htake := (List.takeWhile_prefix (l := cs) isWordChar).length_le
  unfold firstWord
  dsimp only
  split <;> exact htake

theorem exponentFront_line (cs more : List Char) :
    exponentFront (cs ++ '\n' :: more) = exponentFront cs := by
  cases cs with
  | nil => rfl
  | cons e rest =>
    have hsign : ((rest ++ '\n' :: more).take 1).filter (fun c => c = '+' || c = '-') =
        (rest.take 1).filter fun c => c = '+' || c = '-' := by
      cases rest <;> rfl
    have hlength : ((rest.take 1).filter fun c => c = '+' || c = '-').length ≤ rest.length :=
      Nat.le_trans (List.length_filter_le ..) (List.length_take_le' 1 rest)
    rw [List.cons_append, exponentFront, exponentFront, hsign,
      List.drop_append_of_le_length hlength, takeWhile_line rfl]

theorem length_exponentFront (cs : List Char) : (exponentFront cs).length ≤ cs.length := by
  cases cs with
  | nil => exact Nat.le_refl 0
  | cons e rest =>
    have hsign : ((rest.take 1).filter fun c => c = '+' || c = '-').length ≤ rest.length :=
      Nat.le_trans (List.length_filter_le ..) (List.length_take_le' 1 rest)
    have hdigits (n : Nat) : ((rest.drop n).takeWhile Char.isDigit).length ≤ rest.length - n := by
      have h := (List.takeWhile_prefix (l := rest.drop n) Char.isDigit).length_le
      rwa [List.length_drop] at h
    rw [exponentFront]
    split
    · rw [List.length_cons, List.length_append, List.length_cons]
      have h := hdigits ((rest.take 1).filter fun c => c = '+' || c = '-').length
      omega
    · exact Nat.zero_le _

/-- The digits behind a point that stands behind the first digits. -/
def firstPlaces (cs : List Char) : List Char :=
  match cs.dropWhile Char.isDigit with
  | '.' :: rest => rest.takeWhile Char.isDigit
  | _ => []

/-- The text of a number with places. -/
def firstDecimal (cs : List Char) : List Char :=
  let mantissa := cs.takeWhile Char.isDigit ++ '.' :: firstPlaces cs
  mantissa ++ exponentFront (cs.drop mantissa.length)

theorem firstNumber_eq (cs : List Char) : firstNumber cs =
    if (firstPlaces cs).isEmpty then
      match Decimal.readInt? (cs.takeWhile Char.isDigit) with
      | some n => .ok (cs.takeWhile Char.isDigit, .int n)
      | none => .error (.number (String.ofList (cs.takeWhile Char.isDigit)))
    else
      match Decimal.readDecimal? (firstDecimal cs) with
      | some x => .ok (firstDecimal cs, .float x)
      | none => .error (.number (String.ofList (firstDecimal cs))) := rfl

theorem firstPlaces_line (cs more : List Char) : firstPlaces (cs ++ '\n' :: more) = firstPlaces cs := by
  unfold firstPlaces
  rw [dropWhile_line rfl]
  rcases cs.dropWhile Char.isDigit with _ | ⟨d, rest⟩
  · rfl
  by_cases hd : d = '.'
  · subst hd
    exact takeWhile_line rfl rest more
  · have hnone (rest : List Char) : (match d :: rest with
        | '.' :: rest => rest.takeWhile Char.isDigit
        | _ => []) = [] := by
      split
      · rename_i heq
        exact absurd (List.cons.inj heq).1 hd
      · rfl
    exact (hnone _).trans (hnone _).symm

theorem length_mantissa (h : firstPlaces cs ≠ []) :
    (cs.takeWhile Char.isDigit ++ '.' :: firstPlaces cs).length ≤ cs.length := by
  have hcs := congrArg List.length (List.takeWhile_append_dropWhile (p := Char.isDigit) (l := cs))
  have hplaces : (firstPlaces cs).length + 1 ≤ (cs.dropWhile Char.isDigit).length := by
    unfold firstPlaces at h ⊢
    split
    · rename_i rest heq
      rw [heq]
      exact Nat.succ_le_succ (List.takeWhile_prefix Char.isDigit).length_le
    · rename_i hno
      split at h
      · exact absurd ‹_› (hno _)
      · exact absurd rfl h
  rw [List.length_append] at hcs
  rw [List.length_append, List.length_cons]
  omega

theorem firstDecimal_line (h : firstPlaces cs ≠ []) (more : List Char) :
    firstDecimal (cs ++ '\n' :: more) = firstDecimal cs := by
  unfold firstDecimal
  dsimp only
  rw [takeWhile_line rfl, firstPlaces_line, List.drop_append_of_le_length (length_mantissa h),
    exponentFront_line]

theorem length_firstDecimal (h : firstPlaces cs ≠ []) : (firstDecimal cs).length ≤ cs.length := by
  have hmantissa := length_mantissa h
  have hexponent := length_exponentFront
    (cs.drop (cs.takeWhile Char.isDigit ++ '.' :: firstPlaces cs).length)
  rw [List.length_drop] at hexponent
  unfold firstDecimal
  rw [List.length_append]
  omega

theorem firstNumber_line (cs more : List Char) :
    firstNumber (cs ++ '\n' :: more) = firstNumber cs := by
  rw [firstNumber_eq, firstNumber_eq, takeWhile_line rfl, firstPlaces_line]
  by_cases hplaces : firstPlaces cs = []
  · rw [hplaces]
    rfl
  · rw [firstDecimal_line hplaces]

theorem length_firstNumber (h : firstNumber cs = .ok (text, t)) : text.length ≤ cs.length := by
  rw [firstNumber_eq] at h
  split at h
  · split at h
    · obtain ⟨rfl, -⟩ := Prod.mk.inj (Except.ok.inj h)
      exact (List.takeWhile_prefix Char.isDigit).length_le
    · cases h
  · rename_i hplaces
    split at h
    · obtain ⟨rfl, -⟩ := Prod.mk.inj (Except.ok.inj h)
      exact length_firstDecimal fun hnone => hplaces (List.isEmpty_iff.mpr hnone)
    · cases h

theorem quotedFrom_line {read : List Char} (h : quotedFrom quote cs read = some raw)
    (more : List Char) :
    quotedFrom quote (cs ++ '\n' :: more) read = some raw ∧
      raw.length + 1 ≤ read.length + cs.length := by
  fun_induction quotedFrom quote cs read with
  | case1 | case3 | case4 | case5 => cases h
  | case2 rest read =>
    obtain rfl := Option.some.inj h
    constructor
    · unfold quotedFrom
      exact if_pos rfl
    · rw [List.length_reverse, List.length_cons]
      omega
  | case6 read d rest hd hquote hline ih =>
    obtain ⟨hrun, hlength⟩ := ih h
    constructor
    · unfold quotedFrom
      rw [List.cons_append, List.cons_append]
      dsimp only
      rw [if_neg hquote, if_neg hline, if_pos rfl, if_neg hd, hrun]
    · rw [List.length_cons, List.length_cons] at hlength ⊢
      omega
  | case7 c rest read hquote hline hescape ih =>
    obtain ⟨hrun, hlength⟩ := ih h
    constructor
    · unfold quotedFrom
      rw [List.cons_append]
      dsimp only
      rw [if_neg hquote, if_neg hline, if_neg hescape, hrun]
    · rw [List.length_cons] at hlength ⊢
      omega

/-- A literal in quotes, from what the characters between them stand for. -/
def firstQuoted (quote : Char) (fault : LexFault) (read : List Char → Option Token)
    (cs : List Char) : Except LexFault (List Char × Token) :=
  match quotedFrom quote cs [] with
  | none => .error fault
  | some raw =>
    match read raw with
    | some t => .ok (quote :: (raw ++ [quote]), t)
    | none => .error fault

theorem firstString_eq (cs : List Char) : firstString cs =
    firstQuoted '"' .string (fun raw => (unescape raw).map fun s => .string (String.ofList s)) cs := by
  unfold firstString firstQuoted
  cases quotedFrom '"' cs [] with
  | none => rfl
  | some raw => cases hraw : unescape raw <;> simp only [hraw] <;> rfl

theorem firstChar_eq (cs : List Char) : firstChar cs =
    firstQuoted '\'' .char (fun raw => match unescape raw with
      | some [c] => some (.char c)
      | _ => none) cs := by
  unfold firstChar firstQuoted
  cases quotedFrom '\'' cs [] with
  | none => rfl
  | some raw => rcases hraw : unescape raw with _ | _ | ⟨c, _ | _⟩ <;> simp only [hraw]

theorem firstQuoted_line {fault : LexFault} {read : List Char → Option Token}
    (h : firstQuoted quote fault read cs = .ok (text, t)) (more : List Char) :
    firstQuoted quote fault read (cs ++ '\n' :: more) = .ok (text, t) ∧
      text.length ≤ cs.length + 1 := by
  unfold firstQuoted at h ⊢
  cases hraw : quotedFrom quote cs [] with
  | none =>
    rw [hraw] at h
    cases h
  | some raw =>
    obtain ⟨hrun, hlength⟩ := quotedFrom_line hraw more
    rw [hraw] at h
    rw [hrun]
    refine ⟨h, ?_⟩
    dsimp only at h
    split at h
    · obtain ⟨rfl, -⟩ := Prod.mk.inj (Except.ok.inj h)
      rw [List.length_nil] at hlength
      rw [List.length_cons, List.length_append, List.length_singleton]
      omega
    · cases h

theorem first?_line {m : Mark} (h : Mark.first? (c :: rest) = some m) (more : List Char) :
    Mark.first? (c :: (rest ++ '\n' :: more)) = some m ∧ m.text.toList.length ≤ rest.length + 1 := by
  -- only an equality sign could make the mark longer
  have hlonger (hne : ∀ tail, rest = '=' :: tail → False) :
      ∀ tail, rest ++ '\n' :: more = '=' :: tail → False := by
    intro tail htail
    cases rest with
    | nil => cases htail
    | cons d r =>
      obtain ⟨rfl, -⟩ := List.cons.inj htail
      exact hne r rfl
  unfold Mark.first? at h
  split at h
  case h_32 => cases h
  all_goals
    rename_i heq
    obtain ⟨rfl, rfl⟩ := List.cons.inj heq
    obtain rfl := Option.some.inj h
    refine ⟨?_, by simp [Mark.text]⟩
    first
    | rfl
    | rw [Mark.first?]
      exact hlonger ‹_›

/-- A line break ends the first token at the latest. -/
theorem first_line (h : first c rest = .ok (text, t)) (more : List Char) :
    first c (rest ++ '\n' :: more) = .ok (text, t) ∧ text.length ≤ rest.length + 1 := by
  unfold first at h ⊢
  by_cases hword : isWordStart c = true
  · rw [if_pos hword] at h ⊢
    rw [← List.cons_append, firstWord_line]
    have hlength := length_firstWord (c :: rest)
    rw [Except.ok.inj h] at hlength
    exact ⟨h, hlength⟩
  rw [if_neg hword] at h ⊢
  by_cases hdigit : c.isDigit = true
  · rw [if_pos hdigit] at h ⊢
    rw [← List.cons_append, firstNumber_line]
    exact ⟨h, length_firstNumber h⟩
  rw [if_neg hdigit] at h ⊢
  split at h
  · rw [if_pos ‹_›]
    rw [firstString_eq] at h ⊢
    exact firstQuoted_line h more
  rw [if_neg ‹_›]
  split at h
  · rw [if_pos ‹_›]
    rw [firstChar_eq] at h ⊢
    exact firstQuoted_line h more
  rw [if_neg ‹_›]
  cases hmark : Mark.first? (c :: rest) with
  | none =>
    rw [hmark] at h
    cases h
  | some m =>
    rw [hmark] at h
    obtain ⟨rfl, rfl⟩ := Prod.mk.inj (Except.ok.inj h)
    obtain ⟨hmore, hlength⟩ := first?_line hmark more
    rw [hmore]
    exact ⟨rfl, hlength⟩

end Token

theorem Pos.advance_shift (bytes lines : Nat) (p : Pos) (c : Char) :
    (p.shift bytes lines).advance c = (p.advance c).shift bytes lines := by
  unfold advance
  split
  · rw [shift, shift, Nat.add_right_comm p.offset, Nat.add_right_comm p.line]
  · rw [shift, shift, Nat.add_right_comm p.offset]

/-- A place behind a text is as far on as the text is long. -/
theorem Pos.after_eq (cs : List Char) (p : Pos) :
    (p.after cs).offset = p.offset + String.utf8Len cs ∧
      (p.after cs).line = p.line + cs.count '\n' := by
  induction cs generalizing p with
  | nil => exact ⟨rfl, rfl⟩
  | cons c cs ih =>
    obtain ⟨hoffset, hline⟩ := ih (p.advance c)
    rw [after, List.foldl_cons, ← after, hoffset, hline, String.utf8Len, List.count_cons]
    unfold advance
    by_cases hc : c = '\n'
    · subst hc
      have hsize : '\n'.utf8Size = 1 := rfl
      simp only [if_pos, BEq.rfl]
      omega
    · simp only [if_neg hc, beq_iff_eq]
      omega

namespace Lexeme

variable {cs more : List Char} {skip : Nat} {pos : Pos} {newline : Bool} {found ls : List Lexeme}

/-- A text is cut on its own, whatever stands on the next line. -/
theorem scanFrom_line (hskip : skip ≤ cs.length)
    (h : scanFrom cs skip pos newline found = (ls, none)) (more : List Char) :
    scanFrom (cs ++ '\n' :: more) skip pos newline found =
      scanFrom more 0 ((pos.after cs).advance '\n') true ls.reverse := by
  induction cs generalizing skip pos newline found with
  | nil =>
    obtain rfl : skip = 0 := Nat.le_zero.mp hskip
    rw [scanFrom] at h
    obtain ⟨rfl, -⟩ := Prod.mk.inj h
    have hspace : Token.isSpace '\n' = true := rfl
    rw [List.nil_append, scanFrom, if_pos hspace, decide_eq_true rfl, Bool.or_true,
      List.reverse_reverse]
    rfl
  | cons c rest ih =>
    cases skip with
    | succ skip =>
      rw [List.cons_append, scanFrom]
      exact ih (Nat.le_of_succ_le_succ hskip) h
    | zero =>
      rw [scanFrom] at h
      rw [List.cons_append, scanFrom]
      split at h
      · rw [if_pos ‹_›]
        exact ih (Nat.zero_le _) h
      rw [if_neg ‹_›]
      have hcomment : (rest ++ '\n' :: more).head? = some '/' ↔ rest.head? = some '/' := by
        cases rest <;> simp
      simp only [hcomment]
      split at h
      · rw [if_pos ‹_›, Token.takeWhile_line (by decide)]
        exact ih (List.takeWhile_prefix _).length_le h
      rw [if_neg ‹_›]
      cases hfirst : Token.first c rest with
      | error fault =>
        rw [hfirst] at h
        cases h
      | ok x =>
        obtain ⟨text, t⟩ := x
        obtain ⟨hmore, hlength⟩ := Token.first_line hfirst more
        rw [hfirst] at h
        rw [hmore]
        exact ih (by omega) h

/-- A text is cut elsewhere as it is at the start, behind what has been found before. -/
theorem scanFrom_shift (bytes lines : Nat) (cs : List Char) (skip : Nat) (pos : Pos) (newline : Bool)
    (before found : List Lexeme) :
    (scanFrom cs skip (pos.shift bytes lines) newline
      (found.map (moved (Pos.shift bytes lines) bytes) ++ before)) =
      (before.reverse ++ (scanFrom cs skip pos newline found).1.map (moved (Pos.shift bytes lines) bytes),
        (scanFrom cs skip pos newline found).2.map (Prod.map (Pos.shift bytes lines) id)) := by
  induction cs generalizing skip pos newline found with
  | nil => simp [scanFrom]
  | cons c rest ih =>
    cases skip with
    | succ skip =>
      rw [scanFrom, scanFrom, Pos.advance_shift]
      exact ih ..
    | zero =>
      rw [scanFrom, scanFrom, Pos.advance_shift]
      split
      · exact ih ..
      split
      · exact ih ..
      cases Token.first c rest with
      | error fault => simp
      | ok x =>
        have hstop : (pos.shift bytes lines).offset + byteLength x.1 =
            pos.offset + byteLength x.1 + bytes := Nat.add_right_comm ..
        dsimp only
        rw [hstop]
        exact ih (x.1.length - 1) (pos.advance c) false
          (⟨x.2, pos, pos.offset + byteLength x.1, newline⟩ :: found)

/-- The first token of a text starts a line. -/
theorem scanFrom_fresh (cs : List Char) (skip : Nat) (pos : Pos) :
    ∀ l ∈ (scanFrom cs skip pos true []).1.head?, l.newlineBefore = true := by
  induction cs generalizing skip pos with
  | nil => exact nofun
  | cons c rest ih =>
    cases skip with
    | succ skip =>
      rw [scanFrom]
      exact ih _ _
    | zero =>
      rw [scanFrom, Bool.true_or]
      split
      · exact ih _ _
      split
      · exact ih _ _
      cases Token.first c rest with
      | error fault => exact nofun
      | ok x =>
        intro l hl
        have hcut := scanFrom_shift 0 0 rest (x.1.length - 1) (pos.advance c) false
          [⟨x.2, pos, pos.offset + byteLength x.1, true⟩] []
        change scanFrom rest (x.1.length - 1) (pos.advance c) false [_] = _ at hcut
        dsimp only at hl
        rw [hcut] at hl
        obtain rfl := Option.some.inj hl
        rfl

/-- Two texts with a line break between them are cut one after the other. -/
theorem scan_line {ms : List Lexeme} (h : scan cs = (ls, none)) (hmore : scan more = (ms, none)) :
    scan (cs ++ '\n' :: more) =
      (ls ++ ms.map (moved (Pos.shift (String.utf8Len cs + 1) (cs.count '\n' + 1))
        (String.utf8Len cs + 1)), none) := by
  have hplace : (Pos.start.after cs).advance '\n' =
      Pos.start.shift (String.utf8Len cs + 1) (cs.count '\n' + 1) := by
    obtain ⟨hoffset, hline⟩ := Pos.after_eq cs .start
    rw [Pos.advance, if_pos rfl, hoffset, hline]
    simp [Pos.shift, Pos.start]
    omega
  have hcut := scanFrom_shift (String.utf8Len cs + 1) (cs.count '\n' + 1) more 0 .start true
    ls.reverse []
  rw [scan] at h hmore
  rw [hmore, List.map_nil, List.nil_append, List.reverse_reverse] at hcut
  rw [scan, scanFrom_line (Nat.zero_le _) h, hplace, hcut]
  rfl

end Lexeme

end ScriptEngine
