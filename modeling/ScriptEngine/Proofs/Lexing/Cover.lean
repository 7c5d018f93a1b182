import ScriptEngine.Proofs.Lexing.Front
import ScriptEngine.Proofs.Lexing.Lines
import ScriptEngine.Proofs.Printing.Scan
/-!
A text as its tokens and the gaps between them. Nothing is lost, and each token knows its place and
whether a line break stands before it.
-/
namespace ScriptEngine

/-- What separates tokens: blanks, and comments up to the ends of their lines. Only the gap at the
end of a text may end in a comment without a line break. -/
inductive Gap (atEnd : Bool) : List Char → Prop where
  | nil : Gap atEnd []
  | blank {c : Char} {cs : List Char} : Token.isSpace c = true → Gap atEnd cs → Gap atEnd (c :: cs)
  | comment {text cs : List Char} : '\n' ∉ text → Gap atEnd ('\n' :: cs) →
      Gap atEnd ('/' :: '/' :: (text ++ '\n' :: cs))
  | last {text : List Char} : '\n' ∉ text → atEnd = true → Gap atEnd ('/' :: '/' :: text)

/-- A text from its place `pos` on as gaps and lexemes; `newline` tells whether a line break, or
nothing but blanks, stands before it. -/
inductive Cut : Pos → Bool → List Char → List Lexeme → Prop where
  | nil {pos : Pos} {newline : Bool} {gap : List Char} : Gap true gap → Cut pos newline gap []
  | cons {pos : Pos} {newline : Bool} {gap text rest : List Char} {t : Token} {ls : List Lexeme} :
      Gap false gap → t.Fronts text (text ++ rest) →
      Cut ((pos.after gap).after text) false rest ls →
      Cut pos newline (gap ++ (text ++ rest))
        (⟨t, pos.after gap, (pos.after gap).offset + Lexeme.byteLength text,
          newline || gap.contains '\n'⟩ :: ls)

/-- A token's text with the gap before it. -/
structure Piece where
  gap : List Char
  text : List Char

/-- Pieces one behind the other. -/
def Piece.join (ps : List Piece) : List Char := ps.flatMap fun p => p.gap ++ p.text

/-- A lexeme of the text `cs` whose piece stands behind `before`. -/
structure Lexeme.Stands (cs before : List Char) (first : Prop) (p : Piece) (l : Lexeme) : Prop where
  gap : Gap false p.gap
  nonempty : p.text ≠ []
  written : Token.Written p.text
  longest : ∀ front, front <+: cs.drop (before ++ p.gap).length → Token.Written front →
    front.length ≤ p.text.length
  alone : scan p.text = ([⟨l.token, .start, byteLength p.text, true⟩], none)
  offset : l.pos.offset = byteLength (before ++ p.gap)
  line : l.pos.line = 1 + (before ++ p.gap).count '\n'
  column : l.pos.column = 1 + ((before ++ p.gap).reverse.takeWhile (· ≠ '\n')).length
  found : (LineIndex.ofText cs).pos l.pos.offset = l.pos
  stop : l.stop = l.pos.offset + byteLength p.text
  newline : l.newlineBefore = true ↔ first ∨ '\n' ∈ p.gap

namespace Token

variable {c : Char} {cs text : List Char} {t : Token}

/-- A token's text starts with no blank. -/
theorem Fronts.head (h : t.Fronts text cs) : ∃ c rest, text = c :: rest ∧ isSpace c = false := by
  obtain ⟨c, rest, rfl, hspace, -⟩ := h.leads
  exact ⟨c, rest, rfl, hspace⟩

/-- The text of a token is cut into that token. -/
theorem Fronts.scan_eq (h : t.Fronts text cs) :
    Lexeme.scan text = ([⟨t, .start, Lexeme.byteLength text, true⟩], none) := by
  obtain ⟨c, rest, rfl, hspace, hcomment, hfirst⟩ := h.leads
  rw [List.append_nil] at hcomment hfirst
  have hskip := @Lexeme.scanFrom_skip [] rest (Pos.start.advance c) false
    [⟨t, .start, Lexeme.byteLength (c :: rest), true⟩]
  rw [List.append_nil] at hskip
  have hstop : Pos.start.offset + Lexeme.byteLength (c :: rest) = Lexeme.byteLength (c :: rest) :=
    Nat.zero_add _
  rw [Lexeme.scan, Lexeme.scanFrom, if_neg (by simp [hspace]), if_neg (by simpa using hcomment),
    hfirst]
  dsimp only
  rw [hstop, List.length_cons, Nat.add_sub_cancel, hskip]
  rfl

end Token

namespace Lexeme

theorem byteLength_eq (cs : List Char) : byteLength cs = String.utf8Len cs := by
  have hfold (n : Nat) : cs.foldl (fun n c => n + c.utf8Size) n = n + String.utf8Len cs := by
    induction cs generalizing n with
    | nil => rfl
    | cons c cs ih =>
      rw [List.foldl_cons, ih, String.utf8Len]
      omega
  rw [byteLength, hfold, Nat.zero_add]

end Lexeme

namespace Cut

variable {pos : Pos} {newline : Bool} {c : Char} {cs : List Char} {ls : List Lexeme}

theorem blank (hc : Token.isSpace c = true)
    (h : Cut (pos.advance c) (newline || decide (c = '\n')) cs ls) : Cut pos newline (c :: cs) ls := by
  cases h with
  | nil hgap => exact .nil (.blank hc hgap)
  | @cons _ _ gap text rest t ls hgap hfronts hrest =>
    have hcut : Cut pos newline (c :: gap ++ (text ++ rest)) _ := .cons (.blank hc hgap) hfronts hrest
    have hnewline : (newline || (c :: gap).contains '\n') =
        ((newline || decide (c = '\n')) || gap.contains '\n') := by
      rw [List.contains_cons, ← Bool.or_assoc, BEq.comm, beq_eq_decide]
    rw [hnewline] at hcut
    exact hcut

theorem comment {text : List Char} (htext : '\n' ∉ text)
    (hcs : cs = [] ∨ ∃ rest, cs = '\n' :: rest)
    (h : Cut (pos.after ('/' :: '/' :: text)) newline cs ls) :
    Cut pos newline ('/' :: '/' :: (text ++ cs)) ls := by
  cases h with
  | nil hgap =>
    rcases hcs with rfl | ⟨rest, rfl⟩
    · rw [List.append_nil]
      exact .nil (.last htext rfl)
    · exact .nil (.comment htext hgap)
  | @cons _ _ gap token rest t ls hgap hfronts hrest =>
    obtain ⟨d, ds, rfl, hspace⟩ := hfronts.head
    -- the line break belongs to the gap, since no token starts with one
    obtain ⟨gap', rfl⟩ : ∃ gap', gap = '\n' :: gap' := by
      rcases hcs with hnil | ⟨rest', hline⟩
      · simp at hnil
      · cases gap with
        | nil =>
          obtain ⟨rfl, -⟩ := List.cons.inj hline
          cases hspace
        | cons e gap' =>
          obtain ⟨rfl, -⟩ := List.cons.inj hline
          exact ⟨gap', rfl⟩
    have hafter : (pos.after ('/' :: '/' :: text)).after ('\n' :: gap') =
        pos.after ('/' :: '/' :: (text ++ '\n' :: gap')) :=
      (Pos.after_append ..).symm
    have hcontains : ('/' :: '/' :: (text ++ '\n' :: gap')).contains '\n' =
        ('\n' :: gap').contains '\n' := by
      simp
    rw [hafter] at hrest ⊢
    rw [← hcontains]
    have hcut : Cut pos newline ('/' :: '/' :: (text ++ '\n' :: gap') ++ (d :: ds ++ rest)) _ :=
      .cons (.comment htext hgap) hfronts hrest
    simpa using hcut

end Cut

namespace Lexeme

variable {cs : List Char} {pos : Pos} {newline : Bool} {found ls : List Lexeme}

/-- A comment ends where its line does, or with the text. -/
theorem exists_line (cs : List Char) : ∃ line behind, cs = line ++ behind ∧ '\n' ∉ line ∧
    (behind = [] ∨ ∃ rest, behind = '\n' :: rest) ∧ cs.takeWhile (· ≠ '\n') = line := by
  induction cs with
  | nil => exact ⟨[], [], rfl, by simp, Or.inl rfl, rfl⟩
  | cons c cs ih =>
    by_cases hc : c = '\n'
    · subst hc
      exact ⟨[], _, rfl, by simp, Or.inr ⟨cs, rfl⟩, rfl⟩
    · obtain ⟨line, behind, rfl, hline, hbehind, htake⟩ := ih
      refine ⟨c :: line, behind, rfl, ?_, hbehind, ?_⟩
      · intro hmem
        rcases List.mem_cons.mp hmem with heq | hmem
        · exact hc heq.symm
        · exact hline hmem
      · rw [List.takeWhile_cons_of_pos (by simpa using hc), htake]

/-- What the lexer finds are the lexemes of the text. -/
theorem cut_scanFrom (n : Nat) (hn : cs.length ≤ n)
    (h : scanFrom cs 0 pos newline found = (ls, none)) :
    ∃ new, ls = found.reverse ++ new ∧ Cut pos newline cs new := by
  induction n generalizing cs pos newline found with
  | zero =>
    obtain rfl : cs = [] := List.length_eq_zero_iff.mp (by omega)
    rw [scanFrom] at h
    obtain ⟨rfl, -⟩ := Prod.mk.inj h
    exact ⟨[], (List.append_nil _).symm, .nil .nil⟩
  | succ n ih =>
    cases cs with
    | nil =>
      rw [scanFrom] at h
      obtain ⟨rfl, -⟩ := Prod.mk.inj h
      exact ⟨[], (List.append_nil _).symm, .nil .nil⟩
    | cons c rest =>
      rw [List.length_cons] at hn
      rw [scanFrom] at h
      by_cases hspace : Token.isSpace c = true
      · rw [if_pos hspace] at h
        obtain ⟨new, hls, hcut⟩ := ih (by omega) h
        exact ⟨new, hls, hcut.blank hspace⟩
      rw [if_neg hspace] at h
      by_cases hcomment : c = '/' ∧ rest.head? = some '/'
      · rw [if_pos (by simpa using hcomment)] at h
        obtain ⟨rfl, hhead⟩ := hcomment
        obtain ⟨rest, rfl⟩ : ∃ r, rest = '/' :: r := by
          cases rest with
          | nil => cases hhead
          | cons d r => exact ⟨r, by rw [Option.some.inj hhead]⟩
        obtain ⟨line, behind, rfl, hline, hbehind, htake⟩ := exists_line rest
        rw [List.takeWhile_cons_of_pos (by decide), htake, ← List.cons_append,
          scanFrom_skip] at h
        simp only [List.length_cons, List.length_append] at hn
        obtain ⟨new, hls, hcut⟩ := ih (by omega) h
        exact ⟨new, hls, hcut.comment hline hbehind⟩
      rw [if_neg (by simpa using hcomment)] at h
      cases hfirst : Token.first c rest with
      | error fault =>
        rw [hfirst] at h
        cases h
      | ok found' =>
        obtain ⟨text, t⟩ := found'
        have hfronts := Token.fronts_first hfirst
        rw [hfirst] at h
        obtain ⟨behind, hbehind⟩ := hfronts.within
        obtain ⟨d, ds, rfl, hd⟩ := hfronts.head
        obtain ⟨rfl, hrest⟩ : d = c ∧ ds ++ behind = rest := List.cons.inj hbehind
        subst hrest
        dsimp only at h
        rw [List.length_cons, Nat.add_sub_cancel, scanFrom_skip] at h
        rw [List.length_append] at hn
        obtain ⟨new, rfl, hcut⟩ := ih (by omega) h
        refine ⟨_ :: new, ?_, .cons .nil hfronts hcut⟩
        simp [Pos.after]

end Lexeme

namespace Cut

/-- A text in its pieces, behind the text `before`. -/
theorem pieces (before : List Char) {cs : List Char} {ls : List Lexeme}
    (h : Cut (Pos.start.after before) (decide (before = [])) cs ls) :
    ∃ ps tail, cs = Piece.join ps ++ tail ∧ Gap true tail ∧ ps.length = ls.length ∧
      ∀ (i : Nat) (l : Lexeme) (p : Piece), ls[i]? = some l → ps[i]? = some p →
        l.Stands (before ++ cs) (before ++ Piece.join (ps.take i)) (before = [] ∧ i = 0) p := by
  generalize hpos : Pos.start.after before = pos at h
  generalize hnewline : decide (before = []) = newline at h
  induction h generalizing before with
  | nil hgap => exact ⟨[], _, rfl, hgap, rfl, by simp⟩
  | @cons pos newline gap text rest t ls hgap hfronts hrest ih =>
    obtain ⟨c, ds, htext, -⟩ := hfronts.head
    have hne : text ≠ [] := by
      rw [htext]
      exact List.cons_ne_nil _ _
    have hbefore : before ++ (gap ++ text) ≠ [] := by simp [hne]
    obtain ⟨ps, tail, hcs, htail, hlength, hstands⟩ := @ih (before ++ (gap ++ text))
      (by rw [← hpos, Pos.after_append, Pos.after_append]) (by simp [hbefore])
    refine ⟨⟨gap, text⟩ :: ps, tail, ?_, htail, by simp [hlength], ?_⟩
    · rw [hcs]
      simp [Piece.join]
    · intro i l p hl hp
      cases i with
      | zero =>
        obtain rfl := Option.some.inj hl
        obtain rfl := Option.some.inj hp
        have hplace : pos.after gap = Pos.start.after (before ++ gap) := by
          rw [← hpos, Pos.after_append]
        have hdrop : (before ++ (gap ++ (text ++ rest))).drop (before ++ gap).length =
            text ++ rest := by
          rw [← List.append_assoc, List.drop_left]
        have hfound := LineIndex.pos_ofText (before ++ gap) (text ++ rest)
        rw [List.append_assoc] at hfound
        rw [hplace]
        simp only [List.take_zero, Piece.join, List.flatMap_nil, List.append_nil]
        refine ⟨hgap, hne, hfronts.written, ?_, hfronts.scan_eq, ?_, ?_, ?_, hfound, rfl, ?_⟩
        · rw [hdrop]
          exact hfronts.longest
        · rw [Pos.offset_after, Lexeme.byteLength_eq]
        · exact Pos.line_after _
        · exact Pos.column_after _
        · simp [← hnewline]
      | succ i =>
        have hlast := hstands i l p hl hp
        have hfirst : (before ++ (gap ++ text) = [] ∧ i = 0) = (before = [] ∧ i + 1 = 0) := by
          simp [hne]
        rw [hfirst] at hlast
        simpa [Piece.join] using hlast

end Cut

/-- A text that is cut into tokens is its tokens and the gaps between them. -/
theorem Lexeme.scan_covers {cs : List Char} {ls : List Lexeme} (h : scan cs = (ls, none)) :
    ∃ ps tail, cs = Piece.join ps ++ tail ∧ Gap true tail ∧ ps.length = ls.length ∧
      ∀ (i : Nat) (l : Lexeme) (p : Piece), ls[i]? = some l → ps[i]? = some p →
        l.Stands cs (Piece.join (ps.take i)) (i = 0) p := by
  obtain ⟨new, hls, hcut⟩ := cut_scanFrom cs.length (Nat.le_refl _) h
  obtain rfl : ls = new := hls
  obtain ⟨ps, tail, hcs, htail, hlength, hstands⟩ :=
    Cut.pieces [] hcut
  refine ⟨ps, tail, hcs, htail, hlength, fun i l p hl hp => ?_⟩
  simpa using hstands i l p hl hp

/-- Two words with a comment between them that ends in a character of two bytes. -/
theorem Lexeme.scan_covers_comment : ∃ ls, scan ['a', '/', '/', 'é', '\n', ' ', 'b'] = (ls, none) ∧
    ls.map (fun l => (l.pos, l.newlineBefore)) = [(⟨0, 1, 1⟩, true), (⟨7, 2, 2⟩, true)] ∧
      ∃ ps tail, ['a', '/', '/', 'é', '\n', ' ', 'b'] = Piece.join ps ++ tail ∧ Gap true tail ∧
        ps.length = ls.length ∧
          ∀ (i : Nat) (l : Lexeme) (p : Piece), ls[i]? = some l → ps[i]? = some p →
            l.Stands ['a', '/', '/', 'é', '\n', ' ', 'b'] (Piece.join (ps.take i)) (i = 0) p :=
  ⟨_, rfl, rfl, scan_covers rfl⟩

end ScriptEngine
