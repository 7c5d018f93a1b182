import ScriptEngine.Proofs.Printing.Spelling
/-!
Rows of tokens as text, and texts as rows of tokens. A row that is written with blanks between the
tokens is cut into the same tokens again, with line breaks where they were written.
-/
namespace ScriptEngine

/-- A token, and whether it starts a line. -/
structure Word where
  token : Token
  fresh : Bool

/-- A lexeme apart from its place. -/
def Lexeme.word (l : Lexeme) : Word := ⟨l.token, l.newlineBefore⟩

namespace Word

/-- Words as text, a blank or a line break before each. -/
def render (written : Float → List Char) (ws : List Word) : List Char :=
  ws.flatMap fun w => (if w.fresh then '\n' else ' ') :: w.token.spell written

end Word

namespace Lexeme

variable {written : Float → List Char} {rest text : List Char} {t : Token} {ws : List Word}

theorem scanFrom_skip (cs : List Char) (pos : Pos) (newline : Bool) (found : List Lexeme) :
    scanFrom (cs ++ rest) cs.length pos newline found =
      scanFrom rest 0 (pos.after cs) newline found := by
  induction cs generalizing pos with
  | nil => rfl
  | cons c cs ih => exact ih (pos.advance c)

theorem scanFrom_blank (cs : List Char) (pos : Pos) {newline fresh : Bool}
    (hfresh : newline = true → fresh = true) (found : List Lexeme) :
    scanFrom ((if fresh then '\n' else ' ') :: cs) 0 pos newline found =
      scanFrom cs 0 (pos.advance (if fresh then '\n' else ' ')) fresh found := by
  cases fresh with
  | true => rw [if_pos rfl, scanFrom, if_pos (by decide), decide_eq_true rfl, Bool.or_true]
  | false =>
    have hline : newline = false := Bool.eq_false_iff.mpr fun hn => nomatch hfresh hn
    rw [if_neg (by decide), scanFrom, if_pos (by decide), hline]
    rfl

theorem scanFrom_token (h : Token.Leads text rest t) (pos : Pos) (newline : Bool)
    (found : List Lexeme) :
    ∃ pos' l, l.word = ⟨t, newline⟩ ∧
      scanFrom (text ++ rest) 0 pos newline found = scanFrom rest 0 pos' false (l :: found) := by
  obtain ⟨c, cs, rfl, hspace, hcomment, hfirst⟩ := h
  refine ⟨(pos.advance c).after cs, ⟨t, pos, pos.offset + byteLength (c :: cs), newline⟩, rfl, ?_⟩
  rw [List.cons_append, scanFrom, if_neg (by simp [hspace]), if_neg (by simpa using hcomment), hfirst]
  exact scanFrom_skip cs (pos.advance c) ..

theorem apart_render (written : Float → List Char) (ws : List Word) :
    Token.Apart (Word.render written ws) := by
  intro c hc
  cases ws with
  | nil => cases hc
  | cons w ws =>
    obtain rfl : (if w.fresh then '\n' else ' ') = c := Option.some.inj hc
    cases w.fresh with
    | true => exact .inr rfl
    | false => exact .inl rfl

/-- Words that are written out are read back; the first one of a text starts a line. -/
theorem scanFrom_render (hws : ∀ w ∈ ws, w.token.Sound ∧ w.token.Shown written)
    (pos : Pos) (newline : Bool) (hfresh : newline = true → ∀ w ∈ ws.head?, w.fresh = true)
    (found : List Lexeme) :
    ∃ ls, ls.map word = ws ∧
      scanFrom (Word.render written ws) 0 pos newline found = (found.reverse ++ ls, none) := by
  induction ws generalizing pos newline found with
  | nil => exact ⟨[], rfl, by simp [Word.render, scanFrom]⟩
  | cons w ws ih =>
    obtain ⟨hsound, hshown⟩ := hws w List.mem_cons_self
    have hleads := Token.leads_spell hsound hshown (apart_render written ws)
    have hrest := fun l hl => hws l (List.mem_cons_of_mem w hl)
    rw [Word.render, List.flatMap_cons, List.cons_append]
    have hblank := scanFrom_blank (w.token.spell written ++ Word.render written ws) pos
      (fun hline => hfresh hline w rfl) found
    obtain ⟨pos', l, hword, hscan⟩ := scanFrom_token hleads
      (pos.advance (if w.fresh then '\n' else ' ')) w.fresh found
    obtain ⟨ls, hls, hrestscan⟩ := ih hrest pos' false nofun (l :: found)
    refine ⟨l :: ls, ?_, ?_⟩
    · rw [List.map_cons, hword, hls]
    · refine hblank.trans (hscan.trans (hrestscan.trans ?_))
      rw [List.reverse_cons, List.append_assoc, List.singleton_append]

end Lexeme

end ScriptEngine
