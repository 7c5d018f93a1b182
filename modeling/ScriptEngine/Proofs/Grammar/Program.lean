import ScriptEngine.Proofs.Grammar.Accepts
import ScriptEngine.Proofs.Grammar.Content
import ScriptEngine.Proofs.Grammar.Printed
import ScriptEngine.Proofs.Printing.Program
/-! The parser drops no token and makes none up. -/
namespace ScriptEngine

/-- The parser goes through all tokens of a text, in order and each once. They spell the program that
it yields, as the words do that it is written with; so both are the same tokens but for parentheses,
commas, semicolons and the spelling of map keys. -/
theorem parse_keeps_tokens {file : String} {source : ByteArray} {body : List Stmt}
    (h : parse file source = .ok body) :
    ∃ text lexemes, Utf8.decode source = (text, true) ∧ Lexeme.scan text = (lexemes, none) ∧
      Parser.statements (Parser.depthPerToken * (lexemes.length + 1)) [] lexemes = .ok (body, []) ∧
      Stmt.AllSpells body (lexemes.map Lexeme.token) ∧
      Stmt.AllSpells body (Word.tokens (Stmt.allWords body)) ∧
      Token.content (lexemes.map Lexeme.token) =
        Token.content (Word.tokens (Stmt.allWords body)) := by
  unfold parse at h
  split at h
  · rename_i text hdecode
    obtain ⟨lexemes, hscan, hrun⟩ := parseText_ok h
    obtain ⟨taken, htaken, more, hbody, htext⟩ :=
      (Parser.spends_statements _ []).run lexemes body [] nofun hrun
    obtain rfl : body = more := hbody
    rw [List.append_nil] at htaken
    rw [← htaken] at htext
    have hprinted := Stmt.allSpells_words body
    have hsame := Stmt.agrees_all body _ _ htext hprinted
    exact ⟨text, lexemes, hdecode, hscan, hrun, htext, hprinted, hsame.content⟩
  · cases h

/-- The tokens of `x := ({a: f(1,)});; for ; x; {}`. -/
def looseLexemes : List Lexeme :=
  [⟨.name "x", ⟨0, 1, 1⟩, 1, true⟩, ⟨.mark .define, ⟨2, 1, 3⟩, 4, false⟩,
    ⟨.mark .lparen, ⟨5, 1, 6⟩, 6, false⟩, ⟨.mark .lbrace, ⟨6, 1, 7⟩, 7, false⟩,
    ⟨.name "a", ⟨7, 1, 8⟩, 8, false⟩, ⟨.mark .colon, ⟨8, 1, 9⟩, 9, false⟩,
    ⟨.name "f", ⟨10, 1, 11⟩, 11, false⟩, ⟨.mark .lparen, ⟨11, 1, 12⟩, 12, false⟩,
    ⟨.int 1, ⟨12, 1, 13⟩, 13, false⟩, ⟨.mark .comma, ⟨13, 1, 14⟩, 14, false⟩,
    ⟨.mark .rparen, ⟨14, 1, 15⟩, 15, false⟩, ⟨.mark .rbrace, ⟨15, 1, 16⟩, 16, false⟩,
    ⟨.mark .rparen, ⟨16, 1, 17⟩, 17, false⟩, ⟨.mark .semicolon, ⟨17, 1, 18⟩, 18, false⟩,
    ⟨.mark .semicolon, ⟨18, 1, 19⟩, 19, false⟩, ⟨.keyword .«for», ⟨20, 1, 21⟩, 23, false⟩,
    ⟨.mark .semicolon, ⟨24, 1, 25⟩, 25, false⟩, ⟨.name "x", ⟨26, 1, 27⟩, 27, false⟩,
    ⟨.mark .semicolon, ⟨27, 1, 28⟩, 28, false⟩, ⟨.mark .lbrace, ⟨29, 1, 30⟩, 30, false⟩,
    ⟨.mark .rbrace, ⟨30, 1, 31⟩, 31, false⟩]

/-- `x := ({a: f(1,)});; for ; x; {}` -/
def looseBody : List Stmt :=
  [.define ⟨0, 1, 1⟩ "x" (.map ⟨6, 1, 7⟩
    [("a", .call ⟨11, 1, 12⟩ (.name ⟨10, 1, 11⟩ "f") [.lit ⟨12, 1, 13⟩ (.int 1)])]),
    .loop ⟨20, 1, 21⟩ none (some (.name ⟨26, 1, 27⟩ "x")) none (.mk ⟨29, 1, 30⟩ [])]

/-- What is left out and what is put in on the way: parentheses, a comma, semicolons and the quotes
of a key. -/
theorem parse_keeps_tokens_loose :
    parse "m" "x := (\x7ba: f(1,)\x7d);; for ; x; \x7b\x7d".toUTF8 = .ok looseBody ∧
    ∃ text lexemes,
      Utf8.decode "x := (\x7ba: f(1,)\x7d);; for ; x; \x7b\x7d".toUTF8 = (text, true) ∧
      Lexeme.scan text = (lexemes, none) ∧
      Parser.statements (Parser.depthPerToken * (lexemes.length + 1)) [] lexemes =
        .ok (looseBody, []) ∧
      Stmt.AllSpells looseBody (lexemes.map Lexeme.token) ∧
      Stmt.AllSpells looseBody (Word.tokens (Stmt.allWords looseBody)) ∧
      Token.content (lexemes.map Lexeme.token) =
        Token.content (Word.tokens (Stmt.allWords looseBody)) := by
  have hparse : parse "m" "x := (\x7ba: f(1,)\x7d);; for ; x; \x7b\x7d".toUTF8 = .ok looseBody := by
    have hscan : Lexeme.scan "x := (\x7ba: f(1,)\x7d);; for ; x; \x7b\x7d".toList =
      (looseLexemes, none) := rfl
    have hlexemes : Parser.ofLexemes looseLexemes = .ok looseBody := by cbv
    rw [parse_toUTF8, parseText, hscan]
    dsimp only
    rw [hlexemes]
  exact ⟨hparse, parse_keeps_tokens hparse⟩

end ScriptEngine
