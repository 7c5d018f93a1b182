import Mathlib
import ScriptEngine.Proofs.Printing.Bytes
import ScriptEngine.Proofs.Printing.Legible
import ScriptEngine.Proofs.Printing.Statements
/-!
Parsing undoes printing: a program that is read from a text, written out and read again is the same
program but for the places of its parts.
-/
namespace ScriptEngine

open Word (sign enclose keyed commas Breaks Leads)
open ScriptEngine.Parser

section Blocks

variable {body : List Stmt} {fuel : Nat} {tail : List Word}

theorem Stmt.breaks_allWords (body : List Stmt) (htail : Breaks tail) :
    Breaks (allWords body ++ tail) := by
  cases body with
  | nil => exact htail
  | cons s rest =>
    rw [allWords, List.append_assoc]
    exact ((s.leads true).append _).breaks

theorem Stmt.takes_blockRest (h : ∀ s ∈ body, s.Reads)
    (hfuel : 16 * ((allWords body).length + 1) ≤ fuel) (found : List Stmt) :
    Takes (Parser.blockRest fuel found) (allWords body ++ [⟨.mark .rbrace, true⟩]) tail
      fun all => all.map unplaced = found.reverse.map unplaced ++ body.map unplaced := by
  induction body generalizing fuel found with
  | nil =>
    obtain _ | fuel := fuel
    · omega
    exact .peek_word rfl fun _ _ => .pass (.pure (by simp))
  | cons s rest ih =>
    obtain ⟨hs, hrest⟩ := List.forall_mem_cons.mp h
    rw [allWords, List.length_append] at hfuel
    obtain _ | fuel := fuel
    · omega
    obtain ⟨⟨t, fresh⟩, ws, hwords, -, hrbrace, hsemicolon, -⟩ := s.leads true
    have hpos : 0 < (s.words true).length := by simp [hwords]
    have hbreaks : Breaks ((allWords rest ++ [⟨.mark .rbrace, true⟩]) ++ tail) := by
      rw [List.append_assoc]
      refine breaks_allWords rest fun w hw => ?_
      obtain rfl : ⟨.mark .rbrace, true⟩ = w := Option.some.inj hw
      exact ⟨rfl, rfl, nofun⟩
    rw [allWords, List.append_assoc]
    refine .peek_word (t := t) (by rw [hwords]; rfl) fun _ _ => ?_
    split
    case h_4 =>
      refine .bind (hs.statement fuel true _ (by omega) hbreaks) fun s' hs' => ?_
      refine (ih hrest (by omega) (s' :: found)).imp fun all hall => ?_
      simpa [hs'] using hall
    all_goals
      rename_i heq
      cases heq
      try simp [Word.isMark] at hrbrace hsemicolon

theorem Block.reads_mk (pos : Pos) (h : ∀ s ∈ body, s.Reads) : (Block.mk pos body).Reads := by
  intro fuel fresh tail hfuel
  rw [words, List.length_cons, List.length_append, List.length_singleton] at hfuel
  obtain _ | fuel := fuel
  · omega
  refine .peek_word rfl fun _ _ => .pass ?_
  refine .last (Stmt.takes_blockRest h (by omega) []) fun all hall => .pure ?_
  rw [unplaced, unplaced, Stmt.allUnplaced_eq, Stmt.allUnplaced_eq]
  simpa using hall

theorem Stmt.takes_statements (h : ∀ s ∈ body, s.Reads)
    (hfuel : 16 * ((allWords body).length + 1) ≤ fuel) (found : List Stmt) :
    Takes (statements fuel found) (allWords body) []
      fun all => all.map unplaced = found.reverse.map unplaced ++ body.map unplaced := by
  induction body generalizing fuel found with
  | nil =>
    obtain _ | fuel := fuel
    · omega
    refine .peek fun next hnext => ?_
    obtain rfl : next = none := by
      cases next with
      | none => rfl
      | some l => exact nomatch hnext l rfl
    exact .pure (by simp)
  | cons s rest ih =>
    obtain ⟨hs, hrest⟩ := List.forall_mem_cons.mp h
    rw [allWords, List.length_append] at hfuel
    obtain _ | fuel := fuel
    · omega
    obtain ⟨⟨t, fresh⟩, ws, hwords, -, -, hsemicolon, -⟩ := s.leads true
    have hpos : 0 < (s.words true).length := by simp [hwords]
    rw [allWords]
    refine .peek_word (t := t) (by rw [hwords]; rfl) fun _ _ => ?_
    split
    case h_3 =>
      refine .bind (hs.statement fuel true _ (by omega) (breaks_allWords rest nofun)) fun s' hs' => ?_
      refine (ih hrest (by omega) (s' :: found)).imp fun all hall => ?_
      simpa [hs'] using hall
    all_goals
      rename_i heq
      cases heq
      try simp [Word.isMark] at hsemicolon

end Blocks

section Reads

mutual

/-- Every expression that a text can spell is read back. -/
theorem Expr.reads : (e : Expr) → e.Written → e.Reads
  | .lit pos value, _ => Expr.reads_lit pos value
  | .name pos x, _ => Expr.reads_name pos x
  | .array _ items, h => Expr.reads_array (Expr.allReads items h.2)
  | .map _ entries, h => Expr.reads_map (Expr.entriesReads entries h.2)
  | .unary _ op e, h => Expr.reads_unary op (e.reads h.2)
  | .binary _ op left right, h => Expr.reads_binary op (left.reads h.2.1) (right.reads h.2.2)
  | .call _ callee args, h => Expr.reads_call (callee.reads h.2.1) (Expr.allReads args h.2.2)
  | .index _ target index, h => Expr.reads_index (target.reads h.2.1) (index.reads h.2.2)
  | .field _ target x, h => Expr.reads_field (target.reads h.2) x
  | .func _ _ body, h => Expr.reads_func h.1.1 (body.reads h.2)
  | .load pos module, _ => Expr.reads_load pos module

theorem Expr.allReads : (items : List Expr) → Expr.AllEvery Expr.Spelled Stmt.Formed items →
    ∀ e ∈ items, e.Reads
  | [], _ => by simp
  | e :: rest, h => List.forall_mem_cons.mpr ⟨e.reads h.1, Expr.allReads rest h.2⟩

theorem Expr.entriesReads : (entries : List (String × Expr)) →
    Expr.EntriesEvery Expr.Spelled Stmt.Formed entries → ∀ entry ∈ entries, entry.2.Reads
  | [], _ => by simp
  | (_, e) :: rest, h => List.forall_mem_cons.mpr ⟨e.reads h.1, Expr.entriesReads rest h.2⟩

theorem Expr.partReads : (part : Option Expr) → Expr.PartEvery Expr.Spelled Stmt.Formed part →
    ∀ e ∈ part, e.Reads
  | none, _ => nofun
  | some e, h => fun _ he => Option.some.inj he ▸ e.reads h

/-- Every statement that a text can spell is read back. -/
theorem Stmt.reads : (s : Stmt) → s.Written → s.Reads
  | .expr e, h => .of_simple rfl (Stmt.reads_simple_expr (e.reads h.2))
  | .define _ x value, h => .of_simple rfl (Stmt.reads_simple_define x (value.reads h.2))
  | .assign _ op target value, h =>
    .of_simple rfl (Stmt.reads_simple_assign op h.1 (target.reads h.2.1) (value.reads h.2.2))
  | .branch _ cond body orElse, h =>
    Stmt.reads_branch h.1 (cond.reads h.2.1) (body.reads h.2.2.1) (Stmt.partReads orElse h.2.2.2)
  | .loop _ init cond post body, h =>
    Stmt.reads_loop (fun s hs => ⟨h.1.1 s hs, Stmt.partReads init h.2.1 s hs⟩)
      (Expr.partReads cond h.2.2.1)
      (fun s hs => ⟨h.1.2 s hs, Stmt.partReads post h.2.2.2.1 s hs⟩) (body.reads h.2.2.2.2)
  | .breakLoop pos, _ => Stmt.reads_break pos
  | .continueLoop pos, _ => Stmt.reads_continue pos
  | .returnValue _ value, h => Stmt.reads_return (Expr.partReads value h.2)
  | .exportValue _ value, h => Stmt.reads_export (value.reads h.2)
  | .block body, h => Stmt.reads_block (body.reads h.2)

theorem Stmt.partReads : (part : Option Stmt) → Stmt.PartEvery Expr.Spelled Stmt.Formed part →
    ∀ s ∈ part, s.Reads
  | none, _ => nofun
  | some s, h => fun _ hs => Option.some.inj hs ▸ s.reads h

theorem Block.reads : (body : Block) → body.Written → body.Reads
  | .mk pos body, h => Block.reads_mk pos (Stmt.allReads body h)

theorem Stmt.allReads : (body : List Stmt) → Stmt.AllEvery Expr.Spelled Stmt.Formed body →
    ∀ s ∈ body, s.Reads
  | [], _ => by simp
  | s :: rest, h => List.forall_mem_cons.mpr ⟨s.reads h.1, Stmt.allReads rest h.2⟩

end

end Reads

/-- What is written of a program that a text can spell is read as the same program, but for the
places of its parts. -/
theorem parseText_print {written : Float → List Char} {body : List Stmt}
    (hwritten : Stmt.AllEvery Expr.Spelled Stmt.Formed body)
    (hfloats : Stmt.AllEvery (Expr.Shown written) (fun _ => True) body) (file : String) :
    ∃ body', parseText file (Word.render written (Stmt.allWords body)) = .ok body' ∧
      Stmt.allUnplaced body' = Stmt.allUnplaced body := by
  have hlegible := Stmt.legible_allWords body
    (Stmt.AllEvery.both (fun _ he he' => ⟨he, he'⟩) (fun _ hs _ => hs) body hwritten hfloats)
  have hfresh : ∀ w ∈ (Stmt.allWords body).head?, w.fresh = true := by
    have hbreaks : Breaks (Stmt.allWords body ++ []) := Stmt.breaks_allWords body nofun
    rw [List.append_nil] at hbreaks
    exact fun w hw => (hbreaks w hw).1
  obtain ⟨ls, hls, hscan⟩ := Lexeme.scanFrom_render hlegible .start true (fun _ => hfresh) []
  have hlength : (Stmt.allWords body).length = ls.length := by rw [← hls, List.length_map]
  have hreads := Stmt.allReads body hwritten
  have htakes : Takes (statements (depthPerToken * (ls.length + 1)) []) (Stmt.allWords body) [] _ :=
    Stmt.takes_statements hreads (Nat.le_of_eq (by rw [hlength, depthPerToken])) []
  obtain ⟨body', rest, hrun, -, hsame⟩ := htakes.run ls (by rw [hls, List.append_nil])
  refine ⟨body', ?_, ?_⟩
  · have hlexemes : Parser.ofLexemes ls = .ok body' := by
      change (statements (depthPerToken * (ls.length + 1)) [] ls >>= fun x => pure x.1) = .ok body'
      rw [hrun]
      rfl
    unfold parseText
    rw [Lexeme.scan, hscan]
    dsimp only
    rw [List.reverse_nil, List.nil_append, hlexemes]
  · rw [Stmt.allUnplaced_eq, Stmt.allUnplaced_eq]
    simpa using hsame

/-- A text is parsed from its bytes as from its characters. -/
theorem parse_toUTF8 (file text : String) : parse file text.toUTF8 = parseText file text.toList := by
  have hdecode := Utf8.decode_toUTF8 text.toList
  rw [String.ofList_toList] at hdecode
  unfold parse
  rw [hdecode]

/-- Parsing undoes printing: what is written of the program that a text is read as is read as the
same program, but for the places of its parts. -/
theorem parse_print {written : Float → List Char} {file : String} {source : ByteArray}
    {body : List Stmt} (hparse : parse file source = .ok body)
    (hfloats : Stmt.AllEvery (Expr.Shown written) (fun _ => True) body) (file' : String) :
    ∃ body', parse file' (print written body).toUTF8 = .ok body' ∧
      Stmt.allUnplaced body' = Stmt.allUnplaced body := by
  rw [parse_toUTF8, print, String.toList_ofList]
  exact parseText_print (parse_written hparse) hfloats file'

/-- The tokens of `({a: 1.5}).b * (x + y)`. -/
def productLexemes (x : Float) : List Lexeme :=
  [⟨.mark .lparen, ⟨0, 1, 1⟩, 1, true⟩, ⟨.mark .lbrace, ⟨1, 1, 2⟩, 2, false⟩,
    ⟨.name "a", ⟨2, 1, 3⟩, 3, false⟩, ⟨.mark .colon, ⟨3, 1, 4⟩, 4, false⟩,
    ⟨.float x, ⟨5, 1, 6⟩, 8, false⟩, ⟨.mark .rbrace, ⟨8, 1, 9⟩, 9, false⟩,
    ⟨.mark .rparen, ⟨9, 1, 10⟩, 10, false⟩, ⟨.mark .dot, ⟨10, 1, 11⟩, 11, false⟩,
    ⟨.name "b", ⟨11, 1, 12⟩, 12, false⟩, ⟨.mark .star, ⟨13, 1, 14⟩, 14, false⟩,
    ⟨.mark .lparen, ⟨15, 1, 16⟩, 16, false⟩, ⟨.name "x", ⟨16, 1, 17⟩, 17, false⟩,
    ⟨.mark .plus, ⟨18, 1, 19⟩, 19, false⟩, ⟨.name "y", ⟨20, 1, 21⟩, 21, false⟩,
    ⟨.mark .rparen, ⟨21, 1, 22⟩, 22, false⟩]

/-- `({a: 1.5}).b * (x + y)` -/
def productBody (x : Float) : List Stmt :=
  [.expr (.binary ⟨13, 1, 14⟩ (.arith .mul)
    (.field ⟨10, 1, 11⟩ (.map ⟨1, 1, 2⟩ [("a", .lit ⟨5, 1, 6⟩ (.float x))]) "b")
    (.binary ⟨18, 1, 19⟩ (.arith .add) (.name ⟨16, 1, 17⟩ "x") (.name ⟨20, 1, 21⟩ "y")))]

theorem ofLexemes_product (x : Float) : Parser.ofLexemes (productLexemes x) = .ok (productBody x) := by
  cbv

/-- A map that leads a statement and a sum in a product keep their parentheses. -/
theorem parse_print_product : ∃ x,
    parse "m" "({a: 1.5}).b * (x + y)".toUTF8 = .ok (productBody x) ∧
    print (fun _ => "1.5".toList) (productBody x) = "\n( \x7b \"a\" : 1.5 \x7d ) . b * ( x + y )" ∧
    ∃ body', parse "m" (print (fun _ => "1.5".toList) (productBody x)).toUTF8 = .ok body' ∧
      Stmt.allUnplaced body' = Stmt.allUnplaced (productBody x) := by
  -- how the number is read is left to the decimals; here it only has to be the same one twice
  let x := Decimal.nearestFloat ['1', '5'] (-1)
  have hparse : parse "m" "({a: 1.5}).b * (x + y)".toUTF8 = .ok (productBody x) := by
    have hscan : Lexeme.scan "({a: 1.5}).b * (x + y)".toList = (productLexemes x, none) := rfl
    rw [parse_toUTF8, parseText, hscan]
    dsimp only
    rw [ofLexemes_product]
  have hfloat : Token.Readable (fun _ => "1.5".toList) x :=
    ⟨⟨['1'], ['5'], [], rfl, rfl, rfl, .inl rfl⟩, rfl⟩
  refine ⟨x, hparse, rfl, parse_print hparse ?_ "m"⟩
  exact ⟨⟨trivial, trivial, ⟨trivial, trivial, hfloat, trivial⟩, trivial, trivial, trivial⟩, trivial⟩

end ScriptEngine
