import ScriptEngine.Proofs.Printing.Takes
import ScriptEngine.Proofs.Program.Parsed
/-!
Expressions are read back. A judgement for each level of the grammar says that its parser takes the
words of an expression, with as many calls as there is room for in sixteen for each word.
-/
namespace ScriptEngine

open Word (sign enclose keyed commas Ends)

/-- Whether an expression can begin with the token. -/
def Token.opens : Token → Bool
  | keyword .«func» | keyword .«import» | keyword .«true» | keyword .«false»
  | keyword .«undefined» => true
  | keyword _ => false
  | mark .lparen | mark .lbracket | mark .lbrace | mark .minus | mark .bang => true
  | mark _ => false
  | _ => true

section Starts

variable {least least' : Nat} {lead fresh : Bool} {w : Word} {ws : List Word} {m : Mark}

/-- What is known of the first word of an expression of level `least`: it is no unary sign if that
is the highest level, and no brace if it leads a statement. -/
structure Word.Opens (least : Nat) (lead : Bool) (w : Word) : Prop where
  opens : w.token.opens = true
  brace : lead = true → w.isMark .lbrace = false
  sign : 7 < least → ∀ m, w.token = .mark m → m.unary? = none

/-- The words start with one that opens an expression. -/
def Word.Starts (least : Nat) (lead fresh : Bool) (ws : List Word) : Prop :=
  ∃ w rest, ws = w :: rest ∧ w.fresh = fresh ∧ w.Opens least lead

open Word (Starts)

theorem Word.isMark_eq_false (hopens : w.token.opens = true) (hm : (Token.mark m).opens = false) :
    w.isMark m = false := by
  unfold Word.isMark
  split
  · rename_i n htoken
    rw [htoken] at hopens
    exact decide_eq_false fun hn => by
      rw [hn, hm] at hopens
      cases hopens
  · rfl

theorem Word.Starts.append (h : Starts least lead fresh ws) (more : List Word) :
    Starts least lead fresh (ws ++ more) := by
  obtain ⟨w, rest, rfl, hfresh, hopens⟩ := h
  exact ⟨w, rest ++ more, rfl, hfresh, hopens⟩

theorem Word.Starts.mono (h : Starts least lead fresh ws) (hle : least' ≤ least) :
    Starts least' lead fresh ws := by
  obtain ⟨w, rest, hws, hfresh, hopens, hbrace, hsign⟩ := h
  exact ⟨w, rest, hws, hfresh, hopens, hbrace, fun hleast => hsign (by omega)⟩

theorem Word.Starts.avoids (h : Starts least lead fresh ws) (hm : (Token.mark m).opens = false) :
    Parser.Takes.Avoids m ws := by
  obtain ⟨w, rest, hws, -, hopens, -, -⟩ := h
  exact ⟨w, rest, hws, Word.isMark_eq_false hopens hm⟩

theorem Word.starts_lparen (least : Nat) (lead fresh : Bool) (ws : List Word) :
    Starts least lead fresh (⟨.mark .lparen, fresh⟩ :: ws) :=
  ⟨_, _, rfl, rfl, rfl, fun _ => rfl, fun _ m hm => by cases hm; rfl⟩

theorem Word.starts_enclose {closed : Bool} {inner : Bool → Bool → List Word}
    (h : closed = false → Starts least lead fresh (inner lead fresh)) :
    Starts least lead fresh (enclose closed lead fresh inner) := by
  cases closed with
  | false => exact h rfl
  | true => exact Word.starts_lparen least lead fresh _

@[simp] theorem Expr.closed_eq_false {e : Expr} :
    e.closed least lead = false ↔ least ≤ e.level ∧ (lead && e.isMap) = false := by
  simp [Expr.closed]

/-- An expression starts with a word that opens one. -/
theorem Expr.starts : (e : Expr) → (least : Nat) → (lead fresh : Bool) →
    e.closed least lead = false → Starts least lead fresh (e.bare lead fresh)
  | .lit _ value, _, _, _, _ => by
    refine ⟨_, _, rfl, rfl, ?_, fun _ => ?_, fun _ m hm => ?_⟩
    all_goals rcases value with _ | (_ | _) | _ | _ | _ | _ <;> first | rfl | cases hm
  | .name _ x, _, _, _, _ => ⟨_, _, rfl, rfl, rfl, fun _ => rfl, fun _ m hm => nomatch hm⟩
  | .array _ items, _, _, _, _ =>
    ⟨_, _, rfl, rfl, rfl, fun _ => rfl, fun _ m hm => by cases hm; rfl⟩
  | .map _ entries, _, lead, _, hclosed => by
    have hlead := (Expr.closed_eq_false.mp hclosed).2
    refine ⟨_, _, rfl, rfl, rfl, fun h => ?_, fun _ m hm => by cases hm; rfl⟩
    rw [h] at hlead
    cases hlead
  | .unary _ op e, least, _, _, hclosed => by
    have hleast : least ≤ 7 := (Expr.closed_eq_false.mp hclosed).1
    refine ⟨_, _, rfl, rfl, ?_, fun _ => ?_, fun h => absurd h (by omega)⟩
    all_goals cases op <;> rfl
  | .binary _ op left right, _, lead, fresh, hclosed =>
    ((Word.starts_enclose fun h => left.starts _ lead fresh h).mono
      (Expr.closed_eq_false.mp hclosed).1).append _
  | .call _ target _, _, lead, fresh, hclosed | .index _ target _, _, lead, fresh, hclosed
  | .field _ target _, _, lead, fresh, hclosed =>
    ((Word.starts_enclose fun h => target.starts _ lead fresh h).mono
      (Expr.closed_eq_false.mp hclosed).1).append _
  | .func _ params body, _, _, _, _ =>
    ⟨_, _, rfl, rfl, rfl, fun _ => rfl, fun _ m hm => nomatch hm⟩
  | .load _ module, _, _, _, _ => ⟨_, _, rfl, rfl, rfl, fun _ => rfl, fun _ m hm => nomatch hm⟩

theorem Expr.starts_words (e : Expr) (least : Nat) (lead fresh : Bool) :
    Starts least lead fresh (e.words least lead fresh) :=
  Word.starts_enclose fun h => e.starts least lead fresh h

end Starts

namespace Parser

section Levels

/-- The words are read as the expression, apart from places, where an operand is expected. -/
def ReadsPrimary (ws : List Word) (e : Expr) : Prop :=
  ∀ fuel tail, 16 * ws.length ≤ fuel + 12 →
    Takes (primary fuel) ws tail (·.unplaced = e.unplaced)

/-- The words are read as the expression, and the parser goes on with what is behind them as with
calls, indices and fields of it. -/
def ReadsPostfixed (ws : List Word) (e : Expr) : Prop :=
  ∀ fuel more tail Φ, 16 * ws.length ≤ fuel + 11 →
    (∀ e' fuel', e'.unplaced = e.unplaced → fuel ≤ fuel' + ws.length + 1 →
      Takes (postfixes fuel' e') more tail Φ) →
    Takes (postfixed fuel) (ws ++ more) tail Φ

def ReadsUnary (ws : List Word) (e : Expr) : Prop :=
  ∀ fuel tail, 16 * ws.length ≤ fuel + 10 → Ends 7 tail →
    Takes (unary fuel) ws tail (·.unplaced = e.unplaced)

/-- The words are read as the expression, and the parser goes on with what is behind them as with
operators on the right of it. -/
def ReadsBinary (k : Nat) (ws : List Word) (e : Expr) : Prop :=
  ∀ least fuel more tail Φ, least ≤ k → 16 * ws.length ≤ fuel + 9 → Ends (k + 1) (more ++ tail) →
    (∀ e' fuel', e'.unplaced = e.unplaced → fuel ≤ fuel' + ws.length + 1 →
      Takes (binaryRest fuel' least e') more tail Φ) →
    Takes (binary fuel least) (ws ++ more) tail Φ

variable {ws : List Word} {e : Expr} {k : Nat} {tail : List Word} {lead fresh : Bool}

theorem takes_postfixes_none {fuel : Nat} (hfuel : 0 < fuel) (hends : Ends 7 tail) :
    Takes (postfixes fuel e) [] tail (· = e) := by
  obtain _ | fuel := fuel
  · cases hfuel
  refine .sameLine fun next hnext => ?_
  split
  iterate 3
    obtain ⟨hhead, rfl⟩ := hnext _ rfl
    exact absurd (hends _ hhead) (by simp [Lexeme.word, Word.binds])
  exact .pure rfl

theorem takes_binaryRest_none {fuel least : Nat} (hfuel : 0 < fuel) (hends : Ends least tail) :
    Takes (binaryRest fuel least e) [] tail (· = e) := by
  obtain _ | fuel := fuel
  · cases hfuel
  refine .look (.no_operator hends) fun found hfound => ?_
  obtain rfl : found = none := hfound
  exact .pure rfl

theorem ReadsPrimary.postfixed (h : ReadsPrimary ws e) (hne : 0 < ws.length) :
    ReadsPostfixed ws e := by
  intro fuel more tail Φ hfuel hrest
  obtain _ | fuel := fuel
  · omega
  exact .bind (h fuel _ (by omega)) fun e' he' => hrest e' fuel he' (by omega)

theorem ReadsPostfixed.unary (h : ReadsPostfixed ws e) (hstarts : Word.Starts 8 lead fresh ws) :
    ReadsUnary ws e := by
  intro fuel tail hfuel hends
  obtain ⟨w, rest, rfl, -, -, -, hsign⟩ := hstarts
  rw [List.length_cons] at hfuel
  obtain _ | fuel := fuel
  · omega
  have hpostfixed : Takes (postfixed fuel) (w :: rest) tail (·.unplaced = e.unplaced) := by
    rw [← List.append_nil (w :: rest)]
    refine h fuel [] tail _ (by rw [List.length_cons]; omega) fun e' fuel' he' hfuel' => ?_
    rw [List.length_cons] at hfuel'
    exact (takes_postfixes_none (by omega) hends).imp fun e'' he'' => he'' ▸ he'
  refine .peek_word rfl fun pos stop => ?_
  split
  · rename_i m _ _ _ heq
    have htoken : w.token = .mark m := congrArg Lexeme.token (Option.some.inj heq)
    rw [hsign (by decide) m htoken]
    exact hpostfixed
  · exact hpostfixed

theorem ReadsUnary.binary (h : ReadsUnary ws e) (hne : 0 < ws.length) (k : Nat) :
    ReadsBinary k ws e := by
  intro least fuel more tail Φ _ hfuel hends hrest
  obtain _ | fuel := fuel
  · omega
  exact .bind (h fuel _ (by omega) hends.seven) fun e' he' => hrest e' fuel he' (by omega)

/-- An operand is read to its end. -/
theorem ReadsBinary.operand (h : ReadsBinary k ws e) {fuel : Nat} (hne : 0 < ws.length)
    (hfuel : 16 * ws.length ≤ fuel + 9) (hends : Ends k tail) :
    Takes (Parser.binary fuel k) ws tail (·.unplaced = e.unplaced) := by
  rw [← List.append_nil ws]
  refine h k fuel [] tail _ (Nat.le_refl k) hfuel (hends.mono (by omega)) fun e' fuel' he' hfuel' => ?_
  exact (takes_binaryRest_none (by omega) hends).imp fun e'' he'' => he'' ▸ he'

/-- A whole expression is read. -/
theorem ReadsBinary.expression (h : ReadsBinary 1 ws e) {fuel : Nat} (hne : 0 < ws.length)
    (hfuel : 16 * ws.length ≤ fuel + 8) (hends : Ends 1 tail) :
    Takes (expression fuel) ws tail (·.unplaced = e.unplaced) := by
  obtain _ | fuel := fuel
  · omega
  exact h.operand hne (by omega) hends

end Levels

end Parser

open ScriptEngine.Parser

/-- The words of an expression are read as the expression, wherever they need no parentheses. -/
structure Expr.Reads (e : Expr) : Prop where
  postfixed : ∀ lead fresh, e.closed 8 lead = false → ReadsPostfixed (e.bare lead fresh) e
  unary : ∀ lead fresh, e.closed 7 lead = false → ReadsUnary (e.bare lead fresh) e
  binary : ∀ k lead fresh, e.closed k lead = false → ReadsBinary k (e.bare lead fresh) e

/-- The words of a block are read as the block. -/
def Block.Reads (b : Block) : Prop :=
  ∀ fuel fresh tail, 16 * (b.words fresh).length ≤ fuel + 7 →
    Takes (block fuel) (b.words fresh) tail (·.unplaced = b.unplaced)

namespace Expr

variable {e : Expr} {lead fresh : Bool} {tail : List Word} {fuel : Nat}

theorem Reads.of_postfixed (hlevel : e.level = 8)
    (h : ∀ lead fresh, e.closed 8 lead = false → ReadsPostfixed (e.bare lead fresh) e) : e.Reads := by
  have hunary (lead fresh : Bool) (hclosed : e.closed 8 lead = false) :
      ReadsUnary (e.bare lead fresh) e :=
    (h lead fresh hclosed).unary (e.starts 8 lead fresh hclosed)
  have hclosed {k : Nat} {lead : Bool} (hk : e.closed k lead = false) : e.closed 8 lead = false := by
    rw [closed_eq_false] at hk ⊢
    exact ⟨Nat.le_of_eq hlevel.symm, hk.2⟩
  refine ⟨h, fun lead fresh hk => hunary lead fresh (hclosed hk), fun k lead fresh hk => ?_⟩
  obtain ⟨w, rest, hbare, -⟩ := e.starts 8 lead fresh (hclosed hk)
  exact (hunary lead fresh (hclosed hk)).binary (by simp [hbare]) k

theorem Reads.of_primary (hlevel : e.level = 8)
    (h : ∀ lead fresh, ReadsPrimary (e.bare lead fresh) e) : e.Reads := by
  refine .of_postfixed hlevel fun lead fresh hclosed => (h lead fresh).postfixed ?_
  obtain ⟨w, rest, hbare, -⟩ := e.starts 8 lead fresh hclosed
  simp [hbare]

theorem Reads.of_unary (hlevel : e.level = 7)
    (h : ∀ lead fresh, e.closed 7 lead = false → ReadsUnary (e.bare lead fresh) e) : e.Reads := by
  refine ⟨fun lead fresh hk => ?_, h, fun k lead fresh hk => ?_⟩
  · have hle := (closed_eq_false.mp hk).1
    omega
  · obtain ⟨w, rest, hbare, -⟩ := e.starts k lead fresh hk
    refine (h lead fresh ?_).binary (by simp [hbare]) k
    rw [closed_eq_false] at hk ⊢
    exact ⟨Nat.le_of_eq hlevel.symm, hk.2⟩

theorem length_words_pos (e : Expr) (least : Nat) (lead fresh : Bool) :
    0 < (e.words least lead fresh).length := by
  obtain ⟨w, rest, hwords, -⟩ := e.starts_words least lead fresh
  simp [hwords]

/-- A whole expression needs no parentheses. -/
theorem closed_one (e : Expr) : e.closed 1 false = false := by
  refine closed_eq_false.mpr ⟨?_, rfl⟩
  cases e with
  | binary _ op => exact op.precedence_le.1
  | _ => simp [level]

theorem length_bare_pos (e : Expr) (fresh : Bool) : 0 < (e.bare false fresh).length := by
  obtain ⟨w, rest, hbare, -⟩ := e.starts 1 false fresh e.closed_one
  simp [hbare]

theorem Reads.expression_bare (h : e.Reads) (hfuel : 16 * (e.bare false fresh).length ≤ fuel + 8)
    (hends : Ends 1 tail) :
    Takes (expression fuel) (e.bare false fresh) tail (·.unplaced = e.unplaced) := by
  exact (h.binary 1 false fresh e.closed_one).expression (e.length_bare_pos fresh) hfuel hends

/-- An expression in parentheses is an operand. -/
theorem Reads.enclosed (h : e.Reads) (fresh : Bool) :
    ReadsPrimary (⟨.mark .lparen, fresh⟩ :: (e.bare false false ++ [sign .rparen])) e := by
  intro fuel tail hfuel
  rw [List.length_cons, List.length_append, List.length_singleton] at hfuel
  obtain _ | fuel := fuel
  · omega
  refine .peek_word rfl fun pos stop => .pass ?_
  refine .bind (h.expression_bare (by omega) (Word.ends_of_binds rfl (by decide))) fun e' he' => ?_
  exact .step .expect fun _ _ => .pure he'

theorem Reads.words_postfixed (h : e.Reads) (lead fresh : Bool) :
    ReadsPostfixed (e.words 8 lead fresh) e := by
  rw [words, enclose]
  split
  · exact (h.enclosed fresh).postfixed (by simp)
  · exact h.postfixed lead fresh (Bool.eq_false_iff.mpr ‹_›)

theorem Reads.words_unary (h : e.Reads) (lead fresh : Bool) :
    ReadsUnary (e.words 7 lead fresh) e := by
  rw [words, enclose]
  split
  · exact ((h.enclosed fresh).postfixed (by simp)).unary (Word.starts_lparen 8 lead fresh _)
  · exact h.unary lead fresh (Bool.eq_false_iff.mpr ‹_›)

theorem Reads.words_binary (h : e.Reads) (k : Nat) (lead fresh : Bool) :
    ReadsBinary k (e.words k lead fresh) e := by
  rw [words, enclose]
  split
  · have hunary := ((h.enclosed fresh).postfixed (by simp)).unary (Word.starts_lparen 8 lead fresh _)
    exact hunary.binary (by simp) k
  · exact h.binary k lead fresh (Bool.eq_false_iff.mpr ‹_›)

/-- An expression that leads a statement is read. -/
theorem Reads.expression_words (h : e.Reads) (hfuel : 16 * (e.words 1 lead fresh).length ≤ fuel + 8)
    (hends : Ends 1 tail) :
    Takes (expression fuel) (e.words 1 lead fresh) tail (·.unplaced = e.unplaced) :=
  (h.words_binary 1 lead fresh).expression (e.length_words_pos 1 lead fresh) hfuel hends

section Lists

theorem allBare_eq (items : List Expr) : allBare items = items.map (·.bare false false) := by
  induction items with
  | nil => rfl
  | cons e rest ih => rw [allBare, ih, List.map_cons]

theorem allUnplaced_eq (items : List Expr) : allUnplaced items = items.map unplaced := by
  induction items with
  | nil => rfl
  | cons e rest ih => rw [allUnplaced, ih, List.map_cons]

theorem entriesBare_eq (entries : List (String × Expr)) :
    entriesBare entries = entries.map fun entry => keyed entry.1 (entry.2.bare false false) := by
  induction entries with
  | nil => rfl
  | cons entry rest ih => rw [entriesBare, ih, List.map_cons]

theorem entriesUnplaced_eq (entries : List (String × Expr)) :
    entriesUnplaced entries = entries.map fun entry => (entry.1, entry.2.unplaced) := by
  induction entries with
  | nil => rfl
  | cons entry rest ih => rw [entriesUnplaced, ih, List.map_cons]

/-- Expressions between commas are read. -/
theorem Reads.items {items : List Expr} (h : ∀ e ∈ items, e.Reads) {close : Mark}
    (hclose : close = .rparen ∨ close = .rbracket)
    (hfuel : 16 * (commas close (allBare items)).length ≤ fuel + 8) :
    Takes (Parser.items close (expression fuel) fuel []) (commas close (allBare items)) tail
      fun all => all.map unplaced = items.map unplaced := by
  obtain ⟨hlength, hpos⟩ := Word.length_le_commas close (allBare items)
  rw [allBare_eq] at hfuel hlength hpos ⊢
  rw [List.length_map] at hlength
  refine Takes.items (by rcases hclose with rfl | rfl <;> decide)
    (by rcases hclose with rfl | rfl <;> rfl) (fun e he => ⟨?_, fun tail hends => ?_⟩) fuel
    (by omega) []
  · refine (e.starts 1 false false e.closed_one).avoids ?_
    rcases hclose with rfl | rfl <;> rfl
  · have hlt : (e.bare false false).length < (commas close (items.map (·.bare false false))).length :=
      Word.length_lt_commas (List.mem_map_of_mem he)
    exact (h e he).expression_bare (by omega) hends

/-- Entries between commas are read. -/
theorem Reads.entries {entries : List (String × Expr)} (h : ∀ entry ∈ entries, entry.2.Reads)
    (hfuel : 16 * (commas .rbrace (entriesBare entries)).length ≤ fuel + 8) :
    Takes (Parser.items .rbrace (mapEntry fuel) fuel []) (commas .rbrace (entriesBare entries)) tail
      fun all => (all.map fun entry => (entry.1, entry.2.unplaced)) =
        entries.map fun entry => (entry.1, entry.2.unplaced) := by
  obtain ⟨hlength, hpos⟩ := Word.length_le_commas .rbrace (entriesBare entries)
  rw [entriesBare_eq] at hfuel hlength hpos ⊢
  rw [List.length_map] at hlength
  refine Takes.items (by decide) rfl (fun entry hentry => ⟨⟨_, _, rfl, rfl⟩, fun tail hends => ?_⟩)
    fuel (by omega) []
  have hlt : (keyed entry.1 (entry.2.bare false false)).length <
      (commas .rbrace (entries.map fun entry => keyed entry.1 (entry.2.bare false false))).length :=
    Word.length_lt_commas (List.mem_map_of_mem hentry)
  rw [keyed, List.length_cons, List.length_cons] at hlt
  obtain _ | fuel := fuel
  · omega
  refine .peek_word rfl fun pos stop => .pass (.expected ?_)
  refine .last ((h entry hentry).expression_bare (by omega) hends) fun e' he' => .pure ?_
  simp [he']

/-- Parameters between commas are read. -/
theorem takes_params (params : List String) (hfuel : params.length < fuel) :
    Takes (Parser.items .rparen (nameFor .parameterName) fuel [])
      (commas .rparen (params.map fun x => [⟨.name x, false⟩])) tail (· = params) := by
  have hall : Takes (Parser.items .rparen (nameFor .parameterName) fuel [])
      (commas .rparen (params.map fun x => [⟨.name x, false⟩])) tail
      fun all => all.map id = [].map id ++ params.map id :=
    Takes.items (by decide) rfl (fun x _ => ⟨⟨_, _, rfl, rfl⟩, fun _ _ => .nameFor _ x⟩) fuel hfuel []
  exact hall.imp fun all hall => by simpa using hall

end Lists

section Constructors

variable {pos : Pos}

theorem reads_lit (pos : Pos) (value : Literal) : (lit pos value).Reads := by
  refine .of_primary rfl fun lead fresh fuel tail hfuel => ?_
  obtain _ | fuel := fuel
  · simp at hfuel
  rcases value with _ | (_ | _) | n | x | c | s <;>
    exact .peek_word rfl fun pos stop => .pass (.pure rfl)

theorem reads_name (pos : Pos) (x : String) : (name pos x).Reads := by
  refine .of_primary rfl fun lead fresh fuel tail hfuel => ?_
  obtain _ | fuel := fuel
  · simp at hfuel
  exact .peek_word rfl fun pos stop => .pass (.pure rfl)

theorem reads_load (pos : Pos) (module : String) : (load pos module).Reads := by
  refine .of_primary rfl fun lead fresh fuel tail hfuel => ?_
  obtain _ | fuel := fuel
  · simp at hfuel
  refine .peek_word rfl fun pos stop => .pass (.expected ?_)
  exact .peek_word rfl fun _ _ => .pass (.expected (.pure rfl))

theorem reads_array {items : List Expr} (h : ∀ e ∈ items, e.Reads) : (array pos items).Reads := by
  refine .of_primary rfl fun lead fresh fuel tail hfuel => ?_
  rw [bare, List.length_cons] at hfuel
  obtain _ | fuel := fuel
  · omega
  refine .peek_word rfl fun pos stop => .pass ?_
  refine .last (Reads.items h (.inr rfl) (by omega)) fun all hall => .pure ?_
  simp [allUnplaced_eq, hall]

theorem reads_map {entries : List (String × Expr)} (h : ∀ entry ∈ entries, entry.2.Reads) :
    (map pos entries).Reads := by
  refine .of_primary rfl fun lead fresh fuel tail hfuel => ?_
  rw [bare, List.length_cons] at hfuel
  obtain _ | fuel := fuel
  · omega
  refine .peek_word rfl fun pos stop => .pass ?_
  refine .last (Reads.entries h (by omega)) fun all hall => .pure ?_
  simp [entriesUnplaced_eq, hall]

theorem reads_call {callee : Expr} {args : List Expr} (hcallee : callee.Reads)
    (hargs : ∀ e ∈ args, e.Reads) : (call pos callee args).Reads := by
  refine .of_postfixed rfl fun lead fresh _ fuel more tail Φ hfuel hrest => ?_
  rw [bare_call, List.length_append, List.length_cons] at hfuel hrest
  simp only [bare_call, List.append_assoc, List.cons_append]
  refine hcallee.words_postfixed lead fresh fuel _ tail Φ (by omega) fun callee' fuel' he' hfuel' => ?_
  obtain _ | fuel' := fuel'
  · omega
  refine .sameLine_word rfl fun pos' stop => .pass ?_
  refine .bind (Reads.items hargs (.inl rfl) (by omega)) fun args' hargs' => ?_
  exact hrest _ fuel' (by simp [allUnplaced_eq, he', hargs']) (by omega)

theorem reads_index {target index : Expr} (htarget : target.Reads) (hindex : index.Reads) :
    (Expr.index pos target index).Reads := by
  refine .of_postfixed rfl fun lead fresh _ fuel more tail Φ hfuel hrest => ?_
  rw [bare_index, List.length_append, List.length_cons, List.length_append,
    List.length_singleton] at hfuel hrest
  simp only [bare_index, List.append_assoc, List.cons_append, List.nil_append]
  refine htarget.words_postfixed lead fresh fuel _ tail Φ (by omega) fun target' fuel' he' hfuel' => ?_
  obtain _ | fuel' := fuel'
  · omega
  refine .sameLine_word rfl fun pos' stop => .pass ?_
  refine .bind (hindex.expression_bare (by omega) (Word.ends_of_binds rfl (by decide)))
    fun index' hindex' => .expected ?_
  exact hrest _ fuel' (by simp [he', hindex']) (by omega)

theorem reads_field {target : Expr} (htarget : target.Reads) (x : String) :
    (field pos target x).Reads := by
  refine .of_postfixed rfl fun lead fresh _ fuel more tail Φ hfuel hrest => ?_
  rw [bare_field, List.length_append, List.length_cons, List.length_singleton] at hfuel hrest
  simp only [bare_field, List.append_assoc, List.cons_append, List.nil_append]
  refine htarget.words_postfixed lead fresh fuel _ tail Φ (by omega) fun target' fuel' he' hfuel' => ?_
  obtain _ | fuel' := fuel'
  · omega
  refine .sameLine_word rfl fun pos' stop => .pass ?_
  refine .step (.nameFor .fieldName x) fun x' hx' => ?_
  exact hrest _ fuel' (by simp [he', hx']) (by omega)

theorem reads_unary (op : UnaryOp) (h : e.Reads) : (unary pos op e).Reads := by
  refine .of_unary rfl fun lead fresh _ fuel tail hfuel hends => ?_
  rw [bare_unary, List.length_cons] at hfuel
  obtain _ | fuel := fuel
  · omega
  refine .peek_word rfl fun pos stop => ?_
  dsimp only
  rw [Mark.unary?_mark]
  refine .pass (.last (h.words_unary false false fuel tail (by omega) hends) fun e' he' => .pure ?_)
  simp [he']

theorem reads_binary (op : BinaryOp) {left right : Expr} (hleft : left.Reads) (hright : right.Reads) :
    (binary pos op left right).Reads := by
  have hprecedence := op.precedence_le
  refine ⟨fun lead fresh hk => ?_, fun lead fresh hk => ?_, fun k lead fresh hk => ?_⟩
  · have hle : 8 ≤ op.precedence := (closed_eq_false.mp hk).1
    omega
  · have hle : 7 ≤ op.precedence := (closed_eq_false.mp hk).1
    omega
  have hle : k ≤ op.precedence := (closed_eq_false.mp hk).1
  intro least fuel more tail Φ hleast hfuel hends hrest
  rw [bare_binary, List.length_append, List.length_cons] at hfuel hrest
  rw [bare_binary, List.append_assoc, List.cons_append]
  have hpos := right.length_words_pos (op.precedence + 1) false false
  refine hleft.words_binary op.precedence lead fresh least fuel _ tail Φ (by omega) (by omega)
    (Word.ends_mark op _) fun left' fuel' hleft' hfuel' => ?_
  obtain _ | fuel' := fuel'
  · omega
  refine .look (.operator (by omega)) fun found hfound => ?_
  obtain ⟨pos', rfl⟩ := hfound
  refine .pass (.bind ((hright.words_binary (op.precedence + 1) false false).operand hpos (by omega)
    (hends.mono (by omega))) fun right' hright' => ?_)
  exact hrest _ fuel' (by simp [hleft', hright']) (by omega)

/-- A function is read if its parameters have different names and its body is read. -/
theorem reads_func {params : List String} (hparams : params.Nodup) {body : Block}
    (hbody : body.Reads) : (func pos params body).Reads := by
  refine .of_primary rfl fun lead fresh fuel tail hfuel => ?_
  obtain ⟨hlength, hpos⟩ := Word.length_le_commas .rparen (params.map fun x => [⟨.name x, false⟩])
  rw [bare, List.length_cons, List.length_cons, List.length_append] at hfuel
  rw [List.length_map] at hlength
  obtain _ | fuel := fuel
  · omega
  refine .peek_word rfl fun pos stop => .pass (.expected ?_)
  refine .bind (takes_params params (by omega)) fun params' hparams' => ?_
  obtain rfl : params' = params := hparams'
  rw [repeated?_of_nodup hparams]
  exact .last (hbody fuel false tail (by omega)) fun body' hbody' => .pure (by simp [hbody'])

end Constructors

end Expr

end ScriptEngine
