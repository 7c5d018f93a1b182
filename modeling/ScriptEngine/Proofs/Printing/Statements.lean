import ScriptEngine.Proofs.Printing.Expressions
/-!
Statements are read back. A statement that starts a line is read to its end, which is the next line
or the brace of its block.
-/
namespace ScriptEngine

open Word (sign enclose commas Ends)

namespace Word

variable {k : Nat} {tail : List Word} {w : Word}

/-- What stands behind a simple statement: a new line, or the semicolon or brace that ends it in the
head of a loop. -/
def Stops (tail : List Word) : Prop :=
  ∀ w ∈ tail.head?, w.fresh = true ∨ w = sign .semicolon ∨ w = sign .lbrace

/-- What stands behind a statement: a new line, on which it does not go on. -/
def Breaks (tail : List Word) : Prop :=
  ∀ w ∈ tail.head?, w.fresh = true ∧ w.isMark .semicolon = false ∧ w.token ≠ .keyword .«else»

theorem Breaks.stops (h : Breaks tail) : Stops tail := fun w hw => .inl (h w hw).1

theorem Stops.ends (h : Stops tail) (hk : 0 < k) : Ends k tail := by
  intro w hw
  have hbinds : w.binds = 0 := by
    rcases h w hw with hfresh | rfl | rfl
    · simp [binds, hfresh]
    · rfl
    · rfl
  omega

theorem stops_semicolon (tail : List Word) : Stops (sign .semicolon :: tail) :=
  fun _ hw => .inr (.inl (Option.some.inj hw).symm)

theorem stops_lbrace (tail : List Word) : Stops (sign .lbrace :: tail) :=
  fun _ hw => .inr (.inr (Option.some.inj hw).symm)

/-- No sign of a definition or an assignment stands behind a simple statement. -/
theorem Stops.sign (h : Stops tail) {m : Mark} (hm : tail.head? = some (sign m)) :
    m ≠ .define ∧ m.assignment? = none := by
  rcases h _ hm with hfresh | heq | heq
  · cases hfresh
  · cases heq
    exact ⟨nofun, rfl⟩
  · cases heq
    exact ⟨nofun, rfl⟩

/-- The words do not end a block, an `if` or an empty statement. -/
def Leads (fresh : Bool) (ws : List Word) : Prop :=
  ∃ w rest, ws = w :: rest ∧ w.fresh = fresh ∧ w.isMark .rbrace = false ∧
    w.isMark .semicolon = false ∧ w.token ≠ .keyword .«else»

theorem Starts.leads {least : Nat} {lead fresh : Bool} {ws : List Word}
    (h : Starts least lead fresh ws) : Leads fresh ws := by
  obtain ⟨w, rest, hws, hfresh, hopens, -, -⟩ := h
  refine ⟨w, rest, hws, hfresh, isMark_eq_false hopens rfl, isMark_eq_false hopens rfl, fun htoken => ?_⟩
  rw [htoken] at hopens
  cases hopens

theorem Leads.append {fresh : Bool} {ws : List Word} (h : Leads fresh ws) (more : List Word) :
    Leads fresh (ws ++ more) := by
  obtain ⟨w, rest, rfl, hw⟩ := h
  exact ⟨w, rest ++ more, rfl, hw⟩

theorem Leads.breaks {ws : List Word} (h : Leads true ws) : Breaks ws := by
  obtain ⟨w, rest, rfl, hfresh, -, hw⟩ := h
  intro w' hw'
  obtain rfl : w = w' := Option.some.inj hw'
  exact ⟨hfresh, hw⟩

end Word

open Word (Stops Breaks Starts Leads)
open ScriptEngine.Parser

namespace Parser

variable {tail : List Word}

theorem takes_endStatement (h : Breaks tail) : Takes endStatement [] tail fun _ => True :=
  .endStatement fun w hw => ⟨(h w hw).1, (h w hw).2.1⟩

theorem takes_no_semicolon (h : Breaks tail) : Takes (eat .semicolon) [] tail (· = false) := by
  refine .eat_other ?_
  cases htail : tail.head? with
  | none => rfl
  | some w => exact (h w htail).2.1

/-- The words of a simple statement are read as the statement. -/
def ReadsSimple (s : Stmt) : Prop :=
  ∀ fuel fresh tail, 16 * (s.words fresh).length ≤ fuel + 7 → Stops tail →
    Takes (simple fuel) (s.words fresh) tail (·.unplaced = s.unplaced)

def ReadsStatement (s : Stmt) : Prop :=
  ∀ fuel fresh tail, 16 * (s.words fresh).length ≤ fuel + 6 → Breaks tail →
    Takes (statement fuel) (s.words fresh) tail (·.unplaced = s.unplaced)

/-- The words of a branch behind its keyword. -/
def branchWords (cond : Expr) (body : Block) (orElse : Option Stmt) : List Word :=
  cond.bare false false ++ (body.words false ++ Stmt.elseWords orElse)

def ReadsBranch (cond : Expr) (body : Block) (orElse : Option Stmt) : Prop :=
  ∀ fuel pos tail, 16 * (branchWords cond body orElse).length ≤ fuel + 6 → Breaks tail →
    Takes (branch fuel pos) (branchWords cond body orElse) tail
      (·.unplaced = (Stmt.branch pos cond body orElse).unplaced)

end Parser

/-- The words of a statement are read as the statement, wherever it can stand. -/
structure Stmt.Reads (s : Stmt) : Prop where
  statement : ReadsStatement s
  simple : s.isSimple = true → ReadsSimple s
  branch : ∀ pos cond body orElse, s = .branch pos cond body orElse → ReadsBranch cond body orElse
  block : ∀ body, s = .block body → body.Reads

namespace Stmt

variable {s : Stmt} {e target value cond : Expr} {body : Block} {pos : Pos} {fuel : Nat}
  {tail : List Word} {fresh : Bool}

theorem allUnplaced_eq (body : List Stmt) : allUnplaced body = body.map unplaced := by
  induction body with
  | nil => rfl
  | cons s rest ih => rw [allUnplaced, ih, List.map_cons]

/-- A simple statement starts with an expression that does not start with a brace. -/
theorem starts_simple (h : s.isSimple = true) (fresh : Bool) : Starts 1 true fresh (s.words fresh) := by
  cases s with
  | expr e => exact e.starts_words 1 true fresh
  | define _ x value => exact ⟨_, _, rfl, rfl, rfl, fun _ => rfl, fun _ _ hm => nomatch hm⟩
  | assign _ op target value => exact (target.starts_words 1 true fresh).append _
  | _ => cases h

theorem leads_block (body : Block) (fresh : Bool) : Leads fresh (body.words fresh) := by
  obtain ⟨_, stmts⟩ := body
  exact ⟨_, _, rfl, rfl, rfl, rfl, nofun⟩

theorem leads (s : Stmt) (fresh : Bool) : Leads fresh (s.words fresh) := by
  cases s with
  | expr e => exact (starts_simple (s := .expr e) rfl fresh).leads
  | define pos x value => exact (starts_simple (s := .define pos x value) rfl fresh).leads
  | assign pos op target value =>
    exact (starts_simple (s := .assign pos op target value) rfl fresh).leads
  | block body => exact leads_block body fresh
  | _ => exact ⟨_, _, rfl, rfl, rfl, rfl, nofun⟩

section Simple

theorem reads_simple_expr (h : e.Reads) : ReadsSimple (.expr e) := by
  intro fuel fresh tail hfuel hstops
  rw [words_expr] at hfuel ⊢
  have hpos := e.length_words_pos 1 true fresh
  obtain _ | fuel := fuel
  · omega
  refine .last (h.expression_words (by omega) (hstops.ends (by decide))) fun e' he' => ?_
  refine .sameLine fun next hnext => ?_
  split
  · obtain ⟨hhead, rfl⟩ := hnext _ rfl
    exact absurd rfl (hstops.sign hhead).1
  · refine .look (.no_assignment fun m hm => (hstops.sign hm).2) fun found hfound => ?_
    obtain rfl : found = none := hfound
    exact .pure (by simp [he'])

theorem reads_simple_define (x : String) (h : value.Reads) : ReadsSimple (.define pos x value) := by
  intro fuel fresh tail hfuel hstops
  rw [words, List.length_cons, List.length_cons] at hfuel
  obtain _ | fuel := fuel
  · omega
  have hlength : 16 * ((Expr.name .start x).bare false fresh).length ≤ fuel + 8 := by
    rw [Expr.bare, List.length_singleton]
    omega
  refine .step ((Expr.reads_name .start x).expression_bare hlength
    (Word.ends_of_binds rfl (by decide))) fun target' htarget' => ?_
  obtain ⟨pos', rfl⟩ : ∃ pos', target' = .name pos' x := by
    cases target' <;> simp at htarget'
    exact ⟨_, by rw [htarget']⟩
  refine .sameLine_word rfl fun _ _ => .pass ?_
  exact .last (h.expression_bare (by omega) (hstops.ends (by decide))) fun value' hvalue' =>
    .pure (by simp [hvalue'])

theorem isTarget_of_unplaced {e e' : Expr} (h : e'.unplaced = e.unplaced) : e'.isTarget = e.isTarget := by
  have hunplaced (e : Expr) : e.unplaced.isTarget = e.isTarget := by cases e <;> rfl
  rw [← hunplaced e', h, hunplaced]

theorem reads_simple_assign (op : Option ArithOp) (htarget : target.isTarget = true)
    (hplace : target.Reads) (hvalue : value.Reads) : ReadsSimple (.assign pos op target value) := by
  intro fuel fresh tail hfuel hstops
  rw [words_assign, List.length_append, List.length_cons] at hfuel
  rw [words_assign]
  have hpos := target.length_words_pos 1 true fresh
  have hbinds : (sign (assignmentMark op)).binds = 0 := by
    rcases op with _ | op
    · rfl
    · cases op <;> rfl
  obtain _ | fuel := fuel
  · omega
  refine .bind (hplace.expression_words (by omega) (Word.ends_of_binds hbinds (by decide)))
    fun target' htarget' => ?_
  refine .sameLine_word rfl fun _ _ => ?_
  split
  · rename_i heq
    rcases op with _ | (_ | _ | _ | _ | _) <;> cases heq
  · refine .look (.assignment op) fun found hfound => ?_
    obtain rfl : found = some op := hfound
    refine .pass ?_
    rw [if_pos ((isTarget_of_unplaced htarget').trans htarget)]
    exact .last (hvalue.expression_bare (by omega) (hstops.ends (by decide))) fun value' hvalue' =>
      .pure (by simp [htarget', hvalue'])

/-- A simple statement is a statement. -/
theorem Reads.of_simple (hs : s.isSimple = true) (h : ReadsSimple s) : s.Reads := by
  refine ⟨fun fuel fresh tail hfuel hbreaks => ?_, fun _ => h, ?_, ?_⟩
  · obtain ⟨w, rest, hwords, -, hopens, hbrace, -⟩ := starts_simple hs fresh
    have hsimple (fuel : Nat) (hfuel : 16 * (s.words fresh).length ≤ fuel + 7) :=
      h fuel fresh tail hfuel hbreaks.stops
    rw [hwords] at hfuel hsimple ⊢
    obtain _ | fuel := fuel
    · simp only [List.length_cons] at hfuel
      omega
    refine .peek_word rfl fun pos stop => ?_
    split
    case h_8 =>
      refine .last (hsimple fuel (by omega)) fun s' hs' => ?_
      exact .last (takes_endStatement hbreaks) fun _ _ => .pure hs'
    -- no other kind of statement starts with a word that opens an expression
    all_goals
      rename_i heq
      have htoken : w.token = _ := congrArg Lexeme.token (Option.some.inj heq)
      simp [Word.isMark, htoken, Token.opens] at hopens hbrace
  · rintro pos cond body orElse rfl
    cases hs
  · rintro body rfl
    cases hs

end Simple

section Compound

theorem reads_break (pos : Pos) : (breakLoop pos).Reads := by
  refine ⟨fun fuel fresh tail hfuel hbreaks => ?_, nofun, nofun, nofun⟩
  obtain _ | fuel := fuel
  · simp at hfuel
  refine .peek_word rfl fun pos stop => .pass ?_
  exact .last (takes_endStatement hbreaks) fun _ _ => .pure rfl

theorem reads_continue (pos : Pos) : (continueLoop pos).Reads := by
  refine ⟨fun fuel fresh tail hfuel hbreaks => ?_, nofun, nofun, nofun⟩
  obtain _ | fuel := fuel
  · simp at hfuel
  refine .peek_word rfl fun pos stop => .pass ?_
  exact .last (takes_endStatement hbreaks) fun _ _ => .pure rfl

theorem reads_export (h : value.Reads) : (exportValue pos value).Reads := by
  refine ⟨fun fuel fresh tail hfuel hbreaks => ?_, nofun, nofun, nofun⟩
  rw [words, List.length_cons] at hfuel
  obtain _ | fuel := fuel
  · omega
  refine .peek_word rfl fun pos stop => .pass ?_
  refine .last (h.expression_bare (by omega) (hbreaks.stops.ends (by decide))) fun value' hvalue' => ?_
  exact .last (takes_endStatement hbreaks) fun _ _ =>
    .pure (by simp [hvalue'])

theorem reads_return {value : Option Expr} (h : ∀ e ∈ value, e.Reads) :
    (returnValue pos value).Reads := by
  refine ⟨fun fuel fresh tail hfuel hbreaks => ?_, nofun, nofun, nofun⟩
  rw [words, List.length_cons] at hfuel
  obtain _ | fuel := fuel
  · omega
  refine .peek_word rfl fun pos stop => .pass ?_
  cases value with
  | none =>
    refine .sameLine fun next hnext => ?_
    obtain rfl : next = none := by
      cases next with
      | none => rfl
      | some l =>
        obtain ⟨hhead, hline⟩ := hnext l rfl
        exact absurd ((hbreaks _ hhead).1.symm.trans hline) nofun
    exact .last (takes_endStatement hbreaks) fun _ _ => .pure rfl
  | some e =>
    have hreads : Takes (expression fuel) (e.words 1 false false) tail (·.unplaced = e.unplaced) := by
      refine (h e rfl).expression_words ?_ (hbreaks.stops.ends (by decide))
      rw [Expr.partWords_some] at hfuel
      omega
    obtain ⟨⟨t, fresh'⟩, rest, hwords, rfl, hopens, -, -⟩ := e.starts_words 1 false false
    change Takes _ (e.words 1 false false) tail _
    rw [hwords] at hreads ⊢
    refine .sameLine_word rfl fun _ _ => ?_
    split
    case h_4 =>
      refine .last hreads fun value' hvalue' => ?_
      exact .last (takes_endStatement hbreaks) fun _ _ => .pure (by simp [hvalue'])
    all_goals
      rename_i heq
      cases heq
      try cases hopens

theorem reads_block (h : body.Reads) : (block body).Reads := by
  refine ⟨fun fuel fresh tail hfuel hbreaks => ?_, nofun, nofun, fun body' hbody' => ?_⟩
  · change 16 * (body.words fresh).length ≤ fuel + 6 at hfuel
    have hblock (fuel : Nat) (hfuel : 16 * (body.words fresh).length ≤ fuel + 7) :=
      h fuel fresh tail hfuel
    change Takes _ (body.words fresh) tail _
    obtain ⟨pos, stmts⟩ := body
    rw [Block.words] at hfuel hblock ⊢
    obtain _ | fuel := fuel
    · simp only [List.length_cons] at hfuel
      omega
    refine .peek_word rfl fun pos stop => ?_
    refine .last (hblock fuel (by omega)) fun body' hbody' => ?_
    exact .look (takes_no_semicolon hbreaks) fun _ _ => .pure (by simp [hbody'])
  · cases hbody'
    exact h

theorem stops_block (body : Block) (more : List Word) : Stops (body.words false ++ more) := by
  obtain ⟨_, stmts⟩ := body
  exact Word.stops_lbrace _

/-- A branch is read, with what follows its `else`. -/
theorem reads_branch_words {orElse : Option Stmt} (hplain : (Stmt.branch pos cond body orElse).Plain)
    (hcond : cond.Reads) (hbody : body.Reads) (helse : ∀ s ∈ orElse, s.Reads) :
    ReadsBranch cond body orElse := by
  intro fuel pos tail hfuel hbreaks
  have hpos := cond.length_bare_pos false
  rw [branchWords, List.length_append, List.length_append] at hfuel
  obtain _ | fuel := fuel
  · omega
  rw [branchWords]
  refine .bind (hcond.expression_bare (by omega) ?_) fun cond' hcond' => ?_
  · rw [List.append_assoc]
    exact (stops_block body _).ends (by decide)
  refine .bind (hbody fuel false _ (by omega)) fun body' hbody' => ?_
  cases orElse with
  | none =>
    refine .peek fun next hnext => ?_
    split
    · exact absurd rfl (hbreaks _ (hnext _ rfl)).2.2
    · exact .pure (by simp [hcond', hbody'])
  | some s =>
    have hs := helse s rfl
    rw [elseWords, List.length_cons] at hfuel
    refine .peek_word rfl fun _ _ => .pass ?_
    cases s with
    | branch pos' cond₂ body₂ orElse₂ =>
      rw [words, List.length_cons] at hfuel
      refine .peek_word rfl fun _ _ => .pass ?_
      refine .last (hs.branch _ _ _ _ rfl fuel _ tail (by rw [branchWords]; omega) hbreaks) fun s' hs' => .pure ?_
      simp [hcond', hbody', hs']
    | block body₂ =>
      have hblock := hs.block body₂ rfl fuel false tail (by rw [words] at hfuel; omega)
      obtain ⟨pos₂, stmts⟩ := body₂
      refine .peek_word rfl fun _ _ => ?_
      refine .last hblock fun body'' hbody'' => .pure ?_
      simp [hcond', hbody', hbody'']
    | _ => exact hplain.elim

theorem reads_branch {orElse : Option Stmt} (hplain : (Stmt.branch pos cond body orElse).Plain)
    (hcond : cond.Reads) (hbody : body.Reads) (helse : ∀ s ∈ orElse, s.Reads) :
    (branch pos cond body orElse).Reads := by
  have hwords := reads_branch_words hplain hcond hbody helse
  refine ⟨fun fuel fresh tail hfuel hbreaks => ?_, nofun, fun pos' cond' body' orElse' h => ?_, nofun⟩
  · change 16 * (branchWords cond body orElse).length.succ ≤ fuel + 6 at hfuel
    obtain _ | fuel := fuel
    · omega
    refine .peek_word rfl fun _ _ => .pass ?_
    refine .last (hwords fuel _ tail (by omega) hbreaks) fun s' hs' => ?_
    exact .look (takes_no_semicolon hbreaks) fun _ _ => .pure hs'
  · cases h
    exact hwords

section Loops

variable {init post : Option Stmt} {loopCond : Option Expr}

theorem head_of_starts {least : Nat} {lead fresh : Bool} {ws : List Word} {m : Mark}
    (h : Starts least lead fresh ws) (hm : (Token.mark m).opens = false ∨ lead = true ∧ m = .lbrace)
    (more : List Word) : (ws ++ more).head?.any (·.isMark m) = false := by
  obtain ⟨w, rest, rfl, -, hopens, hbrace, -⟩ := h
  rcases hm with hm | ⟨hlead, rfl⟩
  · exact Word.isMark_eq_false hopens hm
  · exact hbrace hlead

theorem head_of_block (body : Block) (fresh : Bool) (more : List Word) :
    (body.words fresh ++ more).head? = some ⟨.mark .lbrace, fresh⟩ := by
  obtain ⟨_, stmts⟩ := body
  rfl

/-- The rest of a loop's head behind the first semicolon is read, and the loop's body. -/
theorem takes_loopRest (hcond : ∀ e ∈ loopCond, e.Reads)
    (hpost : ∀ s ∈ post, s.isSimple = true ∧ s.Reads) (hbody : body.Reads) (init' : Option Stmt)
    (hfuel : 16 * ((Expr.partWords loopCond false).length + 1 +
      ((partWords post).length + (body.words false).length)) ≤ fuel + 6) :
    Takes (Parser.loopRest fuel pos init') (Expr.partWords loopCond false ++
        sign .semicolon :: (partWords post ++ body.words false)) tail
      (·.unplaced = .loop .start (partUnplaced init') (Expr.partUnplaced loopCond)
        (partUnplaced post) body.unplaced) := by
  obtain _ | fuel := fuel
  · omega
  refine .optional (fun cond' => Expr.partUnplaced cond' = Expr.partUnplaced loopCond) ?_ fun cond' hcond' => .expected ?_
  · cases loopCond with
    | none => exact .inl ⟨rfl, rfl, rfl⟩
    | some e =>
      refine .inr ⟨head_of_starts (e.starts_words 1 false false) (.inl rfl) _, ?_⟩
      rw [Expr.partWords_some] at hfuel
      refine ((hcond e rfl).expression_words (by omega) (Word.ends_of_binds rfl (by decide))).imp ?_
      intro e' he'
      simp [he']
  refine .optional (fun post' => partUnplaced post' = partUnplaced post) ?_ fun post' hpost' => ?_
  · cases post with
    | none => 
      refine .inl ⟨rfl, ?_, rfl⟩
      rw [head_of_block]
      rfl
    | some s =>
      obtain ⟨hsimple, hs⟩ := hpost s rfl
      rw [partWords] at hfuel
      refine .inr ⟨head_of_starts (starts_simple hsimple false) (.inr ⟨rfl, rfl⟩) _, ?_⟩
      refine (hs.simple hsimple fuel false _ (by omega) (stops_block body tail)).imp ?_
      intro s' hs'
      simp [hs']
  exact .last (hbody fuel false tail (by omega)) fun body' hbody' => .pure (by
    simp [hcond', hpost', hbody'])

/-- A loop whose head has three parts is read behind its keyword. -/
theorem takes_headed (hinit : ∀ s ∈ init, s.isSimple = true ∧ s.Reads)
    (hcond : ∀ e ∈ loopCond, e.Reads) (hpost : ∀ s ∈ post, s.isSimple = true ∧ s.Reads)
    (hbody : body.Reads)
    (hfuel : 16 * ((partWords init).length + 1 + ((Expr.partWords loopCond false).length + 1 +
      ((partWords post).length + (body.words false).length))) ≤ fuel + 6) :
    Takes (Parser.loop fuel pos) (partWords init ++ sign .semicolon ::
        (Expr.partWords loopCond false ++ sign .semicolon :: (partWords post ++ body.words false))) tail
      (·.unplaced = (loop pos init loopCond post body).unplaced) := by
  obtain _ | fuel := fuel
  · omega
  cases init with
  | none =>
    refine .look (.atMark .lbrace) fun b hb => ?_
    obtain rfl : b = false := hb
    refine .step .eat fun b hb => ?_
    obtain rfl : b = true := hb
    exact takes_loopRest hcond hpost hbody none (by omega)
  | some s =>
    obtain ⟨hsimple, hs⟩ := hinit s rfl
    have hstarts := starts_simple hsimple false
    rw [partWords] at hfuel ⊢
    refine .look (.atMark .lbrace) fun b hb => ?_
    rw [List.append_assoc, head_of_starts hstarts (.inr ⟨rfl, rfl⟩)] at hb
    obtain rfl : b = false := hb
    refine .look (.eat_other ?_) fun b hb => ?_
    · rw [List.append_assoc]
      exact head_of_starts hstarts (.inl rfl) _
    obtain rfl : b = false := hb
    refine .bind (hs.simple hsimple fuel false _ (by omega) (Word.stops_semicolon _)) fun s' hs' => ?_
    refine .step .eat fun b hb => ?_
    obtain rfl : b = true := hb
    refine (takes_loopRest hcond hpost hbody (some s') (by omega)).imp fun s'' hs'' => ?_
    rw [hs'', partUnplaced, hs', unplaced, partUnplaced]

/-- A loop with at most a condition is read behind its keyword. -/
theorem takes_unheaded (hcond : ∀ e ∈ loopCond, e.Reads) (hbody : body.Reads)
    (hfuel : 16 * ((Expr.partWords loopCond true).length + (body.words false).length) ≤ fuel + 6) :
    Takes (Parser.loop fuel pos) (Expr.partWords loopCond true ++ body.words false) tail
      (·.unplaced = (loop pos none loopCond none body).unplaced) := by
  have hblock : 0 < (body.words false).length := by
    obtain ⟨w, rest, hwords, -⟩ := leads_block body false
    simp [hwords]
  obtain _ | fuel := fuel
  · omega
  cases loopCond with
  | none =>
    refine .look (.atMark .lbrace) fun b hb => ?_
    rw [Expr.partWords, List.nil_append, head_of_block] at hb
    obtain rfl : b = true := hb
    exact .last (hbody fuel false tail (by omega)) fun body' hbody' => .pure (by simp [hbody'])
  | some e =>
    have hstarts := e.starts_words 1 true false
    rw [Expr.partWords_some] at hfuel ⊢
    refine .look (.atMark .lbrace) fun b hb => ?_
    rw [List.append_assoc, head_of_starts hstarts (.inr ⟨rfl, rfl⟩)] at hb
    obtain rfl : b = false := hb
    refine .look (.eat_other ?_) fun b hb => ?_
    · rw [List.append_assoc]
      exact head_of_starts hstarts (.inl rfl) _
    obtain rfl : b = false := hb
    have hsimple := reads_simple_expr (hcond e rfl)
    refine .bind (hsimple fuel false _ (by rw [words_expr]; omega) (stops_block body tail))
      fun s' hs' => ?_
    obtain ⟨e', rfl, he'⟩ : ∃ e', s' = .expr e' ∧ e'.unplaced = e.unplaced := by
      cases s' <;> simp at hs'
      exact ⟨_, rfl, hs'⟩
    refine .look (.eat_other ?_) fun b hb => ?_
    · rw [head_of_block]
      rfl
    obtain rfl : b = false := hb
    exact .last (hbody fuel false tail (by omega)) fun body' hbody' =>
      .pure (by simp [he', hbody'])

theorem reads_loop (hinit : ∀ s ∈ init, s.isSimple = true ∧ s.Reads)
    (hcond : ∀ e ∈ loopCond, e.Reads) (hpost : ∀ s ∈ post, s.isSimple = true ∧ s.Reads)
    (hbody : body.Reads) : (loop pos init loopCond post body).Reads := by
  refine ⟨fun fuel fresh tail hfuel hbreaks => ?_, nofun, nofun, nofun⟩
  rw [words, List.length_cons, List.length_append] at hfuel
  obtain _ | fuel := fuel
  · omega
  have hend {ws : List Word} (h : ∀ pos, Takes (Parser.loop fuel pos) ws tail
      (·.unplaced = (loop pos init loopCond post body).unplaced)) :
      Takes (Parser.statement (fuel + 1)) (⟨.keyword .«for», fresh⟩ :: ws) tail
        (·.unplaced = (loop pos init loopCond post body).unplaced) := by
    refine .peek_word rfl fun pos _ => .pass (.last (h pos) fun s' hs' => ?_)
    exact .look (takes_no_semicolon hbreaks) fun _ _ => .pure hs'
  refine hend fun pos => ?_
  by_cases hnone : (init.isNone && post.isNone) = true
  · rw [if_pos hnone] at hfuel ⊢
    rw [Bool.and_eq_true, Option.isNone_iff_eq_none, Option.isNone_iff_eq_none] at hnone
    obtain ⟨rfl, rfl⟩ := hnone
    exact takes_unheaded hcond hbody (by omega)
  · rw [if_neg hnone] at hfuel ⊢
    simp only [List.length_append, List.length_cons] at hfuel
    simp only [List.append_assoc, List.cons_append]
    exact takes_headed hinit hcond hpost hbody (by omega)

end Loops

end Compound

end Stmt

end ScriptEngine
