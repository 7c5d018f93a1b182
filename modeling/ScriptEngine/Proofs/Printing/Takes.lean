import ScriptEngine.Program.Parser
import ScriptEngine.Proofs.Printing.Words
/-!
Parsers as readers of words. What a parser takes off the input depends on the words there and on
the first word behind them, not on their places.
-/
namespace ScriptEngine

namespace Word

def isMark (m : Mark) (w : Word) : Bool :=
  match w.token with
  | .mark n => n = m
  | _ => false

/-- How tightly a word goes with an expression before it: as tightly as the operator it is, or more
if it begins a call, an index or a field, and not at all on a new line. -/
def binds (w : Word) : Nat :=
  if w.fresh then 0
  else match w.token with
    | .mark .lparen | .mark .lbracket | .mark .dot => 7
    | .mark m => (m.binary?.map BinaryOp.precedence).getD 0
    | _ => 0

/-- The words that follow do not go on with an operand of an operator below `k`. -/
def Ends (k : Nat) (tail : List Word) : Prop := ∀ w ∈ tail.head?, w.binds < min k 7

variable {k k' : Nat} {tail : List Word} {w : Word}

theorem Ends.mono (h : Ends k tail) (hk : k ≤ k') : Ends k' tail := by
  intro w hw
  have := h w hw
  omega

theorem Ends.seven (h : Ends k tail) : Ends 7 tail := by
  intro w hw
  have := h w hw
  omega

theorem ends_of_binds (h : w.binds = 0) (hk : 0 < k) : Ends k (w :: tail) := by
  intro w' hw'
  obtain rfl : w = w' := Option.some.inj hw'
  omega

end Word

namespace Mark

@[simp] theorem binary?_mark (op : BinaryOp) : op.mark.binary? = some op := by
  rcases op with _ | _ | _ | _ | c | op
  case order => cases c <;> rfl
  case arith => cases op <;> rfl
  all_goals rfl

@[simp] theorem unary?_mark (op : UnaryOp) : op.mark.unary? = some op := by
  cases op <;> rfl

@[simp] theorem assignment?_mark (op : Option ArithOp) :
    (assignmentMark op).assignment? = some op := by
  rcases op with _ | op
  · rfl
  · cases op <;> rfl

end Mark

theorem BinaryOp.precedence_le (op : BinaryOp) : 1 ≤ op.precedence ∧ op.precedence ≤ 6 := by
  rcases op with _ | _ | _ | _ | c | op
  case order => exact ⟨by simp [precedence], by simp [precedence]⟩
  case arith => cases op <;> decide
  all_goals decide

theorem Word.binds_sign {m : Mark} {op : BinaryOp} (h : m.binary? = some op) :
    (Word.sign m).binds = op.precedence := by
  cases m <;> cases h <;> rfl

theorem Word.ends_mark (op : BinaryOp) (tail : List Word) :
    Word.Ends (op.precedence + 1) (Word.sign op.mark :: tail) := by
  intro w hw
  obtain rfl : Word.sign op.mark = w := Option.some.inj hw
  have := op.precedence_le
  rw [Word.binds_sign (Mark.binary?_mark op)]
  omega

namespace Parser

open Word (sign commas Ends)

variable {α β : Type} {p : P α} {f : α → P β} {Φ Φ' : α → Prop} {Ψ : β → Prop}
  {ws more tail : List Word} {w : Word} {t : Token} {fresh : Bool} {m : Mark}

/-- Where the words `ws` stand before `tail`, the parser takes just them, and what it yields is as
described. -/
structure Takes (p : P α) (ws tail : List Word) (Φ : α → Prop) : Prop where
  run : ∀ input, input.map Lexeme.word = ws ++ tail →
    ∃ a rest, p input = .ok (a, rest) ∧ rest.map Lexeme.word = tail ∧ Φ a

namespace Takes

theorem pure {a : α} (h : Φ a) : Takes (pure a) [] tail Φ :=
  ⟨fun input hinput => ⟨a, input, rfl, hinput, h⟩⟩

theorem imp (h : Takes p ws tail Φ) (himp : ∀ a, Φ a → Φ' a) : Takes p ws tail Φ' := by
  refine ⟨fun input hinput => ?_⟩
  obtain ⟨a, rest, hrun, hrest, ha⟩ := h.run input hinput
  exact ⟨a, rest, hrun, hrest, himp a ha⟩

theorem bind (hp : Takes p ws (more ++ tail) Φ) (hf : ∀ a, Φ a → Takes (f a) more tail Ψ) :
    Takes (p >>= f) (ws ++ more) tail Ψ := by
  refine ⟨fun input hinput => ?_⟩
  obtain ⟨a, rest, hrun, hrest, ha⟩ := hp.run input (by rw [hinput, List.append_assoc])
  obtain ⟨b, rest', hrun', hrest', hb⟩ := (hf a ha).run rest hrest
  refine ⟨b, rest', ?_, hrest', hb⟩
  change (p input >>= fun x => f x.1 x.2) = _
  rw [hrun]
  exact hrun'

/-- The first parser takes nothing. -/
theorem look (hp : Takes p [] (ws ++ tail) Φ) (hf : ∀ a, Φ a → Takes (f a) ws tail Ψ) :
    Takes (p >>= f) ws tail Ψ :=
  hp.bind hf

/-- The first parser takes one word. -/
theorem step (hp : Takes p [w] (ws ++ tail) Φ) (hf : ∀ a, Φ a → Takes (f a) ws tail Ψ) :
    Takes (p >>= f) (w :: ws) tail Ψ :=
  hp.bind hf

/-- The first parser takes all the words. -/
theorem last (hp : Takes p ws tail Φ) (hf : ∀ a, Φ a → Takes (f a) [] tail Ψ) :
    Takes (p >>= f) ws tail Ψ := by
  have h : Takes (p >>= f) (ws ++ []) tail Ψ := hp.bind hf
  rwa [List.append_nil] at h

theorem peek {f : Option Lexeme → P β}
    (hf : ∀ next, (∀ l ∈ next, (ws ++ tail).head? = some l.word) → Takes (f next) ws tail Ψ) :
    Takes (Parser.peek? >>= f) ws tail Ψ := by
  refine ⟨fun input hinput => (hf input.head? fun l hl => ?_).run input hinput⟩
  rw [← hinput, List.head?_map, hl]
  rfl

/-- A look at a word that is there. -/
theorem peek_word {f : Option Lexeme → P β} (hhead : (ws ++ tail).head? = some ⟨t, fresh⟩)
    (hf : ∀ pos stop, Takes (f (some ⟨t, pos, stop, fresh⟩)) ws tail Ψ) :
    Takes (Parser.peek? >>= f) ws tail Ψ := by
  refine ⟨fun input hinput => ?_⟩
  rw [← hinput, List.head?_map] at hhead
  obtain ⟨⟨t', pos, stop, fresh'⟩, hl, hword⟩ := Option.map_eq_some_iff.mp hhead
  obtain ⟨rfl, rfl⟩ := Word.mk.inj hword
  have hrun := (hf pos stop).run input hinput
  rw [← hl] at hrun
  exact hrun

theorem sameLine {f : Option Lexeme → P β}
    (hf : ∀ next, (∀ l ∈ next, (ws ++ tail).head? = some l.word ∧ l.newlineBefore = false) →
      Takes (f next) ws tail Ψ) :
    Takes (Parser.sameLine? >>= f) ws tail Ψ := by
  refine ⟨fun input hinput => (hf (input.head?.filter fun next => !next.newlineBefore)
    fun l hl => ?_).run input hinput⟩
  obtain ⟨hl, hline⟩ := Option.filter_eq_some_iff.mp hl
  rw [← hinput, List.head?_map, hl]
  exact ⟨rfl, by simpa using hline⟩

theorem sameLine_word {f : Option Lexeme → P β} (hhead : (ws ++ tail).head? = some ⟨t, false⟩)
    (hf : ∀ pos stop, Takes (f (some ⟨t, pos, stop, false⟩)) ws tail Ψ) :
    Takes (Parser.sameLine? >>= f) ws tail Ψ := by
  refine ⟨fun input hinput => ?_⟩
  rw [← hinput, List.head?_map] at hhead
  obtain ⟨⟨t', pos, stop, fresh'⟩, hl, hword⟩ := Option.map_eq_some_iff.mp hhead
  obtain ⟨rfl, rfl⟩ := Word.mk.inj hword
  have hrun := (hf pos stop).run input hinput
  have hfound : input.head?.filter (fun next => !next.newlineBefore) =
      some ⟨t', pos, stop, false⟩ := by
    rw [hl]
    rfl
  rw [← hfound] at hrun
  exact hrun

theorem skip : Takes Parser.skip [w] tail fun _ => True := by
  refine ⟨fun input hinput => ?_⟩
  obtain ⟨l, rest, rfl, -, hrest⟩ := List.map_eq_cons_iff.mp hinput
  exact ⟨(), rest, rfl, hrest, trivial⟩

/-- A word is passed. -/
theorem pass {f : Unit → P β} (hf : Takes (f ()) ws tail Ψ) :
    Takes (Parser.skip >>= f) (w :: ws) tail Ψ :=
  .step .skip fun _ _ => hf

theorem atMark (m : Mark) : Takes (Parser.atMark m) [] tail (· = tail.head?.any (·.isMark m)) := by
  refine ⟨fun input hinput => ⟨_, input, ?_, hinput, rfl⟩⟩
  obtain rfl : input.map Lexeme.word = tail := hinput
  unfold Parser.atMark
  split
  · rfl
  · rename_i hother
    cases input with
    | nil => rfl
    | cons l rest =>
      obtain ⟨t, pos, stop, fresh⟩ := l
      cases t with
      | mark n => exact absurd rfl (hother n pos stop fresh rest)
      | _ => rfl

theorem eat : Takes (Parser.eat m) [⟨.mark m, fresh⟩] tail (· = true) := by
  refine .look (.atMark m) fun b hb => ?_
  obtain rfl : b = true := hb.trans (by simp [Word.isMark])
  exact .pass (.pure rfl)

theorem eat_other (hhead : tail.head?.any (·.isMark m) = false) :
    Takes (Parser.eat m) [] tail (· = false) := by
  refine .look (.atMark m) fun b hb => ?_
  obtain rfl : b = false := hb.trans hhead
  exact .pure rfl

theorem expect : Takes (Parser.expect m) [⟨.mark m, fresh⟩] tail fun _ => True := by
  refine .last .eat fun b hb => ?_
  obtain rfl : b = true := hb
  exact .pure trivial

/-- A mark that has to come is passed. -/
theorem expected {f : Unit → P β} (hf : Takes (f ()) ws tail Ψ) :
    Takes (Parser.expect m >>= f) (⟨.mark m, fresh⟩ :: ws) tail Ψ :=
  .step .expect fun _ _ => hf

/-- A part is left out before the mark `m`, and read before any other word. -/
theorem optional {f : Option α → P β} (Φ : Option α → Prop)
    (hpart : ws = [] ∧ (more ++ tail).head?.any (·.isMark m) = true ∧ Φ none ∨
      (ws ++ (more ++ tail)).head?.any (·.isMark m) = false ∧
        Takes p ws (more ++ tail) fun a => Φ (some a))
    (hf : ∀ found, Φ found → Takes (f found) more tail Ψ) :
    Takes (Parser.atMark m >>= fun b =>
      if b = true then Pure.pure none >>= f else some <$> p >>= f) (ws ++ more) tail Ψ := by
  refine .look (.atMark m) fun b hb => ?_
  rw [List.append_assoc] at hb
  rcases hpart with ⟨rfl, hmark, hnone⟩ | ⟨hmark, hp⟩
  · obtain rfl : b = true := hb.trans hmark
    exact .look (.pure hnone) hf
  · obtain rfl : b = false := hb.trans hmark
    exact .bind (.last hp fun a ha => .pure ha) hf

theorem nameFor (what : Expected) (x : String) :
    Takes (Parser.nameFor what) [⟨.name x, fresh⟩] tail (· = x) :=
  .peek_word rfl fun _ _ => .pass (.pure rfl)

/-- Nothing goes on behind an operand. -/
theorem no_operator {least : Nat} (hends : Ends least tail) :
    Takes (Parser.operator? least) [] tail (· = none) := by
  refine .sameLine fun next hnext => ?_
  split
  · rename_i m pos stop fresh
    obtain ⟨hhead, rfl⟩ := hnext _ rfl
    have hbinds := hends _ hhead
    split
    · rename_i op hop
      rw [if_neg]
      · exact .pure rfl
      · intro hleast
        have hprecedence := Word.binds_sign hop
        rw [Word.sign, ← show Lexeme.word ⟨.mark m, pos, stop, false⟩ = ⟨.mark m, false⟩ from rfl]
          at hprecedence
        omega
    · exact .pure rfl
  · exact .pure rfl

/-- An operator that binds tightly enough goes on. -/
theorem operator {least : Nat} {op : BinaryOp} (hleast : least ≤ op.precedence) :
    Takes (Parser.operator? least) [] (sign op.mark :: tail)
      fun found => ∃ pos, found = some (op, pos) := by
  refine .sameLine_word rfl fun pos _ => ?_
  dsimp only
  rw [Mark.binary?_mark]
  dsimp only
  rw [if_pos hleast]
  exact .pure ⟨pos, rfl⟩

/-- No sign of an assignment or definition stands there. -/
theorem no_assignment (hhead : ∀ m, tail.head? = some (sign m) → m.assignment? = none) :
    Takes Parser.assignment? [] tail (· = none) := by
  refine .sameLine fun next hnext => ?_
  split
  · rename_i m pos stop fresh
    obtain ⟨hword, rfl⟩ := hnext _ rfl
    exact .pure (hhead m hword)
  · exact .pure rfl

theorem assignment (op : Option ArithOp) :
    Takes Parser.assignment? [] (sign (assignmentMark op) :: tail) (· = some op) :=
  .sameLine_word rfl fun _ _ => .pure (Mark.assignment?_mark op)

/-- A line break or the end of the text ends a statement. -/
theorem endStatement (hfresh : ∀ w ∈ tail.head?, w.fresh = true ∧ w.isMark .semicolon = false) :
    Takes Parser.endStatement [] tail fun _ => True := by
  have hsemicolon : tail.head?.any (·.isMark .semicolon) = false := by
    cases htail : tail.head? with
    | none => rfl
    | some w => exact (hfresh w htail).2
  refine .look (.eat_other hsemicolon) fun b hb => ?_
  obtain rfl : b = false := hb
  refine .peek fun next hnext => ?_
  split
  · exact .pure trivial
  · exact .pure trivial
  · rename_i l _
    have hline : l.newlineBefore = true := (hfresh _ (hnext l rfl)).1
    rw [if_pos hline]
    exact .pure trivial

section Items

/-- The words open with one that is no such mark. -/
def Avoids (m : Mark) (ws : List Word) : Prop := ∃ w rest, ws = w :: rest ∧ w.isMark m = false

/-- Items between commas are taken one after the other. Each is written by `words`, and `erase` of
what is read is the `meaning` of the item. -/
theorem items {γ : Type} {words : γ → List Word} {meaning : γ → β} {erase : α → β} {close : Mark}
    (hcomma : close ≠ .comma) (hbinds : (sign close).binds = 0) {sources : List γ}
    (hsources : ∀ x ∈ sources, Avoids close (words x) ∧
      ∀ tail, Ends 1 tail → Takes p (words x) tail (erase · = meaning x))
    (fuel : Nat) (hfuel : sources.length < fuel) (found : List α) :
    Takes (Parser.items close p fuel found) (commas close (sources.map words)) tail
      fun all => all.map erase = found.reverse.map erase ++ sources.map meaning := by
  induction sources generalizing fuel found with
  | nil =>
    obtain _ | fuel := fuel
    · cases hfuel
    refine .step .eat fun b hb => ?_
    obtain rfl : b = true := hb
    exact .pure (by simp)
  | cons x rest ih =>
    obtain _ | fuel := fuel
    · cases hfuel
    obtain ⟨⟨⟨w, ws, hx, hw⟩, htakes⟩, hrest⟩ := List.forall_mem_cons.mp hsources
    refine .look (.eat_other (by cases rest <;> simp [commas, hx, hw])) fun b hb => ?_
    obtain rfl : b = false := hb
    obtain _ | ⟨next, rest⟩ := rest
    · refine .bind (htakes _ (Word.ends_of_binds hbinds (by decide))) fun a ha => ?_
      refine .look (.eat_other (by simpa [Word.isMark, sign] using hcomma)) fun b hb => ?_
      obtain rfl : b = false := hb
      exact .step .expect fun _ _ => .pure (by simp [ha])
    · refine .bind (htakes _ (Word.ends_of_binds rfl (by decide))) fun a ha => ?_
      refine .step .eat fun b hb => ?_
      obtain rfl : b = true := hb
      refine (ih hrest fuel (by simpa using hfuel) (a :: found)).imp fun all hall => ?_
      simpa [ha] using hall

end Items

end Takes

end Parser

end ScriptEngine
