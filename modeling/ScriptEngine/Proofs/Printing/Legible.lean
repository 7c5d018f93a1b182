import ScriptEngine.Proofs.Printing.Words
import ScriptEngine.Proofs.Program.Parsed
/-!
The words of a program can be read: names are no keywords, numbers have no sign, and floats are
written as they are read.
-/
namespace ScriptEngine

open Word (enclose commas)

/-- If the expression is a float literal, it is written as it is read. -/
def Expr.Shown (written : Float → List Char) : Expr → Prop
  | .lit _ (.float x) => Token.Readable written x
  | _ => True

section Legible

variable {written : Float → List Char} {ws : List Word} {m : Mark}

/-- The words can be written and read. -/
def Word.Legible (written : Float → List Char) (ws : List Word) : Prop :=
  ∀ w ∈ ws, w.token.Sound ∧ w.token.Shown written

open Word (Legible)

theorem Word.legible_nil : Legible written [] := nofun

theorem Word.Legible.cons {w : Word} (hw : w.token.Sound ∧ w.token.Shown written)
    (h : Legible written ws) : Legible written (w :: ws) :=
  List.forall_mem_cons.mpr ⟨hw, h⟩

theorem Word.Legible.append {more : List Word} (h : Legible written ws) (hmore : Legible written more) :
    Legible written (ws ++ more) :=
  List.forall_mem_append.mpr ⟨h, hmore⟩

theorem Word.Legible.enclose {inner : Bool → Bool → List Word}
    (h : ∀ lead fresh, Legible written (inner lead fresh)) {closed lead fresh : Bool} :
    Legible written (enclose closed lead fresh inner) := by
  unfold Word.enclose
  split
  · exact .cons ⟨trivial, trivial⟩ ((h _ _).append (.cons ⟨trivial, trivial⟩ Word.legible_nil))
  · exact h _ _

theorem Word.Legible.commas {pieces : List (List Word)} (h : ∀ ws ∈ pieces, Legible written ws) :
    Legible written (commas m pieces) := by
  induction pieces with
  | nil => exact .cons ⟨trivial, trivial⟩ Word.legible_nil
  | cons ws rest ih =>
    obtain ⟨hws, hrest⟩ := List.forall_mem_cons.mp h
    refine hws.append ?_
    cases rest with
    | nil => exact .cons ⟨trivial, trivial⟩ Word.legible_nil
    | cons => exact .cons ⟨trivial, trivial⟩ (ih hrest)

/-- What an expression has to be to be written. -/
abbrev Expr.Writable (written : Float → List Char) (e : Expr) : Prop := e.Spelled ∧ e.Shown written

mutual

theorem Expr.legible_bare : (e : Expr) → e.Every (Expr.Writable written) Stmt.Formed →
    ∀ lead fresh, Legible written (e.bare lead fresh)
  | .lit _ value, h, _, _ => by
    refine .cons ?_ Word.legible_nil
    rcases value with _ | (_ | _) | n | x | c | s
    case int => exact ⟨h.1, trivial⟩
    case float => exact ⟨trivial, h.2⟩
    all_goals exact ⟨trivial, trivial⟩
  | .name _ x, h, _, _ => .cons ⟨h.1, trivial⟩ Word.legible_nil
  | .array _ items, h, _, _ => .cons ⟨trivial, trivial⟩ (.commas (Expr.legible_allBare items h.2))
  | .map _ entries, h, _, _ =>
    .cons ⟨trivial, trivial⟩ (.commas (Expr.legible_entriesBare entries h.2))
  | .unary _ _ e, h, _, _ => .cons ⟨trivial, trivial⟩ (.enclose (e.legible_bare h.2))
  | .binary _ _ left right, h, _, _ => .append (.enclose (left.legible_bare h.2.1))
    (.cons ⟨trivial, trivial⟩ (.enclose (right.legible_bare h.2.2)))
  | .call _ callee args, h, _, _ => .append (.enclose (callee.legible_bare h.2.1))
    (.cons ⟨trivial, trivial⟩ (.commas (Expr.legible_allBare args h.2.2)))
  | .index _ target index, h, _, _ => .append (.enclose (target.legible_bare h.2.1))
    (.cons ⟨trivial, trivial⟩ (.append (index.legible_bare h.2.2 _ _)
      (.cons ⟨trivial, trivial⟩ Word.legible_nil)))
  | .field _ target x, h, _, _ => .append (.enclose (target.legible_bare h.2))
    (.cons ⟨trivial, trivial⟩ (.cons ⟨h.1.1, trivial⟩ Word.legible_nil))
  | .func _ params body, h, _, _ => by
    refine .cons ⟨trivial, trivial⟩ (.cons ⟨trivial, trivial⟩ (.append (.commas fun ws hws => ?_)
      (body.legible_words h.2 _)))
    obtain ⟨x, hx, rfl⟩ := List.mem_map.mp hws
    exact .cons ⟨h.1.1.2 x hx, trivial⟩ Word.legible_nil
  | .load _ module, _, _, _ => .cons ⟨trivial, trivial⟩ (.cons ⟨trivial, trivial⟩
    (.cons ⟨trivial, trivial⟩ (.cons ⟨trivial, trivial⟩ Word.legible_nil)))

theorem Expr.legible_allBare : (items : List Expr) →
    Expr.AllEvery (Expr.Writable written) Stmt.Formed items →
    ∀ ws ∈ Expr.allBare items, Legible written ws
  | [], _ => nofun
  | e :: rest, h =>
    List.forall_mem_cons.mpr ⟨e.legible_bare h.1 false false, Expr.legible_allBare rest h.2⟩

theorem Expr.legible_entriesBare : (entries : List (String × Expr)) →
    Expr.EntriesEvery (Expr.Writable written) Stmt.Formed entries →
    ∀ ws ∈ Expr.entriesBare entries, Legible written ws
  | [], _ => nofun
  | (_, e) :: rest, h => List.forall_mem_cons.mpr
    ⟨.cons ⟨trivial, trivial⟩ (.cons ⟨trivial, trivial⟩ (e.legible_bare h.1 false false)),
      Expr.legible_entriesBare rest h.2⟩

theorem Expr.legible_partWords : (part : Option Expr) →
    Expr.PartEvery (Expr.Writable written) Stmt.Formed part →
    ∀ lead, Legible written (Expr.partWords part lead)
  | none, _, _ => Word.legible_nil
  | some e, h, _ => .enclose (e.legible_bare h)

theorem Stmt.legible_words : (s : Stmt) → s.Every (Expr.Writable written) Stmt.Formed →
    ∀ fresh, Legible written (s.words fresh)
  | .expr e, h, _ => .enclose (e.legible_bare h.2)
  | .define _ x value, h, _ =>
    .cons ⟨h.1, trivial⟩ (.cons ⟨trivial, trivial⟩ (value.legible_bare h.2 _ _))
  | .assign _ _ target value, h, _ => .append (.enclose (target.legible_bare h.2.1))
    (.cons ⟨trivial, trivial⟩ (value.legible_bare h.2.2 _ _))
  | .branch _ cond body orElse, h, _ =>
    .cons ⟨trivial, trivial⟩ (.append (cond.legible_bare h.2.1 _ _)
      (.append (body.legible_words h.2.2.1 _) (Stmt.legible_elseWords orElse h.2.2.2)))
  | .loop _ init cond post body, h, _ => by
    refine .cons ⟨trivial, trivial⟩ (.append ?_ (body.legible_words h.2.2.2.2 _))
    split
    · exact Expr.legible_partWords cond h.2.2.1 _
    · exact .append (Stmt.legible_partWords init h.2.1) (.cons ⟨trivial, trivial⟩
        (.append (Expr.legible_partWords cond h.2.2.1 _) (.cons ⟨trivial, trivial⟩
          (Stmt.legible_partWords post h.2.2.2.1))))
  | .breakLoop _, _, _ | .continueLoop _, _, _ => .cons ⟨trivial, trivial⟩ Word.legible_nil
  | .returnValue _ value, h, _ =>
    .cons ⟨trivial, trivial⟩ (Expr.legible_partWords value h.2 _)
  | .exportValue _ value, h, _ => .cons ⟨trivial, trivial⟩ (value.legible_bare h.2 _ _)
  | .block body, h, _ => body.legible_words h.2 _

theorem Stmt.legible_partWords : (part : Option Stmt) →
    Stmt.PartEvery (Expr.Writable written) Stmt.Formed part → Legible written (Stmt.partWords part)
  | none, _ => Word.legible_nil
  | some s, h => s.legible_words h _

theorem Stmt.legible_elseWords : (part : Option Stmt) →
    Stmt.PartEvery (Expr.Writable written) Stmt.Formed part → Legible written (Stmt.elseWords part)
  | none, _ => Word.legible_nil
  | some s, h => .cons ⟨trivial, trivial⟩ (s.legible_words h _)

theorem Block.legible_words : (body : Block) → body.Every (Expr.Writable written) Stmt.Formed →
    ∀ fresh, Legible written (body.words fresh)
  | .mk _ body, h, _ => .cons ⟨trivial, trivial⟩
    (.append (Stmt.legible_allWords body h) (.cons ⟨trivial, trivial⟩ Word.legible_nil))

theorem Stmt.legible_allWords : (body : List Stmt) →
    Stmt.AllEvery (Expr.Writable written) Stmt.Formed body → Legible written (Stmt.allWords body)
  | [], _ => Word.legible_nil
  | s :: rest, h => .append (s.legible_words h.1 _) (Stmt.legible_allWords rest h.2)

end

end Legible

end ScriptEngine
