import Mathlib.Data.List.Forall2
import ScriptEngine.Proofs.Grammar.Spells
/-! The words that a tree is written with spell it. -/
namespace ScriptEngine

open Token (Grouped Listed Keyed Blank)
open Word (sign enclose keyed commas)

namespace Word

/-- The tokens of words. -/
abbrev tokens (ws : List Word) : List Token := ws.map Word.token

variable {bare : List Token → Prop} {close : Mark}

theorem grouped_enclose {inner : Bool → Bool → List Word}
    (h : ∀ lead fresh, bare (tokens (inner lead fresh))) (closed lead fresh : Bool) :
    Grouped bare (tokens (enclose closed lead fresh inner)) := by
  unfold enclose
  split
  · rw [tokens, List.map_cons, List.map_append]
    exact .group (.bare (h false false))
  · exact .bare (h lead fresh)

theorem listed_commas {pieces : List (List Token → Prop)} {items : List (List Word)}
    (h : List.Forall₂ (fun piece ws => piece (tokens ws)) pieces items) :
    Listed close pieces (tokens (commas close items)) := by
  induction h with
  | nil => exact .nil
  | @cons piece ws pieces items hws hrest ih =>
    cases hrest with
    | nil =>
      rw [commas, tokens, List.map_append]
      exact .last hws
    | cons =>
      rw [commas, tokens, List.map_append]
      exact .cons hws ih

end Word

open Word (tokens)

mutual

/-- The words of an expression spell it. -/
theorem Expr.bare_words : (e : Expr) → (lead fresh : Bool) → e.Bare (tokens (e.bare lead fresh))
  | .lit .., _, _ | .name .., _, _ | .load .., _, _ => rfl
  | .array _ items, _, _ => ⟨_, Word.listed_commas (Expr.pieces_words items), rfl⟩
  | .map _ entries, _, _ => ⟨_, Word.listed_commas (Expr.entryPieces_words entries), rfl⟩
  | .unary _ op e, _, _ => ⟨_, Word.grouped_enclose e.bare_words _ _ _, rfl⟩
  | .binary _ op left right, _, _ =>
    ⟨_, _, Word.grouped_enclose left.bare_words _ _ _, Word.grouped_enclose right.bare_words _ _ _,
      List.map_append⟩
  | .call _ callee args, _, _ =>
    ⟨_, _, Word.grouped_enclose callee.bare_words _ _ _,
      Word.listed_commas (Expr.pieces_words args), List.map_append⟩
  | .index _ target index, _, _ => by
    rw [Expr.bare_index, tokens, List.map_append, List.map_cons, List.map_append]
    exact ⟨_, _, Word.grouped_enclose target.bare_words _ _ _, .bare (index.bare_words _ _), rfl⟩
  | .field _ target x, _, _ => ⟨_, Word.grouped_enclose target.bare_words _ _ _, List.map_append⟩
  | .func _ params body, _, _ => by
    rw [Expr.bare, tokens, List.map_cons, List.map_cons, List.map_append]
    refine ⟨_, _, Word.listed_commas ?_, body.spells_words false, rfl⟩
    exact List.forall₂_map_left_iff.mpr
      (List.forall₂_map_right_iff.mpr (List.forall₂_same.mpr fun _ _ => rfl))

theorem Expr.pieces_words : (items : List Expr) →
    List.Forall₂ (fun piece ws => piece (tokens ws)) (Expr.pieces items) (Expr.allBare items)
  | [] => .nil
  | e :: rest => .cons (.bare (e.bare_words false false)) (Expr.pieces_words rest)

theorem Expr.entryPieces_words : (entries : List (String × Expr)) →
    List.Forall₂ (fun piece ws => piece (tokens ws)) (Expr.entryPieces entries)
      (Expr.entriesBare entries)
  | [] => .nil
  | (_, e) :: rest =>
    .cons ⟨_, .bare (e.bare_words false false), .inr rfl⟩ (Expr.entryPieces_words rest)

theorem Expr.partSpells_words : (part : Option Expr) → (lead : Bool) →
    Expr.PartSpells part (tokens (Expr.partWords part lead))
  | none, _ => rfl
  | some e, _ => Word.grouped_enclose e.bare_words _ _ _

/-- The words of a statement spell it. -/
theorem Stmt.spells_words : (s : Stmt) → (fresh : Bool) → s.Spells (tokens (s.words fresh))
  | .expr e, _ => Word.grouped_enclose e.bare_words _ _ _
  | .define _ x value, _ => ⟨[.name x], _, .bare rfl, .bare (value.bare_words _ _), rfl⟩
  | .assign _ op target value, _ =>
    ⟨_, _, Word.grouped_enclose target.bare_words _ _ _, .bare (value.bare_words _ _),
      List.map_append⟩
  | .branch _ cond body orElse, _ => by
    rw [Stmt.words, tokens, List.map_cons, List.map_append, List.map_append]
    exact ⟨_, _, _, .bare (cond.bare_words _ _), body.spells_words _,
      Stmt.elseSpells_words orElse, rfl⟩
  | .loop _ init cond post body, _ => by
    rw [Stmt.words, tokens, List.map_cons, List.map_append]
    refine ⟨_, _, ?_, body.spells_words false, rfl⟩
    split
    · rename_i h
      obtain ⟨hinit, hpost⟩ : init = none ∧ post = none := by simpa using h
      exact .inl ⟨hinit, hpost, Expr.partSpells_words cond true⟩
    · rw [List.map_append, List.map_cons, List.map_append, List.map_cons]
      exact .inr ⟨_, _, _, Stmt.partSpells_words init, Expr.partSpells_words cond false,
        Stmt.partSpells_words post, rfl⟩
  | .breakLoop _, _ | .continueLoop _, _ => rfl
  | .returnValue _ value, _ => ⟨_, Expr.partSpells_words value false, rfl⟩
  | .exportValue _ value, _ => ⟨_, .bare (value.bare_words _ _), rfl⟩
  | .block body, _ => body.spells_words _

theorem Stmt.partSpells_words : (part : Option Stmt) →
    Stmt.PartSpells part (tokens (Stmt.partWords part))
  | none => rfl
  | some s => s.spells_words false

theorem Stmt.elseSpells_words : (part : Option Stmt) →
    Stmt.ElseSpells part (tokens (Stmt.elseWords part))
  | none => rfl
  | some s => ⟨_, s.spells_words false, rfl⟩

theorem Block.spells_words : (body : Block) → (fresh : Bool) →
    body.Spells (tokens (body.words fresh))
  | .mk _ body, _ => by
    rw [Block.words, tokens, List.map_cons, List.map_append]
    exact ⟨_, Stmt.allSpells_words body, rfl⟩

/-- The words of a program spell it. -/
theorem Stmt.allSpells_words : (body : List Stmt) → Stmt.AllSpells body (tokens (Stmt.allWords body))
  | [] => Token.blank_nil
  | s :: rest => by
    rw [Stmt.allWords, tokens, List.map_append]
    exact .cons (s.spells_words true) (Stmt.allSpells_words rest)

end

end ScriptEngine
