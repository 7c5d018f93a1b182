import Mathlib.Data.List.Induction
import ScriptEngine.Proofs.Joining.Scan
import ScriptEngine.Token.LineIndex
/-!
The place behind a text, as it is carried along and as it is looked up by its offset among the
starts of the lines.
-/
namespace ScriptEngine

theorem Pos.after_append (p : Pos) (cs ds : List Char) : p.after (cs ++ ds) = (p.after cs).after ds :=
  List.foldl_append

theorem Pos.after_concat (p : Pos) (cs : List Char) (c : Char) :
    p.after (cs ++ [c]) = (p.after cs).advance c := by
  rw [after_append]
  rfl

theorem Pos.offset_after (cs : List Char) : (start.after cs).offset = String.utf8Len cs := by
  rw [(after_eq cs start).1]
  exact Nat.zero_add _

theorem Pos.line_after (cs : List Char) : (start.after cs).line = 1 + cs.count '\n' :=
  (after_eq cs start).2

/-- Columns count the characters behind the last line break. -/
theorem Pos.column_after (cs : List Char) :
    (start.after cs).column = 1 + (cs.reverse.takeWhile (· ≠ '\n')).length := by
  induction cs using List.reverseRecOn with
  | nil => rfl
  | append_singleton cs c ih =>
    rw [after_concat, List.reverse_concat, advance]
    by_cases hc : c = '\n'
    · subst hc
      rfl
    · rw [if_neg hc, List.takeWhile_cons_of_pos (by simpa using hc), List.length_cons]
      dsimp only
      rw [ih]
      omega

section Search

variable {meets : Nat → Bool} {entries : Array Nat} {low high n : Nat}

/-- The search ends between the entries that meet the condition and those that do not. -/
theorem partitionPoint_eq (hlow : low ≤ n) (hhigh : n ≤ high)
    (hmeets : ∀ i < n, meets (entries.getD i 0) = true)
    (hfails : ∀ i, n ≤ i → i < high → meets (entries.getD i 0) = false) :
    partitionPoint meets entries low high = n := by
  fun_induction partitionPoint meets entries low high with
  | case1 low high hlt middle hmiddle ih =>
    apply ih _ hhigh hfails
    by_contra hle
    have hfalse := hfails middle (by omega) (by omega)
    rw [hmiddle] at hfalse
    cases hfalse
  | case2 low high hlt middle hmiddle ih =>
    apply ih hlow
    · by_contra hgt
      exact hmiddle (hmeets middle (by omega))
    · intro i hi hilt
      exact hfails i hi (by omega)
  | case3 low high hge => omega

end Search

theorem dropBytes_append (cs rest : List Char) :
    dropBytes (String.utf8Len cs) (cs ++ rest) = some rest := by
  induction cs with
  | nil => rw [String.utf8Len, List.nil_append, dropBytes.eq_def]
  | cons c cs ih =>
    have hpos := c.utf8Size_pos
    obtain ⟨n, hn⟩ : ∃ n, String.utf8Len (c :: cs) = n + 1 :=
      ⟨_, (Nat.succ_pred_eq_of_pos (by simp only [String.utf8Len]; omega)).symm⟩
    have hlen : n + 1 = String.utf8Len cs + c.utf8Size := hn.symm
    rw [hn, List.cons_append, dropBytes, if_pos (by omega), hlen, Nat.add_sub_cancel]
    exact ih

theorem takeBytes_append (cs rest : List Char) :
    takeBytes (String.utf8Len cs) (cs ++ rest) = some cs := by
  induction cs with
  | nil => rw [String.utf8Len, List.nil_append, takeBytes.eq_def]
  | cons c cs ih =>
    have hpos := c.utf8Size_pos
    obtain ⟨n, hn⟩ : ∃ n, String.utf8Len (c :: cs) = n + 1 :=
      ⟨_, (Nat.succ_pred_eq_of_pos (by simp only [String.utf8Len]; omega)).symm⟩
    have hlen : n + 1 = String.utf8Len cs + c.utf8Size := hn.symm
    rw [hn, List.cons_append, takeBytes, if_pos (by omega), hlen, Nat.add_sub_cancel, ih]
    rfl

theorem lineStartsFrom_append (offset : Nat) (cs ds : List Char) :
    lineStartsFrom offset (cs ++ ds) =
      lineStartsFrom offset cs ++ lineStartsFrom (offset + String.utf8Len cs) ds := by
  induction cs generalizing offset with
  | nil => rfl
  | cons c cs ih =>
    have hlen : offset + c.utf8Size + String.utf8Len cs = offset + String.utf8Len (c :: cs) := by
      rw [String.utf8Len]
      omega
    rw [List.cons_append, lineStartsFrom, lineStartsFrom, ih, hlen]
    split <;> rfl

/-- Lines start behind where the text starts, and at its end at the latest. -/
theorem lineStartsFrom_bounds (offset : Nat) (cs : List Char) :
    ∀ n ∈ lineStartsFrom offset cs, offset < n ∧ n ≤ offset + String.utf8Len cs := by
  induction cs generalizing offset with
  | nil => simp [lineStartsFrom]
  | cons c cs ih =>
    have hpos := c.utf8Size_pos
    intro n hn
    have hrest (hn : n ∈ lineStartsFrom (offset + c.utf8Size) cs) :
        offset < n ∧ n ≤ offset + String.utf8Len (c :: cs) := by
      obtain ⟨hlow, hhigh⟩ := ih _ n hn
      rw [String.utf8Len]
      omega
    rw [lineStartsFrom] at hn
    by_cases hc : c = '\n'
    · rw [if_pos hc] at hn
      rcases List.mem_cons.mp hn with rfl | hn
      · rw [String.utf8Len]
        omega
      · exact hrest hn
    · rw [if_neg hc] at hn
      exact hrest hn

theorem length_lineStartsFrom (offset : Nat) (cs : List Char) :
    (lineStartsFrom offset cs).length = cs.count '\n' := by
  induction cs generalizing offset with
  | nil => rfl
  | cons c cs ih =>
    rw [lineStartsFrom]
    by_cases hc : c = '\n'
    · rw [if_pos hc, List.length_cons, ih, hc, List.count_cons_self]
    · rw [if_neg hc, ih, List.count_cons_of_ne (by simpa using hc)]

/-- The last line of a text starts where its first column is. -/
theorem lastLine (cs : List Char) : ∃ front last, cs = front ++ last ∧
    (0 :: lineStartsFrom 0 cs).getLast? = some (String.utf8Len front) ∧
      (Pos.start.after cs).column = last.length + 1 := by
  induction cs using List.reverseRecOn with
  | nil => exact ⟨[], [], rfl, rfl, rfl⟩
  | append_singleton cs c ih =>
    rw [Pos.after_concat, lineStartsFrom_append, Pos.advance]
    by_cases hc : c = '\n'
    · subst hc
      refine ⟨cs ++ ['\n'], [], (List.append_nil _).symm, ?_, rfl⟩
      rw [lineStartsFrom, if_pos rfl, lineStartsFrom, Nat.zero_add, String.utf8Len_append,
        ← List.cons_append, List.getLast?_concat]
      rfl
    · obtain ⟨front, last, rfl, hstart, hcolumn⟩ := ih
      refine ⟨front, last ++ [c], List.append_assoc .., ?_, ?_⟩
      · rw [lineStartsFrom, if_neg hc, lineStartsFrom, List.append_nil]
        exact hstart
      · rw [if_neg hc, List.length_append, List.length_singleton]
        exact congrArg (· + 1) hcolumn

/-- The lines that start up to the end of a text are found among those of all that follows. -/
theorem partitionPoint_lineStarts (cs more : List Char) :
    let entries := (0 :: lineStartsFrom 0 (cs ++ more)).toArray
    partitionPoint (· ≤ String.utf8Len cs) entries 0 entries.size = 1 + cs.count '\n' := by
  have hsplit : 0 :: lineStartsFrom 0 (cs ++ more) =
      (0 :: lineStartsFrom 0 cs) ++ lineStartsFrom (String.utf8Len cs) more := by
    rw [lineStartsFrom_append, Nat.zero_add, List.cons_append]
  have hcount : (0 :: lineStartsFrom 0 cs).length = 1 + cs.count '\n' := by
    rw [List.length_cons, length_lineStartsFrom, Nat.add_comm]
  intro entries
  have hentry (i : Nat) : entries.getD i 0 =
      (((0 :: lineStartsFrom 0 cs) ++ lineStartsFrom (String.utf8Len cs) more)[i]?).getD 0 := by
    rw [← hsplit, Array.getD_eq_getD_getElem?, List.getElem?_toArray]
  have hsize : entries.size = 1 + cs.count '\n' + more.count '\n' := by
    have := congrArg List.length hsplit
    rw [List.length_append, hcount, length_lineStartsFrom] at this
    exact this
  rw [← hcount] at hsize ⊢
  apply partitionPoint_eq (Nat.zero_le _) (by omega)
  · intro i hi
    rw [hentry, List.getElem?_append_left hi, List.getElem?_eq_getElem hi, Option.getD_some]
    rcases List.mem_cons.mp (List.getElem_mem hi) with hzero | hmem
    · simp [hzero]
    · have hbound := (lineStartsFrom_bounds 0 cs _ hmem).2
      simpa using hbound
  · intro i hi hlt
    have hin : i - (0 :: lineStartsFrom 0 cs).length <
        (lineStartsFrom (String.utf8Len cs) more).length := by
      rw [length_lineStartsFrom]
      omega
    rw [hentry, List.getElem?_append_right hi, List.getElem?_eq_getElem hin, Option.getD_some]
    have hbound := (lineStartsFrom_bounds _ more _ (List.getElem_mem hin)).1
    simpa using hbound

/-- A place is found again by its offset. -/
theorem LineIndex.pos_ofText (cs more : List Char) :
    (ofText (cs ++ more)).pos (Pos.start.after cs).offset = Pos.start.after cs := by
  obtain ⟨front, last, rfl, hstart, hcolumn⟩ := lastLine cs
  have hoffset := Pos.offset_after (front ++ last)
  have hline := Pos.line_after (front ++ last)
  have hstarts : (ofText (front ++ last ++ more)).lineStarts.getD
      (1 + (front ++ last).count '\n' - 1) 0 = String.utf8Len front := by
    rw [List.getLast?_eq_getElem?, List.length_cons, length_lineStartsFrom,
      Nat.add_sub_cancel] at hstart
    have hlt := (List.getElem?_eq_some_iff.mp hstart).1
    have hentry : (0 :: lineStartsFrom 0 (front ++ last ++ more))[(front ++ last).count '\n']? =
        some (String.utf8Len front) := by
      rw [lineStartsFrom_append, ← List.cons_append, List.getElem?_append_left hlt]
      exact hstart
    rw [Nat.add_sub_cancel_left, Array.getD_eq_getD_getElem?, ofText, List.getElem?_toArray,
      hentry, Option.getD_some]
  have htext : (dropBytes (String.utf8Len front) (front ++ last ++ more)).bind
      (takeBytes (String.utf8Len (front ++ last) - String.utf8Len front)) = some last := by
    rw [List.append_assoc, dropBytes_append, String.utf8Len_append, Nat.add_sub_cancel_left]
    exact takeBytes_append last more
  have hfound : partitionPoint (· ≤ String.utf8Len (front ++ last))
      (ofText (front ++ last ++ more)).lineStarts 0
      (ofText (front ++ last ++ more)).lineStarts.size = 1 + (front ++ last).count '\n' :=
    partitionPoint_lineStarts (front ++ last) more
  have hsource : (ofText (front ++ last ++ more)).source = front ++ last ++ more := rfl
  simp only [pos, hoffset, hfound, hstarts, hsource, htext, Option.map_some, Option.getD_some]
  rw [← hcolumn, ← hline, ← hoffset]

end ScriptEngine
