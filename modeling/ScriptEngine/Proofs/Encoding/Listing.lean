import ScriptEngine.Proofs.Encoding.Decode
/-!
What a listing of code says. A line starts with an offset; behind it stand the name of the operation
and its operands, parted by blanks.
-/
namespace ScriptEngine

/-- The words of a line. -/
def lineWords (line : String) : List String :=
  ((line.toList.splitOn ' ').filter (· ≠ [])).map String.ofList

/-- The number that a line starts with. -/
def lineOffset (line : String) : Nat := Text.digitsValue (line.toList.takeWhile Char.isDigit)

/-- The operands that the operation has a place for. -/
def Instruction.operands (i : Instruction) : List Nat := [i.a, i.b].take i.op.widths.length

variable {code : Array UInt8} {i : Instruction} {s t : String}

theorem Instruction.encode_operands (i : Instruction) : i.op.encode i.operands = i.bytes := by
  unfold bytes Opcode.encode operands
  rcases i.op.widths with _ | ⟨width, _ | ⟨width', _ | ⟨width'', widths⟩⟩⟩ <;> simp

/-! ### Words -/

theorem lineWords_blank (s t : String) : lineWords (s ++ " " ++ t) = lineWords s ++ lineWords t := by
  have hlist : (s ++ " " ++ t).toList = s.toList ++ ' ' :: t.toList := by simp
  unfold lineWords
  rw [hlist, List.splitOn_append_cons_self, List.filter_append, List.map_append]

theorem lineWords_word (hne : s.toList ≠ []) (hblank : ' ' ∉ s.toList) : lineWords s = [s] := by
  unfold lineWords
  rw [List.splitOn_eq_singleton hblank]
  simp [hne]

theorem lineWords_padEnd (width : Nat) (s : String) :
    lineWords (Text.padEnd width s) = lineWords s := by
  unfold Text.padEnd
  generalize width - s.length = n
  induction n generalizing s with
  | zero => simp
  | succ n ih =>
    have hblank : s ++ String.ofList (List.replicate (n + 1) ' ') =
        s ++ " " ++ String.ofList (List.replicate n ' ') := by
      apply String.toList_injective
      simp [List.replicate_succ]
    have hempty : lineWords "" = [] := by decide
    have hpad : lineWords (String.ofList (List.replicate n ' ')) = [] := by
      have h := ih ""
      rwa [hempty, String.empty_append] at h
    rw [hblank, lineWords_blank, hpad, List.append_nil]

theorem digits_toString (n : Nat) : ∀ c ∈ (toString n).toList, c.isDigit := by
  intro c hc
  rw [Nat.toString_eq_ofList_toDigits, String.toList_ofList] at hc
  exact Nat.isDigit_of_mem_toDigits (by decide) (by decide) hc

theorem lineWords_toString (n : Nat) : lineWords (toString n) = [toString n] := by
  apply lineWords_word
  · rw [Nat.toString_eq_ofList_toDigits, String.toList_ofList]
    exact Nat.toDigits_ne_nil
  · intro hblank
    exact absurd (digits_toString n ' ' hblank) (by decide)

theorem lineWords_name (op : Opcode) : lineWords op.name = [op.name] := by
  cases op <;> (try rename_i x; cases x) <;> decide

/-! ### Lines -/

/-- The number that a line for a place starts with, in four digits or more. -/
def placeLabel (n : Nat) : String := Text.padStart 4 '0' (toString n)

theorem toList_placeLabel (n : Nat) : (placeLabel n).toList =
    List.replicate (4 - (toString n).length) '0' ++ Text.decimalDigits n := by
  simp [placeLabel, Text.padStart, Text.decimalDigits]

theorem digits_placeLabel (n : Nat) : ∀ c ∈ (placeLabel n).toList, c.isDigit := by
  intro c hc
  rw [toList_placeLabel, List.mem_append] at hc
  rcases hc with hzero | hdigit
  · rw [List.eq_of_mem_replicate hzero]
    decide
  · exact Nat.isDigit_of_mem_toDigits (by decide) (by decide) hdigit

theorem lineWords_placeLabel (n : Nat) : lineWords (placeLabel n) = [placeLabel n] := by
  apply lineWords_word
  · rw [toList_placeLabel]
    simp [Text.decimalDigits, Nat.toDigits_ne_nil]
  · intro hblank
    exact absurd (digits_placeLabel n ' ' hblank) (by decide)

theorem digitsValue_placeLabel (n : Nat) : Text.digitsValue (placeLabel n).toList = n := by
  rw [toList_placeLabel]
  generalize 4 - (toString n).length = k
  have hvalue : Text.digitsValue (Text.decimalDigits n) = n := Nat.ofDigitChars_ten_toDigits
  induction k with
  | zero => simpa using hvalue
  | succ k ih => simpa [Text.digitsValue, List.replicate_succ] using ih

theorem lineOffset_label (n : Nat) (rest : String) :
    lineOffset (placeLabel n ++ " " ++ rest) = n := by
  have hlist : (placeLabel n ++ " " ++ rest).toList =
      (placeLabel n).toList ++ ' ' :: rest.toList := by simp
  have hblank : ¬ ' '.isDigit := by decide
  unfold lineOffset
  rw [hlist, List.takeWhile_append_of_pos (digits_placeLabel n),
    List.takeWhile_cons_of_neg hblank, List.append_nil, digitsValue_placeLabel]

theorem line_instruction (code : Array UInt8) (start p : Nat) (i : Instruction) :
    ∃ text, (⟨p, some i⟩ : Slot).line code start = placeLabel (start + p) ++ " " ++ text ∧
      lineWords text = i.op.name :: i.operands.map toString := by
  obtain ⟨op, a, b⟩ := i
  have hname : lineWords (Text.padEnd 8 op.name) = [op.name] :=
    (lineWords_padEnd 8 op.name).trans (lineWords_name op)
  have hfirst : lineWords (Text.padEnd 5 (toString a)) = [toString a] :=
    (lineWords_padEnd 5 _).trans (lineWords_toString a)
  unfold Slot.line Instruction.operands
  rcases hw : op.widths with _ | ⟨width, _ | ⟨width', widths⟩⟩
  · refine ⟨op.name, by simp only [hw]; rfl, ?_⟩
    rw [lineWords_name]
    rfl
  · refine ⟨Text.padEnd 8 op.name ++ " " ++ toString a, ?_, ?_⟩
    · simp only [hw, placeLabel, String.append_assoc]
    · rw [lineWords_blank, hname, lineWords_toString]
      rfl
  · refine ⟨Text.padEnd 8 op.name ++ " " ++ Text.padEnd 5 (toString a) ++ " " ++ toString b,
      ?_, ?_⟩
    · simp only [hw, placeLabel, String.append_assoc]
    · rw [lineWords_blank, lineWords_blank, hname, hfirst, lineWords_toString]
      simp

theorem line_invalid (code : Array UInt8) (start p : Nat) :
    ∃ text, (⟨p, none⟩ : Slot).line code start = placeLabel (start + p) ++ " " ++ text := by
  have hblank : " <invalid 0x" = " " ++ "<invalid 0x" := by decide
  unfold Slot.line
  rw [hblank]
  exact ⟨_, by simp only [placeLabel, String.append_assoc]; rfl⟩

/-- A line starts with the place of its slot. -/
theorem lineOffset_line (s : Slot) (code : Array UInt8) (start : Nat) :
    lineOffset (s.line code start) = start + s.offset := by
  obtain ⟨p, _ | i⟩ := s
  · obtain ⟨text, htext⟩ := line_invalid code start p
    rw [htext, lineOffset_label]
  · obtain ⟨text, htext, -⟩ := line_instruction code start p i
    rw [htext, lineOffset_label]

theorem lineWords_line (code : Array UInt8) (start p : Nat) (i : Instruction) :
    lineWords ((⟨p, some i⟩ : Slot).line code start) =
      placeLabel (start + p) :: i.op.name :: i.operands.map toString := by
  obtain ⟨text, htext, hwords⟩ := line_instruction code start p i
  rw [htext, lineWords_blank, lineWords_placeLabel, hwords]
  rfl

theorem lineOffsets_listCode (code : Array UInt8) (start : Nat) :
    (listCode code start).map lineOffset = (slots code).map fun s => start + s.offset := by
  unfold listCode
  rw [List.map_map]
  exact List.map_congr_left fun s _ => lineOffset_line s code start

end ScriptEngine
