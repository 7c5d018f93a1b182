import ScriptEngine.Text.Utf8
/-!
Text as bytes and back. Each character is read off the front of its own bytes, so the bytes of a
text are read as that text.
-/
namespace ScriptEngine.Utf8

theorem byte_toNat {n : Nat} (h : n < 256) : (UInt8.ofNat n).toNat = n := by
  rw [UInt8.toNat_ofNat']
  exact Nat.mod_eq_of_lt h

/-- A continuing byte carries six bits. -/
theorem tail_byte (n : Nat) :
    isTail (UInt8.ofNat (n % 64 + 128)) = true ∧ tailBits (UInt8.ofNat (n % 64 + 128)) = n % 64 := by
  have hbyte := byte_toNat (n := n % 64 + 128) (by omega)
  have hlow : (0x80 : UInt8).toNat = 128 := rfl
  have hhigh : (0xbf : UInt8).toNat = 191 := rfl
  constructor
  · simp only [isTail, UInt8.le_iff_toNat_le, hbyte, hlow, hhigh, Bool.and_eq_true, decide_eq_true_eq]
    omega
  · rw [tailBits, hbyte]
    omega

variable {c : Char} {rest : List UInt8}

theorem ofNat_of_toNat {n : Nat} (h : n = c.val.toNat) : Char.ofNat n = c := by
  rw [h]
  exact Char.ofNat_toNat c

section First

variable {a : UInt8} {n : Nat} (ha : a.toNat = n)
include ha

theorem not_low (hn : 0x80 ≤ n) : ¬ a < 0x80 := fun h => by
  have hlt : a.toNat < 0x80 := UInt8.lt_iff_toNat_lt.mp h
  omega

theorem first?_one (hn : n < 0x80) : first? (a :: rest) = some (Char.ofNat n, 1) := by
  have hlow : a < 0x80 := UInt8.lt_iff_toNat_lt.mpr (ha ▸ hn)
  rw [first?.eq_def]
  dsimp only
  rw [if_pos hlow, ha]

theorem first?_two (hn : 0xc2 ≤ n ∧ n ≤ 0xdf) (k : Nat) :
    first? (a :: UInt8.ofNat (k % 64 + 128) :: rest) =
      some (Char.ofNat (n % 32 * 64 + k % 64), 2) := by
  obtain ⟨htail, hbits⟩ := tail_byte k
  have hfirst : (0xc2 ≤ a && a ≤ 0xdf) = true := by
    simpa [UInt8.le_iff_toNat_le, ha] using hn
  rw [first?.eq_def]
  dsimp only
  rw [if_neg (not_low ha (by omega)), htail, hbits, hfirst, ha]
  rfl

theorem first?_three (k k' : Nat) (hn : 0xe0 ≤ n ∧ n ≤ 0xef) (hlong : n = 0xe0 → 0x20 ≤ k % 64)
    (hpair : n = 0xed → k % 64 < 0x20) :
    first? (a :: UInt8.ofNat (k % 64 + 128) :: UInt8.ofNat (k' % 64 + 128) :: rest) =
      some (Char.ofNat ((n % 16 * 64 + k % 64) * 64 + k' % 64), 3) := by
  obtain ⟨htail, hbits⟩ := tail_byte k
  obtain ⟨htail', hbits'⟩ := tail_byte k'
  have hbyte := byte_toNat (n := k % 64 + 128) (by omega)
  have htwo : (0xc2 ≤ a && a ≤ 0xdf) = false := by
    simp only [Bool.and_eq_false_iff, decide_eq_false_iff_not, UInt8.le_iff_toNat_le, ha,
      UInt8.reduceToNat]
    omega
  have hthree : (a = 0xe0 && 0xa0 ≤ UInt8.ofNat (k % 64 + 128) || 0xe1 ≤ a && a ≤ 0xec ||
      a = 0xed && UInt8.ofNat (k % 64 + 128) ≤ 0x9f || 0xee ≤ a && a ≤ 0xef) = true := by
    simp only [Bool.or_eq_true, Bool.and_eq_true, decide_eq_true_eq, UInt8.le_iff_toNat_le,
      ← UInt8.toNat_inj, ha, hbyte, UInt8.reduceToNat]
    omega
  rw [first?.eq_def]
  dsimp only
  rw [if_neg (not_low ha (by omega)), htail, htwo, htail', hthree, hbits, hbits', ha]
  rfl

theorem first?_four (k k' k'' : Nat) (hn : 0xf0 ≤ n ∧ n ≤ 0xf4) (hlong : n = 0xf0 → 0x10 ≤ k % 64)
    (hlast : n = 0xf4 → k % 64 < 0x10) :
    first? (a :: UInt8.ofNat (k % 64 + 128) :: UInt8.ofNat (k' % 64 + 128) ::
      UInt8.ofNat (k'' % 64 + 128) :: rest) =
      some (Char.ofNat (((n % 8 * 64 + k % 64) * 64 + k' % 64) * 64 + k'' % 64), 4) := by
  obtain ⟨htail, hbits⟩ := tail_byte k
  obtain ⟨htail', hbits'⟩ := tail_byte k'
  obtain ⟨htail'', hbits''⟩ := tail_byte k''
  have hbyte := byte_toNat (n := k % 64 + 128) (by omega)
  have htwo : (0xc2 ≤ a && a ≤ 0xdf) = false := by
    simp only [Bool.and_eq_false_iff, decide_eq_false_iff_not, UInt8.le_iff_toNat_le, ha,
      UInt8.reduceToNat]
    omega
  have hthree : (a = 0xe0 && 0xa0 ≤ UInt8.ofNat (k % 64 + 128) || 0xe1 ≤ a && a ≤ 0xec ||
      a = 0xed && UInt8.ofNat (k % 64 + 128) ≤ 0x9f || 0xee ≤ a && a ≤ 0xef) = false := by
    simp only [Bool.or_eq_false_iff, Bool.and_eq_false_iff, decide_eq_false_iff_not,
      UInt8.le_iff_toNat_le, ← UInt8.toNat_inj, ha, UInt8.reduceToNat]
    omega
  have hfour : (a = 0xf0 && 0x90 ≤ UInt8.ofNat (k % 64 + 128) || 0xf1 ≤ a && a ≤ 0xf3 ||
      a = 0xf4 && UInt8.ofNat (k % 64 + 128) ≤ 0x8f) = true := by
    simp only [Bool.or_eq_true, Bool.and_eq_true, decide_eq_true_eq, UInt8.le_iff_toNat_le,
      ← UInt8.toNat_inj, ha, hbyte, UInt8.reduceToNat]
    omega
  rw [first?.eq_def]
  dsimp only
  rw [if_neg (not_low ha (by omega)), htail, htwo, htail', hthree, htail'', hfour, hbits, hbits',
    hbits'', ha]
  rfl

end First

/-- A character is read off its own bytes. -/
theorem first?_utf8EncodeChar (c : Char) (rest : List UInt8) :
    first? (String.utf8EncodeChar c ++ rest) = some (c, (String.utf8EncodeChar c).length) := by
  have hvalid : c.val.toNat < 0xd800 ∨ 0xdfff < c.val.toNat ∧ c.val.toNat < 0x110000 := c.valid
  fun_cases String.utf8EncodeChar c with
  | case1 v hv =>
    refine (first?_one (byte_toNat (by omega)) (by omega)).trans ?_
    rw [ofNat_of_toNat rfl]
    rfl
  | case2 v hv hv' =>
    refine (first?_two (byte_toNat (by omega)) (by omega) v).trans ?_
    rw [ofNat_of_toNat (by change _ = v; omega)]
    rfl
  | case3 v hv hv' hv'' =>
    change v < _ ∨ _ < v ∧ v < _ at hvalid
    refine (first?_three (byte_toNat (by omega)) (v / 64) v (by omega) (by omega) (by omega)).trans ?_
    rw [ofNat_of_toNat (by change _ = v; omega)]
    rfl
  | case4 v hv hv' hv'' =>
    change v < _ ∨ _ < v ∧ v < _ at hvalid
    refine (first?_four (byte_toNat (by omega)) (v / 4096) (v / 64) v (by omega) (by omega)
      (by omega)).trans ?_
    rw [ofNat_of_toNat (by change _ = v; omega)]
    rfl

theorem decodeFrom_skip (cs : List UInt8) (read : List Char) :
    decodeFrom (cs ++ rest) cs.length read = decodeFrom rest 0 read := by
  induction cs with
  | nil => rfl
  | cons b cs ih => exact ih

theorem decodeFrom_utf8Encode (cs read : List Char) :
    decodeFrom (cs.flatMap String.utf8EncodeChar) 0 read = (read.reverse ++ cs, true) := by
  induction cs generalizing read with
  | nil => simp [decodeFrom]
  | cons c cs ih =>
    have hfirst := first?_utf8EncodeChar c (cs.flatMap String.utf8EncodeChar)
    rw [List.flatMap_cons]
    obtain ⟨b, bytes, hbytes⟩ := List.exists_cons_of_ne_nil (String.utf8EncodeChar_ne_nil (c := c))
    rw [hbytes] at hfirst ⊢
    rw [List.cons_append] at hfirst ⊢
    rw [decodeFrom, hfirst]
    dsimp only
    rw [List.length_cons, Nat.add_sub_cancel, decodeFrom_skip, ih]
    simp

theorem toList_loop (bytes : ByteArray) (i : Nat) (read : List UInt8) :
    ByteArray.toList.loop bytes i read = read.reverse ++ bytes.data.toList.drop i := by
  fun_induction ByteArray.toList.loop bytes i read with
  | case1 i read h ih =>
    have hi : i < bytes.data.toList.length := by simpa using h
    rw [ih, List.drop_eq_getElem_cons hi]
    simp [ByteArray.get!, h]
  | case2 i read h =>
    rw [List.drop_eq_nil_of_le (by simpa using Nat.le_of_not_lt h)]
    simp

/-- The bytes of a text are read as that text. -/
theorem decode_toUTF8 (cs : List Char) : decode (String.ofList cs).toUTF8 = (cs, true) := by
  have hbytes : (String.ofList cs).toUTF8.toList = cs.flatMap String.utf8EncodeChar := by
    rw [ByteArray.toList, toList_loop, String.toUTF8_eq_toByteArray, String.toByteArray_ofList,
      List.utf8Encode, List.toList_data_toByteArray]
    rfl
  rw [decode, hbytes, decodeFrom_utf8Encode]
  rfl

end ScriptEngine.Utf8
