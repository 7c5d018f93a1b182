/-! Characters read off bytes in UTF-8. -/
namespace ScriptEngine.Utf8

/-- A byte that continues a character. -/
def isTail (b : UInt8) : Bool := 0x80 ≤ b && b ≤ 0xbf

/-- The six payload bits of a continuing byte. -/
def tailBits (b : UInt8) : Nat := b.toNat % 64

/-- The character at the front of the bytes and how many bytes it takes. Overlong forms,
surrogates and code points past the last plane have no reading. -/
def first? : List UInt8 → Option (Char × Nat)
  | [] => none
  | a :: rest =>
    if a < 0x80 then some (Char.ofNat a.toNat, 1)
    else match rest with
    | b :: rest =>
      if !isTail b then none
      else if 0xc2 ≤ a && a ≤ 0xdf then
        some (Char.ofNat (a.toNat % 32 * 64 + tailBits b), 2)
      else match rest with
      | c :: rest =>
        if !isTail c then none
        else if (a = 0xe0 && 0xa0 ≤ b) || (0xe1 ≤ a && a ≤ 0xec) || (a = 0xed && b ≤ 0x9f) ||
            (0xee ≤ a && a ≤ 0xef) then
          some (Char.ofNat ((a.toNat % 16 * 64 + tailBits b) * 64 + tailBits c), 3)
        else match rest with
        | d :: _ =>
          if !isTail d then none
          else if (a = 0xf0 && 0x90 ≤ b) || (0xf1 ≤ a && a ≤ 0xf3) || (a = 0xf4 && b ≤ 0x8f) then
            some (Char.ofNat (((a.toNat % 8 * 64 + tailBits b) * 64 + tailBits c) * 64
              + tailBits d), 4)
          else none
        | [] => none
      | [] => none
    | [] => none

/-- The longest front of the bytes that is valid, as characters, and whether it is all of them.
`skip` bytes belong to the character read last. -/
def decodeFrom : List UInt8 → (skip : Nat) → List Char → List Char × Bool
  | [], _, read => (read.reverse, true)
  | _ :: rest, skip + 1, read => decodeFrom rest skip read
  | b :: rest, 0, read =>
    match first? (b :: rest) with
    | some (c, width) => decodeFrom rest (width - 1) (c :: read)
    | none => (read.reverse, false)

/-- The characters of the longest valid front, and whether nothing is left. -/
def decode (bytes : ByteArray) : List Char × Bool :=
  decodeFrom bytes.toList 0 []

end ScriptEngine.Utf8
