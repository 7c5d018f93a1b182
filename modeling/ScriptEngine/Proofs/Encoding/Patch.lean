import ScriptEngine.Bytecode.Patch
import ScriptEngine.Proofs.Encoding.Decode
/-!
Operands changed in the bytes of instructions. The bytes come out as if the instruction had been
written with the other operand.
-/
namespace ScriptEngine

open Encoding

variable {code : Array UInt8} {i : Instruction}

theorem overwrite?_append {front old bytes back : List UInt8}
    (hcode : code.toList = front ++ old ++ back) (hlen : old.length = bytes.length) :
    ∃ code', overwrite? code front.length bytes = some code' ∧
      code'.toList = front ++ bytes ++ back := by
  have hsize : code.size = front.length + bytes.length + back.length := by
    rw [← Array.length_toList, hcode, List.length_append, List.length_append, hlen]
  have hin : front.length + bytes.length ≤ code.size := by omega
  have hfront : (code.extract 0 front.length).toList = front := by simp [hcode]
  have hback : (code.extract (front.length + bytes.length)).toList = back := by
    rw [Array.toList_extract, List.extract_eq_take_drop, List.take_of_length_le (by simp), hcode,
      ← hlen, ← List.length_append, List.drop_left]
  refine ⟨_, if_pos hin, ?_⟩
  rw [Array.toList_append, Array.toList_append, hfront, hback]

/-- The first operand is written before the second one. -/
theorem Opcode.encode_pair (op : Opcode) (b : Nat) :
    ∃ rest, ∀ a, op.encode [a, b] = op.encode [a] ++ rest := by
  unfold encode
  rcases op.widths with _ | ⟨width, _ | ⟨width', widths⟩⟩
  · exact ⟨[], fun a => by simp⟩
  · exact ⟨[], fun a => by simp⟩
  · exact ⟨operandBytes width' b, fun a => by simp⟩

theorem Opcode.length_encode_single (op : Opcode) (a n : Nat) :
    (op.encode [a]).length = (op.encode [n]).length := by
  unfold encode
  rcases op.widths with _ | ⟨width, widths⟩ <;> simp [length_operandBytes]

/-- Changing the operand of an instruction touches no other one. -/
theorem changeOperand?_encode {pre post : List Instruction}
    (hcode : code.toList = encode (pre ++ i :: post)) (n : Nat) :
    ∃ code', changeOperand? code (extent Instruction.size pre) n = some code' ∧
      code'.toList = encode (pre ++ { i with a := n } :: post) := by
  obtain ⟨rest, hrest⟩ := i.op.encode_pair i.b
  have hbytes (a : Nat) : encode (pre ++ { i with a := a } :: post) =
      encode pre ++ i.op.encode [a] ++ (rest ++ encode post) := by
    rw [encode_append, encode_cons, Instruction.bytes, hrest]
    simp only [List.append_assoc]
  have hop : code[extent Instruction.size pre]? = some i.op.byte := by
    rw [← Array.getElem?_toList, hcode, hbytes i.a, ← length_encode]
    simp [Opcode.encode]
  obtain ⟨code', hcode', hlist⟩ := overwrite?_append (hcode.trans (hbytes i.a))
    (i.op.length_encode_single i.a n)
  refine ⟨code', ?_, hlist.trans (hbytes n).symm⟩
  simp only [changeOperand?, hop, Option.bind_eq_bind, Option.bind_some, Opcode.ofByte?_byte]
  rw [← hcode', length_encode]

end ScriptEngine
