import EvmFlow.Opcode
import EvmFlow.Word

/-!
# Bytecode

Code is a string of bytes. Each instruction is one opcode byte and the data bytes that the opcode
asks for; data that runs past the end of the code reads as zeros.

* `Instr`: an opcode with its data bytes;
* `decode`, `encode`: from bytes to instructions and back;
* `Located`, `locate`: instructions with the offsets of their first bytes;
* `disassemble`: a listing, one instruction on a line.
-/

namespace EvmFlow

/-- An instruction: an opcode and the data bytes behind it. -/
structure Instr where
  op : Opcode
  immediate : List UInt8 := []
deriving DecidableEq

namespace Instr

/-- The bytes of an instruction. -/
def bytes (i : Instr) : List UInt8 := i.op.toByte :: i.immediate

/-- The number of code bytes an instruction occupies. -/
def length (i : Instr) : Nat := 1 + i.immediate.length

/-- The data bytes as a word, most significant byte first. -/
def value (i : Instr) : Word := Word.ofBytes i.immediate

/-- The mnemonic, followed by the data bytes of a push that carries some. -/
def render (i : Instr) : String :=
  if 0 < i.op.immediateLength then i.op.render ++ " 0x" ++ Hex.ofBytes i.immediate
  else i.op.render

end Instr

/-- A byte string that is too long for a push. -/
structure PushTooLong where
  length : Nat

/-- The wording of a push that is too long. -/
def PushTooLong.message (e : PushTooLong) : String :=
  s!"push immediate too long: {e.length} bytes"

/-- The push instruction that carries exactly the given bytes; there is none for more than 32. -/
def Instr.push (value : List UInt8) : Except PushTooLong Instr :=
  if h : value.length < 33 then .ok ⟨.push ⟨value.length, h⟩, value⟩ else .error ⟨value.length⟩

/-! ## Reading and writing code -/

/-- The instructions of a byte string whose first `skip` bytes are data of an
earlier instruction. -/
def decodeAfter : (skip : Nat) → List UInt8 → List Instr
  | _, [] => []
  | 0, b :: rest =>
    let op := Opcode.ofByte b
    let n := op.immediateLength
    ⟨op, (rest.take n).rightpad n 0⟩ :: decodeAfter n rest
  | skip + 1, _ :: rest => decodeAfter skip rest

/-- The instructions of a byte string. -/
def decode (code : List UInt8) : List Instr := decodeAfter 0 code

/-- The bytes of an instruction list. -/
def encode (instrs : List Instr) : List UInt8 := instrs.flatMap Instr.bytes

/-! ## Offsets -/

/-- An instruction with the offset of its first byte. -/
structure Located where
  offset : Nat
  instr : Instr
deriving DecidableEq

/-- The offset behind an instruction. -/
def Located.next (i : Located) : Nat := i.offset + i.instr.length

/-- The instructions with their offsets, the first one at `offset`. -/
def locate : (offset : Nat) → List Instr → List Located
  | _, [] => []
  | offset, i :: rest => ⟨offset, i⟩ :: locate (offset + i.length) rest

/-- A listing: each instruction on a line of its own behind its offset. -/
def disassemble (instrs : List Instr) : String :=
  String.join <| (locate 0 instrs).map fun i =>
    "0x" ++ Hex.padded 4 i.offset ++ ": " ++ i.instr.render ++ "\n"

end EvmFlow
