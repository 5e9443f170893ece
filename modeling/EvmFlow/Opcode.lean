import EvmFlow.Text.Hex

/-!
# Opcodes

One constructor for each instruction of the machine, and `undefined` for the bytes that the machine
gives no meaning.

* `Opcode.assigned`: the bytes that have a meaning;
* `Opcode.ofByte`, `Opcode.toByte`: the two directions of the correspondence with bytes, inverse to
  each other (`toByte_ofByte`, `ofByte_toByte`);
* `Opcode.immediateLength`: the number of data bytes that follow the opcode in the code;
* `Opcode.isTerminator`, `Opcode.isBlockEnd`: where execution ends, and where a block does.
-/

namespace EvmFlow

/-- The bytes that the machine gives a meaning. -/
def assignedByte (b : UInt8) : Bool :=
  b ≤ 0x0b || (0x10 ≤ b && b ≤ 0x1d) || b == 0x20 || (0x30 ≤ b && b ≤ 0x4a) ||
    (0x50 ≤ b && b ≤ 0xa4) || (0xf0 ≤ b && b ≤ 0xf5) || b == 0xfa || 0xfd ≤ b

/-- An opcode. `push n` carries `n` data bytes; `dup n` and `swap n` count from zero, so `dup 0`
copies the top of the stack and `swap 0` exchanges the two topmost entries. -/
inductive Opcode where
  | stop | add | mul | sub | div | sdiv | mod | smod | addmod | mulmod | exp | signextend
  | lt | gt | slt | sgt | eq | iszero | and | or | xor | not | byte | shl | shr | sar
  | keccak256
  | address | balance | origin | caller | callvalue | calldataload | calldatasize | calldatacopy
  | codesize | codecopy | gasprice | extcodesize | extcodecopy | returndatasize | returndatacopy
  | extcodehash
  | blockhash | coinbase | timestamp | number | difficulty | gaslimit | chainid | selfbalance
  | basefee | blobhash | blobbasefee
  | pop | mload | mstore | mstore8 | sload | sstore | jump | jumpi | pc | msize | gas | jumpdest
  | tload | tstore | mcopy
  | push (n : Fin 33)
  | dup (n : Fin 16)
  | swap (n : Fin 16)
  | log (n : Fin 5)
  | create | call | callcode | ret | delegatecall | create2 | staticcall | revert | invalid
  | selfdestruct
  | undefined (b : UInt8) (h : assignedByte b = false)
deriving DecidableEq

namespace Opcode

/-- The byte that encodes an opcode. -/
def toByte : Opcode → UInt8
  | stop => 0x00
  | add => 0x01
  | mul => 0x02
  | sub => 0x03
  | div => 0x04
  | sdiv => 0x05
  | mod => 0x06
  | smod => 0x07
  | addmod => 0x08
  | mulmod => 0x09
  | exp => 0x0a
  | signextend => 0x0b
  | lt => 0x10
  | gt => 0x11
  | slt => 0x12
  | sgt => 0x13
  | eq => 0x14
  | iszero => 0x15
  | and => 0x16
  | or => 0x17
  | xor => 0x18
  | not => 0x19
  | byte => 0x1a
  | shl => 0x1b
  | shr => 0x1c
  | sar => 0x1d
  | keccak256 => 0x20
  | address => 0x30
  | balance => 0x31
  | origin => 0x32
  | caller => 0x33
  | callvalue => 0x34
  | calldataload => 0x35
  | calldatasize => 0x36
  | calldatacopy => 0x37
  | codesize => 0x38
  | codecopy => 0x39
  | gasprice => 0x3a
  | extcodesize => 0x3b
  | extcodecopy => 0x3c
  | returndatasize => 0x3d
  | returndatacopy => 0x3e
  | extcodehash => 0x3f
  | blockhash => 0x40
  | coinbase => 0x41
  | timestamp => 0x42
  | number => 0x43
  | difficulty => 0x44
  | gaslimit => 0x45
  | chainid => 0x46
  | selfbalance => 0x47
  | basefee => 0x48
  | blobhash => 0x49
  | blobbasefee => 0x4a
  | pop => 0x50
  | mload => 0x51
  | mstore => 0x52
  | mstore8 => 0x53
  | sload => 0x54
  | sstore => 0x55
  | jump => 0x56
  | jumpi => 0x57
  | pc => 0x58
  | msize => 0x59
  | gas => 0x5a
  | jumpdest => 0x5b
  | tload => 0x5c
  | tstore => 0x5d
  | mcopy => 0x5e
  | push n => UInt8.ofNat (0x5f + n.val)
  | dup n => UInt8.ofNat (0x80 + n.val)
  | swap n => UInt8.ofNat (0x90 + n.val)
  | log n => UInt8.ofNat (0xa0 + n.val)
  | create => 0xf0
  | call => 0xf1
  | callcode => 0xf2
  | ret => 0xf3
  | delegatecall => 0xf4
  | create2 => 0xf5
  | staticcall => 0xfa
  | revert => 0xfd
  | invalid => 0xfe
  | selfdestruct => 0xff
  | undefined b _ => b

/-- The opcodes that stand alone, without a family index, in the order of their bytes. -/
def single : List Opcode :=
  [stop, add, mul, sub, div, sdiv, mod, smod, addmod, mulmod, exp, signextend,
   lt, gt, slt, sgt, eq, iszero, and, or, xor, not, byte, shl, shr, sar, keccak256,
   address, balance, origin, caller, callvalue, calldataload, calldatasize, calldatacopy,
   codesize, codecopy, gasprice, extcodesize, extcodecopy, returndatasize, returndatacopy,
   extcodehash, blockhash, coinbase, timestamp, number, difficulty, gaslimit, chainid,
   selfbalance, basefee, blobhash, blobbasefee,
   pop, mload, mstore, mstore8, sload, sstore, jump, jumpi, pc, msize, gas, jumpdest,
   tload, tstore, mcopy,
   create, call, callcode, ret, delegatecall, create2, staticcall, revert, invalid,
   selfdestruct]

/-- The opcode that a byte encodes. -/
def ofByte (b : UInt8) : Opcode :=
  if h : 0x5f ≤ b.toNat ∧ b.toNat < 0x80 then push ⟨b.toNat - 0x5f, by omega⟩
  else if h : 0x80 ≤ b.toNat ∧ b.toNat < 0x90 then dup ⟨b.toNat - 0x80, by omega⟩
  else if h : 0x90 ≤ b.toNat ∧ b.toNat < 0xa0 then swap ⟨b.toNat - 0x90, by omega⟩
  else if h : 0xa0 ≤ b.toNat ∧ b.toNat < 0xa5 then log ⟨b.toNat - 0xa0, by omega⟩
  else if h : assignedByte b = false then undefined b h
  else (single.find? (·.toByte == b)).getD invalid

theorem toByte_ofByte (b : UInt8) : (ofByte b).toByte = b := by
  have key : ∀ n : Fin 256, (ofByte (UInt8.ofNat n.val)).toByte = UInt8.ofNat n.val := by
    decide +kernel
  simpa using key ⟨b.toNat, b.toNat_lt⟩

theorem ofByte_toByte (op : Opcode) : ofByte op.toByte = op := by
  cases op with
  | push n => revert n; decide +kernel
  | dup n => revert n; decide +kernel
  | swap n => revert n; decide +kernel
  | log n => revert n; decide +kernel
  | undefined b h =>
    have key : ∀ n : Fin 256, (h : assignedByte (UInt8.ofNat n.val) = false) →
        ofByte (UInt8.ofNat n.val) = undefined (UInt8.ofNat n.val) h := by
      decide +kernel
    have hb : UInt8.ofNat b.toNat = b := by simp
    have := key ⟨b.toNat, b.toNat_lt⟩
    simp only [hb] at this
    exact this h
  | _ => decide +kernel

/-! ## Classification -/

/-- The number of data bytes that follow an opcode in the code. -/
def immediateLength : Opcode → Nat
  | push n => n.val
  | _ => 0

/-- The opcodes that put their data bytes on the stack. -/
def isPush : Opcode → Bool
  | push _ => true
  | _ => false

/-- Execution ends at a terminator. -/
def isTerminator : Opcode → Bool
  | stop | ret | revert | invalid | selfdestruct => true
  | _ => false

/-- Control does not simply go on with the next instruction after a block end. -/
def isBlockEnd : Opcode → Bool
  | jump | jumpi => true
  | op => op.isTerminator

/-! ## Names -/

/-- The mnemonic of an opcode. -/
def render : Opcode → String
  | stop => "STOP"
  | add => "ADD"
  | mul => "MUL"
  | sub => "SUB"
  | div => "DIV"
  | sdiv => "SDIV"
  | mod => "MOD"
  | smod => "SMOD"
  | addmod => "ADDMOD"
  | mulmod => "MULMOD"
  | exp => "EXP"
  | signextend => "SIGNEXTEND"
  | lt => "LT"
  | gt => "GT"
  | slt => "SLT"
  | sgt => "SGT"
  | eq => "EQ"
  | iszero => "ISZERO"
  | and => "AND"
  | or => "OR"
  | xor => "XOR"
  | not => "NOT"
  | byte => "BYTE"
  | shl => "SHL"
  | shr => "SHR"
  | sar => "SAR"
  | keccak256 => "KECCAK256"
  | address => "ADDRESS"
  | balance => "BALANCE"
  | origin => "ORIGIN"
  | caller => "CALLER"
  | callvalue => "CALLVALUE"
  | calldataload => "CALLDATALOAD"
  | calldatasize => "CALLDATASIZE"
  | calldatacopy => "CALLDATACOPY"
  | codesize => "CODESIZE"
  | codecopy => "CODECOPY"
  | gasprice => "GASPRICE"
  | extcodesize => "EXTCODESIZE"
  | extcodecopy => "EXTCODECOPY"
  | returndatasize => "RETURNDATASIZE"
  | returndatacopy => "RETURNDATACOPY"
  | extcodehash => "EXTCODEHASH"
  | blockhash => "BLOCKHASH"
  | coinbase => "COINBASE"
  | timestamp => "TIMESTAMP"
  | number => "NUMBER"
  | difficulty => "DIFFICULTY"
  | gaslimit => "GASLIMIT"
  | chainid => "CHAINID"
  | selfbalance => "SELFBALANCE"
  | basefee => "BASEFEE"
  | blobhash => "BLOBHASH"
  | blobbasefee => "BLOBBASEFEE"
  | pop => "POP"
  | mload => "MLOAD"
  | mstore => "MSTORE"
  | mstore8 => "MSTORE8"
  | sload => "SLOAD"
  | sstore => "SSTORE"
  | jump => "JUMP"
  | jumpi => "JUMPI"
  | pc => "PC"
  | msize => "MSIZE"
  | gas => "GAS"
  | jumpdest => "JUMPDEST"
  | tload => "TLOAD"
  | tstore => "TSTORE"
  | mcopy => "MCOPY"
  | push n => s!"PUSH{n.val}"
  | dup n => s!"DUP{n.val + 1}"
  | swap n => s!"SWAP{n.val + 1}"
  | log n => s!"LOG{n.val}"
  | create => "CREATE"
  | call => "CALL"
  | callcode => "CALLCODE"
  | ret => "RETURN"
  | delegatecall => "DELEGATECALL"
  | create2 => "CREATE2"
  | staticcall => "STATICCALL"
  | revert => "REVERT"
  | invalid => "INVALID"
  | selfdestruct => "SELFDESTRUCT"
  | undefined b _ => "opcode 0x" ++ Hex.digits b.toNat ++ " not defined"

end Opcode

end EvmFlow
