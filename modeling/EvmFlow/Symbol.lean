import EvmFlow.Fault
import EvmFlow.Word

/-!
# Symbols

A symbol is a record: where a value lives, what its type is taken to be, and what it denotes. Two
symbols with equal records are still distinct; the table of symbols tells them apart by handle.

* `Global`: the locations and operations of the execution environment;
* `Address`, `TypeHint`, `SymbolKind`, `Symbol`: the parts of the record;
* `Scope`: the block a symbol belongs to, or the whole program.
-/

namespace EvmFlow

/-! ## Globals -/

/-- A well-known location of the execution environment, or an operation that the environment
provides. `unknown` stands for a code that names none of them. -/
inductive Global where
  | stack | stackHeight
  | callData | memory | returnData
  | memoryCopy
  | sha3 | contractAddress | balance | origin | caller | callValue | callDataLoad | callDataSize
  | callDataCopy | codeSize | codeCopy | gasPrice | extCodeSize | extCodeCopy | returnDataSize
  | returnDataCopy | extCodeHash | blockHash | coinbase | timestamp | blockNumber | prevRanDao
  | gasLimit | chainId | selfBalance | baseFee | blobHash | blobBaseFee
  | sload | sstore | tload | tstore | mstore8 | mcopy | memorySize | gas | addMod | mulMod
  | create | create2 | call | staticCall | delegateCall | callCode
  | ret | stop | revert | invalid | selfDestruct | log
  | unknown (code : UInt8)
deriving DecidableEq, Repr

namespace Global

/-- The globals in the order of their codes. -/
def all : List Global :=
  [stack, stackHeight, callData, memory, returnData, memoryCopy,
   sha3, contractAddress, balance, origin, caller, callValue, callDataLoad, callDataSize,
   callDataCopy, codeSize, codeCopy, gasPrice, extCodeSize, extCodeCopy, returnDataSize,
   returnDataCopy, extCodeHash, blockHash, coinbase, timestamp, blockNumber, prevRanDao,
   gasLimit, chainId, selfBalance, baseFee, blobHash, blobBaseFee,
   sload, sstore, tload, tstore, mstore8, mcopy, memorySize, gas, addMod, mulMod,
   create, create2, call, staticCall, delegateCall, callCode,
   ret, stop, revert, invalid, selfDestruct, log]

/-- The global of a code; the codes count the globals from zero. -/
def ofCode (code : UInt8) : Global := all.getD code.toNat (unknown code)

/-- The name of a global. -/
def render : Global → String
  | stack => "Stack"
  | stackHeight => "StackHeight"
  | callData => "CallData"
  | memory => "Memory"
  | returnData => "ReturnData"
  | memoryCopy => "MemoryCopy"
  | sha3 => "Sha3"
  | contractAddress => "Address"
  | balance => "Balance"
  | origin => "Origin"
  | caller => "Caller"
  | callValue => "CallValue"
  | callDataLoad => "CallDataLoad"
  | callDataSize => "CallDataSize"
  | callDataCopy => "CallDataCopy"
  | codeSize => "CodeSize"
  | codeCopy => "CodeCopy"
  | gasPrice => "GasPrice"
  | extCodeSize => "ExtCodeSize"
  | extCodeCopy => "ExtCodeCopy"
  | returnDataSize => "ReturnDataSize"
  | returnDataCopy => "ReturnDataCopy"
  | extCodeHash => "ExtCodeHash"
  | blockHash => "BlockHash"
  | coinbase => "Coinbase"
  | timestamp => "Timestamp"
  | blockNumber => "BlockNumber"
  | prevRanDao => "PrevRanDao"
  | gasLimit => "GasLimit"
  | chainId => "ChainId"
  | selfBalance => "SelfBalance"
  | baseFee => "BaseFee"
  | blobHash => "BlobHash"
  | blobBaseFee => "BlobBaseFee"
  | sload => "SLoad"
  | sstore => "SStore"
  | tload => "TLoad"
  | tstore => "TStore"
  | mstore8 => "MStore8"
  | mcopy => "MCopy"
  | memorySize => "MemorySize"
  | gas => "Gas"
  | addMod => "AddMod"
  | mulMod => "MulMod"
  | create => "Create"
  | create2 => "Create2"
  | call => "Call"
  | staticCall => "StaticCall"
  | delegateCall => "DelegateCall"
  | callCode => "CallCode"
  | ret => "Return"
  | stop => "Stop"
  | revert => "Revert"
  | invalid => "Invalid"
  | selfDestruct => "SelfDestruct"
  | log => "Log"
  | unknown code => s!"Global({code.toNat})"

/-- Calling a pure global has no effect besides its result, so that an unused call may
be dropped. -/
def isPure : Global → Bool
  | sha3 | contractAddress | balance | origin | caller | callValue | callDataSize
  | codeSize | gasPrice | extCodeSize | returnDataSize | extCodeHash | blockHash
  | coinbase | timestamp | blockNumber | prevRanDao | gasLimit | chainId
  | selfBalance | baseFee | blobHash | blobBaseFee | sload | tload | memorySize
  | gas | addMod | mulMod => true
  | _ => false

end Global

/-! ## Records -/

/-- Where a symbol lives: a temporary, a slot of the stack that a block is entered with (slot 0 is
its top), or a global. -/
inductive Address where
  | temporary
  | stackSlot (slot : Int32)
  | label (g : Global)
deriving DecidableEq

/-- The text of an address. -/
def Address.render : Address → String
  | temporary => "tmp"
  | stackSlot slot => s!"stack[{slot.toInt}]"
  | label g => g.render

/-- The classes of type hints. -/
inductive TypeClass where
  | word | uint | int | bytes | bool
deriving DecidableEq, Repr

/-- What a symbol is taken to hold. The size counts bits for integers and bytes for byte strings. It
is not shown for words and truth values, but distinguishes hints all the same. -/
structure TypeHint where
  cls : TypeClass
  size : Int := 0
deriving DecidableEq, Repr

namespace TypeHint

/-- A word of the machine. -/
def word : TypeHint := ⟨.word, 0⟩

/-- A truth value. -/
def bool : TypeHint := ⟨.bool, 0⟩

/-- A byte string of a given length. -/
def bytes (length : Int) : TypeHint := ⟨.bytes, length⟩

/-- An offset, a stack index or a jump target. -/
def pointer : TypeHint := ⟨.uint, 32⟩

/-- The text of a type hint. -/
def render (t : TypeHint) : String :=
  match t.cls with
  | .word => "word"
  | .uint => s!"u{t.size}"
  | .int => s!"i{t.size}"
  | .bytes => s!"bytes{t.size}"
  | .bool => "bool"

end TypeHint

/-- What a symbol denotes. -/
inductive SymbolKind where
  | var
  | pointer
  | constant (value : Word)
  | function
deriving DecidableEq

/-- The name of a kind. -/
def SymbolKind.render : SymbolKind → String
  | var => "variable"
  | pointer => "pointer"
  | constant _ => "constant"
  | function => "function"

/-- The value of a constant. -/
def SymbolKind.value? : SymbolKind → Option Word
  | constant value => some value
  | _ => none

/-- The record of a symbol. -/
structure Symbol where
  address : Address
  type : TypeHint
  kind : SymbolKind
deriving DecidableEq

namespace Symbol

/-- A fresh temporary holds a word. -/
def temporary : Symbol := ⟨.temporary, .word, .var⟩

/-- A slot of the stack that a block is entered with. -/
def stackSlot (slot : Int32) : Symbol := ⟨.stackSlot slot, .word, .var⟩

/-- A constant of a given type. -/
def constant (value : Word) (type : TypeHint) : Symbol := ⟨.temporary, type, .constant value⟩

/-- The value of a constant symbol. -/
def value? (s : Symbol) : Option Word := s.kind.value?

/-- Whether a symbol is a constant. -/
def isConstant (s : Symbol) : Bool := s.value?.isSome

/-- Whether a symbol is a global. -/
def isGlobal (s : Symbol) : Bool :=
  match s.address with
  | .label _ => true
  | _ => false

/-- A temporary variable is the only symbol whose definition can be dropped when nobody reads it. -/
def isTemporary (s : Symbol) : Bool := s.address = .temporary ∧ s.kind = .var

end Symbol

/-- The type of a global. -/
def Global.type : Global → TypeHint
  | stack | stackHeight | callData | memory | returnData => .pointer
  | _ => .word

/-- What a global denotes: a region, the stack height, or an operation. -/
def Global.kind : Global → SymbolKind
  | stack | callData | memory | returnData => .pointer
  | stackHeight => .var
  | _ => .function

/-- The symbol of a global. -/
def Global.symbol (g : Global) : Symbol := ⟨.label g, g.type, g.kind⟩

/-- Where a symbol belongs: to the whole program, as globals and constants do, or to a block. -/
inductive Scope where
  | program
  | block (n : NodeId)
deriving DecidableEq

end EvmFlow
