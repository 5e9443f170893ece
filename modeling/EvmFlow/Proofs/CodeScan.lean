import EvmFlow.Bytecode
import Mathlib.Data.List.Basic
import Mathlib.Tactic.Common

/-!
# Scans of raw bytes, and reading and writing code

A scan goes over raw bytes from one opcode to the next and skips the data of pushes. Decoding goes
the same way, so what it makes of a byte string can be said with scans. Written again, the decoded
code is the byte string with the data that a push at its end lacks.

* `dataLength`, `Scans`: the offsets at which a scan arrives, and `scans_cons`: scans from the
  second opcode on;
* `Lacks`: how much data a push at the end of a byte string lacks;
* `decode_cons`, `scan_induction`: decoding, and induction, from one opcode to the next;
* `encode_decode`, `decode_encode`: the two compositions of reading and writing;
* **`decode_inverse_encode`**: reading and writing are inverse up to the data that is lacking.
-/

namespace EvmFlow

/-! ## Scans -/

/-- The number of data bytes behind an opcode byte: `n` behind the byte of a push of `n` bytes. -/
def dataLength (b : UInt8) : Nat := if 0x60 ≤ b ∧ b ≤ 0x7f then b.toNat - 0x5f else 0

/-- A scan that starts with the first byte and skips the data of pushes arrives at an offset. -/
inductive Scans (code : List UInt8) : Nat → Prop
  | start : Scans code 0
  | next {k : Nat} {b : UInt8} (h : Scans code k) (hb : code[k]? = some b) :
    Scans code (k + 1 + dataLength b)

theorem dataLength_le (b : UInt8) : dataLength b ≤ 32 := by
  unfold dataLength
  split
  · next h =>
    have hle : b.toNat ≤ 0x7f := UInt8.le_iff_toNat_le.mp h.2
    omega
  · omega

/-- The byte at a place behind the data of the first opcode. -/
theorem getElem?_cons_add (b : UInt8) (rest : List UInt8) (n i : Nat) :
    (b :: rest)[i + (1 + n)]? = (rest.drop n)[i]? := by
  rw [List.getElem?_drop, ← Nat.add_assoc, Nat.add_right_comm, List.getElem?_cons_succ,
    Nat.add_comm]

/-- A scan goes on behind the data of the first opcode as if it started there. -/
theorem scans_cons {b : UInt8} {rest : List UInt8} {k : Nat} : Scans (b :: rest) k ↔
    k = 0 ∨ ∃ i, Scans (rest.drop (dataLength b)) i ∧ k = i + (1 + dataLength b) := by
  constructor
  · intro h
    induction h with
    | start => exact .inl rfl
    | @next k c _ hc ih =>
      right
      rcases ih with rfl | ⟨i, hi, rfl⟩
      · cases hc
        exact ⟨0, .start, by omega⟩
      · rw [getElem?_cons_add] at hc
        exact ⟨_, hi.next hc, by omega⟩
  · rintro (rfl | ⟨i, hi, rfl⟩)
    · exact .start
    · induction hi with
      | start =>
        have h : Scans (b :: rest) (0 + 1 + dataLength b) := Scans.start.next rfl
        rwa [Nat.add_assoc] at h
      | @next i c _ hc ih =>
        rw [← getElem?_cons_add b] at hc
        have h := ih.next hc
        rwa [show i + (1 + dataLength b) + 1 + dataLength c =
          i + 1 + dataLength c + (1 + dataLength b) by omega] at h

/-- The byte string ends inside the data of a push, `k` bytes of which are lacking. -/
def Lacks (code : List UInt8) (k : Nat) : Prop :=
  0 < k ∧ ∃ j b, Scans code j ∧ code[j]? = some b ∧ j + 1 + dataLength b = code.length + k

theorem not_lacks_nil (k : Nat) : ¬ Lacks [] k := by
  rintro ⟨-, j, b, -, hb, -⟩
  cases hb

/-- Either the data of the first opcode is lacking, or there is code behind it. -/
theorem lacks_cons {b : UInt8} {rest : List UInt8} {k : Nat} : Lacks (b :: rest) k ↔
    0 < k ∧ dataLength b = rest.length + k ∨ Lacks (rest.drop (dataLength b)) k := by
  constructor
  · rintro ⟨hk, j, c, hj, hc, hlen⟩
    rw [List.length_cons] at hlen
    rcases scans_cons.mp hj with rfl | ⟨i, hi, rfl⟩
    · cases hc
      exact .inl ⟨hk, by omega⟩
    · rw [getElem?_cons_add] at hc
      have hlt := (List.getElem?_eq_some_iff.mp hc).1
      rw [List.length_drop] at hlt
      exact .inr ⟨hk, i, c, hi, hc, by rw [List.length_drop]; omega⟩
  · rintro (⟨hk, hlen⟩ | ⟨hk, i, c, hi, hc, hlen⟩)
    · exact ⟨hk, 0, b, .start, rfl, by rw [List.length_cons]; omega⟩
    · have hlt := (List.getElem?_eq_some_iff.mp hc).1
      rw [List.length_drop] at hlt hlen
      refine ⟨hk, i + (1 + dataLength b), c, scans_cons.mpr (.inr ⟨i, hi, rfl⟩), ?_, ?_⟩
      · rw [getElem?_cons_add, hc]
      · rw [List.length_cons]
        omega

/-! ## Decoding from one opcode to the next -/

theorem immediateLength_ofByte (b : UInt8) : (Opcode.ofByte b).immediateLength = dataLength b := by
  have key : ∀ n : Fin 256, (Opcode.ofByte (UInt8.ofNat n.val)).immediateLength =
      dataLength (UInt8.ofNat n.val) := by decide +kernel
  simpa using key ⟨b.toNat, b.toNat_lt⟩

theorem decodeAfter_eq_decode (skip : Nat) (bytes : List UInt8) :
    decodeAfter skip bytes = decode (bytes.drop skip) := by
  induction bytes generalizing skip with
  | nil => cases skip <;> rfl
  | cons b rest ih =>
    cases skip with
    | zero => rfl
    | succ skip => exact ih skip

theorem decode_cons (b : UInt8) (rest : List UInt8) : decode (b :: rest) =
    ⟨Opcode.ofByte b, (rest.take (dataLength b)).rightpad (dataLength b) 0⟩ ::
      decode (rest.drop (dataLength b)) := by
  rw [← immediateLength_ofByte, ← decodeAfter_eq_decode]
  rfl

theorem length_immediate_cons (b : UInt8) (rest : List UInt8) :
    ((rest.take (dataLength b)).rightpad (dataLength b) 0).length = dataLength b := by
  rw [List.length_rightpad, List.length_take]
  omega

/-- Induction over a byte string from one opcode to the next. -/
@[elab_as_elim]
theorem scan_induction {motive : List UInt8 → Prop} (nil : motive [])
    (cons : ∀ b rest, motive (rest.drop (dataLength b)) → motive (b :: rest))
    (code : List UInt8) : motive code := by
  suffices h : ∀ skip, motive (code.drop skip) from h 0
  induction code with
  | nil =>
    intro skip
    rw [List.drop_nil]
    exact nil
  | cons b rest ih =>
    intro skip
    cases skip with
    | zero => exact cons b rest (ih _)
    | succ skip => exact ih skip

/-! ## Reading what was written -/

theorem encode_cons (i : Instr) (instrs : List Instr) :
    encode (i :: instrs) = i.op.toByte :: (i.immediate ++ encode instrs) := rfl

theorem decode_encode (instrs : List Instr)
    (h : ∀ i ∈ instrs, i.immediate.length = i.op.immediateLength) :
    decode (encode instrs) = instrs := by
  induction instrs with
  | nil => rfl
  | cons i instrs ih =>
    obtain ⟨hi, hrest⟩ := List.forall_mem_cons.mp h
    have hlength : dataLength i.op.toByte = i.immediate.length := by
      rw [← immediateLength_ofByte, Opcode.ofByte_toByte, hi]
    rw [encode_cons, decode_cons, hlength, List.drop_left, List.take_left, ih hrest,
      Opcode.ofByte_toByte]
    simp [List.rightpad]

/-- Decoding gives every opcode the data that it asks for. -/
theorem length_immediate_of_mem_decode {code : List UInt8} {i : Instr} (hi : i ∈ decode code) :
    i.immediate.length = i.op.immediateLength := by
  induction code using scan_induction with
  | nil => cases hi
  | cons b rest ih =>
    rw [decode_cons] at hi
    rcases List.mem_cons.mp hi with rfl | hi
    · dsimp only
      rw [length_immediate_cons, immediateLength_ofByte]
    · exact ih hi

/-! ## Writing what was read -/

/-- The bytes of the first opcode, of its data, and of what else is decoded. -/
theorem encode_decode_cons (b : UInt8) (rest : List UInt8) : encode (decode (b :: rest)) =
    b :: ((rest.take (dataLength b)).rightpad (dataLength b) 0 ++
      encode (decode (rest.drop (dataLength b)))) := by
  rw [decode_cons, encode_cons, Opcode.toByte_ofByte]

/-- **Written again, decoded code is the byte string and the data that it lacks**, as zeros. -/
theorem encode_decode (code : List UInt8) : ∃ k ≤ 32,
    encode (decode code) = code ++ List.replicate k 0 ∧ ∀ j, Lacks code j ↔ 0 < j ∧ j = k := by
  induction code using scan_induction with
  | nil =>
    refine ⟨0, by omega, rfl, fun j => ?_⟩
    rw [iff_false_left (not_lacks_nil j)]
    omega
  | cons b rest ih =>
    obtain ⟨k, hk, heq, hlacks⟩ := ih
    have hle := dataLength_le b
    by_cases hlength : dataLength b ≤ rest.length
    · -- The data is complete, so that only what follows can lack something.
      refine ⟨k, hk, ?_, fun j => ?_⟩
      · rw [encode_decode_cons, heq, List.rightpad, List.length_take_of_le hlength, Nat.sub_self,
          List.replicate_zero, List.append_nil, ← List.append_assoc, List.take_append_drop]
        rfl
      · rw [lacks_cons, hlacks]
        omega
    · -- Nothing follows.
      have hrest : rest.drop (dataLength b) = [] := List.drop_eq_nil_iff.mpr (by omega)
      refine ⟨dataLength b - rest.length, by omega, ?_, fun j => ?_⟩
      · rw [encode_decode_cons, hrest, List.take_of_length_le (by omega), List.rightpad]
        exact congrArg (b :: ·) (List.append_nil _)
      · rw [lacks_cons, hrest, or_iff_left (not_lacks_nil j)]
        omega

/-- **Reading and writing code are inverse up to the data that is lacking.** A decoded byte string
is written as itself, followed by zeros for the data that a push at its end lacks. Instructions with
as much data as their opcodes ask for are read as they were written. -/
theorem decode_inverse_encode :
    (∀ code : List UInt8, ∃ k ≤ 32, encode (decode code) = code ++ List.replicate k 0 ∧
      ∀ j, Lacks code j ↔ 0 < j ∧ j = k) ∧
    (∀ instrs : List Instr, (∀ i ∈ instrs, i.immediate.length = i.op.immediateLength) →
      decode (encode instrs) = instrs) ∧
    ∀ code : List UInt8, decode (encode (decode code)) = decode code :=
  ⟨encode_decode, decode_encode, fun _ => decode_encode _ fun _ => length_immediate_of_mem_decode⟩

/-- A push whose data looks like a push of a jump destination, and a jump destination. -/
def disguised : List Instr := [⟨.push 2, [0x60, 0x5b]⟩, ⟨.jumpdest, []⟩]

/-- Here the last push lacks three of its four bytes. -/
theorem decode_inverse_encode_disguised : Lacks [0x5b, 0x63, 0xaa] 3 ∧
    encode (decode [0x5b, 0x63, 0xaa]) = [0x5b, 0x63, 0xaa, 0, 0, 0] ∧
    (∀ i ∈ disguised, i.immediate.length = i.op.immediateLength) ∧
    decode (encode disguised) = disguised := by
  have hlacks : Lacks [0x5b, 0x63, 0xaa] 3 :=
    ⟨by omega, 1, 0x63, Scans.next (b := 0x5b) .start rfl, rfl, rfl⟩
  have hlength : ∀ i ∈ disguised, i.immediate.length = i.op.immediateLength := by decide
  obtain ⟨k, -, heq, hall⟩ := decode_inverse_encode.1 [0x5b, 0x63, 0xaa]
  obtain ⟨-, rfl⟩ := (hall 3).mp hlacks
  exact ⟨hlacks, heq, hlength, decode_inverse_encode.2.1 disguised hlength⟩

end EvmFlow
