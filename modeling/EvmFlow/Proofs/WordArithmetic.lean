import EvmFlow.Operator
import Mathlib.Data.BitVec

/-!
# Word arithmetic

What the operators compute, said in integers. A word stands for a number below `2 ^ 256`, or in
two's complement for one from `-2 ^ 255` on; an operator computes an integer from its operands so
read, and its result is the word of that integer modulo `2 ^ 256`.

* `Operator.arity`: the number of operands;
* `Operator.integer`: the integer that an operator computes;
* `Word.pow_eq`: repeated squaring multiplies as often as the exponent says;
* **`Operator.eval_eq_integer`**: evaluation yields the word of that integer.
-/

namespace EvmFlow

namespace Operator

/-- The number of operands of an operator. -/
def arity : Operator → Nat
  | isZero | not => 1
  | _ => 2

/-- The integer that an operator computes from the word `a` on top of the stack and the word `b`
below it. An operator on one word ignores `b`. -/
def integer (a b : Word) : Operator → Int
  | add => a.toNat + b.toNat
  | mul => a.toNat * b.toNat
  | sub => a.toNat - b.toNat
  | div => if b.toNat = 0 then 0 else a.toNat / b.toNat
  | sdiv =>
    if b.toInt = 0 then 0
    else if a.toInt = -2 ^ 255 ∧ b.toInt = -1 then -2 ^ 255
    else a.toInt.tdiv b.toInt
  | mod => if b.toNat = 0 then 0 else a.toNat % b.toNat
  | smod => if b.toInt = 0 then 0 else a.toInt.tmod b.toInt
  | exp => a.toNat ^ b.toNat
  | signExtend =>
    if a.toNat < 31 then Int.bmod b.toNat (2 ^ (8 * (a.toNat + 1))) else b.toNat
  | lessThan => if a.toNat < b.toNat then 1 else 0
  | greaterThan => if a.toNat > b.toNat then 1 else 0
  | signedLessThan => if a.toInt < b.toInt then 1 else 0
  | signedGreaterThan => if a.toInt > b.toInt then 1 else 0
  | equal => if a.toNat = b.toNat then 1 else 0
  | isZero => if a.toNat = 0 then 1 else 0
  | and => Nat.ofBits fun i : Fin 256 => a.toNat.testBit i && b.toNat.testBit i
  | or => Nat.ofBits fun i : Fin 256 => a.toNat.testBit i || b.toNat.testBit i
  | xor => Nat.ofBits fun i : Fin 256 => a.toNat.testBit i ^^ b.toNat.testBit i
  | not => Nat.ofBits fun i : Fin 256 => !a.toNat.testBit i
  | byte => if a.toNat < 32 then b.toNat / 256 ^ (31 - a.toNat) % 256 else 0
  | shiftLeft => if a.toNat < 256 then b.toNat * 2 ^ a.toNat else 0
  | shiftRight => if a.toNat < 256 then b.toNat / 2 ^ a.toNat else 0
  | shiftArithmeticRight =>
    if a.toNat < 256 then b.toInt / 2 ^ a.toNat else if b.toInt < 0 then -1 else 0
  | unknown _ => 0

end Operator

namespace Word

/-! ## Words and integers -/

theorem ofInt_toNat (w : Word) : BitVec.ofInt 256 w.toNat = w := by
  rw [BitVec.ofInt_natCast, BitVec.ofNat_toNat, BitVec.setWidth_eq]

theorem eq_ofInt_of_toNat {w : Word} {n : Nat} (h : w.toNat = n) : w = BitVec.ofInt 256 n := by
  rw [← h, ofInt_toNat]

theorem eq_ofInt_of_toInt {w : Word} {z : Int} (h : w.toInt = z) : w = BitVec.ofInt 256 z := by
  rw [← h, BitVec.ofInt_toInt]

theorem toNat_eq_zero_iff {w : Word} : w.toNat = 0 ↔ w = 0 :=
  BitVec.toNat_inj (y := (0 : Word))

theorem toInt_eq_zero_iff {w : Word} : w.toInt = 0 ↔ w = 0 :=
  BitVec.toInt_inj (y := (0 : Word))

/-- A case distinction on words follows the one on the numbers they stand for. -/
theorem ite_eq_ofInt {P Q : Prop} [Decidable P] [Decidable Q] {x y : Word} {p q : Int}
    (hPQ : P ↔ Q) (hx : Q → x = BitVec.ofInt 256 p) (hy : ¬ Q → y = BitVec.ofInt 256 q) :
    (if P then x else y) = BitVec.ofInt 256 (if Q then p else q) := by
  by_cases h : Q
  · rw [if_pos (hPQ.mpr h), if_pos h, hx h]
  · rw [if_neg (mt hPQ.mp h), if_neg h, hy h]

theorem ofBool_eq_ofInt {b : Bool} {Q : Prop} [Decidable Q] (h : b = true ↔ Q) :
    ofBool b = BitVec.ofInt 256 (if Q then 1 else 0) :=
  ite_eq_ofInt h (fun _ => rfl) (fun _ => rfl)

/-- A word is known by its bits. -/
theorem eq_ofInt_ofBits {w : Word} {f : Fin 256 → Bool}
    (h : ∀ i : Fin 256, w.getLsbD i = f i) : w = BitVec.ofInt 256 (Nat.ofBits f) := by
  rw [BitVec.ofInt_natCast]
  refine BitVec.eq_of_getLsbD_eq fun i hi => ?_
  rw [BitVec.getLsbD_ofNat, Nat.testBit_ofBits_lt f i hi, decide_eq_true hi, Bool.true_and]
  exact h ⟨i, hi⟩

/-! ## Exponentiation -/

/-- Halving the exponent squares the base; an odd exponent leaves one factor over. -/
theorem powAux_eq (bits : Nat) (acc base : Word) {e : Nat} (h : e < 2 ^ bits) :
    powAux bits acc base e = acc * base ^ e := by
  induction bits generalizing acc base e with
  | zero =>
    obtain rfl : e = 0 := by omega
    rw [powAux, pow_zero, mul_one]
  | succ bits ih =>
    have hhalf : e / 2 < 2 ^ bits := by rw [Nat.pow_succ] at h; omega
    rw [powAux, ih _ _ hhalf, ← pow_two, ← pow_mul]
    by_cases hodd : e % 2 = 1
    · have he : 2 * (e / 2) + 1 = e := by omega
      rw [if_pos hodd, mul_assoc, ← pow_succ', he]
    · have he : 2 * (e / 2) = e := by omega
      rw [if_neg hodd, he]

theorem pow_eq (base e : Word) : pow base e = BitVec.ofInt 256 (base.toNat ^ e.toNat) := by
  have hcast : BitVec.ofInt 256 (base.toNat ^ e.toNat) = BitVec.ofInt 256 base.toNat ^ e.toNat :=
    Int.cast_pow (R := Word) _ _
  rw [pow, powAux_eq 256 1 base e.isLt, one_mul, hcast, ofInt_toNat]

/-! ## Differences and signed quotients -/

theorem sub_eq (a b : Word) : a - b = BitVec.ofInt 256 (a.toNat - b.toNat) := by
  rw [Int.sub_eq_add_neg, BitVec.ofInt_add, BitVec.ofInt_neg, ofInt_toNat, ofInt_toNat,
    BitVec.sub_eq_add_neg]

theorem sdiv_eq (a b : Word) :
    a.sdiv b = BitVec.ofInt 256
      (if a.toInt = -2 ^ 255 ∧ b.toInt = -1 then -2 ^ 255 else a.toInt.tdiv b.toInt) := by
  have hmin : (BitVec.intMin 256).toInt = -2 ^ 255 := by decide
  have hneg : (-1#256).toInt = -1 := by decide
  -- The least number divided by `-1` is the one quotient that leaves the range.
  by_cases h : a.toInt = -2 ^ 255 ∧ b.toInt = -1
  · obtain rfl : a = BitVec.intMin 256 := BitVec.eq_of_toInt_eq (h.1.trans hmin.symm)
    obtain rfl : b = -1#256 := BitVec.eq_of_toInt_eq (h.2.trans hneg.symm)
    rw [if_pos h, BitVec.intMin_sdiv_neg_one]
    exact eq_ofInt_of_toInt hmin
  · have hne : a ≠ BitVec.intMin 256 ∨ b ≠ -1#256 := by
      rcases not_and_or.mp h with ha | hb
      · exact .inl fun e => ha (by rw [e, hmin])
      · exact .inr fun e => hb (by rw [e, hneg])
    rw [if_neg h]
    exact eq_ofInt_of_toInt (BitVec.toInt_sdiv_of_ne_or_ne a b hne)

/-! ## Bytes, signs and shifts -/

theorem signExtendFrom_eq (k w : Word) :
    signExtendFrom k w = BitVec.ofInt 256
      (if k.toNat < 31 then Int.bmod w.toNat (2 ^ (8 * (k.toNat + 1))) else w.toNat) := by
  refine ite_eq_ofInt BitVec.lt_def (fun (h : k.toNat < 31) => ?_) fun _ => (ofInt_toNat w).symm
  have hmin : min 256 (8 * (k.toNat + 1)) = 8 * (k.toNat + 1) := by omega
  refine eq_ofInt_of_toInt ?_
  rw [BitVec.toInt_signExtend_eq_toNat_bmod, hmin, BitVec.toNat_setWidth, Int.natCast_emod,
    Int.emod_bmod]

theorem byteAt_eq (k w : Word) :
    byteAt k w = BitVec.ofInt 256
      (if k.toNat < 32 then w.toNat / 256 ^ (31 - k.toNat) % 256 else 0) := by
  refine ite_eq_ofInt BitVec.lt_def (fun _ => ?_) fun _ => rfl
  have hmask : (0xff : Word).toNat = 2 ^ 8 - 1 := rfl
  have hbyte : (w >>> (8 * (31 - k.toNat)) &&& 0xff).toNat =
      w.toNat / 256 ^ (31 - k.toNat) % 256 := by
    rw [BitVec.toNat_and, BitVec.toNat_ushiftRight, hmask, Nat.and_two_pow_sub_one_eq_mod,
      Nat.shiftRight_eq_div_pow, Nat.pow_mul]
  exact mod_cast eq_ofInt_of_toNat hbyte

theorem shiftLeft_eq (w : Word) (n : Nat) : w <<< n = BitVec.ofInt 256 (w.toNat * 2 ^ n) := by
  have hshift : w <<< n = BitVec.ofNat 256 (w.toNat * 2 ^ n) := by
    refine BitVec.eq_of_toNat_eq ?_
    rw [BitVec.toNat_shiftLeft, BitVec.toNat_ofNat, Nat.shiftLeft_eq]
  rw [hshift, ← BitVec.ofInt_natCast, Int.natCast_mul, Int.natCast_pow]
  rfl

theorem shiftRight_eq (w : Word) (n : Nat) : w >>> n = BitVec.ofInt 256 (w.toNat / 2 ^ n) := by
  have hshift : (w >>> n).toNat = w.toNat / 2 ^ n := by
    rw [BitVec.toNat_ushiftRight, Nat.shiftRight_eq_div_pow]
  exact mod_cast eq_ofInt_of_toNat hshift

theorem sshiftRight_eq (w : Word) (n : Nat) :
    w.sshiftRight n = BitVec.ofInt 256 (w.toInt / 2 ^ n) := by
  refine eq_ofInt_of_toInt ?_
  rw [BitVec.toInt_sshiftRight, Int.shiftRight_eq_div_pow, Int.natCast_pow]
  rfl

theorem signFill_eq (w : Word) :
    (if w.msb then BitVec.allOnes 256 else 0) =
      BitVec.ofInt 256 (if w.toInt < 0 then -1 else 0) := by
  refine ite_eq_ofInt ?_ (fun _ => rfl) (fun _ => rfl)
  rw [BitVec.msb_eq_toInt, decide_eq_true_iff]

end Word

namespace Operator

/-! ## Evaluation -/

theorem evalBinary?_eq_integer {op : Operator} {f : Word → Word → Word}
    (h : op.evalBinary? = some f) (a b : Word) : f a b = BitVec.ofInt 256 (op.integer a b) := by
  cases op <;> cases h
  case add => simp only [integer, BitVec.ofInt_add, Word.ofInt_toNat]
  case mul => simp only [integer, BitVec.ofInt_mul, Word.ofInt_toNat]
  case sub => exact Word.sub_eq a b
  case div =>
    exact Word.ite_eq_ofInt Word.toNat_eq_zero_iff.symm (fun _ => rfl)
      fun _ => mod_cast Word.eq_ofInt_of_toNat (BitVec.toNat_udiv)
  case sdiv =>
    exact Word.ite_eq_ofInt Word.toInt_eq_zero_iff.symm (fun _ => rfl) fun _ => Word.sdiv_eq a b
  case mod =>
    exact Word.ite_eq_ofInt Word.toNat_eq_zero_iff.symm (fun _ => rfl)
      fun _ => mod_cast Word.eq_ofInt_of_toNat (BitVec.toNat_umod)
  case smod =>
    exact Word.ite_eq_ofInt Word.toInt_eq_zero_iff.symm (fun _ => rfl)
      fun _ => Word.eq_ofInt_of_toInt (BitVec.toInt_srem a b)
  case exp => exact Word.pow_eq a b
  case signExtend => exact Word.signExtendFrom_eq a b
  case lessThan | greaterThan => exact Word.ofBool_eq_ofInt BitVec.ult_iff_toNat_lt
  case signedLessThan | signedGreaterThan => exact Word.ofBool_eq_ofInt BitVec.slt_iff_toInt_lt
  case equal => exact Word.ofBool_eq_ofInt (beq_iff_eq.trans BitVec.toNat_inj.symm)
  case and => exact Word.eq_ofInt_ofBits fun i => BitVec.getLsbD_and
  case or => exact Word.eq_ofInt_ofBits fun i => BitVec.getLsbD_or
  case xor => exact Word.eq_ofInt_ofBits fun i => BitVec.getLsbD_xor
  case byte => exact Word.byteAt_eq a b
  case shiftLeft =>
    exact Word.ite_eq_ofInt BitVec.lt_def (fun _ => Word.shiftLeft_eq b _) fun _ => rfl
  case shiftRight =>
    exact Word.ite_eq_ofInt BitVec.lt_def (fun _ => Word.shiftRight_eq b _) fun _ => rfl
  case shiftArithmeticRight =>
    exact Word.ite_eq_ofInt BitVec.lt_def (fun _ => Word.sshiftRight_eq b _)
      fun _ => Word.signFill_eq b

theorem evalUnary?_eq_integer {op : Operator} {f : Word → Word}
    (h : op.evalUnary? = some f) (a b : Word) : f a = BitVec.ofInt 256 (op.integer a b) := by
  cases op <;> cases h
  case isZero => exact Word.ofBool_eq_ofInt (beq_iff_eq.trans Word.toNat_eq_zero_iff.symm)
  case not =>
    refine Word.eq_ofInt_ofBits fun i => ?_
    rw [BitVec.getLsbD_not, decide_eq_true i.isLt, Bool.true_and, BitVec.testBit_toNat]

/-- An operator takes one word or two, and is evaluated on as many. -/
theorem exists_eval_of_mem_all {op : Operator} (h : op ∈ all) :
    (op.arity = 1 ∧ op.evalBinary? = none ∧ ∃ f, op.evalUnary? = some f) ∨
      (op.arity = 2 ∧ ∃ f, op.evalBinary? = some f) := by
  cases op with
  | isZero | not => exact .inl ⟨rfl, rfl, _, rfl⟩
  | unknown code => simp [all] at h
  | _ => exact .inr ⟨rfl, _, rfl⟩

/-- **Every operator computes its integer, modulo `2 ^ 256`.** Operands beyond those it takes are
ignored. -/
theorem eval_eq_integer {op : Operator} (hop : op ∈ all) {operands : List Word}
    (h : op.arity ≤ operands.length) :
    op.eval operands =
      some (BitVec.ofInt 256 (op.integer (operands.getD 0 0) (operands.getD 1 0))) := by
  rcases exists_eval_of_mem_all hop with ⟨harity, hnone, f, hf⟩ | ⟨harity, f, hf⟩ <;>
    rw [harity] at h <;> rcases operands with _ | ⟨a, _ | ⟨b, rest⟩⟩
  case inl.nil | inr.nil | inr.cons.nil => simp at h
  case inl.cons.nil =>
    rw [eval, hf, Option.map_some, evalUnary?_eq_integer hf a 0]
    rfl
  case inl.cons.cons =>
    rw [eval, hnone, hf, Option.map_none, Option.none_or, Option.map_some,
      evalUnary?_eq_integer hf a b]
    rfl
  case inr.cons.cons =>
    rw [eval, hf, Option.map_some, Option.some_or, evalBinary?_eq_integer hf a b]
    rfl

/-- The least number divided by `-1` is the least number again. -/
theorem eval_eq_integer_sdiv :
    sdiv ∈ all ∧ sdiv.arity ≤ [BitVec.intMin 256, BitVec.allOnes 256].length ∧
      sdiv.integer (BitVec.intMin 256) (BitVec.allOnes 256) = -2 ^ 255 ∧
      sdiv.eval [BitVec.intMin 256, BitVec.allOnes 256] =
        some (BitVec.ofInt 256 (sdiv.integer (BitVec.intMin 256) (BitVec.allOnes 256))) :=
  ⟨by decide, by decide, by decide, eval_eq_integer (by decide) (by decide)⟩

end Operator

end EvmFlow
