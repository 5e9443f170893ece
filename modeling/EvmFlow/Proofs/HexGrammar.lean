import EvmFlow.Bytecode.HexText
import EvmFlow.Proofs.Outcome
import Mathlib.Data.List.Induction

/-!
# The grammar of hexadecimal code

What a reader of code accepts: white space is passed over, a mark may come first, and an even number
of digits follows, two for each byte. Besides `0x` and `0X`, the mark may also be `0x0X`: the two
ways to write it are dropped one after the other.

* `whiteSpace`, `isBlank_iff`: the white space of Unicode, code point by code point;
* `HexText.valueOf?`, `HexText.Spells`: digits and the bytes they spell;
* `HexText.digit?_ofNat`, `HexText.encode_of_digit?`: digits among the bytes of a text;
* `HexText.Spells.pairs`, `HexText.spells_of_pairs`: reading pairs of digits accepts what spells
  bytes, and nothing else;
* `HexText.marks`, `HexText.dropMarks_eq_iff`: what may stand in front of the digits;
* `HexText.spells_ofBytes`: what printing writes;
* **`HexText.parse_accepts`**: the texts that are accepted, and the bytes they give;
* `HexText.parse_doubled_mark`: a text with both marks.
-/

namespace EvmFlow

/-! ## White space -/

/-- The code points that have the white space property of Unicode. -/
def whiteSpace : List Nat :=
  [0x09, 0x0a, 0x0b, 0x0c, 0x0d, 0x20, 0x85, 0xa0, 0x1680, 0x2000, 0x2001, 0x2002, 0x2003, 0x2004,
   0x2005, 0x2006, 0x2007, 0x2008, 0x2009, 0x200a, 0x2028, 0x2029, 0x202f, 0x205f, 0x3000]

theorem isBlank_iff (c : Char) : isBlank c = true ↔ c.toNat ∈ whiteSpace := by
  simp only [isBlank, whiteSpace, Bool.or_eq_true, Bool.and_eq_true, decide_eq_true_eq, beq_iff_eq,
    List.mem_cons, List.not_mem_nil, or_false]
  omega

namespace HexText

/-! ## Digits -/

/-- The digits of base sixteen, each at the place of its value. -/
def lowerDigits : List Char :=
  ['0', '1', '2', '3', '4', '5', '6', '7', '8', '9', 'a', 'b', 'c', 'd', 'e', 'f']

/-- The digits of base sixteen in upper case. -/
def upperDigits : List Char :=
  ['0', '1', '2', '3', '4', '5', '6', '7', '8', '9', 'A', 'B', 'C', 'D', 'E', 'F']

/-- The value of a digit in base sixteen, in either case. -/
def valueOf? (c : Char) : Option Nat := (lowerDigits.idxOf? c).or (upperDigits.idxOf? c)

/-- The digits spell the bytes, two digits for each byte, the one of higher value first. -/
inductive Spells : List Char → List UInt8 → Prop
  | nil : Spells [] []
  | cons {hi lo : Char} {h l : Nat} {digits : List Char} {bytes : List UInt8}
      (high : valueOf? hi = some h) (low : valueOf? lo = some l) (rest : Spells digits bytes) :
      Spells (hi :: lo :: digits) (UInt8.ofNat (16 * h + l) :: bytes)

theorem digit?_ofNat : ∀ n < 128,
    (Hex.digit? (UInt8.ofNat n)).map UInt8.toNat = valueOf? (Char.ofNat n) := by
  decide +kernel

theorem digit?_of_le {b : UInt8} (h : 128 ≤ b.toNat) : Hex.digit? b = none := by
  simp only [Hex.digit?, UInt8.le_iff_toNat_le, UInt8.toNat_ofNat]
  rw [if_neg (by omega), if_neg (by omega), if_neg (by omega)]

/-- All digits are ASCII characters. -/
theorem toNat_lt_of_valueOf? {c : Char} {v : Nat} (h : valueOf? c = some v) : c.toNat < 128 := by
  have hascii : (lowerDigits ++ upperDigits).all (fun d => d.toNat < 128) = true := by
    decide +kernel
  refine of_decide_eq_true (List.all_eq_true.mp hascii c ?_)
  rw [List.mem_append, ← List.isSome_idxOf?, ← List.isSome_idxOf?, ← Bool.or_eq_true,
    ← Option.isSome_or]
  exact Option.isSome_of_eq_some h

theorem valueOf?_toUpper {c : Char} {v : Nat} (h : valueOf? c = some v) :
    valueOf? c.toUpper = some v := by
  have hupper : ∀ n < 128, (valueOf? (Char.ofNat n)).isSome = true →
      valueOf? (Char.ofNat n).toUpper = valueOf? (Char.ofNat n) := by
    decide +kernel
  have hc := hupper c.toNat (toNat_lt_of_valueOf? h)
  rw [Char.ofNat_toNat] at hc
  rw [hc (Option.isSome_of_eq_some h), h]

/-! ## Bytes of a text -/

/-- A digit is one byte of the text. -/
theorem exists_digit? {c : Char} {v : Nat} (h : valueOf? c = some v) :
    ∃ b d, String.utf8EncodeChar c = [b] ∧ Hex.digit? b = some d ∧ d.toNat = v := by
  have hlt := toNat_lt_of_valueOf? h
  have hdigit := digit?_ofNat c.toNat hlt
  rw [Char.ofNat_toNat, h] at hdigit
  obtain ⟨d, hd, hv⟩ := Option.map_eq_some_iff.mp hdigit
  refine ⟨UInt8.ofNat c.toNat, d, ?_, hd, hv⟩
  exact if_pos (Nat.le_of_lt_succ hlt)

/-- Only an ASCII character begins with an ASCII byte. -/
theorem toNat_lt_of_encode {c : Char} {b : UInt8} {t : List UInt8}
    (h : String.utf8EncodeChar c = b :: t) (hb : b.toNat < 128) : c.toNat < 128 := by
  by_contra hge
  have hv : ¬ c.val.toNat ≤ 127 := fun hle => hge (Nat.lt_succ_of_le hle)
  simp only [String.utf8EncodeChar, if_neg hv] at h
  -- The first byte of a longer code is at least 192.
  split at h
  · obtain ⟨rfl, -⟩ := List.cons.inj h
    rw [UInt8.toNat_ofNat'] at hb
    omega
  · split at h
    · obtain ⟨rfl, -⟩ := List.cons.inj h
      rw [UInt8.toNat_ofNat'] at hb
      omega
    · obtain ⟨rfl, -⟩ := List.cons.inj h
      rw [UInt8.toNat_ofNat'] at hb
      omega

/-- A character whose first byte is a digit is that digit. -/
theorem encode_of_digit? {c : Char} {b d : UInt8} {t : List UInt8}
    (h : String.utf8EncodeChar c = b :: t) (hd : Hex.digit? b = some d) :
    t = [] ∧ valueOf? c = some d.toNat := by
  have hlow : b.toNat < 128 := by
    by_contra hge
    rw [digit?_of_le (Nat.le_of_not_lt hge)] at hd
    cases hd
  have hlt : c.toNat < 128 := toNat_lt_of_encode h hlow
  have hself : String.utf8EncodeChar c = [UInt8.ofNat c.toNat] := if_pos (Nat.le_of_lt_succ hlt)
  rw [hself] at h
  obtain ⟨rfl, rfl⟩ := List.cons.inj h
  have hvalue := digit?_ofNat c.toNat hlt
  rw [hd, Char.ofNat_toNat] at hvalue
  exact ⟨rfl, hvalue.symm⟩

theorem digit_eq_ok {b d : UInt8} : digit b = .ok d ↔ Hex.digit? b = some d := by
  unfold digit
  cases Hex.digit? b <;> simp

theorem pairs_cons_eq_ok {hi lo : UInt8} {rest bytes : List UInt8} :
    pairs (hi :: lo :: rest) = .ok bytes ↔ ∃ h l later, Hex.digit? hi = some h ∧
      Hex.digit? lo = some l ∧ pairs rest = .ok later ∧ bytes = (16 * h + l) :: later := by
  simp only [pairs, bind_eq_ok, digit_eq_ok]
  constructor
  · rintro ⟨h, hh, l, hl, later, hlater, hbytes⟩
    exact ⟨h, l, later, hh, hl, hlater, (Except.ok.inj hbytes).symm⟩
  · rintro ⟨h, l, later, hh, hl, hlater, rfl⟩
    exact ⟨h, hh, l, hl, later, hlater, rfl⟩

/-! ## Pairs of digits -/

/-- What spells bytes is read as them. -/
theorem Spells.pairs {cs : List Char} {bytes : List UInt8} (h : Spells cs bytes) :
    (cs.flatMap String.utf8EncodeChar).length % 2 = 0 ∧
      HexText.pairs (cs.flatMap String.utf8EncodeChar) = .ok bytes := by
  induction h with
  | nil => exact ⟨rfl, rfl⟩
  | cons high low _ ih =>
    obtain ⟨b, d, hb, hd, rfl⟩ := exists_digit? high
    obtain ⟨b', d', hb', hd', rfl⟩ := exists_digit? low
    obtain ⟨heven, hpairs⟩ := ih
    rw [List.flatMap_cons, List.flatMap_cons, hb, hb']
    refine ⟨?_, pairs_cons_eq_ok.mpr ⟨d, d', _, hd, hd', hpairs, ?_⟩⟩
    · simp only [List.singleton_append, List.length_cons]
      omega
    · simp [UInt8.ofNat_add, UInt8.ofNat_mul]

theorem exists_encode_eq_cons (c : Char) : ∃ b t, String.utf8EncodeChar c = b :: t := by
  refine List.exists_cons_of_length_pos ?_
  rw [String.length_utf8EncodeChar]
  exact c.utf8Size_pos

/-- The first character of a text that is read as bytes is a digit, and not the last character. -/
theorem first_of_pairs {c : Char} {cs : List Char} {bytes : List UInt8}
    (heven : ((c :: cs).flatMap String.utf8EncodeChar).length % 2 = 0)
    (h : pairs ((c :: cs).flatMap String.utf8EncodeChar) = .ok bytes) :
    ∃ b c' rest, String.utf8EncodeChar c = [b] ∧ cs = c' :: rest := by
  obtain ⟨b, t, hb⟩ := exists_encode_eq_cons c
  rw [List.flatMap_cons, hb, List.cons_append] at heven h
  have hlong : 0 < (t ++ cs.flatMap String.utf8EncodeChar).length := by
    rw [List.length_cons] at heven
    omega
  obtain ⟨lo, later, hrest⟩ := List.exists_cons_of_length_pos hlong
  rw [hrest] at h
  obtain ⟨d, -, -, hd, -⟩ := pairs_cons_eq_ok.mp h
  obtain ⟨rfl, -⟩ := encode_of_digit? hb hd
  cases cs with
  | nil => cases hrest
  | cons c' rest => exact ⟨b, c', rest, hb, rfl⟩

/-- **What is read as bytes spells them.** -/
theorem spells_of_pairs {cs : List Char} {bytes : List UInt8}
    (heven : (cs.flatMap String.utf8EncodeChar).length % 2 = 0)
    (h : pairs (cs.flatMap String.utf8EncodeChar) = .ok bytes) : Spells cs bytes := by
  induction cs using List.twoStepInduction generalizing bytes with
  | nil =>
    cases h
    exact .nil
  | singleton c =>
    obtain ⟨b, c', rest, -, hcs⟩ := first_of_pairs heven h
    cases hcs
  | cons_cons c c' cs ih _ =>
    obtain ⟨b, -, -, hb, -⟩ := first_of_pairs heven h
    obtain ⟨b', t, hb'⟩ := exists_encode_eq_cons c'
    simp only [List.flatMap_cons, hb, hb', List.cons_append, List.nil_append] at heven h
    obtain ⟨d, d', later, hd, hd', hlater, rfl⟩ := pairs_cons_eq_ok.mp h
    obtain ⟨-, hvalue⟩ := encode_of_digit? hb hd
    obtain ⟨rfl, hvalue'⟩ := encode_of_digit? hb' hd'
    have hrest : Spells cs later := by
      refine ih ?_ hlater
      simp only [List.nil_append, List.length_cons] at heven
      omega
    have hbyte : 16 * d + d' = UInt8.ofNat (16 * d.toNat + d'.toNat) := by
      simp [UInt8.ofNat_add, UInt8.ofNat_mul]
    rw [hbyte]
    exact .cons hvalue hvalue' hrest

/-- An even number of digits spells bytes. -/
theorem exists_spells_iff {digits : List Char} : (∃ bytes, Spells digits bytes) ↔
    digits.length % 2 = 0 ∧ ∀ c ∈ digits, (valueOf? c).isSome = true := by
  constructor
  · rintro ⟨bytes, h⟩
    induction h with
    | nil => simp
    | cons high low _ ih =>
      refine ⟨by rw [List.length_cons, List.length_cons]; omega, ?_⟩
      rw [List.forall_mem_cons, List.forall_mem_cons, high, low]
      exact ⟨rfl, rfl, ih.2⟩
  · rintro ⟨heven, hdigits⟩
    induction digits using List.twoStepInduction with
    | nil => exact ⟨[], .nil⟩
    | singleton c => exact absurd heven (by simp)
    | cons_cons hi lo digits ih _ =>
      rw [List.forall_mem_cons, List.forall_mem_cons] at hdigits
      obtain ⟨h, hh⟩ := Option.isSome_iff_exists.mp hdigits.1
      obtain ⟨l, hl⟩ := Option.isSome_iff_exists.mp hdigits.2.1
      have heven : digits.length % 2 = 0 := by
        rw [List.length_cons, List.length_cons] at heven
        omega
      obtain ⟨bytes, hrest⟩ := ih heven hdigits.2.2
      exact ⟨_, .cons hh hl hrest⟩

/-! ## Marks -/

/-- What may stand in front of the digits. -/
def marks : List String := ["", "0x", "0X", "0x0X"]

theorem eq_or_eq_dropMark (mark : Char) (cs : List Char) :
    cs = dropMark mark cs ∨ cs = '0' :: mark :: dropMark mark cs := by
  unfold dropMark
  split
  · next c rest =>
    split
    · next hc =>
      subst hc
      exact .inr rfl
    · exact .inl rfl
  · exact .inl rfl

theorem dropMark_marked (mark : Char) (cs : List Char) : dropMark mark ('0' :: mark :: cs) = cs :=
  if_pos rfl

/-- Digits have no mark. -/
theorem Spells.dropMark {cs : List Char} {bytes : List UInt8} (h : Spells cs bytes) {mark : Char}
    (hmark : valueOf? mark = none) : HexText.dropMark mark cs = cs := by
  rcases eq_or_eq_dropMark mark cs with heq | heq
  · exact heq.symm
  · rw [heq] at h
    cases h with
    | cons _ low _ =>
      rw [hmark] at low
      cases low

/-- **What is left behind the marks** are the digits that a mark stands in front of. -/
theorem dropMarks_eq_iff {cs digits : List Char} {bytes : List UInt8} (h : Spells digits bytes) :
    dropMark 'X' (dropMark 'x' cs) = digits ↔ ∃ mark ∈ marks, cs = mark.toList ++ digits := by
  have hx : HexText.dropMark 'x' digits = digits := h.dropMark (by decide +kernel)
  have hX : HexText.dropMark 'X' digits = digits := h.dropMark (by decide +kernel)
  constructor
  · rintro rfl
    rcases eq_or_eq_dropMark 'x' cs with hcs | hcs <;>
      rcases eq_or_eq_dropMark 'X' (dropMark 'x' cs) with hrest | hrest
    · exact ⟨"", by simp [marks], hcs.trans hrest⟩
    · exact ⟨"0X", by simp [marks], hcs.trans hrest⟩
    · exact ⟨"0x", by simp [marks], hcs.trans (congrArg (fun t => '0' :: 'x' :: t) hrest)⟩
    · exact ⟨"0x0X", by simp [marks], hcs.trans (congrArg (fun t => '0' :: 'x' :: t) hrest)⟩
  · rintro ⟨mark, hmark, rfl⟩
    simp only [marks, List.mem_cons, List.not_mem_nil, or_false] at hmark
    rcases hmark with rfl | rfl | rfl | rfl
    · exact (congrArg (dropMark 'X') hx).trans hX
    · exact (congrArg (dropMark 'X') (dropMark_marked 'x' digits)).trans hX
    · exact dropMark_marked 'X' digits
    · exact (congrArg (dropMark 'X') (dropMark_marked 'x' _)).trans (dropMark_marked 'X' digits)

/-! ## Printing -/

theorem padded_two (b : UInt8) : (Hex.padded 2 b.toNat).toList =
    [Nat.digitChar (b.toNat / 16), Nat.digitChar (b.toNat % 16)] := by
  have hdigits : ∀ n < 256, (Nat.toDigits 16 n).leftpad 2 '0' =
      [Nat.digitChar (n / 16), Nat.digitChar (n % 16)] := by
    decide +kernel
  rw [Hex.padded, String.toList_ofList, hdigits b.toNat b.toNat_lt]

theorem valueOf?_digitChar : ∀ n < 16, valueOf? (Nat.digitChar n) = some n := by
  decide +kernel

/-- **What printing writes** spells the bytes. -/
theorem spells_ofBytes (bytes : List UInt8) : Spells (Hex.ofBytes bytes).toList bytes := by
  rw [Hex.ofBytes, String.toList_join, List.flatMap_map]
  induction bytes with
  | nil => exact .nil
  | cons b bytes ih =>
    have hb := b.toNat_lt
    have hbyte : UInt8.ofNat (16 * (b.toNat / 16) + b.toNat % 16) = b := by
      rw [Nat.div_add_mod, UInt8.ofNat_toNat]
    rw [List.flatMap_cons, padded_two]
    have hspells := Spells.cons (valueOf?_digitChar (b.toNat / 16) (by omega))
      (valueOf?_digitChar (b.toNat % 16) (by omega)) ih
    rwa [hbyte] at hspells

theorem Spells.toUpper {cs : List Char} {bytes : List UInt8} (h : Spells cs bytes) :
    Spells (cs.map Char.toUpper) bytes := by
  induction h with
  | nil => exact .nil
  | cons high low _ ih => exact .cons (valueOf?_toUpper high) (valueOf?_toUpper low) ih

/-! ## Texts -/

theorem parse_eq_ok_iff {s : String} {bytes : List UInt8} : parse s = .ok bytes ↔
    Spells (dropMark 'X' (dropMark 'x' (removeBlanks s.toList))) bytes := by
  simp only [parse]
  constructor
  · intro h
    split at h
    · cases h
    · next hodd =>
      have heven : (digitsOf s).length % 2 = 0 := by omega
      exact spells_of_pairs heven h
  · intro h
    have hread : (digitsOf s).length % 2 = 0 ∧ pairs (digitsOf s) = .ok bytes := h.pairs
    rw [if_neg (by omega)]
    exact hread.2

theorem removeBlanks_eq (cs : List Char) :
    removeBlanks cs = cs.filter fun c => c.toNat ∉ whiteSpace := by
  refine List.filter_congr fun c _ => ?_
  rw [Bool.eq_iff_iff, decide_eq_true_eq, ← isBlank_iff]
  simp

/-- **The texts that are accepted.** A text gives bytes exactly if, white space apart, it is a mark
with the digits behind it that spell the bytes. So it is accepted exactly if an even number of
digits stands behind the mark, and reading is the inverse of printing, in either case, with
whatever white space in between and whatever mark in front. -/
theorem parse_accepts (s : String) :
    let text := s.toList.filter fun c => c.toNat ∉ whiteSpace
    (∀ bytes, parse s = .ok bytes ↔
        ∃ mark ∈ marks, ∃ digits, text = mark.toList ++ digits ∧ Spells digits bytes) ∧
      ((∃ bytes, parse s = .ok bytes) ↔
        ∃ mark ∈ marks, ∃ digits, text = mark.toList ++ digits ∧ digits.length % 2 = 0 ∧
          ∀ c ∈ digits, (valueOf? c).isSome = true) ∧
      ∀ mark ∈ marks, ∀ bytes,
        text = mark.toList ++ (Hex.ofBytes bytes).toList ∨
          text = mark.toList ++ (Hex.ofBytes bytes).toList.map Char.toUpper →
        parse s = .ok bytes := by
  intro text
  have hparse : ∀ bytes, parse s = .ok bytes ↔
      ∃ mark ∈ marks, ∃ digits, text = mark.toList ++ digits ∧ Spells digits bytes := by
    intro bytes
    rw [parse_eq_ok_iff, removeBlanks_eq]
    constructor
    · intro h
      obtain ⟨mark, hmark, htext⟩ := (dropMarks_eq_iff h).mp rfl
      exact ⟨mark, hmark, _, htext, h⟩
    · rintro ⟨mark, hmark, digits, htext, h⟩
      rw [(dropMarks_eq_iff h).mpr ⟨mark, hmark, htext⟩]
      exact h
  refine ⟨hparse, ?_, fun mark hmark bytes htext => ?_⟩
  · simp only [hparse, ← exists_spells_iff]
    constructor
    · rintro ⟨bytes, mark, hmark, digits, htext, h⟩
      exact ⟨mark, hmark, digits, htext, bytes, h⟩
    · rintro ⟨mark, hmark, digits, htext, bytes, h⟩
      exact ⟨bytes, mark, hmark, digits, htext, h⟩
  · rcases htext with htext | htext
    · exact (hparse bytes).mpr ⟨mark, hmark, _, htext, spells_ofBytes bytes⟩
    · exact (hparse bytes).mpr ⟨mark, hmark, _, htext, (spells_ofBytes bytes).toUpper⟩

/-- Digits in both cases behind a mark, with blanks of several kinds among them. -/
def spacedText : String := "\t0 x6\u00a00\u2003fE\n"

/-- Two bytes in upper case behind the other mark, with a blank between them. -/
def printedText : String := "0X60 FE"

theorem parse_accepts_spacedText :
    ((spacedText.toList.filter fun c => c.toNat ∉ whiteSpace) = "0x".toList ++ "60fE".toList ∧
        parse spacedText = .ok [0x60, 0xfe]) ∧
      (printedText.toList.filter fun c => c.toNat ∉ whiteSpace) =
        "0X".toList ++ (Hex.ofBytes [0x60, 0xfe]).toList.map Char.toUpper ∧
      parse printedText = .ok [0x60, 0xfe] := by
  have htext : (spacedText.toList.filter fun c => c.toNat ∉ whiteSpace) =
      "0x".toList ++ "60fE".toList := by
    decide +kernel
  have hspells : Spells "60fE".toList [0x60, 0xfe] :=
    .cons (h := 6) (l := 0) rfl rfl (.cons (h := 15) (l := 14) rfl rfl .nil)
  have hprinted : (printedText.toList.filter fun c => c.toNat ∉ whiteSpace) =
      "0X".toList ++ (Hex.ofBytes [0x60, 0xfe]).toList.map Char.toUpper := by
    decide +kernel
  exact ⟨⟨htext, ((parse_accepts spacedText).1 _).mpr ⟨"0x", by decide, _, htext, hspells⟩⟩,
    hprinted, (parse_accepts printedText).2.2 "0X" (by decide) _ (.inr hprinted)⟩

/-- **A text with both marks** is accepted, though behind none of the three ways to write one mark
it has digits only. -/
theorem parse_doubled_mark : parse "0x0Xab" = .ok [0xab] ∧
    ¬ ∃ mark ∈ ["", "0x", "0X"], ∃ digits, "0x0Xab".toList = mark.toList ++ digits ∧
      digits.length % 2 = 0 ∧ ∀ c ∈ digits, (valueOf? c).isSome = true := by
  constructor
  · exact toOption_eq_some.mp (by decide +kernel)
  · rintro ⟨mark, hmark, digits, htext, -, hdigits⟩
    simp only [List.mem_cons, List.not_mem_nil, or_false] at hmark
    have hX : 'X' ∉ digits := fun h => absurd (hdigits 'X' h) (by decide +kernel)
    rcases hmark with rfl | rfl | rfl
    · have hall : "0x0Xab".toList = digits := htext
      exact hX (hall ▸ by decide)
    · have hrest : "0Xab".toList = digits := (List.append_right_inj "0x".toList).mp htext
      exact hX (hrest ▸ by decide)
    · exact absurd (List.cons.inj (List.cons.inj htext).2).1 (by decide)

end HexText

end EvmFlow
