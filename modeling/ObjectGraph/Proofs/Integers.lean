import Mathlib.Data.List.TakeWhile
import ObjectGraph.Conversion
import ObjectGraph.Proofs.Equality

/-!
# `Proofs.Integers` — whole numbers as text

A whole number is written in plain digits, and a row of digits is read as a number of 64 signed bits where it is one.
So such a number comes back from its text. A number beyond them, which 64 unsigned bits still hold, is written in the
same way, but its digits are read in floating point: what comes back is not a whole number of a document any more, but
the nearest number of 53 binary digits. Eleven digits are lost, so it may be 1024 away (`nearestInt_near`).

Contents:
* `Text.trim_of_forall`, `isBlank_of_isDigit`, `toLower_of_isDigit`: digits are neither trimmed nor changed;
* `Decimal.readFloat?_toDigits`: what the digits of a number are in floating point; `trim_intText`;
* `Conversion.readNumber?_signed`, `readNumber?_unsigned`: what the text of a whole number is read as;
* `Conversion.integer_text_returns`, `not_integer_text_returns`.
-/

namespace ObjectGraph

/-! ## Digits -/

namespace Text

/-- A text without blanks is not trimmed. -/
theorem trim_of_forall {cs : List Char} (h : ∀ c ∈ cs, isBlank c = false) : trim cs = cs := by
  have front {cs : List Char} (h : ∀ c ∈ cs, isBlank c = false) : trimStart cs = cs := by
    cases cs with
    | nil => rfl
    | cons c cs => exact trimStart_cons (h c List.mem_cons_self) cs
  have back : trimStart cs.reverse = cs.reverse := front fun c mem => h c (List.mem_reverse.mp mem)
  rw [trim, front h]
  show (trimStart cs.reverse).reverse = cs
  rw [back, List.reverse_reverse]

theorem toNat_of_isDigit {c : Char} (h : c.isDigit = true) : 48 ≤ c.toNat ∧ c.toNat ≤ 57 := by
  simpa [Char.isDigit, UInt32.le_iff_toNat_le] using h

theorem isBlank_of_isDigit {c : Char} (h : c.isDigit = true) : isBlank c = false := by
  have range := toNat_of_isDigit h
  have apart : ∀ point ∈ blankPoints, point < 48 ∨ 57 < point := by decide
  refine Bool.eq_false_iff.mpr fun blank => ?_
  have := apart c.toNat (List.contains_iff_mem.mp blank)
  omega

theorem toLower_of_isDigit {c : Char} (h : c.isDigit = true) : c.toLower = c := by
  have range := toNat_of_isDigit h
  unfold Char.toLower
  refine dif_neg fun upper => ?_
  have letter : 65 ≤ c.toNat := UInt32.le_iff_toNat_le.mp upper.1
  omega

end Text

namespace Decimal

variable {width : Binary64.Width} {cs : List Char}

/-- A row of digits has no sign and is no name. -/
theorem readFloat?_of_isDigit (digits : ∀ c ∈ cs, c.isDigit = true) :
    readFloat? width cs = readUnsigned? width false cs := by
  have plain : 'n' ∉ cs.map Char.toLower := by
    intro mem
    obtain ⟨c, hc, lower⟩ := List.mem_map.mp mem
    rw [Text.toLower_of_isDigit (digits c hc)] at lower
    exact absurd (lower ▸ digits c hc) (by decide)
  have other (name : String) (letter : 'n' ∈ name.toList) : String.ofList (cs.map Char.toLower) ≠ name := by
    rintro rfl
    rw [String.toList_ofList] at letter
    exact plain letter
  unfold readFloat?
  split
  next negative rest parts =>
    split at parts
    · exact absurd (digits '-' List.mem_cons_self) (by decide)
    · exact absurd (digits '+' List.mem_cons_self) (by decide)
    · obtain ⟨rfl, rfl⟩ := Prod.mk.inj parts
      dsimp only
      rw [if_neg, if_neg (other "nan" (by decide))]
      rintro (inf | infinity)
      · exact other "inf" (by decide) inf
      · exact other "infinity" (by decide) infinity

/-- A row of digits is a fraction without a point and an exponent. -/
theorem readUnsigned?_of_isDigit (negative : Bool) (digits : ∀ c ∈ cs, c.isDigit = true) :
    readUnsigned? width negative cs = roundReading width negative cs [] 0 := by
  have whole : cs.takeWhile Char.isDigit = cs := List.takeWhile_eq_self_iff.mpr digits
  have rest : cs.dropWhile Char.isDigit = [] := List.dropWhile_eq_nil_iff.mpr digits
  unfold readUnsigned?
  rw [whole, rest]

/-- The digits of a number are read as the floating point number nearest to it, if it is not too large. -/
theorem readFloat?_toDigits {n : Nat} (some_digit : n ≠ 0) :
    readFloat? width (Nat.toDigits 10 n) = some (match Binary64.rounded? width false n 1 with
      | some x => .finite x
      | none => .infinite false) := by
  have digits (c : Char) (h : c ∈ Nat.toDigits 10 n) : c.isDigit = true := isDigit_of_mem_toDigits h
  have rounded : Binary64.ofDecimal? width false n (0 - ([] : List Char).length)
      = Binary64.rounded? width false n 1 := by
    unfold Binary64.ofDecimal?
    rw [if_neg some_digit]
    dsimp only [List.length_nil]
    rw [if_neg (by decide), if_neg (by omega), if_pos (by decide)]
    show Binary64.rounded? width false (n * 1) 1 = _
    rw [Nat.mul_one]
  rw [readFloat?_of_isDigit digits, readUnsigned?_of_isDigit false digits, roundReading, List.append_nil,
    readDigits?_toDigits]
  show (match Binary64.ofDecimal? width false n (0 - ([] : List Char).length) with
    | some x => some (Reading.finite x)
    | none => some (Reading.infinite false)) = _
  rw [rounded]
  cases Binary64.rounded? width false n 1 with
  | none => rfl
  | some x => rfl

/-- The text of a whole number has no blanks. -/
theorem trim_intText (n : Int) : Text.trim (intText n).toList = (intText n).toList := by
  refine Text.trim_of_forall fun c mem => ?_
  have digit (h : c ∈ Nat.toDigits 10 n.natAbs) : Text.isBlank c = false :=
    Text.isBlank_of_isDigit (isDigit_of_mem_toDigits h)
  by_cases negative : n < 0
  · rw [intText, if_pos negative, String.toList_ofList] at mem
    rcases List.mem_cons.mp mem with rfl | mem
    · decide
    · exact digit mem
  · rw [intText, if_neg negative, natText, String.toList_ofList] at mem
    exact digit mem

end Decimal

/-! ## Whole numbers of a document -/

namespace Conversion

variable {n : Int}

/-- A number of 64 signed bits is read from its text. -/
theorem readNumber?_signed (range : leastInteger ≤ n ∧ n < unsignedBound) (signed : n < signedBound) :
    readNumber? (Decimal.intText n) = some (.integer n range) := by
  have whole : (some n).filter (fun n => -Int.pow 2 63 ≤ n ∧ n < Int.pow 2 63) = some n :=
    Option.filter_some_pos (decide_eq_true ⟨range.1, signed⟩)
  unfold readNumber?
  dsimp only
  rw [Decimal.trim_intText, Decimal.readInteger?_intText, whole]
  exact Number.ofInt?_integer n range

/-- Of a number beyond 64 signed bits, the nearest floating point number is read from its text. -/
theorem readNumber?_unsigned (range : leastInteger ≤ n ∧ n < unsignedBound) (beyond : signedBound ≤ n) :
    readNumber? (Decimal.intText n) = some (.float (.ofInt n)) := by
  have bound : signedBound = 2 ^ 63 := rfl
  have positive : ¬ n < 0 := by omega
  have digits : (Decimal.intText n).toList = Nat.toDigits 10 n.natAbs := by
    rw [Decimal.intText, if_neg positive, Decimal.natText, String.toList_ofList]
  have none : (some n).filter (fun n => -Int.pow 2 63 ≤ n ∧ n < Int.pow 2 63) = none :=
    Option.filter_some_neg (decide_eq_false fun inside => Int.not_lt.mpr beyond inside.2)
  have nearest : Binary64.rounded? .double false n.natAbs 1 = some (.ofInt n) := by
    have made := Binary64.ofRatio?_ofInt (Number.log2_natAbs_le range)
    rwa [decide_eq_false positive] at made
  have some_digit : n.natAbs ≠ 0 := by omega
  unfold readNumber?
  dsimp only
  rw [Decimal.trim_intText, Decimal.readInteger?_intText, none, digits, Decimal.readFloat?_toDigits some_digit, nearest]

/-- A number of 64 binary digits loses eleven of them, and is rounded by half of what they hold at most. -/
theorem nearestInt_near (range : leastInteger ≤ n ∧ n < unsignedBound) (beyond : signedBound ≤ n) :
    (nearestInt n - n).natAbs ≤ 1024 := by
  have bound : signedBound = 2 ^ 63 := rfl
  have last : unsignedBound = 2 ^ 64 := rfl
  have log : n.natAbs.log2 = 63 := by
    rw [Nat.log2_eq_iff (by omega)]
    omega
  obtain ⟨above, below⟩ := nearest_near n.natAbs
  rw [log] at above below
  rw [nearestInt, if_neg (by omega)]
  omega

theorem standard_integer_string (range : leastInteger ≤ n ∧ n < unsignedBound) (h : Heap) :
    standard h (.number (.integer n range)) .string = some (.string (Decimal.intText n)) := rfl

theorem standard_string_number (text : String) (h : Heap) :
    standard h (.string text) .number = (readNumber? text).map Value.number := rfl

/-- **Whole numbers as text.** A whole number of a document has a text. If it is one of 64 signed bits, it comes back
from the text. If it lies beyond them, the text is read as well, but what comes back is a floating point number: the
nearest number of 53 binary digits, which is up to 1024 away. -/
theorem integer_text_returns (range : leastInteger ≤ n ∧ n < unsignedBound) (h h' : Heap) :
    standard h (.number (.integer n range)) .string = some (.string (Decimal.intText n)) ∧
    (n < signedBound → standard h' (.string (Decimal.intText n)) .number = some (.number (.integer n range))) ∧
    (signedBound ≤ n → ∃ x : Binary64,
      standard h' (.string (Decimal.intText n)) .number = some (.number (.float x)) ∧
      x.units = nearestInt n * Binary64.unitsPerOne ∧ (nearestInt n - n).natAbs ≤ 1024) := by
  refine ⟨standard_integer_string range h, fun signed => ?_, fun beyond => ?_⟩
  · rw [standard_string_number, readNumber?_signed range signed, Option.map_some]
  · refine ⟨.ofInt n, ?_, Binary64.units_ofInt (Number.log2_natAbs_le range), nearestInt_near range beyond⟩
    rw [standard_string_number, readNumber?_unsigned range beyond, Option.map_some]

/-- The greatest number of 64 signed bits comes back. The greatest of 64 unsigned bits does not: the next power of two
does, as a floating point number. -/
theorem integer_text_returns_greatest :
    standard [] (.string "9223372036854775807") .number = some (.ofInt (signedBound - 1)) ∧
    standard [] (.number (.integer (unsignedBound - 1) (by decide))) .string = some (.string "18446744073709551615") ∧
    ∃ x : Binary64, standard [] (.string "18446744073709551615") .number = some (.number (.float x)) ∧
      x.units = unsignedBound * Binary64.unitsPerOne := by
  have signed : Decimal.intText (signedBound - 1) = "9223372036854775807" := by decide +kernel
  have unsigned : Decimal.intText (unsignedBound - 1) = "18446744073709551615" := by decide +kernel
  have rounded : nearestInt (unsignedBound - 1) = unsignedBound := by decide +kernel
  obtain ⟨-, returns, -⟩ := integer_text_returns (n := signedBound - 1) (by decide) [] []
  obtain ⟨written, -, read⟩ := integer_text_returns (n := unsignedBound - 1) (by decide) [] []
  obtain ⟨x, approximate, units, -⟩ := read (by decide)
  rw [unsigned] at written approximate
  rw [rounded] at units
  exact ⟨signed ▸ returns (by decide), written, x, approximate, units⟩

/-- The first number beyond 64 signed bits does not come back from its text. -/
theorem not_integer_text_returns :
    ¬ ∀ (n : Int) (range : leastInteger ≤ n ∧ n < unsignedBound) (text : Value),
      standard [] (.number (.integer n range)) .string = some text →
      standard [] text .number = some (.number (.integer n range)) := by
  intro returns
  have range : leastInteger ≤ signedBound ∧ signedBound < unsignedBound := by decide
  have back := returns signedBound range _ (standard_integer_string range [])
  rw [standard_string_number, readNumber?_unsigned range (Int.le_refl _), Option.map_some] at back
  have same : Number.float (.ofInt signedBound) = .integer signedBound range := Value.number.inj (Option.some.inj back)
  cases same

end Conversion

end ObjectGraph
