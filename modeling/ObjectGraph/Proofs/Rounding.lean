import Mathlib.Algebra.Order.Ring.Nat
import ObjectGraph.Number

/-!
# `Proofs.Rounding` — whole numbers in floating point

A floating point number keeps 53 binary digits. So a whole number becomes the nearest one that has no more digits
than that, and zeros behind them (`nearest`): up to `2 ^ 53` it is the number itself, and beyond it more and more
whole numbers become the same.

Contents:
* `roundHalfEven_mul_mul`, `div_le_roundHalfEven`, `roundHalfEven_le_succ`;
* `ofUnits?_eq_some`: rounding succeeds, and what the magnitude is then;
* `nearest`, `nearestInt`, with `ofRatio?_ofInt`, `units_ofInt`, `sameValue_ofInt_iff`;
* `nearest_near`, `nearest_of_le`, `nearestInt_of_le`.
-/

namespace ObjectGraph

namespace Binary64

/-! ## Rounding a quotient -/

variable {num den : Nat}

/-- A common factor does not count. -/
theorem roundHalfEven_mul_mul (num den : Nat) {k : Nat} (hk : 0 < k) :
    roundHalfEven (num * k) (den * k) = roundHalfEven num den := by
  have twice : 2 * (num % den * k) = 2 * (num % den) * k := (Nat.mul_assoc ..).symm
  simp only [roundHalfEven, Nat.mul_div_mul_right _ _ hk, Nat.mul_mod_mul_right, twice, Nat.mul_lt_mul_right hk]

/-- The nearest whole number is not below the quotient. -/
theorem div_le_roundHalfEven (num den : Nat) : num / den ≤ roundHalfEven num den := by
  rcases roundHalfEven_cases num den with ⟨rounded, -⟩ | ⟨rounded, -⟩ <;> omega

/-- The nearest whole number is at most one above the quotient. -/
theorem roundHalfEven_le_succ (num den : Nat) : roundHalfEven num den ≤ num / den + 1 := by
  rcases roundHalfEven_cases num den with ⟨rounded, -⟩ | ⟨rounded, -⟩ <;> omega

/-- What is kept of a quotient has at most 53 binary digits, or is the first number that has more; it has 53 of them
if any were dropped. -/
theorem roundHalfEven_digits (num den : Nat) {shift : Nat} (hs : (num / den).log2 - 52 = shift) :
    roundHalfEven num (den * Nat.pow 2 shift) ≤ Nat.pow 2 53 ∧
      (shift = 0 ∨ Nat.pow 2 52 ≤ roundHalfEven num (den * Nat.pow 2 shift)) := by
  have kept : num / (den * Nat.pow 2 shift) = num / den / 2 ^ shift := (Nat.div_div_eq_div_mul ..).symm
  constructor
  · have under : num / den < 2 ^ (shift + 53) :=
      Nat.lt_of_lt_of_le Nat.lt_log2_self (Nat.pow_le_pow_right (by decide) (by omega))
    have fits : num / den / 2 ^ shift < 2 ^ 53 := Nat.div_lt_of_lt_mul (by rwa [← Nat.pow_add])
    exact Nat.le_trans (roundHalfEven_le_succ ..) (kept ▸ fits)
  · by_cases zero : shift = 0
    · exact .inl zero
    · have log : (num / den).log2 = 52 + shift := by omega
      have some_digit : num / den ≠ 0 := fun e => absurd log (by simp [e]; omega)
      have above : 2 ^ 52 ≤ num / den / 2 ^ shift := by
        rw [Nat.le_div_iff_mul_le (Nat.two_pow_pos _), ← Nat.pow_add]
        exact log ▸ Nat.log2_self_le some_digit
      exact .inr (Nat.le_trans (kept ▸ above) (div_le_roundHalfEven ..))

/-- A quotient that is not too large is rounded to 53 binary digits, and carries its sign. -/
theorem ofUnits?_eq_some (negative : Bool) (num den : Nat) (small : (num / den).log2 ≤ 2096) :
    ∃ x, ofUnits? negative num den = some x ∧ x.negative = negative ∧
      x.magnitude = roundHalfEven num (den * Nat.pow 2 ((num / den).log2 - 52)) * Nat.pow 2 ((num / den).log2 - 52) := by
  obtain ⟨most, least⟩ := roundHalfEven_digits num den rfl
  unfold ofUnits?
  dsimp only
  by_cases carry : roundHalfEven num (den * Nat.pow 2 ((num / den).log2 - 52)) = Nat.pow 2 53
  · -- one more binary digit: the significand is halved
    simp only [if_pos carry]
    rw [dif_pos ⟨by decide, .inr (Nat.le_refl _), by omega⟩]
    refine ⟨_, rfl, rfl, ?_⟩
    have halved : Nat.pow 2 ((num / den).log2 - 52 + 1) = 2 * Nat.pow 2 ((num / den).log2 - 52) := Nat.pow_succ'
    have double : Nat.pow 2 53 = Nat.pow 2 52 * 2 := rfl
    rw [magnitude]
    dsimp only
    rw [carry, halved, double, Nat.mul_assoc]
  · simp only [if_neg carry]
    rw [dif_pos ⟨Nat.lt_of_le_of_ne most carry, least, by omega⟩]
    exact ⟨_, rfl, rfl, rfl⟩

end Binary64

/-! ## Whole numbers -/

open Binary64 (roundHalfEven unitsPerOne)

/-- The natural number nearest to `n` that has 53 binary digits and zeros behind them; a tie goes to the one whose
digits are even. -/
def nearest (n : Nat) : Nat := roundHalfEven n (Nat.pow 2 (n.log2 - 52)) * Nat.pow 2 (n.log2 - 52)

/-- The whole number nearest to `n` that has 53 binary digits and zeros behind them. -/
def nearestInt (n : Int) : Int := if n < 0 then -(nearest n.natAbs : Int) else nearest n.natAbs

theorem log2_le_of_lt {n k : Nat} (h : n < 2 ^ (k + 1)) : n.log2 ≤ k := by
  by_cases zero : n = 0
  · simp [zero]
  · exact Nat.le_of_lt_succ ((Nat.log2_lt zero).mpr h)

/-- The nearest number is at most half a unit of the last digit kept away. -/
theorem nearest_near (n : Nat) :
    2 * nearest n ≤ 2 * n + 2 ^ (n.log2 - 52) ∧ 2 * n ≤ 2 * nearest n + 2 ^ (n.log2 - 52) :=
  ⟨Binary64.roundHalfEven_le n _, Binary64.le_roundHalfEven n (Nat.two_pow_pos _)⟩

/-- A number of up to 53 binary digits is its own nearest. -/
theorem nearest_of_le {n : Nat} (h : n ≤ 2 ^ 53) : nearest n = n := by
  by_cases last : n = 2 ^ 53
  · subst last
    decide
  · have none : n.log2 - 52 = 0 := Nat.sub_eq_zero_of_le (log2_le_of_lt (by omega))
    have one : roundHalfEven n 1 = n := by simpa using Binary64.roundHalfEven_mul n Nat.one_pos
    rw [nearest, none]
    show roundHalfEven n 1 * 1 = n
    rw [one, Nat.mul_one]

theorem nearestInt_of_le {n : Int} (h : n.natAbs ≤ 2 ^ 53) : nearestInt n = n := by
  rw [nearestInt, nearest_of_le h]
  split <;> omega

/-- Rounding a whole number in units of a power of two is rounding it to 53 binary digits. -/
theorem roundHalfEven_units (n : Nat) {k : Nat} (hk : 52 ≤ k) :
    roundHalfEven (n * 2 ^ k) (2 ^ ((n * 2 ^ k).log2 - 52)) * 2 ^ ((n * 2 ^ k).log2 - 52) = nearest n * 2 ^ k := by
  by_cases zero : n = 0
  · subst zero
    simp [nearest, roundHalfEven]
  have log : (n * 2 ^ k).log2 = n.log2 + k := by
    have low := Nat.log2_self_le zero
    have high : n < 2 ^ (n.log2 + 1) := Nat.lt_log2_self
    have positive := Nat.two_pow_pos k
    rw [Nat.log2_eq_iff (Nat.mul_ne_zero zero positive.ne'), Nat.pow_add, Nat.add_right_comm, Nat.pow_add]
    exact ⟨Nat.mul_le_mul_right _ low, Nat.mul_lt_mul_of_pos_right high positive⟩
  rw [log]
  by_cases long : 52 ≤ n.log2
  · have digits : n.log2 + k - 52 = n.log2 - 52 + k := by omega
    rw [digits, Nat.pow_add, Binary64.roundHalfEven_mul_mul _ _ (Nat.two_pow_pos _), ← Nat.mul_assoc]
    rfl
  · -- a short number: no digit is lost
    have small : n ≤ 2 ^ 53 :=
      Nat.le_trans (Nat.le_of_lt Nat.lt_log2_self) (Nat.pow_le_pow_right (by decide) (by omega))
    have digits : k = 52 - n.log2 + (n.log2 + k - 52) := by omega
    have split : n * 2 ^ k = n * 2 ^ (52 - n.log2) * 2 ^ (n.log2 + k - 52) := by
      rw [Nat.mul_assoc, ← Nat.pow_add, ← digits]
    rw [nearest_of_le small, split, Binary64.roundHalfEven_mul _ (Nat.two_pow_pos _)]

namespace Binary64

/-- The exponent is kept apart from the power, which is too large to be worked out. -/
theorem unitsPerOne_eq : ∃ k, k = 1074 ∧ unitsPerOne = 2 ^ k := by
  unfold unitsPerOne
  generalize 1074 = k
  exact ⟨k, rfl, rfl⟩

/-- A natural number that is not too large becomes the nearest of 53 binary digits, and carries its sign. -/
theorem ofRatio?_whole (negative : Bool) {n : Nat} (h : n.log2 ≤ 1022) :
    ∃ x, ofRatio? negative n 1 = some x ∧ x.negative = negative ∧ x.magnitude = nearest n * unitsPerOne := by
  obtain ⟨k, hk, units⟩ := unitsPerOne_eq
  have small : (n * unitsPerOne / 1).log2 ≤ 2096 := by
    have below : n * 2 ^ k < 2 ^ (n.log2 + 1 + k) := by
      rw [Nat.pow_add]
      exact Nat.mul_lt_mul_of_pos_right Nat.lt_log2_self (Nat.two_pow_pos _)
    rw [Nat.div_one, units]
    exact Nat.le_trans (log2_le_of_lt (k := n.log2 + k) (by rwa [Nat.add_right_comm])) (by omega)
  obtain ⟨x, made, sign, magnitude⟩ := ofUnits?_eq_some negative (n * unitsPerOne) 1 small
  refine ⟨x, made, sign, ?_⟩
  rw [magnitude, Nat.div_one, Nat.one_mul, units]
  exact roundHalfEven_units n (by omega)

/-- A whole number of up to 1023 binary digits has a floating point number nearest to it. -/
theorem ofRatio?_ofInt {n : Int} (h : n.natAbs.log2 ≤ 1022) :
    ofRatio? (decide (n < 0)) n.natAbs 1 = some (ofInt n) := by
  obtain ⟨x, made, -⟩ := ofRatio?_whole (decide (n < 0)) h
  rw [ofInt, made, Option.getD_some]

/-- A whole number that is not too large becomes the nearest of 53 binary digits. -/
theorem units_ofInt {n : Int} (h : n.natAbs.log2 ≤ 1022) : (ofInt n).units = nearestInt n * unitsPerOne := by
  obtain ⟨x, made, sign, rounded⟩ := ofRatio?_whole (decide (n < 0)) h
  have same : ofInt n = x := by rw [ofInt, made, Option.getD_some]
  rw [same, Binary64.units, sign, rounded, nearestInt]
  by_cases negative : n < 0
  · rw [if_pos (decide_eq_true negative), if_pos negative, Int.natCast_mul, Int.neg_mul]
  · rw [if_neg (by simpa using negative), if_neg negative, Int.natCast_mul]

/-- Whole numbers become the same floating point number when their nearest of 53 binary digits is the same. -/
theorem sameValue_ofInt_iff {m n : Int} (hm : m.natAbs.log2 ≤ 1022) (hn : n.natAbs.log2 ≤ 1022) :
    (ofInt m).sameValue (ofInt n) = true ↔ nearestInt m = nearestInt n := by
  obtain ⟨k, -, units⟩ := unitsPerOne_eq
  have positive : (unitsPerOne : Int) ≠ 0 := Int.natCast_ne_zero.mpr (units ▸ (Nat.two_pow_pos k).ne')
  rw [sameValue, beq_iff_eq, units_ofInt hm, units_ofInt hn, Int.mul_eq_mul_right_iff positive]

end Binary64

end ObjectGraph
