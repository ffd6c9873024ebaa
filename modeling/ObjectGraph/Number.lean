import ObjectGraph.Number.Decimal

/-!
# `Number` — the numbers of a document

A number is a whole number that fits 64 bits, signed or unsigned, or a finite floating point
number. The two kinds stay apart: `1` and `1.0` are different numbers of a document (`same`) that
compare equal as values (`equals`).

Contents:
* `Number`, `ofInt?`, `ofNat64`, `text`;
* `int64?`, `toFloat`, `wholeNumber?`: the views of a number;
* `same`, `equals`;
* `eq_of_int64?`, `range_of_wholeNumber?`, `wholeNumber?_ofInt`; `same` and `equals` of a number and itself.
-/

namespace ObjectGraph

/-- The least whole number a document can hold. -/
def leastInteger : Int := -Int.pow 2 63

/-- The first whole number that is too large for 64 signed bits. -/
def signedBound : Int := Int.pow 2 63

/-- The first whole number that is too large for 64 unsigned bits. -/
def unsignedBound : Int := Int.pow 2 64

/-- A number of a document. -/
inductive Number where
  | integer (n : Int) (range : leastInteger ≤ n ∧ n < unsignedBound)
  | float (x : Binary64)
  deriving DecidableEq

namespace Number

/-- A whole number, if it fits. -/
def ofInt? (n : Int) : Option Number :=
  if h : leastInteger ≤ n ∧ n < unsignedBound then some (.integer n h) else none

/-- Zero. -/
def zero : Number := .integer 0 (by decide)

/-- One. -/
def one : Number := .integer 1 (by decide)

instance : Inhabited Number := ⟨zero⟩

/-- A whole number; one that does not fit becomes the nearest floating point number. -/
def ofInt (n : Int) : Number := (ofInt? n).getD (.float (.ofInt n))

/-- The text of a number. -/
def text : Number → String
  | .integer n _ => Decimal.intText n
  | .float x => x.text

/-- The whole number, if it is one of 64 signed bits. -/
def int64? : Number → Option Int
  | .integer n _ => if n < signedBound then some n else none
  | .float _ => none

/-- The number as a floating point number, rounded if need be. -/
def toFloat : Number → Binary64
  | .integer n _ => .ofInt n
  | .float x => x

/-- The number as a whole number of 64 signed bits; a floating point number qualifies if it has no
fraction and its magnitude is below `2 ^ 63`. -/
def wholeNumber? (n : Number) : Option Int :=
  match n.int64? with
  | some i => some i
  | none =>
      let x := n.toFloat
      if x.isIntegral && x.truncate.natAbs < Nat.pow 2 63 then some x.truncate else none

/-- The same number of a document: whole and floating point numbers are never the same. -/
def same : Number → Number → Bool
  | .integer a _, .integer b _ => a == b
  | .float x, .float y => x.sameValue y
  | _, _ => false

/-- Equal as values: exactly, if both fit 64 signed bits, and as floating point numbers otherwise. -/
def equals (a b : Number) : Bool :=
  match a.int64?, b.int64? with
  | some m, some n => m == n
  | _, _ => a.toFloat.sameValue b.toFloat

/-! ## Laws -/

@[simp] theorem ofInt?_integer (n : Int) (h : leastInteger ≤ n ∧ n < unsignedBound) :
    ofInt? n = some (.integer n h) := by simp [ofInt?, h]

theorem eq_of_int64? {a : Number} {n : Int} (h : a.int64? = some n) :
    ∃ range, a = .integer n range ∧ n < signedBound := by
  cases a with
  | integer m range =>
      rw [int64?] at h
      split at h
      next small =>
        obtain rfl := Option.some.inj h
        exact ⟨range, rfl, small⟩
      next => exact absurd h nofun
  | float x => exact absurd h nofun

/-- What is read as a whole number has 64 signed bits. -/
theorem range_of_wholeNumber? {a : Number} {n : Int} (h : a.wholeNumber? = some n) :
    leastInteger ≤ n ∧ n < signedBound := by
  unfold wholeNumber? at h
  split at h
  next i whole =>
    obtain rfl := Option.some.inj h
    obtain ⟨range, -, small⟩ := eq_of_int64? whole
    exact ⟨range.1, small⟩
  next =>
    dsimp only at h
    split at h
    next integral =>
      obtain rfl := Option.some.inj h
      have small : a.toFloat.truncate.natAbs < Nat.pow 2 63 := of_decide_eq_true (Bool.and_eq_true_iff.mp integral).2
      have least : leastInteger = -(Nat.pow 2 63 : Nat) := rfl
      have bound : signedBound = (Nat.pow 2 63 : Nat) := rfl
      omega
    next => exact absurd h nofun

theorem wholeNumber?_ofInt {n : Int} (range : leastInteger ≤ n ∧ n < signedBound) :
    (ofInt n).wholeNumber? = some n := by
  have document : leastInteger ≤ n ∧ n < unsignedBound := ⟨range.1, Int.lt_trans range.2 (by decide)⟩
  have whole : (ofInt n).int64? = some n := by
    rw [ofInt, ofInt?, dif_pos document]
    exact if_pos range.2
  rw [wholeNumber?, whole]

theorem same_refl (a : Number) : a.same a = true := by
  cases a <;> simp [same, Binary64.sameValue_refl]

theorem same_comm (a b : Number) : a.same b = b.same a := by
  cases a <;> cases b <;> simp [same, Bool.beq_comm, Binary64.sameValue_comm]

theorem equals_refl (a : Number) : a.equals a = true := by
  unfold equals; split <;> simp_all [Binary64.sameValue_refl]

end Number

end ObjectGraph
