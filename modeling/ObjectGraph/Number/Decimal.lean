import ObjectGraph.Number.Shortest

/-!
# `Number.Decimal` — decimal text of numbers

Whole numbers are written in plain digits. A floating point number is written with its shortest
digits: positionally, with at least one digit after the point, while the exponent of its leading
digit is between -5 and 15, and with a signed exponent otherwise.

Two readers of text stand beside the writers: `readInteger?` for an optional sign and digits, and
`readFloat?` for the usual forms of a decimal fraction with exponent, correctly rounded to either
format.

Contents:
* `natText`, `intText`, `Binary64.text`;
* `readDigits?`, `readInteger?`, `readFloat?`;
* `readDigits?_toDigits` and `readInteger?_intText`: whole numbers come back.
-/

namespace ObjectGraph.Decimal

/-! ## Writing -/

/-- A natural number in decimal digits. -/
def natText (n : Nat) : String := String.ofList (Nat.toDigits 10 n)

/-- A whole number in decimal digits, with a minus sign if it is negative. -/
def intText (n : Int) : String :=
  if n < 0 then String.ofList ('-' :: Nat.toDigits 10 n.natAbs) else natText n.natAbs

/-- Digits without the zeros at their end. -/
def dropTrailingZeros (ds : List Char) : List Char := (ds.reverse.dropWhile (· == '0')).reverse

/-- The exponents of the leading digit for which a number is written positionally. -/
def isPositional (leading : Int) : Bool := -5 ≤ leading && leading ≤ 15

/-- Digits with the leading one at `10 ^ leading`, laid out. -/
def layout (ds : List Char) (leading : Int) : List Char :=
  if isPositional leading then
    if leading < 0 then
      ['0', '.'] ++ List.replicate ((-leading).toNat - 1) '0' ++ ds
    else
      let whole := leading.toNat + 1
      -- zeros fill the places between the last digit and the point
      let front := (ds ++ List.replicate (whole - ds.length) '0').take whole
      let back := ds.drop whole
      front ++ '.' :: (if back.isEmpty then ['0'] else back)
  else
    let mantissa := match ds with
      | [] => []
      | d :: [] => [d]
      | d :: rest => d :: '.' :: rest
    let sign := if leading < 0 then '-' else '+'
    mantissa ++ 'e' :: sign :: Nat.toDigits 10 leading.natAbs

end Decimal

/-- The text of a floating point number. -/
def Binary64.text (x : Binary64) : String :=
  let body :=
    if x.isZero then ['0', '.', '0']
    else
      let d := x.shortest
      let ds := Nat.toDigits 10 d.digits
      Decimal.layout (Decimal.dropTrailingZeros ds) (d.exponent + ds.length - 1)
  String.ofList (if x.negative then '-' :: body else body)

namespace Decimal

/-! ## Reading -/

/-- The number that a non-empty row of decimal digits stands for. -/
def readDigits? (cs : List Char) : Option Nat :=
  if cs.isEmpty then none
  else cs.foldl (fun acc c => acc.bind fun n =>
    if c.isDigit then some (10 * n + (c.toNat - 48)) else none) (some 0)

/-- Digits with an optional sign. -/
def readInteger? : List Char → Option Int
  | '-' :: cs => (readDigits? cs).map fun (n : Nat) => -(n : Int)
  | '+' :: cs => (readDigits? cs).map fun (n : Nat) => (n : Int)
  | cs => (readDigits? cs).map fun (n : Nat) => (n : Int)

/-- What a decimal fraction may turn out to be. -/
inductive Reading where
  | finite (x : Binary64)
  | infinite (negative : Bool)
  | undefined
  deriving DecidableEq, Repr

/-- The fraction `whole.part` with an exponent, rounded. -/
def roundReading (width : Binary64.Width) (negative : Bool) (whole part : List Char)
    (exponent : Int) : Option Reading := do
  let digits ← readDigits? (whole ++ part)
  match Binary64.ofDecimal? width negative digits (exponent - part.length) with
  | some x => pure (.finite x)
  | none => pure (.infinite negative)

/-- An unsigned decimal fraction: digits with at most one point among or around them, and an
optional exponent. -/
def readUnsigned? (width : Binary64.Width) (negative : Bool) (cs : List Char) : Option Reading :=
  let whole := cs.takeWhile Char.isDigit
  let rest := cs.dropWhile Char.isDigit
  let (part, rest) := match rest with
    | '.' :: more => (more.takeWhile Char.isDigit, more.dropWhile Char.isDigit)
    | _ => ([], rest)
  match rest with
  | [] => roundReading width negative whole part 0
  | e :: more =>
      if e == 'e' || e == 'E' then do
        let exponent ← readInteger? more
        roundReading width negative whole part exponent
      else none

/-- A decimal fraction with an optional sign, or a name of infinity or of no number at all, in any
case of letters; rounded once, to the numbers of a format. -/
def readFloat? (width : Binary64.Width) (cs : List Char) : Option Reading :=
  let (negative, rest) := match cs with
    | '-' :: rest => (true, rest)
    | '+' :: rest => (false, rest)
    | _ => (false, cs)
  let name := String.ofList (rest.map Char.toLower)
  if name = "inf" ∨ name = "infinity" then some (.infinite negative)
  else if name = "nan" then some .undefined
  else readUnsigned? width negative rest

/-! ## Whole numbers come back -/

/-- Reading goes digit by digit. -/
theorem readDigits?_append_singleton {cs : List Char} (h : cs ≠ []) (c : Char) :
    readDigits? (cs ++ [c]) = (readDigits? cs).bind fun n =>
      if c.isDigit then some (10 * n + (c.toNat - 48)) else none := by
  simp [readDigits?, h, List.foldl_append]

/-- The digit of a number below ten. -/
theorem digitChar_spec {d : Nat} (h : d < 10) :
    (Nat.digitChar d).isDigit = true ∧ (Nat.digitChar d).toNat - 48 = d := by
  have key : ∀ m : Fin 10, (Nat.digitChar m.val).isDigit = true
      ∧ (Nat.digitChar m.val).toNat - 48 = m.val := by decide
  exact key ⟨d, h⟩

/-- A natural number comes back from its digits. -/
theorem readDigits?_toDigits (n : Nat) : readDigits? (Nat.toDigits 10 n) = some n := by
  induction n using Nat.strongRecOn with
  | _ n ih =>
      by_cases h : n < 10
      · obtain ⟨hd, hv⟩ := digitChar_spec h
        rw [Nat.toDigits_of_lt_base h]
        simp [readDigits?, hd, hv]
      · have hten : 10 ≤ n := by omega
        have hlt : n / 10 < n := by omega
        have hne : Nat.toDigits 10 (n / 10) ≠ [] := Nat.toDigits_ne_nil
        obtain ⟨hd, hv⟩ := digitChar_spec (show n % 10 < 10 by omega)
        rw [Nat.toDigits_of_base_le (by decide) hten, readDigits?_append_singleton hne, ih _ hlt]
        simp only [Option.bind_some, hd, if_true, hv]
        congr 1
        omega

/-- Every digit of a number is a digit. -/
theorem isDigit_of_mem_toDigits {n : Nat} {c : Char} (h : c ∈ Nat.toDigits 10 n) :
    c.isDigit = true := by
  induction n using Nat.strongRecOn with
  | _ n ih =>
      by_cases hn : n < 10
      · rw [Nat.toDigits_of_lt_base hn, List.mem_singleton] at h
        exact h ▸ (digitChar_spec hn).1
      · rw [Nat.toDigits_of_base_le (by decide) (by omega), List.mem_append,
          List.mem_singleton] at h
        rcases h with h | h
        · exact ih _ (by omega) h
        · exact h ▸ (digitChar_spec (by omega)).1

/-- A row of digits is read without looking for a sign. -/
theorem readInteger?_of_isDigit {cs : List Char} (h : ∀ c ∈ cs, c.isDigit = true) :
    readInteger? cs = (readDigits? cs).map fun (n : Nat) => (n : Int) := by
  unfold readInteger?
  split
  · exact absurd (h _ List.mem_cons_self) (by decide)
  · exact absurd (h _ List.mem_cons_self) (by decide)
  · rfl

/-- A whole number comes back from its text. -/
theorem readInteger?_intText (n : Int) : readInteger? (intText n).toList = some n := by
  by_cases h : n < 0
  · have hn : -(n.natAbs : Int) = n := by omega
    simp only [intText, h, if_true, String.toList_ofList, readInteger?, readDigits?_toDigits,
      Option.map_some, hn]
  · have hn : (n.natAbs : Int) = n := by omega
    rw [intText, if_neg h, natText, String.toList_ofList,
      readInteger?_of_isDigit fun c => isDigit_of_mem_toDigits, readDigits?_toDigits,
      Option.map_some, hn]

end ObjectGraph.Decimal
