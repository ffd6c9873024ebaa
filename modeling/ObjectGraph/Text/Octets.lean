/-!
# `Text.Octets` — texts as octets, and the hexadecimal digits of octets

A text is stored as the octets of its UTF-8 form; octets that are no UTF-8 are no text.

Contents:
* `octets`, `ofOctets?` between strings and octets, `ofOctets?_octets` and `octets_ofList`;
* `octetCount`, `dropOctets?`, `takeOctets?`: places in a text counted in octets;
* `hexDigit`, `hexValue?` and `hexPair`, `hexValue?_hexDigit`: digits in hexadecimal.
-/

namespace ObjectGraph.Text

/-- The UTF-8 form of a text. -/
def octets (s : String) : List UInt8 := s.toUTF8.data.toList

/-- The text whose UTF-8 form these octets are, if there is one. -/
def ofOctets? (bs : List UInt8) : Option String := String.fromUTF8? ⟨bs.toArray⟩

/-- A text comes back from its octets. -/
theorem ofOctets?_octets (s : String) : ofOctets? (octets s) = some s := by
  have h : s.toByteArray.IsValidUTF8 := s.isValidUTF8
  simp [ofOctets?, octets, String.fromUTF8?, String.toUTF8, h, String.fromUTF8]

/-- The octets of some characters are those of each, in order. -/
theorem octets_ofList (cs : List Char) : octets (String.ofList cs) = cs.flatMap String.utf8EncodeChar := by
  show (cs.flatMap String.utf8EncodeChar).toByteArray.data.toList = _
  rw [List.data_toByteArray]

/-- How many octets the UTF-8 form of some characters has. -/
def octetCount (cs : List Char) : Nat := cs.foldr (fun c n => c.utf8Size + n) 0

@[simp] theorem octetCount_nil : octetCount [] = 0 := rfl

@[simp] theorem octetCount_cons (c : Char) (cs : List Char) :
    octetCount (c :: cs) = c.utf8Size + octetCount cs := rfl

@[simp] theorem octetCount_append (as bs : List Char) :
    octetCount (as ++ bs) = octetCount as + octetCount bs := by
  induction as with
  | nil => simp
  | cons a as ih => rw [List.cons_append, octetCount_cons, octetCount_cons, ih, Nat.add_assoc]

/-- The characters from an octet on; there must be a character that begins at it. -/
def dropOctets? : Nat → List Char → Option (List Char)
  | 0, cs => some cs
  | _ + 1, [] => none
  | n + 1, c :: cs => if c.utf8Size ≤ n + 1 then dropOctets? (n + 1 - c.utf8Size) cs else none

/-- The characters of the first octets; there must be a character that ends with them. -/
def takeOctets? : Nat → List Char → Option (List Char)
  | 0, _ => some []
  | _ + 1, [] => none
  | n + 1, c :: cs =>
      if c.utf8Size ≤ n + 1 then (takeOctets? (n + 1 - c.utf8Size) cs).map (c :: ·) else none

/-- A beginning of some characters is dropped by its octets. -/
theorem dropOctets?_append (as bs : List Char) : dropOctets? (octetCount as) (as ++ bs) = some bs := by
  induction as with
  | nil => cases bs <;> rfl
  | cons a as ih =>
      obtain ⟨k, hk⟩ : ∃ k, a.utf8Size = k + 1 := ⟨a.utf8Size - 1, by have := a.utf8Size_pos; omega⟩
      rw [octetCount_cons, show a.utf8Size + octetCount as = (k + octetCount as) + 1 by omega,
        List.cons_append, dropOctets?, if_pos (by omega),
        show k + octetCount as + 1 - a.utf8Size = octetCount as by omega, ih]

/-- A beginning of some characters is taken by its octets. -/
theorem takeOctets?_append (as bs : List Char) : takeOctets? (octetCount as) (as ++ bs) = some as := by
  induction as with
  | nil => cases bs <;> rfl
  | cons a as ih =>
      obtain ⟨k, hk⟩ : ∃ k, a.utf8Size = k + 1 := ⟨a.utf8Size - 1, by have := a.utf8Size_pos; omega⟩
      rw [octetCount_cons, show a.utf8Size + octetCount as = (k + octetCount as) + 1 by omega,
        List.cons_append, takeOctets?, if_pos (by omega),
        show k + octetCount as + 1 - a.utf8Size = octetCount as by omega, ih, Option.map_some]

/-! ## Hexadecimal digits -/

/-- The digit for a number below sixteen, in capitals. -/
def hexDigit (n : Nat) : Char := if n < 10 then Char.ofNat (48 + n) else Char.ofNat (55 + n)

/-- What a hexadecimal digit, in capitals or not, stands for. -/
def hexValue? (c : Char) : Option Nat :=
  if '0' ≤ c ∧ c ≤ '9' then some (c.toNat - 48)
  else if 'A' ≤ c ∧ c ≤ 'F' then some (c.toNat - 55)
  else if 'a' ≤ c ∧ c ≤ 'f' then some (c.toNat - 87)
  else none

/-- The two digits of an octet. -/
def hexPair (b : UInt8) : List Char := [hexDigit (b.toNat / 16), hexDigit (b.toNat % 16)]

/-- A digit stands for the number it was written for. -/
theorem hexValue?_hexDigit {n : Nat} (h : n < 16) : hexValue? (hexDigit n) = some n := by
  have key : ∀ m : Fin 16, hexValue? (hexDigit m) = some m.val := by decide
  exact key ⟨n, h⟩

end ObjectGraph.Text
