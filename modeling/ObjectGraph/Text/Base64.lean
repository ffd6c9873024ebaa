/-!
# `Text.Base64` — base 64 with the standard alphabet and padding

Three octets are four digits of six bits. A last group of one or two octets is padded with `=` to
four characters, and reading insists on that padding and on zero bits where a group has bits to
spare, so every octet list has exactly one written form.

Contents:
* `digit`, `value?`: the alphabet;
* `encode`, `decode?`, and `decode?_encode`.
-/

namespace ObjectGraph.Text.Base64

/-- The digit for a number below 64. -/
def digit (n : Nat) : Char :=
  if n < 26 then Char.ofNat (65 + n)
  else if n < 52 then Char.ofNat (71 + n)
  else if n < 62 then Char.ofNat (n - 4)
  else if n = 62 then '+' else '/'

/-- What a digit stands for. -/
def value? (c : Char) : Option Nat :=
  if 'A' ≤ c ∧ c ≤ 'Z' then some (c.toNat - 65)
  else if 'a' ≤ c ∧ c ≤ 'z' then some (c.toNat - 71)
  else if '0' ≤ c ∧ c ≤ '9' then some (c.toNat + 4)
  else if c = '+' then some 62
  else if c = '/' then some 63
  else none

/-- A digit stands for the number it was written for. -/
theorem value?_digit {n : Nat} (h : n < 64) : value? (digit n) = some n := by
  have key : ∀ m : Fin 64, value? (digit m.val) = some m.val := by decide
  exact key ⟨n, h⟩

/-- No digit is the padding sign. -/
theorem digit_ne_pad {n : Nat} (h : n < 64) : digit n ≠ '=' := by
  have key : ∀ m : Fin 64, digit m.val ≠ '=' := by decide
  exact key ⟨n, h⟩

/-- Octets in base 64. -/
def encode : List UInt8 → List Char
  | [] => []
  | [a] => [digit (a.toNat / 4), digit (a.toNat % 4 * 16), '=', '=']
  | [a, b] =>
      [digit (a.toNat / 4), digit (a.toNat % 4 * 16 + b.toNat / 16),
       digit (b.toNat % 16 * 4), '=']
  | a :: b :: c :: rest =>
      digit (a.toNat / 4) :: digit (a.toNat % 4 * 16 + b.toNat / 16)
        :: digit (b.toNat % 16 * 4 + c.toNat / 64) :: digit (c.toNat % 64) :: encode rest

/-- The octets that base 64 text stands for; `none` unless it is in its one written form. -/
def decode? : List Char → Option (List UInt8)
  | [] => some []
  | [w, x, '=', '='] => do
      let i ← value? w
      let j ← value? x
      if j % 16 = 0 then pure [UInt8.ofNat (i * 4 + j / 16)] else none
  | [w, x, y, '='] => do
      let i ← value? w
      let j ← value? x
      let k ← value? y
      if k % 4 = 0 then
        pure [UInt8.ofNat (i * 4 + j / 16), UInt8.ofNat (j % 16 * 16 + k / 4)]
      else none
  | w :: x :: y :: z :: rest => do
      let i ← value? w
      let j ← value? x
      let k ← value? y
      let l ← value? z
      let bs ← decode? rest
      pure (UInt8.ofNat (i * 4 + j / 16) :: UInt8.ofNat (j % 16 * 16 + k / 4)
        :: UInt8.ofNat (k % 4 * 64 + l) :: bs)
  | _ => none

/-- Octets come back from their base 64 text. -/
theorem decode?_encode (bs : List UInt8) : decode? (encode bs) = some bs := by
  have back : ∀ (b : UInt8) (n : Nat), n = b.toNat → UInt8.ofNat n = b := by
    rintro b n rfl; simp
  fun_induction encode bs with
  | case1 => rfl
  | case2 a =>
      have ha : a.toNat < 256 := a.toNat_lt
      simp only [decode?, value?_digit (show a.toNat / 4 < 64 by omega),
        value?_digit (show a.toNat % 4 * 16 < 64 by omega), Option.bind_eq_bind, Option.bind_some]
      rw [if_pos (by omega), back a _ (by omega)]; rfl
  | case3 a b =>
      have ha : a.toNat < 256 := a.toNat_lt
      have hb : b.toNat < 256 := b.toNat_lt
      have hk : b.toNat % 16 * 4 < 64 := by omega
      rw [decode?]
      · simp only [value?_digit (show a.toNat / 4 < 64 by omega),
          value?_digit (show a.toNat % 4 * 16 + b.toNat / 16 < 64 by omega), value?_digit hk,
          Option.bind_eq_bind, Option.bind_some]
        rw [if_pos (by omega), back a _ (by omega), back b _ (by omega)]; rfl
      · exact digit_ne_pad hk
  | case4 a b c rest ih =>
      have ha : a.toNat < 256 := a.toNat_lt
      have hb : b.toNat < 256 := b.toNat_lt
      have hc : c.toNat < 256 := c.toNat_lt
      have hl : c.toNat % 64 < 64 := by omega
      rw [decode?]
      · simp only [value?_digit (show a.toNat / 4 < 64 by omega),
          value?_digit (show a.toNat % 4 * 16 + b.toNat / 16 < 64 by omega),
          value?_digit (show b.toNat % 16 * 4 + c.toNat / 64 < 64 by omega), value?_digit hl,
          ih, Option.bind_eq_bind, Option.bind_some]
        rw [back a _ (by omega), back b _ (by omega), back c _ (by omega)]; rfl
      · intro _ hz _; exact digit_ne_pad hl hz
      · intro hz _; exact digit_ne_pad hl hz

/-- `encode` as a string. -/
def encodeText (bs : List UInt8) : String := String.ofList (encode bs)

end ObjectGraph.Text.Base64
