import ObjectGraph.Json.Parser

/-!
# `Proofs.JsonText` — the JSON text of a string is longer than the string

A string is written between quotes, and each of its characters takes at least one character of the text. So a text
that is read as a string is longer than the string, and no text is read as itself.

Contents:
* `length_fourHex`, `length_escaped`, `length_stringBody`: how much a reader takes;
* `keyword_eq_ok`, `items_eq_ok`, `members_eq_ok`: what else a reader gives, which is no string;
* `length_readValue_string`, `length_of_parse?_string`.
-/

namespace ObjectGraph.Json

variable {cs rest : List Char}

/-- A reader succeeds only if what it reads first does, and then the rest. -/
theorem ok_of_bind {α β : Type} {x : Except Failure α} {f : α → Except Failure β} {b : β} (h : (x >>= f) = .ok b) :
    ∃ a, x = .ok a ∧ f a = .ok b := by
  cases x with
  | error e => exact absurd h (by simp [bind, Except.bind])
  | ok a => exact ⟨a, rfl, h⟩

theorem failAt_ne_ok {α : Type} {p : Problem} {a : α} : failAt p cs ≠ .ok a := by simp [failAt]

theorem failNext_ne_ok {α : Type} {p : Problem} {a : α} : failNext p cs ≠ .ok a := by simp [failNext]

/-! ## Characters of a string -/

theorem length_fourHex {n : Nat} (h : fourHex cs = .ok (n, rest)) : rest.length < cs.length := by
  unfold fourHex at h
  split at h
  · exact absurd h failAt_ne_ok
  · split at h
    · split at h
      · obtain ⟨-, rfl⟩ := Prod.mk.inj (Except.ok.inj h)
        simp only [List.length_cons]
        omega
      · exact absurd h (by simp)
    · exact absurd h (by simp)

theorem length_lowSurrogate {high : Nat} {c : Char} (h : lowSurrogate high cs = .ok (c, rest)) :
    rest.length < cs.length := by
  unfold lowSurrogate at h
  split at h
  · exact absurd h failAt_ne_ok
  · split at h
    · exact absurd h failAt_ne_ok
    · obtain ⟨⟨low, es⟩, read, h⟩ := ok_of_bind h
      have taken := length_fourHex read
      dsimp only at h
      split at h
      · obtain ⟨-, rfl⟩ := Prod.mk.inj (Except.ok.inj h)
        simp only [List.length_cons]
        omega
      · exact absurd h failAt_ne_ok
    · exact absurd h failNext_ne_ok
  · exact absurd h failNext_ne_ok

theorem length_unicodeEscape {c : Char} (h : unicodeEscape cs = .ok (c, rest)) : rest.length < cs.length := by
  obtain ⟨⟨n, ds⟩, read, h⟩ := ok_of_bind h
  have taken := length_fourHex read
  dsimp only at h
  split at h
  · exact absurd h failAt_ne_ok
  · split at h
    · exact Nat.lt_trans (length_lowSurrogate h) taken
    · obtain ⟨-, rfl⟩ := Prod.mk.inj (Except.ok.inj h)
      exact taken

/-- An escape takes a character at least. -/
theorem length_escaped {c : Char} (h : escaped cs = .ok (c, rest)) : rest.length < cs.length := by
  cases cs with
  | nil => exact absurd h failAt_ne_ok
  | cons d ds =>
      have one : ∀ {e : Char}, (Except.ok (e, ds) : Except Failure _) = .ok (c, rest) →
          rest.length < (d :: ds).length := by
        intro e same
        obtain ⟨-, rfl⟩ := Prod.mk.inj (Except.ok.inj same)
        exact Nat.lt_succ_self _
      unfold escaped at h
      dsimp only at h
      repeat' split at h
      all_goals first
        | exact one h
        | exact Nat.lt_succ_of_lt (length_unicodeEscape h)
        | exact absurd h failNext_ne_ok

/-- A string is not longer than what it is written as, without the quote at its end. -/
theorem length_stringBody {done : List Char} {n : Nat} {s : String} (h : stringBody done n cs = .ok (s, rest)) :
    s.length + rest.length < done.length + cs.length := by
  induction n generalizing done cs with
  | zero => exact absurd h failAt_ne_ok
  | succ n ih =>
      cases cs with
      | nil => exact absurd h failAt_ne_ok
      | cons c cs =>
          unfold stringBody at h
          split at h
          · obtain ⟨rfl, rfl⟩ := Prod.mk.inj (Except.ok.inj h)
            simp
          · split at h
            · obtain ⟨⟨d, ds⟩, read, h⟩ := ok_of_bind h
              have taken := length_escaped read
              have shorter := ih h
              simp only [List.length_cons] at shorter ⊢
              omega
            · split at h
              · exact absurd h failNext_ne_ok
              · have shorter := ih h
                simp only [List.length_cons] at shorter ⊢
                omega

/-! ## Values that are no strings -/

theorem keyword_eq_ok {α : Type} {a b : α} {word : List Char} (h : keyword a word cs = .ok (b, rest)) : b = a := by
  induction word generalizing cs with
  | nil =>
      obtain ⟨rfl, -⟩ := Prod.mk.inj (Except.ok.inj h)
      rfl
  | cons w word ih =>
      cases cs with
      | nil => exact absurd h failAt_ne_ok
      | cons c cs =>
          unfold keyword at h
          split at h
          · exact ih h
          · exact absurd h failNext_ne_ok

variable {one : List Char → Except Failure (Json × List Char)} {n : Nat} {j : Json}

theorem items_eq_ok {done : List Json} (h : items one done n cs = .ok (j, rest)) : ∃ row, j = .array row := by
  induction n generalizing done cs with
  | zero => exact absurd h failAt_ne_ok
  | succ n ih =>
      unfold items at h
      split at h
      · exact absurd h failNext_ne_ok
      · obtain ⟨rfl, -⟩ := Prod.mk.inj (Except.ok.inj h)
        exact ⟨_, rfl⟩
      · split at h
        · obtain ⟨⟨x, more⟩, -, h⟩ := ok_of_bind h
          exact ih h
        · split at h
          · split at h
            · exact absurd h failNext_ne_ok
            · exact absurd h failNext_ne_ok
            · obtain ⟨⟨x, more⟩, -, h⟩ := ok_of_bind h
              exact ih h
          · exact absurd h failNext_ne_ok

theorem members_eq_ok {done : List (String × Json)} (h : members one done n cs = .ok (j, rest)) :
    ∃ table, j = .object table := by
  induction n generalizing done cs with
  | zero => exact absurd h failAt_ne_ok
  | succ n ih =>
      unfold members at h
      split at h
      · exact absurd h failNext_ne_ok
      · obtain ⟨rfl, -⟩ := Prod.mk.inj (Except.ok.inj h)
        exact ⟨_, rfl⟩
      · split at h
        · split at h
          · obtain ⟨⟨x, more⟩, -, h⟩ := ok_of_bind h
            exact ih h
          · exact absurd h failNext_ne_ok
        · split at h
          · split at h
            · exact absurd h failNext_ne_ok
            · obtain ⟨⟨x, more⟩, -, h⟩ := ok_of_bind h
              exact ih h
            · exact absurd h failNext_ne_ok
            · exact absurd h failNext_ne_ok
          · exact absurd h failNext_ne_ok

/-! ## Strings -/

/-- What is read as a string is longer than the string. -/
theorem length_readValue_string {depth : Nat} {s : String} (h : readValue depth cs = .ok (.string s, rest)) :
    s.length < cs.length := by
  cases depth with
  | zero => exact absurd h failNext_ne_ok
  | succ depth =>
      have within : (skipSpace cs).length ≤ cs.length := (List.dropWhile_suffix _).length_le
      unfold readValue at h
      split at h
      · exact absurd h failNext_ne_ok
      · exact absurd (keyword_eq_ok h) (by simp)
      · exact absurd (keyword_eq_ok h) (by simp)
      · exact absurd (keyword_eq_ok h) (by simp)
      · obtain ⟨⟨x, more⟩, -, h⟩ := ok_of_bind h
        exact absurd h (by simp [pure, Except.pure])
      · rename_i begun
        obtain ⟨⟨t, more⟩, read, h⟩ := ok_of_bind h
        obtain ⟨same, -⟩ := Prod.mk.inj (Except.ok.inj h)
        obtain rfl := Json.string.inj same
        have shorter := length_stringBody read
        rw [begun] at within
        simp only [List.length_cons, List.length_nil] at within shorter
        omega
      · split at h
        · exact absurd h failNext_ne_ok
        · obtain ⟨row, other⟩ := items_eq_ok h
          exact absurd other (by simp)
      · split at h
        · exact absurd h failNext_ne_ok
        · obtain ⟨table, other⟩ := members_eq_ok h
          exact absurd other (by simp)
      · split at h
        · obtain ⟨⟨x, more⟩, -, h⟩ := ok_of_bind h
          exact absurd h (by simp [pure, Except.pure])
        · exact absurd h failNext_ne_ok

/-- The JSON text of a string is longer than the string. -/
theorem length_of_parse?_string {text s : String} (h : parse? text = some (.string s)) : s.length < text.length := by
  have read : document text.toList = .ok (.string s) := by
    unfold parse? parse at h
    split at h
    next j hj =>
      obtain rfl := Option.some.inj h
      exact hj
    next => exact absurd h (by simp [Except.toOption])
  obtain ⟨⟨j, rest⟩, value, h⟩ := ok_of_bind read
  dsimp only at h
  split at h
  · obtain rfl := Except.ok.inj h
    exact length_readValue_string value
  · exact absurd h failNext_ne_ok

end ObjectGraph.Json
