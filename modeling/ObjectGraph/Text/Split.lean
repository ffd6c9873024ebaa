/-!
# `Text.Split` — cutting a text at a separator, and putting it together again

Cutting keeps empty pieces, so a text always has one piece more than it has separators, and
joining the pieces gives the text back (`join_split`).

Contents:
* `split`, `join` on character lists; `splitText`, `joinText` on strings;
* `splitOnce`, the text before and after the first separator;
* `join_split`, `split_join`, `split_append_sep`, `join_append`, `split_ne_nil`, `mem_join`.
-/

namespace ObjectGraph.Text

/-- The pieces of a text between the separators `sep`; empty pieces are kept. -/
def split (sep : Char) : List Char → List (List Char)
  | [] => [[]]
  | c :: cs =>
      if c = sep then [] :: split sep cs
      else match split sep cs with
        | [] => [[c]]
        | piece :: pieces => (c :: piece) :: pieces

/-- The pieces with `sep` between neighbours. -/
def join (sep : Char) : List (List Char) → List Char
  | [] => []
  | [piece] => piece
  | piece :: pieces => piece ++ sep :: join sep pieces

/-- `split` on strings. -/
def splitText (sep : Char) (s : String) : List String := (split sep s.toList).map String.ofList

/-- `join` on strings. -/
def joinText (sep : Char) (pieces : List String) : String :=
  String.ofList (join sep (pieces.map String.toList))

/-- The text before and after the first `sep`, if there is one. -/
def splitOnce (sep : Char) : List Char → Option (List Char × List Char)
  | [] => none
  | c :: cs =>
      if c = sep then some ([], cs)
      else (splitOnce sep cs).map fun (before, after) => (c :: before, after)

/-! ## Laws -/

theorem split_ne_nil (sep : Char) (cs : List Char) : split sep cs ≠ [] := by
  cases cs with
  | nil => simp [split]
  | cons c cs =>
      by_cases h : c = sep
      · simp [split, h]
      · simp only [split, h, if_false]
        split <;> simp

/-- Cutting before the separator and going on. -/
theorem split_cons_self (sep : Char) (cs : List Char) : split sep (sep :: cs) = [] :: split sep cs := by
  simp [split]

/-- A character other than the separator joins the first piece. -/
theorem split_cons_of_ne {sep c : Char} (h : c ≠ sep) (cs : List Char) :
    ∃ piece pieces, split sep cs = piece :: pieces
      ∧ split sep (c :: cs) = (c :: piece) :: pieces := by
  cases hs : split sep cs with
  | nil => exact absurd hs (split_ne_nil sep cs)
  | cons piece pieces => exact ⟨piece, pieces, rfl, by simp [split, h, hs]⟩

theorem join_cons {sep : Char} {piece : List Char} {pieces : List (List Char)} (h : pieces ≠ []) :
    join sep (piece :: pieces) = piece ++ sep :: join sep pieces := by
  cases pieces with
  | nil => exact absurd rfl h
  | cons _ _ => rfl

/-- The first piece may be extended before or after joining. -/
theorem join_cons_cons (sep c : Char) (piece : List Char) (pieces : List (List Char)) :
    join sep ((c :: piece) :: pieces) = c :: join sep (piece :: pieces) := by
  cases pieces <;> rfl

/-- Two pieces that are joined already count as one. -/
theorem join_append_cons (sep : Char) (a b : List Char) (pieces : List (List Char)) :
    join sep ((a ++ sep :: b) :: pieces) = join sep (a :: b :: pieces) := by
  cases pieces with
  | nil => rfl
  | cons next pieces => simp [join]

/-- What stands in a joined text is the separator or stands in a piece. -/
theorem mem_join {sep c : Char} {pieces : List (List Char)} (h : c ∈ join sep pieces) :
    c = sep ∨ ∃ piece ∈ pieces, c ∈ piece := by
  induction pieces with
  | nil => exact absurd h (by simp [join])
  | cons piece pieces ih =>
      by_cases hp : pieces = []
      · subst hp
        exact .inr ⟨piece, List.mem_singleton_self piece, h⟩
      · rw [join_cons hp] at h
        rcases List.mem_append.mp h with h | h
        · exact .inr ⟨piece, List.mem_cons_self, h⟩
        · rcases List.mem_cons.mp h with rfl | h
          · exact .inl rfl
          · exact (ih h).imp_right fun ⟨p, hp, hc⟩ => ⟨p, List.mem_cons_of_mem _ hp, hc⟩

/-- Joining the pieces of a text gives the text back. -/
theorem join_split (sep : Char) (cs : List Char) : join sep (split sep cs) = cs := by
  induction cs with
  | nil => rfl
  | cons c cs ih =>
      by_cases h : c = sep
      · subst h
        rw [split_cons_self, join_cons (split_ne_nil c cs), ih]; rfl
      · obtain ⟨piece, pieces, hs, hc⟩ := split_cons_of_ne h cs
        rw [hc, join_cons_cons, ← hs, ih]

/-- No piece holds the separator. -/
theorem not_mem_of_mem_split {sep : Char} {cs piece : List Char} (h : piece ∈ split sep cs) :
    sep ∉ piece := by
  induction cs generalizing piece with
  | nil => simp [split] at h; simp [h]
  | cons c cs ih =>
      by_cases hc : c = sep
      · subst hc
        rw [split_cons_self] at h
        rcases List.mem_cons.1 h with rfl | h
        · simp
        · exact ih h
      · obtain ⟨p, ps, hs, hcs⟩ := split_cons_of_ne hc cs
        rw [hcs] at h
        rcases List.mem_cons.1 h with rfl | h
        · exact fun hm => (List.mem_cons.1 hm).elim (fun e => hc e.symm)
            (ih (hs ▸ List.mem_cons_self))
        · exact ih (hs ▸ List.mem_cons_of_mem _ h)

/-- A text without the separator is one piece. -/
theorem split_of_not_mem {sep : Char} {cs : List Char} (h : sep ∉ cs) : split sep cs = [cs] := by
  induction cs with
  | nil => rfl
  | cons c cs ih =>
      have hc : c ≠ sep := fun e => h (e ▸ List.mem_cons_self)
      simp [split, hc, ih fun hm => h (List.mem_cons_of_mem _ hm)]

/-- A piece without the separator in front is cut off first. -/
theorem split_append {sep : Char} {piece : List Char} (h : sep ∉ piece) (cs : List Char) :
    split sep (piece ++ sep :: cs) = piece :: split sep cs := by
  induction piece with
  | nil => simp [split]
  | cons c piece ih =>
      have hc : c ≠ sep := fun e => h (e ▸ List.mem_cons_self)
      simp [split, hc, ih fun hm => h (List.mem_cons_of_mem _ hm)]

/-- What stands before a separator and what stands after it are cut apart from each other. -/
theorem split_append_sep (sep : Char) (before after : List Char) :
    split sep (before ++ sep :: after) = split sep before ++ split sep after := by
  induction before with
  | nil => exact split_cons_self sep after
  | cons c before ih =>
      by_cases h : c = sep
      · subst h
        rw [List.cons_append, split_cons_self, split_cons_self, ih]; rfl
      · obtain ⟨piece, pieces, hs, hc⟩ := split_cons_of_ne h before
        rw [List.cons_append, hc, split, if_neg h, ih, hs]; rfl

/-- Two rows of pieces are joined by one more separator. -/
theorem join_append (sep : Char) {before after : List (List Char)} (hb : before ≠ []) (ha : after ≠ []) :
    join sep (before ++ after) = join sep before ++ sep :: join sep after := by
  induction before with
  | nil => exact absurd rfl hb
  | cons piece before ih =>
      by_cases h : before = []
      · subst h
        rw [List.singleton_append, join_cons ha]; rfl
      · rw [List.cons_append, join_cons (by simp [h]), join_cons h, ih h]
        simp

/-- Pieces without the separator come back from the joined text. -/
theorem split_join {sep : Char} {pieces : List (List Char)} (hne : pieces ≠ [])
    (h : ∀ piece ∈ pieces, sep ∉ piece) : split sep (join sep pieces) = pieces := by
  induction pieces with
  | nil => exact absurd rfl hne
  | cons piece pieces ih =>
      have hp := h piece List.mem_cons_self
      by_cases hps : pieces = []
      · subst hps; exact split_of_not_mem hp
      · rw [join_cons hps, split_append hp,
          ih hps fun p hm => h p (List.mem_cons_of_mem _ hm)]

end ObjectGraph.Text
