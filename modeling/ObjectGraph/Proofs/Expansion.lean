import ObjectGraph.Template

/-!
# `Proofs.Expansion` — filling in places is exact, and done once

A template falls into pieces, and each piece can be told from the texts on both sides of it: an opening brace begins
anew whatever came before (`scan_append_brace`), and a closing brace after a name ends a place (`scan_name`). So a
place stands as a place between any two texts, however the braces in them lie, and what is filled in is not looked at
again. Put together the pieces are the template (`source_scan`), so what is no place stands as it is.

Contents:
* `IsSlotName`, `slot`, `HasSlot`; `called`, the parameter that a place names, and `parameterText`;
* `Piece.source`, `scan_append_brace`, `scan_name`, `source_scan`, `name_of_mem_scan`;
* `hasSlot_iff`, by which the specification is decided;
* `expand_of_not_hasSlot`, `expand_slot`, `eq_expand`;
* `expand_exact`.
-/

namespace ObjectGraph.Template

/-! ## Places in a text -/

/-- A name that can stand in braces: there is one, and it has no brace itself. -/
def IsSlotName (name : String) : Prop := name ≠ "" ∧ '\x7b' ∉ name.toList ∧ '\x7d' ∉ name.toList

instance (name : String) : Decidable (IsSlotName name) := inferInstanceAs (Decidable (_ ∧ _ ∧ _))

/-- The text of a place. -/
def slot (name : String) : String := "\x7b" ++ name ++ "\x7d"

/-- Somewhere in the text there is a place. -/
def HasSlot (s : String) : Prop := ∃ a name b, IsSlotName name ∧ s = a ++ slot name ++ b

/-- What the parameter is called that a place names: blanks around the name do not count, nor does a dollar sign
in front of it. -/
def called (name : String) : String :=
  match Text.trim name.toList with
  | '$' :: cs => String.ofList cs
  | cs => String.ofList cs

/-- The text of a parameter; none if it is not bound, or its value has no text. -/
def parameterText (h : Heap) (context : Params) (name : String) : String :=
  ((context.lookup ("$" ++ name)).bind (·.display? h)).getD ""

/-- A place is filled with the text of the parameter it names. -/
theorem getD_lookup? (h : Heap) (context : Params) (name : String) :
    (lookup? h context name.toList).getD "" = parameterText h context (called name) := by
  have key : parameterKey (String.ofList (Text.trim name.toList)) = "$" ++ called name := by
    unfold parameterKey called
    split
    next dollar =>
      rw [String.toList_ofList] at dollar
      obtain ⟨cs, hcs⟩ := List.head?_eq_some_iff.mp dollar
      rw [hcs, ← String.toList_inj]
      simp
    next other =>
      rw [String.toList_ofList] at other
      split
      next cs hcs => exact absurd (hcs ▸ rfl) other
      next => rfl
  rw [lookup?, key, parameterText]

/-! ## Pieces -/

/-- The text that a piece was taken from. -/
def Piece.source : Piece → List Char
  | .text cs => cs
  | .slot name => '\x7b' :: name ++ ['\x7d']

/-- What has been read and is not yet in a piece. -/
def held : Option (List Char) → List Char
  | none => []
  | some run => '\x7b' :: run.reverse

/-- An opening brace begins anew: what came before it is text, unless it was a piece already. -/
theorem scan_append_brace (state : Option (List Char)) (a b : List Char) :
    scan state (a ++ '\x7b' :: b) = scan state a ++ scan none ('\x7b' :: b) := by
  induction a generalizing state with
  | nil => cases state <;> simp [scan]
  | cons c a ih =>
      cases state with
      | none => by_cases opening : c = '\x7b' <;> simp [scan, opening, ih]
      | some run =>
          by_cases opening : c = '\x7b'
          · simp [scan, opening, ih]
          · by_cases closing : c = '\x7d' <;> simp [scan, closing, opening, ih]

/-- A name and a closing brace after an opening one are a place, and reading goes on behind it. -/
theorem scan_name {run name : List Char} (opening : '\x7b' ∉ name) (closing : '\x7d' ∉ name)
    (some_name : run.reverse ++ name ≠ []) (b : List Char) :
    scan (some run) (name ++ '\x7d' :: b) = .slot (run.reverse ++ name) :: scan none b := by
  induction name generalizing run with
  | nil =>
      cases run with
      | nil => exact absurd rfl some_name
      | cons d run => simp [scan]
  | cons c name ih =>
      have ho : c ≠ '\x7b' := fun e => opening (e ▸ List.mem_cons_self)
      have hc : c ≠ '\x7d' := fun e => closing (e ▸ List.mem_cons_self)
      have rest := @ih (c :: run) (fun m => opening (List.mem_cons_of_mem _ m))
        (fun m => closing (List.mem_cons_of_mem _ m)) (by simp)
      simpa [scan, ho, hc] using rest

/-- The pieces of a template, put together, are the template. -/
theorem source_scan (state : Option (List Char)) (cs : List Char) :
    (scan state cs).flatMap Piece.source = held state ++ cs := by
  induction cs generalizing state with
  | nil => cases state <;> simp [scan, held, Piece.source]
  | cons c cs ih =>
      cases state with
      | none => by_cases opening : c = '\x7b' <;> simp [scan, opening, ih, held, Piece.source]
      | some run =>
          by_cases opening : c = '\x7b'
          · simp [scan, opening, ih, held, Piece.source]
          · by_cases closing : c = '\x7d'
            · cases run <;> simp [scan, closing, ih, held, Piece.source]
            · simp [scan, closing, opening, ih, held]

/-- The name in a place is there, and has no brace. -/
theorem name_of_mem_scan {state : Option (List Char)} {cs name : List Char}
    (clean : '\x7b' ∉ state.getD [] ∧ '\x7d' ∉ state.getD []) (mem : Piece.slot name ∈ scan state cs) :
    name ≠ [] ∧ '\x7b' ∉ name ∧ '\x7d' ∉ name := by
  have empty : '\x7b' ∉ ([] : List Char) ∧ '\x7d' ∉ ([] : List Char) := by simp
  induction cs generalizing state with
  | nil => cases state <;> simp [scan] at mem
  | cons c cs ih =>
      cases state with
      | none =>
          by_cases opening : c = '\x7b'
          · exact @ih (some []) empty (by simpa [scan, opening] using mem)
          · exact @ih none empty (by simpa [scan, opening] using mem)
      | some run =>
          by_cases opening : c = '\x7b'
          · exact @ih (some []) empty (by simpa [scan, opening] using mem)
          by_cases closing : c = '\x7d'
          · cases run with
            | nil => exact @ih none empty (by simpa [scan, opening, closing] using mem)
            | cons d run =>
                have place : name = (d :: run).reverse ∨ Piece.slot name ∈ scan none cs := by
                  simpa [scan, opening, closing] using mem
                rcases place with rfl | mem
                · refine ⟨by simp, ?_, ?_⟩
                  · exact fun m => clean.1 (List.mem_reverse.mp m)
                  · exact fun m => clean.2 (List.mem_reverse.mp m)
                · exact @ih none empty mem
          · have longer : '\x7b' ∉ c :: run ∧ '\x7d' ∉ c :: run :=
              ⟨List.not_mem_cons_of_ne_of_not_mem (Ne.symm opening) clean.1,
                List.not_mem_cons_of_ne_of_not_mem (Ne.symm closing) clean.2⟩
            exact @ih (some (c :: run)) longer (by simpa [scan, opening, closing] using mem)

/-! ## The pieces of a text -/

/-- A place between two texts is a piece between theirs. -/
theorem pieces_slot {name : String} (hn : IsSlotName name) (a b : String) :
    pieces (a ++ slot name ++ b).toList
      = pieces a.toList ++ .slot name.toList :: pieces b.toList := by
  obtain ⟨nonempty, opening, closing⟩ := hn
  have chars : (a ++ slot name ++ b).toList = a.toList ++ '\x7b' :: (name.toList ++ '\x7d' :: b.toList) := by
    simp [slot]
  have place := @scan_name [] name.toList opening closing (by simpa using nonempty) b.toList
  rw [chars, pieces, scan_append_brace]
  congr 1

/-- A text has a place if one of its pieces is one. -/
theorem hasSlot_iff {s : String} : HasSlot s ↔ ∃ name, Piece.slot name ∈ pieces s.toList := by
  constructor
  · rintro ⟨a, name, b, hn, rfl⟩
    refine ⟨name.toList, ?_⟩
    rw [pieces_slot hn]
    exact List.mem_append_right _ List.mem_cons_self
  · rintro ⟨name, mem⟩
    obtain ⟨nonempty, opening, closing⟩ := name_of_mem_scan (by simp) mem
    obtain ⟨before, after, cut⟩ := List.append_of_mem mem
    have whole := source_scan none s.toList
    rw [← pieces, cut] at whole
    refine ⟨.ofList (before.flatMap Piece.source), .ofList name, .ofList (after.flatMap Piece.source), ?_, ?_⟩
    · exact ⟨by simpa [← String.toList_inj] using nonempty, by simpa using opening, by simpa using closing⟩
    · rw [← String.toList_inj]
      simpa [held, Piece.source, slot] using whole.symm

instance (s : String) : Decidable (HasSlot s) :=
  decidable_of_iff ((pieces s.toList).any fun p => match p with | .slot _ => true | .text _ => false) <| by
    rw [hasSlot_iff, List.any_eq_true]
    constructor
    · rintro ⟨p, mem, is⟩
      cases p with
      | text cs => exact absurd is (by simp)
      | slot name => exact ⟨name, mem⟩
    · rintro ⟨name, mem⟩
      exact ⟨_, mem, rfl⟩

/-! ## Expansion -/

variable {h : Heap} {context : Params}

/-- A text without places stands as it is. -/
theorem expand_of_not_hasSlot {s : String} (none : ¬ HasSlot s) : expand h context s = s := by
  have texts : ∀ p ∈ pieces s.toList, fill h context p = p.source := by
    intro p mem
    cases p with
    | text cs => rfl
    | slot name => exact absurd (hasSlot_iff.mpr ⟨name, mem⟩) none
  have whole : (pieces s.toList).flatMap Piece.source = s.toList := source_scan .none s.toList
  have same : (pieces s.toList).flatMap (fill h context) = (pieces s.toList).flatMap Piece.source := by
    rw [List.flatMap_def, List.flatMap_def, List.map_congr_left texts]
  rw [expand, same, whole, String.ofList_toList]

/-- A place is filled, whatever stands on its two sides. -/
theorem expand_slot {name : String} (hn : IsSlotName name) (a b : String) :
    expand h context (a ++ slot name ++ b)
      = expand h context a ++ parameterText h context (called name) ++ expand h context b := by
  rw [expand, pieces_slot hn]
  simp only [expand, List.flatMap_append, List.flatMap_cons, fill, getD_lookup?, String.ofList_append,
    String.ofList_toList, String.append_assoc]

/-- Nothing else leaves texts without places as they are and fills every place. -/
theorem eq_expand {f : String → String} (plain : ∀ s, ¬ HasSlot s → f s = s)
    (filled : ∀ a name b, IsSlotName name →
      f (a ++ slot name ++ b) = f a ++ parameterText h context (called name) ++ f b) : f = expand h context := by
  have same : ∀ n (s : String), s.length = n → f s = expand h context s := by
    intro n
    induction n using Nat.strongRecOn with
    | _ n ih =>
        intro s hs
        by_cases has : HasSlot s
        · obtain ⟨a, name, b, hn, rfl⟩ := has
          have shorter : a.length < n ∧ b.length < n := by
            subst hs
            have one : "\x7b".length = 1 := rfl
            simp only [slot, String.length_append, one]
            constructor <;> omega
          rw [filled a name b hn, expand_slot hn, ih _ shorter.1 a rfl, ih _ shorter.2 b rfl]
        · rw [plain s has, expand_of_not_hasSlot has]
  exact funext fun s => same _ s rfl

/-- Expansion leaves a text without places as it is. Between any two texts, whatever braces they have, a place is
filled with the text of the parameter that it names, and the two texts are expanded each for itself, so that what is
filled in stands as it is. Expansion is the only function that does this. -/
theorem expand_exact (h : Heap) (context : Params) :
    (∀ s, ¬ HasSlot s → expand h context s = s) ∧
    (∀ a name b, IsSlotName name → expand h context (a ++ slot name ++ b)
      = expand h context a ++ parameterText h context (called name) ++ expand h context b) ∧
    ∀ f : String → String, (∀ s, ¬ HasSlot s → f s = s) →
      (∀ a name b, IsSlotName name →
        f (a ++ slot name ++ b) = f a ++ parameterText h context (called name) ++ f b) →
      f = expand h context :=
  ⟨fun _ none => expand_of_not_hasSlot none, fun a _ b hn => expand_slot hn a b, fun _ => eq_expand⟩

/-- A parameter whose text is a place, the one that it names, and perhaps one without text. -/
def echoing (silent : Params) : Params := [("$a", .string "\x7bb\x7d"), ("$b", .string "x")] ++ silent

/-- In a context where the text of a parameter names another, between braces that do not match: the place is filled
once. A parameter without text is as good as none. -/
theorem expand_exact_echoing :
    ¬ HasSlot "\x7d\x7b" ∧ expand [] (echoing []) "\x7d\x7b" = "\x7d\x7b" ∧
    IsSlotName " $a " ∧ expand [] (echoing []) ("\x7b" ++ slot " $a " ++ "\x7d\x7b") = "\x7b\x7bb\x7d\x7d\x7b" ∧
    expand [] (echoing [("$c", .null)]) = expand [] (echoing []) := by
  obtain ⟨plain, filled, only⟩ := expand_exact [] (echoing [])
  obtain ⟨plain', filled', -⟩ := expand_exact [] (echoing [("$c", .null)])
  have silent : ∀ name, parameterText [] (echoing [("$c", .null)]) name = parameterText [] (echoing []) name := by
    intro name
    simp only [parameterText, echoing, List.lookup_append, Table.lookup_cons]
    by_cases hc : "$" ++ name = "$c" <;> simp [hc, Value.display?]
  refine ⟨by decide, plain _ (by decide), by decide, ?_, only _ plain' fun a name b hn => ?_⟩
  · have here := filled "\x7b" " $a " "\x7d\x7b" (by decide)
    rw [here, plain "\x7b" (by decide), plain "\x7d\x7b" (by decide)]
    decide
  · rw [filled' a name b hn, silent]

end ObjectGraph.Template
