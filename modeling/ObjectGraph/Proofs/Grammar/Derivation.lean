import ObjectGraph.Proofs.Canonical

/-!
# `Proofs.Grammar.Derivation` — derivations of compound URIs

    compound  ::= '[' reference ']' | reference
    reference ::= '~' name format? | uri
    uri       ::= scheme ':' name? ('#' fragment)? parameter* format?
    parameter ::= '+' key ('@' compound | '=' literal)
    format    ::= '|' word

A derivation is a tree of these productions, down to the characters: it holds the blanks, the tokens as they are
written, and what they stand for. Blanks are where the grammar has a place for them: in front of a compound URI,
behind `[`, in front of `]`, `+` and `|`, behind `|`, and at the end of the text. Tokens are rows of characters
of their class, of any length. So every tree is a derivation, and its text is what it derives.

A text may be derived in several ways, since the parameters and the format behind a nested URI without brackets
may belong to it or to a URI around it. A derivation is *greedy* if such a URI takes every parameter that follows
it and then a format if one comes next; an alias takes no parameters. The rule looks at one row of parameters
at a time: what stands behind a nested URI that has no format must be nothing.

Contents:
* `Blanks`, `Encoded`, `Suffix`; `Compound`, `Reference`, `Parameters`; `Derivation`;
* what they are written as, `text`, and what they say, `value`; `parameter?_value`;
* `Greedy`, `Full`;
* `Ends`, `Plus`, `Bar`: what may stand behind a piece of a text; laws of blanks.
-/

namespace ObjectGraph.Uri.Grammar

open Text (isBlank trimStart)
open Text.Percent (decode?)

/-! ## Trees -/

/-- Blanks in a row. -/
abbrev Blanks := {cs : List Char // ∀ c ∈ cs, isBlank c = true}

/-- A row of characters of a class, and the text that it encodes. -/
structure Encoded (p : Char → Bool) where
  raw : List Char
  text : String
  ofClass : ∀ c ∈ raw, p c = true
  decodes : decode? raw = some text

/-- What is written determines the text. -/
theorem Encoded.eq_of_raw {p : Char → Bool} {a b : Encoded p} (h : a.raw = b.raw) : a = b := by
  obtain ⟨raw, text, _, decodes⟩ := a
  obtain ⟨raw', text', _, decodes'⟩ := b
  obtain rfl : raw = raw' := h
  obtain rfl : text = text' := Option.some.inj (decodes.symm.trans decodes')
  rfl

/-- A format with its bar, and the blanks in front of the bar and behind it. -/
structure Suffix where
  before : Blanks
  after : Blanks
  word : {s : String // IsToken isWord s}

mutual

/-- A compound URI. -/
inductive Compound where
  | bare (before : Blanks) (reference : Reference)
  | bracketed (before inner : Blanks) (reference : Reference) (closing : Blanks)

/-- An alias or a URI. -/
inductive Reference where
  | byAlias (name : Encoded isName) (nonempty : name.raw ≠ []) (format : Option Suffix)
  | uri (scheme : {s : String // IsScheme s}) (name : Encoded isName) (fragment : Option (Encoded isPlain))
      (parameters : Parameters) (format : Option Suffix)

/-- A row of parameters. -/
inductive Parameters where
  | nil
  | literal (before : Blanks) (key : {s : String // IsToken isKey s}) (value : Encoded isPlain)
      (rest : Parameters)
  | nested (before : Blanks) (key : {s : String // IsToken isKey s}) (value : Compound) (rest : Parameters)

end

/-- A compound URI that is all of a text. -/
structure Derivation where
  compound : Compound
  ending : Blanks

/-! ## What is written -/

/-- The characters of a format that may be there. -/
def suffixText : Option Suffix → List Char
  | none => []
  | some s => s.before.val ++ '|' :: (s.after.val ++ s.word.val.toList)

/-- The characters of a fragment that may be there. -/
def fragmentText : Option (Encoded isPlain) → List Char
  | none => []
  | some f => '#' :: f.raw

mutual

/-- The characters of a compound URI. -/
def Compound.text : Compound → List Char
  | .bare before r => before.val ++ r.text
  | .bracketed before inner r closing =>
      before.val ++ '[' :: (inner.val ++ (r.text ++ (closing.val ++ [']'])))

/-- The characters of an alias or a URI. -/
def Reference.text : Reference → List Char
  | .byAlias name _ format => '~' :: (name.raw ++ suffixText format)
  | .uri scheme name fragment parameters format =>
      scheme.val.toList
        ++ ':' :: (name.raw ++ (fragmentText fragment ++ (parameters.text ++ suffixText format)))

/-- The characters of a row of parameters. -/
def Parameters.text : Parameters → List Char
  | .nil => []
  | .literal before key value rest => before.val ++ '+' :: (key.val.toList ++ '=' :: (value.raw ++ rest.text))
  | .nested before key value rest => before.val ++ '+' :: (key.val.toList ++ '@' :: (value.text ++ rest.text))

end

/-- The text that is derived. -/
def Derivation.text (d : Derivation) : List Char := d.compound.text ++ d.ending.val

/-! ## What is said -/

/-- The word of a format that may be there. -/
def suffixWord (format : Option Suffix) : Option String := format.map (·.word.val)

mutual

/-- What a compound URI says. -/
def Compound.value : Compound → Uri
  | .bare _ r => r.value
  | .bracketed _ _ r _ => r.value

/-- What an alias or a URI says; the last value of a key counts. -/
def Reference.value : Reference → Uri
  | .byAlias name _ format => mk aliasScheme name.text none [] (suffixWord format)
  | .uri scheme name fragment parameters format =>
      mk scheme.val name.text (fragment.map (·.text)) (Table.insertAll [] parameters.pairs) (suffixWord format)

/-- The keys of a row of parameters with their values, as they are written. -/
def Parameters.pairs : Parameters → List (String × Uri)
  | .nil => []
  | .literal _ key value rest => (key.val, literal value.text) :: rest.pairs
  | .nested _ key value rest => (key.val, value.value) :: rest.pairs

end

/-- What a whole text says. -/
def Derivation.value (d : Derivation) : Uri := d.compound.value

/-- A repeated key keeps its last value. -/
theorem parameter?_value (scheme : {s : String // IsScheme s}) (name : Encoded isName)
    (fragment : Option (Encoded isPlain)) (parameters : Parameters) (format : Option Suffix) (key : String) :
    (Reference.uri scheme name fragment parameters format).value.parameter? key
      = parameters.pairs.reverse.lookup key := by
  rw [Reference.value]
  show (Table.insertAll [] parameters.pairs).lookup key = _
  rw [Table.lookup_insertAll, List.lookup_nil, Option.or_none]

/-! ## Greed -/

/-- What follows begins, after blanks, with a plus sign. -/
def Plus (cs : List Char) : Prop := (trimStart cs).head? = some '+'

/-- What follows begins, after blanks, with a bar. -/
def Bar (cs : List Char) : Prop := (trimStart cs).head? = some '|'

/-- A parameter that follows could be taken. -/
def Reference.takesParameters : Reference → Bool
  | .byAlias _ _ _ => false
  | .uri _ _ _ _ format => format.isNone

/-- A format that follows could be taken. -/
def Reference.takesFormat : Reference → Bool
  | .byAlias _ _ format => format.isNone
  | .uri _ _ _ _ format => format.isNone

/-- A parameter that follows could be taken, since no bracket closes the URI. -/
def Compound.takesParameters : Compound → Bool
  | .bare _ r => r.takesParameters
  | .bracketed _ _ _ _ => false

/-- A format that follows could be taken, since no bracket closes the URI. -/
def Compound.takesFormat : Compound → Bool
  | .bare _ r => r.takesFormat
  | .bracketed _ _ _ _ => false

mutual

/-- Every nested URI takes what it can. -/
def Compound.Greedy : Compound → Prop
  | .bare _ r => r.Greedy
  | .bracketed _ _ r _ => r.Greedy

/-- Every nested URI takes what it can. -/
def Reference.Greedy : Reference → Prop
  | .byAlias _ _ _ => True
  | .uri _ _ _ parameters format => parameters.Greedy format.isSome

/-- Every nested URI takes what it can, where a format comes behind the parameters or not. -/
def Parameters.Greedy (format : Bool) : Parameters → Prop
  | .nil => True
  | .literal _ _ _ rest => rest.Greedy format
  | .nested _ _ value rest =>
      value.Greedy ∧ (value.takesParameters = true → rest = .nil)
        ∧ (value.takesFormat = true → rest = .nil → format = false) ∧ rest.Greedy format

end

/-- Every nested URI takes what it can. -/
def Derivation.Greedy (d : Derivation) : Prop := d.compound.Greedy

/-- Nothing follows that could be taken. -/
def Reference.Full (r : Reference) (cs : List Char) : Prop :=
  (r.takesParameters = true → ¬ Plus cs) ∧ (r.takesFormat = true → ¬ Bar cs)

/-- Nothing follows that could be taken. -/
def Compound.Full (d : Compound) (cs : List Char) : Prop :=
  (d.takesParameters = true → ¬ Plus cs) ∧ (d.takesFormat = true → ¬ Bar cs)

/-! ## Where tokens end -/

/-- What follows cannot belong to a token in front of it. -/
def Ends (cs : List Char) : Prop := ∀ c ∈ cs.head?, isPlain c = false

/-- Words are plain. -/
theorem isPlain_of_isWord {c : Char} (h : isWord c = true) : isPlain c = true := by
  have key : ∀ b : Fin 128, isWord (Char.ofNat b.val) = true → isPlain (Char.ofNat b.val) = true := by
    decide +kernel
  have fact := key ⟨c.toNat, toNat_lt_of_isWord h⟩
  rw [Char.ofNat_toNat] at fact
  exact fact h

/-- Blanks are not plain. -/
theorem isPlain_of_isBlank {c : Char} (h : isBlank c = true) : isPlain c = false := by
  simp [isPlain, h]

theorem Ends.isWord {cs : List Char} (h : Ends cs) : ∀ c ∈ cs.head?, isWord c = false := by
  intro c hc
  refine Bool.eq_false_iff.mpr fun word => ?_
  exact absurd (isPlain_of_isWord word) (Bool.eq_false_iff.mp (h c hc))

theorem Ends.isName {cs : List Char} (h : Ends cs) : ∀ c ∈ cs.head?, isName c = false := by
  intro c hc
  refine Bool.eq_false_iff.mpr fun name => ?_
  exact absurd (isPlain_of_isName name) (Bool.eq_false_iff.mp (h c hc))

theorem Ends.cons {c : Char} (h : isPlain c = false) (cs : List Char) : Ends (c :: cs) := by
  rintro d ⟨⟩
  exact h

/-- Blanks end a token, and so does what ends one behind no blanks. -/
theorem Ends.blanks (b : Blanks) {cs : List Char} (h : Ends cs) : Ends (b.val ++ cs) := by
  obtain ⟨b, hb⟩ := b
  cases b with
  | nil => exact h
  | cons c b => exact .cons (isPlain_of_isBlank (hb c List.mem_cons_self)) _

/-- Behind blanks everything is as without them. -/
theorem trimStart_blanks (b : Blanks) (cs : List Char) : trimStart (b.val ++ cs) = trimStart cs :=
  List.dropWhile_append_of_pos b.property

theorem trimStart_blanks_cons (b : Blanks) {c : Char} (h : isBlank c = false) (cs : List Char) :
    trimStart (b.val ++ c :: cs) = c :: cs := by
  rw [trimStart_blanks, Text.trimStart_cons h]

theorem trimStart_ending (b : Blanks) : trimStart b.val = [] := by
  have trimmed := trimStart_blanks b []
  rwa [List.append_nil] at trimmed

/-- A text begins with blanks, and what is left without them. -/
theorem exists_blanks (cs : List Char) : ∃ b : Blanks, cs = b.val ++ trimStart cs :=
  ⟨⟨cs.takeWhile isBlank, fun _ hc => of_mem_token (p := isBlank) hc⟩, List.takeWhile_append_dropWhile.symm⟩

theorem plus_iff {cs : List Char} : Plus cs ↔ ∃ after, trimStart cs = '+' :: after := by
  rw [Plus, List.head?_eq_some_iff]

theorem bar_iff {cs : List Char} : Bar cs ↔ ∃ after, trimStart cs = '|' :: after := by
  rw [Bar, List.head?_eq_some_iff]

/-- What begins with a plus sign begins with no bar. -/
theorem Plus.not_bar {cs : List Char} (h : Plus cs) : ¬ Bar cs := by
  rw [Plus] at h
  rw [Bar, h]
  simp

theorem plus_blanks (b : Blanks) (cs : List Char) : Plus (b.val ++ '+' :: cs) := by
  rw [Plus, trimStart_blanks_cons b rfl]
  rfl

/-- A row of parameters begins with a plus sign, unless it is empty. -/
theorem plus_parameters {parameters : Parameters} (h : parameters ≠ .nil) (cs : List Char) :
    Plus (parameters.text ++ cs) := by
  cases parameters with
  | nil => exact absurd rfl h
  | literal before key value rest | nested before key value rest =>
      rw [Parameters.text, List.append_assoc, List.cons_append]
      exact plus_blanks before _

theorem bar_suffix (s : Suffix) (cs : List Char) : Bar (suffixText (some s) ++ cs) := by
  rw [Bar, suffixText, List.append_assoc, List.cons_append, trimStart_blanks_cons _ rfl]
  rfl

theorem not_plus_suffix {format : Option Suffix} {cs : List Char} (h : format = none → ¬ Plus cs) :
    ¬ Plus (suffixText format ++ cs) := by
  cases format with
  | none => exact h rfl
  | some s =>
      obtain ⟨after, bar⟩ := bar_iff.mp (bar_suffix s cs)
      rw [Plus, bar]
      simp

theorem ends_suffix (format : Option Suffix) {cs : List Char} (h : Ends cs) : Ends (suffixText format ++ cs) := by
  cases format with
  | none => exact h
  | some s =>
      rw [suffixText, List.append_assoc]
      exact .blanks _ (.cons rfl _)

theorem ends_parameters (parameters : Parameters) {cs : List Char} (h : Ends cs) :
    Ends (parameters.text ++ cs) := by
  cases parameters with
  | nil => exact h
  | literal before key value rest =>
      rw [Parameters.text, List.append_assoc]
      exact .blanks _ (.cons rfl _)
  | nested before key value rest =>
      rw [Parameters.text, List.append_assoc]
      exact .blanks _ (.cons rfl _)

/-- A name ends where a fragment begins, or where a token ends. -/
theorem isName_head_fragment (fragment : Option (Encoded isPlain)) {cs : List Char} (h : Ends cs) :
    ∀ c ∈ (fragmentText fragment ++ cs).head?, isName c = false := by
  cases fragment with
  | none => exact h.isName
  | some f =>
      rintro c ⟨⟩
      rfl

/-- A reference begins with a tilde or a letter, which is neither blank nor a bracket. -/
theorem Reference.head_text (r : Reference) : ∃ c cs, r.text = c :: cs ∧ isBlank c = false ∧ c ≠ '[' := by
  cases r with
  | byAlias name nonempty format => exact ⟨'~', _, Reference.text.eq_1 .., rfl, by decide⟩
  | uri scheme name fragment parameters format =>
      obtain ⟨c, cs, hl, hc, -⟩ := scheme.property
      obtain ⟨blank, -, bracket⟩ := of_isWord (isWord_of_isLetter hc)
      refine ⟨c, cs ++ ':' :: (name.raw ++ (fragmentText fragment ++ (parameters.text ++ suffixText format))), ?_,
        blank, bracket⟩
      rw [Reference.text, hl, List.cons_append]

theorem Reference.trimStart_text (r : Reference) (cs : List Char) : trimStart (r.text ++ cs) = r.text ++ cs := by
  obtain ⟨c, tail, ht, blank, -⟩ := r.head_text
  rw [ht, List.cons_append, Text.trimStart_cons blank]

end ObjectGraph.Uri.Grammar
