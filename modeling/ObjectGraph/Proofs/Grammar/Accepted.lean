import ObjectGraph.Proofs.Grammar.Derived
import ObjectGraph.Proofs.Grammar.Unambiguous

/-!
# `Proofs.Grammar.Accepted` — what is derived is parsed

A text may have a derivation that is not greedy. Reading it greedily, the URIs that are open take what the
derivation gives to a URI further out. That never hurts: `Tail base k cs` says that `cs` goes on to `base` as `k`
open URIs may go on, one after the other, each with parameters and then a format. More open URIs only make it
easier (`Tail.skip`). A parameter that comes next leaves as many open as there were, whoever takes it, and a format
closes one. Since reading keeps at least as many open as the derivation does, it gets to `base`, where a bracket
closes what is open or the text ends.

Together with the facts that what is parsed has a greedy derivation and that a text has one greedy derivation at
most, this settles what is parsed, and as what.

Contents:
* `Tail` and what it says about the next parameter and the next format;
* `Accepts`, and what `parseParameters`, `parseReference` and `parseCompound` accept;
* `parse_of_derived`, `parse_derives`.
-/

namespace ObjectGraph.Uri.Grammar

open Text (trimStart)
open Text.Percent (decode?)

/-! ## What goes on as open URIs may -/

/-- Tokens end here, and neither a parameter nor a format comes next. -/
structure Closing (cs : List Char) : Prop where
  ends : Ends cs
  plus : ¬ Plus cs
  bar : ¬ Bar cs

/-- A text goes on to `base` as some open URIs may go on, the innermost first. -/
inductive Tail (base : List Char) : Nat → List Char → Prop
  | close (k : Nat) : Tail base k base
  | skip {k : Nat} {cs : List Char} (h : Tail base k cs) : Tail base (k + 1) cs
  | format (s : Suffix) {k : Nat} {cs : List Char} (h : Tail base k cs) :
      Tail base (k + 1) (suffixText (some s) ++ cs)
  | literal (before : Blanks) (key : {s : String // IsToken isKey s}) (value : Encoded isPlain) {k : Nat}
      {cs : List Char} (h : Tail base (k + 1) cs) :
      Tail base (k + 1) (before.val ++ '+' :: (key.val.toList ++ '=' :: (value.raw ++ cs)))
  | nested (before : Blanks) (key : {s : String // IsToken isKey s}) (value : Compound) {k : Nat}
      {cs : List Char} (h : Tail base (k + 1) cs) :
      Tail base (k + 1) (before.val ++ '+' :: (key.val.toList ++ '@' :: (value.text ++ cs)))

namespace Tail

variable {base : List Char} {k : Nat} {cs : List Char}

theorem parameters (ps : Parameters) (h : Tail base (k + 1) cs) : Tail base (k + 1) (ps.text ++ cs) := by
  match ps with
  | .nil => exact h
  | .literal before key value rest =>
      have next := Tail.literal before key value (Tail.parameters rest h)
      simpa only [Parameters.text, List.append_assoc, List.cons_append] using next
  | .nested before key value rest =>
      have next := Tail.nested before key value (Tail.parameters rest h)
      simpa only [Parameters.text, List.append_assoc, List.cons_append] using next

theorem suffix (format : Option Suffix) (h : Tail base k cs) : Tail base (k + 1) (suffixText format ++ cs) := by
  cases format with
  | none => exact .skip h
  | some s => exact .format s h

/-- If nothing is open, nothing is left in front of the base. -/
theorem eq_base (h : Tail base 0 cs) : cs = base := by
  cases h
  rfl

theorem ends (hb : Ends base) (h : Tail base k cs) : Ends cs := by
  induction h with
  | close k => exact hb
  | skip h ih => exact ih
  | format s h ih => exact ends_suffix (some s) ih
  | literal before key value h ih => exact .blanks before (.cons rfl _)
  | nested before key value h ih => exact .blanks before (.cons rfl _)

/-- A parameter that comes next leaves as many URIs open as there were. -/
theorem of_plus (hb : ¬ Plus base) (h : Tail base k cs) {after : List Char} (plus : trimStart cs = '+' :: after) :
    ∃ (key : {s : String // IsToken isKey s}) (rest : List Char), Tail base k rest ∧
      ((∃ value : Encoded isPlain, after = key.val.toList ++ '=' :: (value.raw ++ rest)) ∨
        ∃ value : Compound, after = key.val.toList ++ '@' :: (value.text ++ rest)) := by
  induction h with
  | close k => exact absurd (plus_iff.mpr ⟨after, plus⟩) hb
  | skip h ih =>
      obtain ⟨key, rest, tail, written⟩ := ih plus
      exact ⟨key, rest, .skip tail, written⟩
  | format s h ih =>
      obtain ⟨tail, bar⟩ := bar_iff.mp (bar_suffix s _)
      rw [bar] at plus
      exact absurd (List.cons.inj plus).1 (by decide)
  | literal before key value h ih =>
      rw [trimStart_blanks_cons before rfl] at plus
      exact ⟨key, _, h, .inl ⟨value, (List.cons.inj plus).2.symm⟩⟩
  | nested before key value h ih =>
      rw [trimStart_blanks_cons before rfl] at plus
      exact ⟨key, _, h, .inr ⟨value, (List.cons.inj plus).2.symm⟩⟩

/-- A format that comes next closes one of the open URIs. -/
theorem of_bar (hb : ¬ Bar base) (h : Tail base (k + 1) cs) {after : List Char}
    (bar : trimStart cs = '|' :: after) :
    ∃ (s : Suffix) (rest : List Char), after = s.after.val ++ (s.word.val.toList ++ rest) ∧ Tail base k rest := by
  generalize hn : k + 1 = n at h
  induction h generalizing k with
  | close n => exact absurd (bar_iff.mpr ⟨after, bar⟩) hb
  | @skip n cs h ih =>
      obtain rfl : k = n := Nat.succ.inj hn
      cases k with
      | zero =>
          rw [h.eq_base] at bar
          exact absurd (bar_iff.mpr ⟨after, bar⟩) hb
      | succ k =>
          obtain ⟨s, rest, written, tail⟩ := ih bar rfl
          exact ⟨s, rest, written, .skip tail⟩
  | @format s n cs h ih =>
      obtain rfl : k = n := Nat.succ.inj hn
      rw [suffixText, List.append_assoc, List.cons_append, trimStart_blanks_cons s.before rfl,
        List.append_assoc] at bar
      exact ⟨s, cs, (List.cons.inj bar).2.symm, h⟩
  | literal before key value h ih =>
      rw [trimStart_blanks_cons before rfl] at bar
      exact absurd (List.cons.inj bar).1 (by decide)
  | nested before key value h ih =>
      rw [trimStart_blanks_cons before rfl] at bar
      exact absurd (List.cons.inj bar).1 (by decide)

/-- If neither a parameter nor a format comes next, the base does. -/
theorem of_neither (h : Tail base k cs) (plus : ¬ Plus cs) (bar : ¬ Bar cs) : cs = base := by
  induction h with
  | close k => rfl
  | skip h ih => exact ih plus bar
  | format s h ih => exact absurd (bar_suffix s _) bar
  | literal before key value h ih => exact absurd (plus_blanks before _) plus
  | nested before key value h ih => exact absurd (plus_blanks before _) plus

end Tail

/-! ## Tokens -/

/-- An encoded text is read where its class ends. -/
theorem decodeToken_append {p : Char → Bool} (e : Encoded p) {cs : List Char}
    (hc : ∀ c ∈ cs.head?, p c = false) (start : List Char) :
    token p (e.raw ++ cs) = (e.raw, cs) ∧ decodeToken e.raw start = .ok e.text := by
  refine ⟨token_append e.ofClass hc, ?_⟩
  rw [decodeToken, e.decodes]

/-- Behind a bar a format is read where its word ends. -/
theorem parseFormat_of_bar {cs after rest : List Char} {s : Suffix} (bar : trimStart cs = '|' :: after)
    (h : after = s.after.val ++ (s.word.val.toList ++ rest)) (hr : Ends rest) :
    parseFormat cs = .ok (some s.word.val, rest) := by
  obtain ⟨nonempty, word⟩ := s.word.property
  obtain ⟨c, ws, hl⟩ := List.exists_cons_of_ne_nil nonempty
  have blank : Text.isBlank c = false := (of_isWord (word c (hl ▸ List.mem_cons_self))).1
  have trimmed : trimStart after = s.word.val.toList ++ rest := by
    rw [h, trimStart_blanks, hl, List.cons_append, Text.trimStart_cons blank]
  have read := token_append word hr.isWord
  rw [parseFormat_eq bar, trimmed, read, if_neg nonempty, String.ofList_toList]

/-- A fragment that may be there is read where it ends. -/
theorem parseFragment_append (f : Option (Encoded isPlain)) {cs : List Char} (hc : Ends cs) :
    parseFragment (fragmentText f ++ cs) = .ok (f.map (·.text), cs) := by
  cases f with
  | none =>
      cases cs with
      | nil => rfl
      | cons c cs =>
          unfold parseFragment
          split
          next after heq =>
            have hash : c = '#' := (List.cons.inj heq).1
            have plain := hc c rfl
            rw [hash] at plain
            exact absurd plain (by decide)
          next => rfl
  | some f =>
      obtain ⟨read, decoded⟩ := decodeToken_append f hc (f.raw ++ cs)
      show (do
        let text ← decodeToken (token isPlain (f.raw ++ cs)).1 (f.raw ++ cs)
        pure (some text, (token isPlain (f.raw ++ cs)).2)) = _
      rw [read, decoded]
      rfl

/-! ## Trees -/

/-- A reader accepts every compound URI of less than some length, and goes on as the open URIs may. -/
def Accepts (m : Nat) (nested : List Char → Except Stop (Uri × List Char)) : Prop :=
  ∀ (d : Compound) (base : List Char) (k : Nat) (cs : List Char), Closing base → Tail base k cs →
    (d.text ++ cs).length < m →
    ∃ u rest, nested (d.text ++ cs) = .ok (u, rest) ∧ Tail base k rest ∧ rest.length ≤ (d.text ++ cs).length

section

variable {m : Nat} {nested : List Char → Except Stop (Uri × List Char)} {base : List Char}

/-- A parameter with a text for its value is read up to where that ends. -/
theorem parseParameter_literal (nested : List Char → Except Stop (Uri × List Char))
    (key : {s : String // IsToken isKey s}) (value : Encoded isPlain) {cs : List Char} (hc : Ends cs) :
    parseParameter nested (key.val.toList ++ '=' :: (value.raw ++ cs))
      = .ok ((key.val, literal value.text), cs) := by
  obtain ⟨nonempty, word⟩ := key.property
  have hkey : token isKey (key.val.toList ++ '=' :: (value.raw ++ cs))
      = (key.val.toList, '=' :: (value.raw ++ cs)) := by
    refine token_append word ?_
    rintro c ⟨⟩
    rfl
  obtain ⟨read, decoded⟩ := decodeToken_append value hc (value.raw ++ cs)
  unfold parseParameter
  rw [hkey]
  show (if key.val.toList = [] then Except.error _ else (do
    let text ← decodeToken (token isPlain (value.raw ++ cs)).1 (value.raw ++ cs)
    pure ((String.ofList key.val.toList, literal text), (token isPlain (value.raw ++ cs)).2))) = _
  rw [if_neg nonempty, read, decoded, String.ofList_toList]
  rfl

/-- All parameters that come next are read. -/
theorem parseParameters_of_tail (hn : Accepts m nested) (hb : Closing base) (done : List (String × Uri))
    {k n : Nat} {cs : List Char} (enough : cs.length ≤ n) (within : cs.length ≤ m)
    (h : Tail base (k + 1) cs) :
    ∃ ps rest, parseParameters nested done n cs = .ok (ps, rest) ∧ Tail base (k + 1) rest ∧ ¬ Plus rest := by
  induction n generalizing done cs with
  | zero =>
      obtain rfl := List.length_eq_zero_iff.mp (Nat.le_zero.mp enough)
      exact ⟨done, [], rfl, h, by simp [Plus, Text.trimStart_nil]⟩
  | succ n ih =>
      unfold parseParameters
      split
      next after plus =>
        have shorter : after.length < cs.length := by
          have total := Text.length_trimStart_le cs
          rw [plus, List.length_cons] at total
          omega
        obtain ⟨key, rest, tail, ⟨value, written⟩ | ⟨value, written⟩⟩ := h.of_plus hb.plus plus
        · have one : parseParameter nested after = .ok ((key.val, literal value.text), rest) :=
            written ▸ parseParameter_literal nested key value (tail.ends hb.ends)
          have less : rest.length < cs.length := by
            rw [written] at shorter
            simp only [List.length_append, List.length_cons] at shorter
            omega
          obtain ⟨ps, rest', onward, tail', stop⟩ := ih (Table.insert key.val (literal value.text) done)
            (by omega) (by omega) tail
          exact ⟨ps, rest', bind_eq_ok.mpr ⟨_, one, onward⟩, tail', stop⟩
        · have fits : (value.text ++ rest).length < cs.length := by
            rw [written] at shorter
            simp only [List.length_append, List.length_cons] at shorter ⊢
            omega
          obtain ⟨u, behind, read, tail', le⟩ := hn value base (k + 1) rest hb tail (by omega)
          have one : parseParameter nested after = .ok ((key.val, u), behind) :=
            written ▸ parseParameter_nested key.property read
          obtain ⟨ps, rest', onward, tail'', stop⟩ := ih (Table.insert key.val u done)
            (by omega) (by omega) tail'
          exact ⟨ps, rest', bind_eq_ok.mpr ⟨_, one, onward⟩, tail'', stop⟩
      next no =>
        refine ⟨done, cs, rfl, h, fun plus => ?_⟩
        obtain ⟨after, hafter⟩ := plus_iff.mp plus
        exact no after hafter

/-- A format that comes next is read, and closes one of the open URIs. Where none comes next, what is left has to
go on without that one. -/
theorem parseFormat_of_tail (hb : Closing base) {k : Nat} {cs : List Char} (h : Tail base (k + 1) cs)
    (none : ¬ Bar cs → Tail base k cs) : ∃ f rest, parseFormat cs = .ok (f, rest) ∧ Tail base k rest := by
  by_cases bar : Bar cs
  · obtain ⟨after, hafter⟩ := bar_iff.mp bar
    obtain ⟨s, rest, written, tail⟩ := h.of_bar hb.bar hafter
    exact ⟨_, rest, parseFormat_of_bar hafter written (tail.ends hb.ends), tail⟩
  · exact ⟨_, cs, parseFormat_of_not_bar bar, none bar⟩

/-- A reference is read, and what is open around it goes on. -/
theorem parseReference_of_tail (hn : Accepts m nested) (hb : Closing base) (r : Reference) {k : Nat}
    {cs ts : List Char} (ht : trimStart ts = r.text ++ cs) (within : (r.text ++ cs).length ≤ m)
    (h : Tail base k cs) : ∃ u rest, parseReference nested ts = .ok (u, rest) ∧ Tail base k rest := by
  cases r with
  | byAlias name nonempty format =>
      rw [Reference.text, List.cons_append, List.append_assoc] at ht
      have open' := h.suffix format
      obtain ⟨read, decoded⟩ := decodeToken_append name (open'.ends hb.ends).isName
        (name.raw ++ (suffixText format ++ cs))
      have unformatted : ¬ Bar (suffixText format ++ cs) → Tail base k (suffixText format ++ cs) := by
        intro bar
        cases format with
        | none => exact h
        | some s => exact absurd (bar_suffix s cs) bar
      obtain ⟨f, rest, formatted, tail⟩ := parseFormat_of_tail hb open' unformatted
      refine ⟨mk aliasScheme name.text none [] f, rest, ?_, tail⟩
      unfold parseReference
      rw [ht]
      simp only [read, if_neg nonempty, decoded]
      exact bind_eq_ok.mpr ⟨_, rfl, bind_eq_ok.mpr ⟨_, formatted, rfl⟩⟩
  | uri scheme name fragment parameters format =>
      have tail := (h.suffix format).parameters parameters
      have ends := tail.ends hb.ends
      have written : trimStart ts = scheme.val.toList ++ ':' :: (name.raw ++ (fragmentText fragment
          ++ (parameters.text ++ (suffixText format ++ cs)))) := by
        rw [ht]
        simp only [Reference.text, List.append_assoc, List.cons_append]
      have short : (parameters.text ++ (suffixText format ++ cs)).length ≤ m := by
        rw [← ht, written] at within
        simp only [List.length_append, List.length_cons] at within ⊢
        omega
      obtain ⟨ps, rest, read, tail', stop⟩ := parseParameters_of_tail hn hb [] (Nat.le_refl _) short tail
      obtain ⟨f, rest', formatted, tail''⟩ := parseFormat_of_tail hb tail' fun bar =>
        tail'.of_neither stop bar ▸ .close k
      have uri := parseUri_append nested scheme.property name.ofClass name.decodes
        (isName_head_fragment fragment ends)
      rw [parseFragment_append fragment ends] at uri
      refine ⟨mk scheme.val name.text (fragment.map (·.text)) ps f, rest', ?_, tail''⟩
      obtain ⟨c, tail, hl, hc, -⟩ := scheme.property
      have noTilde : ∀ after, trimStart ts ≠ '~' :: after := by
        intro after tilde
        rw [written, hl, List.cons_append] at tilde
        exact absurd ((List.cons.inj tilde).1 ▸ hc) (by decide)
      unfold parseReference
      split
      next after tilde => exact absurd tilde (noTilde after)
      next =>
        rw [written, uri]
        exact bind_eq_ok.mpr ⟨_, rfl, bind_eq_ok.mpr ⟨_, read, bind_eq_ok.mpr ⟨_, formatted, rfl⟩⟩⟩

end

/-- What closes a bracket, with blanks in front of it. -/
theorem closing_bracket (b : Blanks) (cs : List Char) : Closing (b.val ++ ']' :: cs) where
  ends := .blanks b (.cons rfl cs)
  plus := by simp [Plus, trimStart_blanks_cons b (c := ']') rfl]
  bar := by simp [Bar, trimStart_blanks_cons b (c := ']') rfl]

/-- Compound URIs are accepted, however deep they nest. What is nested is shorter, so there are steps enough. -/
theorem parseCompound_accepts (n : Nat) : Accepts n (parseCompound n) := by
  induction n with
  | zero => exact fun d base k cs hb h fits => absurd fits (Nat.not_lt_zero _)
  | succ n ih =>
      intro d base k cs hb h fits
      obtain ⟨u, rest, read, tail⟩ : ∃ u rest, parseCompound (n + 1) (d.text ++ cs) = .ok (u, rest)
          ∧ Tail base k rest := by
        cases d with
        | bare before r =>
            have trimmed : trimStart ((Compound.bare before r).text ++ cs) = r.text ++ cs := by
              rw [Compound.text, List.append_assoc, trimStart_blanks, r.trimStart_text]
            have short : (r.text ++ cs).length ≤ n := by
              rw [Compound.text, List.append_assoc, List.length_append] at fits
              omega
            obtain ⟨u, rest, read, onward⟩ := parseReference_of_tail ih hb r (r.trimStart_text cs) short h
            refine ⟨u, rest, ?_, onward⟩
            unfold parseCompound
            rw [trimmed]
            split
            next inner opened =>
              obtain ⟨c, tail, ht, -, bracket⟩ := r.head_text
              rw [ht, List.cons_append] at opened
              exact absurd (List.cons.inj opened).1 bracket
            next => exact read
        | bracketed before inner r closing =>
            have written : (Compound.bracketed before inner r closing).text ++ cs
                = before.val ++ '[' :: (inner.val ++ (r.text ++ (closing.val ++ ']' :: cs))) := by
              simp only [Compound.text, List.append_assoc, List.cons_append, List.nil_append]
            have trimmed : trimStart (inner.val ++ (r.text ++ (closing.val ++ ']' :: cs)))
                = r.text ++ (closing.val ++ ']' :: cs) := by
              rw [trimStart_blanks, r.trimStart_text]
            have short : (r.text ++ (closing.val ++ ']' :: cs)).length ≤ n := by
              rw [written] at fits
              simp only [List.length_append, List.length_cons] at fits ⊢
              omega
            obtain ⟨u, rest, read, onward⟩ := parseReference_of_tail ih (closing_bracket closing cs) r trimmed short
              (.close 0)
            obtain rfl := onward.eq_base
            refine ⟨u, cs, ?_, h⟩
            unfold parseCompound
            rw [written, trimStart_blanks_cons before rfl]
            refine bind_eq_ok.mpr ⟨_, read, ?_⟩
            show close u (closing.val ++ ']' :: cs) = _
            rw [close, trimStart_blanks_cons closing rfl]
            rfl
      obtain ⟨e, he⟩ := reads_of_parseCompound _ _ _ _ read
      refine ⟨u, rest, read, tail, ?_⟩
      rw [he.text, List.length_append]
      omega

/-- What has a derivation is parsed. -/
theorem parse_of_derived (d : Derivation) : ∃ u, parse (String.ofList d.text) = .ok u := by
  have closed : Closing d.ending.val := by
    refine ⟨?_, ?_, ?_⟩
    · have nothing : Ends (d.ending.val ++ []) := .blanks d.ending fun c hc => absurd hc (by simp)
      rwa [List.append_nil] at nothing
    · simp [Plus, trimStart_ending]
    · simp [Bar, trimStart_ending]
  obtain ⟨u, rest, read, tail, -⟩ := parseCompound_accepts (d.text.length + 1) d.compound d.ending.val 0 _ closed
    (.close 0) (Nat.lt_succ_self _)
  obtain rfl := tail.eq_base
  have text : parseText d.text = .ok u := by
    refine bind_eq_ok.mpr ⟨_, read, ?_⟩
    show ending u d.ending.val = _
    rw [ending, trimStart_ending]
  refine ⟨u, ?_⟩
  rw [parse, String.toList_ofList, text]

/-! ## The grammar -/

/-- The parser accepts its grammar. A text is parsed just if it has a derivation. What it is parsed as is said by its
greedy derivation, in which a nested URI without brackets takes every parameter that follows it and then a format if
one comes next; and there is no other greedy derivation of it. A key that a URI repeats, at whatever depth, has
its last value. -/
theorem parse_derives :
    (∀ text, (∃ u, parse text = .ok u) ↔ ∃ d : Derivation, d.text = text.toList) ∧
      (∀ text u, parse text = .ok u ↔ ∃ d : Derivation, d.text = text.toList ∧ d.Greedy ∧ d.value = u) ∧
      (∀ d e : Derivation, d.text = e.text → d.Greedy → e.Greedy → d = e) ∧
      ∀ scheme name fragment (parameters : Parameters) format key,
        (Reference.uri scheme name fragment parameters format).value.parameter? key
          = parameters.pairs.reverse.lookup key := by
  have parsed : ∀ text (d : Derivation), d.text = text.toList → ∃ u, parse text = .ok u := by
    intro text d hd
    obtain ⟨u, hu⟩ := parse_of_derived d
    rw [hd, String.ofList_toList] at hu
    exact ⟨u, hu⟩
  refine ⟨fun text => ⟨fun ⟨u, h⟩ => ?_, fun ⟨d, hd⟩ => parsed text d hd⟩, fun text u => ⟨derived_of_parse, ?_⟩,
    fun d e => Derivation.unique, parameter?_value⟩
  · obtain ⟨d, hd, -, -⟩ := derived_of_parse h
    exact ⟨d, hd⟩
  · rintro ⟨d, hd, greedy, rfl⟩
    obtain ⟨u, hu⟩ := parsed text d hd
    obtain ⟨e, he, greedy', rfl⟩ := derived_of_parse hu
    obtain rfl := Derivation.unique (hd.trans he.symm) greedy greedy'
    exact hu

/-- In a text with an alias and a nested URI without brackets, each followed by a parameter, only the URI takes it. -/
theorem parse_derives_row :
    ∃ d : Derivation, d.text = "make:Row+item@~cell|short +next@named:cell +width=3 ".toList ∧ d.Greedy ∧
      d.value.canonical = "make:Row+item@[a:cell|short]+next@[named:cell+width@[s:3]]" ∧
      ∀ e : Derivation, e.text = d.text → e.Greedy → e = d := by
  have reads : (match parse "make:Row+item@~cell|short +next@named:cell +width=3 " with
      | .ok u => decide (u.canonical = "make:Row+item@[a:cell|short]+next@[named:cell+width@[s:3]]")
      | .error _ => false) = true := by decide +kernel
  obtain ⟨-, said, unique, -⟩ := parse_derives
  split at reads
  next u h =>
    obtain ⟨d, text, greedy, rfl⟩ := (said _ u).mp h
    exact ⟨d, text, greedy, of_decide_eq_true reads, fun e he ge => unique e d he ge greedy⟩
  next => exact absurd reads (by simp)

end ObjectGraph.Uri.Grammar
