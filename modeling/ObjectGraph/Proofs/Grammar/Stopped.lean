import ObjectGraph.Proofs.Grammar.Accepted

/-!
# `Proofs.Grammar.Stopped` — where a text stops being a compound URI

A text that is no compound URI is cut in two at the place where reading stopped. What is in front of that place is
the beginning of a compound URI: what has been read so far has a derivation up to there, what is missing of the
production at hand can be supplied, and so can the brackets that are open. The derivation need not be greedy, since
every text that has one is parsed.

The place is one between two characters. So the text can be cut there by octets, both to show what comes next and to
count the columns up to the caret.

Contents:
* `Derived`, `Begins` with its rules; `shortest`, the shortest reference;
* `begins_of_parseFormat`, `begins_of_parseParameters`, `begins_of_parseReference`, `begins_of_parseCompound`,
  `begins_of_parseText`: what is in front of a stop, production by production;
* `parse_stops`.
-/

namespace ObjectGraph.Uri.Grammar

open Text (isBlank trimStart)

/-! ## Beginnings -/

/-- A text has a derivation, of which it is what is written. -/
abbrev Derived {α : Type} (text : α → List Char) (xs : List Char) : Prop := ∃ a, text a = xs

/-- What is in front of a stop is the beginning of a text of some kind. -/
def Begins (kind : List Char → Prop) (cs : List Char) (stop : Stop) : Prop :=
  ∃ read more, cs = read ++ stop.rest ∧ kind (read ++ more)

section

variable {kind outer : List Char → Prop} {cs rest : List Char} {stop : Stop}

/-- A text of the kind begins with all that has been read. -/
theorem Begins.behind {e : Expectation} (read more : List Char) (h : kind (read ++ more)) :
    Begins kind (read ++ rest) ⟨e, rest⟩ := ⟨read, more, rfl, h⟩

/-- Where nothing has been read, any text of the kind may follow. -/
theorem Begins.here {e : Expectation} (more : List Char) (h : kind more) : Begins kind cs ⟨e, cs⟩ :=
  .behind [] more h

/-- What begins a text of some kind begins, inside of others, one of another kind. -/
theorem Begins.inside (before after : List Char) (h : Begins kind cs stop)
    (wrap : ∀ xs, kind xs → outer (before ++ (xs ++ after))) : Begins outer (before ++ cs) stop := by
  obtain ⟨read, more, written, begun⟩ := h
  refine ⟨before ++ read, more ++ after, ?_, ?_⟩
  · rw [written, List.append_assoc]
  · have wrapped := wrap _ begun
    simpa only [List.append_assoc] using wrapped

end

/-- A reader fails if what it reads first does, or what it reads then. -/
theorem bind_eq_error {α β : Type} {x : Except Stop α} {f : α → Except Stop β} {stop : Stop} :
    (x >>= f) = .error stop ↔ x = .error stop ∨ ∃ a, x = .ok a ∧ f a = .error stop := by
  cases x <;> simp [bind, Except.bind]

theorem pure_ne_error {α : Type} {a : α} {stop : Stop} : (pure a : Except Stop α) ≠ .error stop := by
  simp [pure, Except.pure]

/-! ## What can be supplied -/

/-- No blanks. -/
def noBlanks : Blanks := ⟨[], by simp⟩

/-- No text. -/
def noText (p : Char → Bool) : Encoded p := ⟨[], "", by simp, by decide +kernel⟩

/-- A URI of a scheme and nothing else. -/
def bareUri (scheme : {s : String // IsScheme s}) : Reference := .uri scheme (noText isName) none .nil none

/-- The shortest reference. -/
def shortest : Reference := bareUri ⟨"s", 's', [], rfl, rfl, by simp⟩

theorem text_bareUri (scheme : {s : String // IsScheme s}) : (bareUri scheme).text = scheme.val.toList ++ [':'] := by
  simp only [bareUri, Reference.text, noText, fragmentText, Parameters.text, suffixText, List.append_nil]

/-- A parameter, behind its plus sign. -/
def IsParameter (xs : List Char) : Prop :=
  ∃ key : {s : String // IsToken isKey s}, (∃ value : Encoded isPlain, key.val.toList ++ '=' :: value.raw = xs) ∨
    ∃ value : Compound, key.val.toList ++ '@' :: value.text = xs

/-- A parameter in front of a row of others. -/
theorem IsParameter.followed {xs : List Char} (h : IsParameter xs) (before : Blanks) (rest : Parameters) :
    ∃ ps : Parameters, ps.text = before.val ++ '+' :: (xs ++ rest.text) := by
  obtain ⟨key, ⟨value, rfl⟩ | ⟨value, rfl⟩⟩ := h
  · exact ⟨.literal before key value rest, by simp only [Parameters.text, List.append_assoc, List.cons_append]⟩
  · exact ⟨.nested before key value rest, by simp only [Parameters.text, List.append_assoc, List.cons_append]⟩

/-! ## Tokens -/

/-- What cannot be decoded is refused where it starts. -/
theorem stop_of_decodeToken {raw start : List Char} {stop : Stop} (h : decodeToken raw start = .error stop) :
    stop = ⟨.encoding, start⟩ := by
  unfold decodeToken at h
  split at h
  · exact absurd h (by simp)
  · exact (Except.error.inj h).symm

/-- What is in front of a bad format goes on to a good one. -/
theorem begins_of_parseFormat {cs : List Char} {stop : Stop} (h : parseFormat cs = .error stop) :
    Begins (Derived fun s : Suffix => suffixText (some s)) cs stop := by
  by_cases bar : Bar cs
  · obtain ⟨after, bar⟩ := bar_iff.mp bar
    rw [parseFormat_eq bar] at h
    split at h
    next =>
      obtain rfl := Except.error.inj h
      obtain ⟨before, hbefore⟩ := exists_blanks cs
      rw [bar, List.append_cons] at hbefore
      rw [hbefore]
      refine .behind (before.val ++ ['|']) ['w'] ⟨⟨before, noBlanks, "w", by simp [IsToken]; decide⟩, ?_⟩
      simp [suffixText, noBlanks]
    next => exact absurd h (by simp)
  · rw [parseFormat_of_not_bar bar] at h
    exact absurd h (by simp)

/-- What is in front of a bad fragment goes on to a good one. -/
theorem begins_of_parseFragment {cs : List Char} {stop : Stop} (h : parseFragment cs = .error stop) :
    Begins (Derived fun f : Encoded isPlain => fragmentText (some f)) cs stop := by
  unfold parseFragment at h
  split at h
  next after =>
    rcases bind_eq_error.mp h with h | ⟨text, -, h⟩
    · obtain rfl := stop_of_decodeToken h
      exact .behind ['#'] [] ⟨noText isPlain, rfl⟩
    · exact absurd h pure_ne_error
  next => exact absurd h (by simp)

/-! ## Trees -/

/-- A reader of compound URIs reads along derivations, and stops where one goes on. -/
structure Follows (nested : List Char → Except Stop (Uri × List Char)) : Prop where
  reads : ∀ cs u rest, nested cs = .ok (u, rest) → ∃ d : Compound, d.Reads cs u rest
  begins : ∀ cs stop, nested cs = .error stop → Begins (Derived Compound.text) cs stop

section

variable {nested : List Char → Except Stop (Uri × List Char)}

/-- What is in front of a bad parameter, behind its plus sign, goes on to a good one. -/
theorem begins_of_parseParameter (hn : Follows nested) {cs : List Char} {stop : Stop}
    (h : parseParameter nested cs = .error stop) : Begins IsParameter cs stop := by
  unfold parseParameter at h
  split at h
  next key behind hkey =>
    split at h
    next =>
      obtain rfl := Except.error.inj h
      exact .here "k=".toList ⟨⟨"k", by simp [IsToken]; decide⟩, .inl ⟨noText isPlain, rfl⟩⟩
    next nonempty =>
      obtain ⟨tokened, whole⟩ := token_eq hkey nonempty
      have written : (String.ofList key).toList = key := String.toList_ofList
      split at h
      next after =>
        rcases bind_eq_error.mp h with h | ⟨r, -, h⟩
        · have inner := hn.begins _ _ h
          have begun : Begins IsParameter ((key ++ ['@']) ++ after) stop :=
            inner.inside _ [] (by
              rintro xs ⟨d, hd⟩
              exact ⟨⟨_, tokened⟩, .inr ⟨d, by simp [written, hd]⟩⟩)
          rw [← whole]
          simpa only [List.append_assoc, List.singleton_append] using begun
        · exact absurd h pure_ne_error
      next after =>
        rcases bind_eq_error.mp h with h | ⟨text, -, h⟩
        · obtain rfl := stop_of_decodeToken h
          rw [← whole, List.append_cons]
          exact .behind _ [] ⟨⟨_, tokened⟩, .inl ⟨noText isPlain, by simp [written, noText]⟩⟩
        · exact absurd h pure_ne_error
      next =>
        obtain rfl := Except.error.inj h
        rw [← whole]
        exact .behind key ['='] ⟨⟨_, tokened⟩, .inl ⟨noText isPlain, by simp [written, noText]⟩⟩

/-- What is in front of a bad parameter goes on to a row of good ones. -/
theorem begins_of_parseParameters (hn : Follows nested) {done : List (String × Uri)} {n : Nat} {cs : List Char}
    {stop : Stop} (h : parseParameters nested done n cs = .error stop) :
    Begins (Derived Parameters.text) cs stop := by
  induction n generalizing done cs with
  | zero => exact absurd h (by simp [parseParameters])
  | succ n ih =>
      unfold parseParameters at h
      split at h
      next after plus =>
        obtain ⟨before, hbefore⟩ := exists_blanks cs
        rw [plus, List.append_cons] at hbefore
        rw [hbefore]
        rcases bind_eq_error.mp h with bad | ⟨⟨⟨key, u⟩, behind⟩, hp, later⟩
        · have inner := begins_of_parseParameter hn bad
          refine inner.inside _ [] fun xs hxs => ?_
          obtain ⟨ps, hps⟩ := hxs.followed before .nil
          exact ⟨ps, by simpa [Parameters.text] using hps⟩
        · -- the parameter that has been read stands in front of the others
          obtain ⟨xs, parameter, rfl⟩ : ∃ xs, IsParameter xs ∧ after = xs ++ behind := by
            obtain ⟨k, rfl, ⟨e, -, written⟩ | ⟨d, tail, written, hd⟩⟩ := reads_of_parseParameter hn.reads hp
            · exact ⟨_, ⟨k, .inl ⟨e, rfl⟩⟩, by rw [written, List.append_assoc, List.cons_append]⟩
            · exact ⟨_, ⟨k, .inr ⟨d, rfl⟩⟩, by rw [written, hd.text, List.append_assoc, List.cons_append]⟩
          have inner := ih later
          rw [← List.append_assoc]
          refine inner.inside _ [] ?_
          rintro ys ⟨rest, hrest⟩
          obtain ⟨ps, hps⟩ := parameter.followed before rest
          exact ⟨ps, by simp [hps, hrest]⟩
      next => exact absurd h (by simp)

/-- What is in front of the place where a URI stops goes on to a URI. -/
theorem begins_of_parseUri (hn : Follows nested) {cs : List Char} {stop : Stop}
    (h : parseUri nested cs = .error stop) : Begins (Derived Reference.text) cs stop := by
  unfold parseUri at h
  split at h
  next scheme behind hscheme =>
    split at h
    next =>
      obtain rfl := Except.error.inj h
      exact .here _ ⟨shortest, rfl⟩
    next nonempty =>
      obtain ⟨isScheme, whole⟩ := schemeToken_eq hscheme nonempty
      have written : (String.ofList scheme).toList = scheme := String.toList_ofList
      rw [← whole]
      split at h
      next after =>
        rw [List.append_cons]
        rcases bind_eq_error.mp h with h | ⟨name, decoded, h⟩
        · obtain rfl := stop_of_decodeToken h
          exact .behind _ [] ⟨bareUri ⟨_, isScheme⟩, by simp [text_bareUri, written]⟩
        · obtain ⟨e, -, -, named⟩ := exists_encoded decoded
          rw [named, ← List.append_assoc]
          rcases bind_eq_error.mp h with h | ⟨⟨fragment, rest₁⟩, hf, h⟩
          · refine (begins_of_parseFragment h).inside _ [] ?_
            rintro xs ⟨f, hf⟩
            exact ⟨.uri ⟨_, isScheme⟩ e (some f) .nil none,
              by simp [Reference.text, Parameters.text, suffixText, written, hf]⟩
          · obtain ⟨f, fragmented, -⟩ := reads_of_parseFragment hf
            rw [show after.dropWhile isName = fragmentText f ++ rest₁ from fragmented, ← List.append_assoc]
            rcases bind_eq_error.mp h with h | ⟨⟨parameters, rest₂⟩, hp, h⟩
            · refine (begins_of_parseParameters hn h).inside _ [] ?_
              rintro xs ⟨ps, hps⟩
              exact ⟨.uri ⟨_, isScheme⟩ e f ps none, by simp [Reference.text, suffixText, written, hps]⟩
            · obtain ⟨ps, rowed, -, -, -⟩ := reads_of_parseParameters hn.reads (Nat.le_refl _) hp
              rw [show rest₁ = ps.text ++ rest₂ from rowed, ← List.append_assoc]
              rcases bind_eq_error.mp h with h | ⟨⟨format, rest₃⟩, -, h⟩
              · refine (begins_of_parseFormat h).inside _ [] ?_
                rintro xs ⟨s, hs⟩
                exact ⟨.uri ⟨_, isScheme⟩ e f ps (some s), by simp [Reference.text, written, hs]⟩
              · exact absurd h pure_ne_error
      next =>
        obtain rfl := Except.error.inj h
        exact .behind scheme [':'] ⟨bareUri ⟨_, isScheme⟩, by simp [text_bareUri, written]⟩

/-- What is in front of the place where a reference stops, behind blanks, goes on to a reference. -/
theorem begins_of_parseReference (hn : Follows nested) {cs : List Char} {stop : Stop}
    (h : parseReference nested cs = .error stop) :
    Begins (Derived Reference.text) (trimStart cs) stop := by
  unfold parseReference at h
  split at h
  next after tilde =>
    rw [tilde]
    -- whatever is missing behind the tilde, an alias of one letter may stand there
    have alias' : Begins (Derived Reference.text) ('~' :: after) ⟨stop.expected, after⟩ :=
      .behind ['~'] ['x'] ⟨.byAlias ⟨['x'], "x", by simp; decide +kernel, by decide +kernel⟩ (by simp) none, by
        simp [Reference.text, suffixText]⟩
    split at h
    next raw behind hraw =>
      split at h
      next =>
        obtain rfl : (⟨.aliasName, after⟩ : Stop) = stop := Except.error.inj h
        exact alias'
      next nonempty =>
        rcases bind_eq_error.mp h with bad | ⟨name, decoded, later⟩
        · obtain rfl := stop_of_decodeToken bad
          exact alias'
        · obtain ⟨rfl, rfl⟩ : after.takeWhile isName = raw ∧ after.dropWhile isName = behind := Prod.mk.inj hraw
          obtain ⟨e, hraw, -, named⟩ := exists_encoded decoded
          rcases bind_eq_error.mp later with bad | ⟨⟨format, rest⟩, -, done⟩
          · rw [named, ← List.cons_append]
            refine (begins_of_parseFormat bad).inside _ [] ?_
            rintro xs ⟨s, hs⟩
            exact ⟨.byAlias e (hraw ▸ nonempty) (some s), by simp [Reference.text, hs]⟩
          · exact absurd done pure_ne_error
  next => exact begins_of_parseUri hn h

end

/-- What is in front of the place where a compound URI stops goes on to a compound URI. -/
theorem begins_of_parseCompound (n : Nat) (cs : List Char) (stop : Stop) (h : parseCompound n cs = .error stop) :
    Begins (Derived Compound.text) cs stop := by
  induction n generalizing cs stop with
  | zero =>
      obtain rfl := Except.error.inj h
      exact .here _ ⟨.bare noBlanks shortest, rfl⟩
  | succ n ih =>
      have follows : Follows (parseCompound n) := ⟨reads_of_parseCompound n, ih⟩
      obtain ⟨before, hbefore⟩ := exists_blanks cs
      rw [hbefore]
      unfold parseCompound at h
      split at h
      next inner bracket =>
        obtain ⟨inside, hinside⟩ := exists_blanks inner
        rw [bracket, hinside]
        rcases bind_eq_error.mp h with h | ⟨⟨u, behind⟩, hr, h⟩
        · -- the bracket is still to be closed
          have begun : Begins (Derived Compound.text)
              ((before.val ++ '[' :: inside.val) ++ trimStart inner) stop :=
            (begins_of_parseReference follows h).inside _ [']'] (by
              rintro xs ⟨r, hr⟩
              exact ⟨.bracketed before inside r noBlanks, by simp [Compound.text, noBlanks, hr]⟩)
          simpa only [List.append_assoc, List.cons_append] using begun
        · obtain ⟨r, hr⟩ := reads_of_parseReference follows.reads hr
          change close u behind = _ at h
          unfold close at h
          split at h
          next => exact absurd h (by simp)
          next =>
            obtain rfl := Except.error.inj h
            obtain ⟨closing, hclosing⟩ := exists_blanks behind
            rw [hr.text]
            have begun : Begins (Derived Compound.text)
                ((before.val ++ '[' :: (inside.val ++ (r.text ++ closing.val))) ++ trimStart behind)
                ⟨.closing, trimStart behind⟩ :=
              .behind _ [']'] ⟨.bracketed before inside r closing, by simp [Compound.text]⟩
            simpa only [List.append_assoc, List.cons_append, ← hclosing] using begun
      next =>
        have begun := begins_of_parseReference follows h
        rw [Text.trimStart_trimStart] at begun
        refine begun.inside before.val [] ?_
        rintro xs ⟨r, hr⟩
        exact ⟨.bare before r, by simp [Compound.text, hr]⟩

/-- What is in front of the place where a text stops goes on to a text that is derived. -/
theorem begins_of_parseText {cs : List Char} {stop : Stop} (h : parseText cs = .error stop) :
    Begins (Derived Derivation.text) cs stop := by
  rcases bind_eq_error.mp h with h | ⟨⟨u, rest⟩, hu, h⟩
  · refine (begins_of_parseCompound _ _ _ h).inside [] [] ?_
    rintro xs ⟨d, hd⟩
    exact ⟨⟨d, noBlanks⟩, by simp [Derivation.text, noBlanks, hd]⟩
  · obtain ⟨d, hd⟩ := reads_of_parseCompound _ _ _ _ hu
    change ending u rest = _ at h
    unfold ending at h
    split at h
    next => exact absurd h (by simp)
    next =>
      obtain rfl := Except.error.inj h
      obtain ⟨blanks, hblanks⟩ := exists_blanks rest
      have begun : Begins (Derived Derivation.text) ((d.text ++ blanks.val) ++ trimStart rest)
          ⟨.ending, trimStart rest⟩ := .behind _ [] ⟨⟨d, blanks⟩, by simp [Derivation.text]⟩
      rw [hd.text]
      simpa only [List.append_assoc, ← hblanks] using begun

/-! ## Syntax errors -/

/-- The lines of an error that is shown: what is wrong, the text, and the caret behind as many blanks as there are
characters in front of the place. -/
theorem lines_pretty (e : SyntaxError) :
    Text.splitText '\n' e.pretty
      = ("URI syntax error: " ++ e.expected.message) :: Text.splitText '\n' ("  " ++ e.input)
        ++ ["  " ++ String.ofList (List.replicate e.before.length ' ') ++ "^"] := by
  have first : '\n' ∉ ("URI syntax error: " ++ e.expected.message).toList := by
    cases e.expected <;> decide +kernel
  have last : '\n' ∉ ("  " ++ String.ofList (List.replicate e.before.length ' ') ++ "^").toList := by
    simp [String.toList_append]
  have newline : "\n".toList = ['\n'] := by decide +kernel
  have indented : "\n  " = "\n" ++ "  " := by decide +kernel
  have written : e.pretty.toList = ("URI syntax error: " ++ e.expected.message).toList
      ++ '\n' :: (("  " ++ e.input).toList
        ++ '\n' :: ("  " ++ String.ofList (List.replicate e.before.length ' ') ++ "^").toList) := by
    unfold SyntaxError.pretty
    simp only [indented, newline, String.toList_append, List.append_assoc, List.cons_append, List.nil_append]
  simp only [Text.splitText, written, Text.split_append first, Text.split_append_sep, Text.split_of_not_mem last,
    List.map_cons, List.map_append, List.map_nil, String.ofList_toList, List.cons_append]

/-- A text that is refused is refused at a place in it. It is cut there into what is in front, which is as long as the
offset says, in octets, and what comes next. So the offset is the end of a character, or the beginning of the text.
The error shows up to 24 characters of what comes next, and shows the caret in the last line, behind as many columns
as there are characters in front. And what is in front goes on to a text that is accepted. -/
theorem parse_stops {text : String} {e : SyntaxError} (h : parse text = .error e) :
    ∃ before after : String, text = before ++ after ∧ e.offset = before.utf8ByteSize ∧
      e.offset ≤ text.utf8ByteSize ∧ String.Pos.Raw.IsValid text ⟨e.offset⟩ ∧
      e.near.toList = after.toList.take 24 ∧
      Text.splitText '\n' e.pretty
        = ("URI syntax error: " ++ e.expected.message) :: Text.splitText '\n' ("  " ++ text)
          ++ ["  " ++ String.ofList (List.replicate before.length ' ') ++ "^"] ∧
      ∃ more u, parse (before ++ more) = .ok u := by
  unfold parse at h
  split at h
  next => exact absurd h (by simp)
  next stop hstop =>
    obtain ⟨read, more, written, d, hd⟩ := begins_of_parseText hstop
    obtain rfl := Except.error.inj h
    have before : (stop.locate text.toList).before = String.ofList read := by
      simp [Stop.locate, written]
    have whole : text = String.ofList read ++ String.ofList stop.rest := by
      rw [← String.ofList_append, ← written, String.ofList_toList]
    have input : (stop.locate text.toList).input = text := by
      rw [SyntaxError.input, before, whole]
      rfl
    have offset : (stop.locate text.toList).offset = (String.ofList read).utf8ByteSize := by
      rw [SyntaxError.offset, before]
    refine ⟨String.ofList read, String.ofList stop.rest, whole, offset, ?_, ?_, ?_, ?_, String.ofList more, ?_⟩
    · have octets := congrArg String.utf8ByteSize whole
      rw [String.utf8ByteSize_append] at octets
      omega
    · rw [offset]
      exact String.Pos.Raw.isValid_iff_exists_append.mpr ⟨_, _, whole, rfl⟩
    · simp [SyntaxError.near, Stop.locate]
    · rw [lines_pretty, input, before]
    · obtain ⟨u, parsed⟩ := parse_of_derived d
      rw [hd, String.ofList_append] at parsed
      exact ⟨u, parsed⟩

/-- Two brackets are open where this text stops, behind two characters of two octets each. -/
theorem parse_stops_nested :
    ∃ e, parse "[s:é+k@[t:ü x" = .error e ∧ e.offset = 14 ∧
      ∃ before after : String, "[s:é+k@[t:ü x" = before ++ after ∧ e.offset = before.utf8ByteSize ∧
        e.offset ≤ "[s:é+k@[t:ü x".utf8ByteSize ∧ String.Pos.Raw.IsValid "[s:é+k@[t:ü x" ⟨e.offset⟩ ∧
        e.near.toList = after.toList.take 24 ∧
        Text.splitText '\n' e.pretty
          = ("URI syntax error: " ++ e.expected.message) :: Text.splitText '\n' ("  " ++ "[s:é+k@[t:ü x")
            ++ ["  " ++ String.ofList (List.replicate before.length ' ') ++ "^"] ∧
        ∃ more u, parse (before ++ more) = .ok u := by
  have stops : (match parse "[s:é+k@[t:ü x" with
      | .ok _ => false
      | .error e => decide (e.offset = 14)) = true := by decide +kernel
  split at stops
  next => exact absurd stops (by simp)
  next e h => exact ⟨e, h, of_decide_eq_true stops, parse_stops h⟩

end ObjectGraph.Uri.Grammar
