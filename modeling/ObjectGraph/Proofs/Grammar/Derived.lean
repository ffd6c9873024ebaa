import ObjectGraph.Proofs.Grammar.Derivation

/-!
# `Proofs.Grammar.Derived` — what is parsed is derived, greedily

What a production reads, it reads along a derivation: the text is that of a tree and what is left, the result is
what the tree says, and the tree is greedy. Besides, nothing is left that the tree could have taken. That is what
makes the tree around it greedy, since the production that reads on finds no parameter and no format there.

Contents:
* `exists_encoded`, and what `parseFormat` and `parseFragment` read;
* `Reference.Reads`, `Compound.Reads`;
* `reads_of_parseParameters`, `reads_of_parseReference`, `reads_of_parseCompound`;
* `derived_of_parse`.
-/

namespace ObjectGraph.Uri.Grammar

open Text (trimStart)
open Text.Percent (decode?)

/-! ## Tokens -/

theorem token_text (p : Char → Bool) (cs : List Char) : (token p cs).1 ++ (token p cs).2 = cs :=
  List.takeWhile_append_dropWhile

theorem schemeToken_text (cs : List Char) : (schemeToken cs).1 ++ (schemeToken cs).2 = cs := by
  cases cs with
  | nil => rfl
  | cons c cs =>
      rw [schemeToken]
      split
      next => exact congrArg (c :: ·) List.takeWhile_append_dropWhile
      next => rfl

/-- What is read as a token, if it is not empty, is one. -/
theorem token_eq {p : Char → Bool} {cs key behind : List Char} (h : token p cs = (key, behind))
    (nonempty : key ≠ []) : IsToken p (String.ofList key) ∧ key ++ behind = cs := by
  have whole := token_text p cs
  obtain rfl : (token p cs).1 = key := by rw [h]
  obtain rfl : (token p cs).2 = behind := by rw [h]
  exact ⟨isToken_of_token nonempty, whole⟩

theorem schemeToken_eq {cs scheme behind : List Char} (h : schemeToken cs = (scheme, behind))
    (nonempty : scheme ≠ []) : IsScheme (String.ofList scheme) ∧ scheme ++ behind = cs := by
  have whole := schemeToken_text cs
  obtain rfl : (schemeToken cs).1 = scheme := by rw [h]
  obtain rfl : (schemeToken cs).2 = behind := by rw [h]
  exact ⟨isScheme_of_schemeToken nonempty, whole⟩

/-- A token that is decoded is an encoded text. -/
theorem exists_encoded {p : Char → Bool} {cs start : List Char} {text : String}
    (h : decodeToken (cs.takeWhile p) start = .ok text) :
    ∃ e : Encoded p, e.raw = cs.takeWhile p ∧ e.text = text ∧ cs = e.raw ++ cs.dropWhile p := by
  unfold decodeToken at h
  split at h
  next s hs =>
    obtain rfl := Except.ok.inj h
    exact ⟨⟨_, s, fun _ hc => of_mem_token hc, hs⟩, rfl, rfl, (token_text p cs).symm⟩
  next => exact absurd h (by simp)

/-- Without a bar no format is read. -/
theorem parseFormat_of_not_bar {cs : List Char} (h : ¬ Bar cs) : parseFormat cs = .ok (none, cs) := by
  unfold parseFormat
  split
  next after bar => exact absurd (bar_iff.mpr ⟨after, bar⟩) h
  next => rfl

/-- Behind a bar a format is read, and there has to be one. -/
theorem parseFormat_eq {cs after : List Char} (bar : trimStart cs = '|' :: after) :
    parseFormat cs = if (token isWord (trimStart after)).1 = [] then .error ⟨.format, after⟩
      else .ok (some (String.ofList (token isWord (trimStart after)).1), (token isWord (trimStart after)).2) := by
  unfold parseFormat
  rw [bar]
  rfl

/-- What is read as a format: one that is there, or none, and then none is left. -/
theorem reads_of_parseFormat {cs rest : List Char} {format : Option String}
    (h : parseFormat cs = .ok (format, rest)) :
    ∃ s : Option Suffix, cs = suffixText s ++ rest ∧ suffixWord s = format ∧ (s = none → ¬ Bar rest) := by
  by_cases bar : Bar cs
  · obtain ⟨after, bar⟩ := bar_iff.mp bar
    rw [parseFormat_eq bar] at h
    split at h
    next => exact absurd h (by simp)
    next nonempty =>
      obtain ⟨rfl, rfl⟩ := Prod.mk.inj (Except.ok.inj h)
      obtain ⟨before, hbefore⟩ := exists_blanks cs
      obtain ⟨behind, hbehind⟩ := exists_blanks after
      refine ⟨some ⟨before, behind, ⟨_, isToken_of_token nonempty⟩⟩, ?_, rfl, fun none => absurd none (by simp)⟩
      rw [bar] at hbefore
      rw [hbefore, suffixText, String.toList_ofList, List.append_assoc, List.cons_append, List.append_assoc,
        token_text isWord (trimStart after), ← hbehind]
  · rw [parseFormat_of_not_bar bar] at h
    obtain ⟨rfl, rfl⟩ := Prod.mk.inj (Except.ok.inj h)
    exact ⟨none, rfl, rfl, fun _ => bar⟩

/-- What is read as a fragment: one that is there, or none. -/
theorem reads_of_parseFragment {cs rest : List Char} {fragment : Option String}
    (h : parseFragment cs = .ok (fragment, rest)) :
    ∃ f : Option (Encoded isPlain), cs = fragmentText f ++ rest ∧ f.map (·.text) = fragment := by
  unfold parseFragment at h
  split at h
  next after =>
    obtain ⟨text, decoded, h⟩ := bind_eq_ok.mp h
    obtain ⟨rfl, rfl⟩ := Prod.mk.inj (Except.ok.inj h)
    obtain ⟨e, -, rfl, whole⟩ := exists_encoded decoded
    exact ⟨some e, congrArg ('#' :: ·) whole, rfl⟩
  next =>
    obtain ⟨rfl, rfl⟩ := Prod.mk.inj (Except.ok.inj h)
    exact ⟨none, rfl, rfl⟩

/-! ## Trees -/

/-- A reference is what a text begins with: it says what was read, it is greedy, and nothing is left that it could
have taken. -/
structure Reference.Reads (r : Reference) (cs : List Char) (u : Uri) (rest : List Char) : Prop where
  text : cs = r.text ++ rest
  value : r.value = u
  greedy : r.Greedy
  full : r.Full rest

/-- A compound URI is what a text begins with, as above. -/
structure Compound.Reads (d : Compound) (cs : List Char) (u : Uri) (rest : List Char) : Prop where
  text : cs = d.text ++ rest
  value : d.value = u
  greedy : d.Greedy
  full : d.Full rest

section

variable {nested : List Char → Except Stop (Uri × List Char)}

/-- What is read as a parameter, behind its plus sign. -/
theorem reads_of_parseParameter (hn : ∀ cs u rest, nested cs = .ok (u, rest) → ∃ d : Compound, d.Reads cs u rest)
    {cs rest : List Char} {key : String} {u : Uri} (h : parseParameter nested cs = .ok ((key, u), rest)) :
    ∃ k : {s : String // IsToken isKey s}, k.val = key ∧
      ((∃ e : Encoded isPlain, literal e.text = u ∧ cs = key.toList ++ '=' :: (e.raw ++ rest)) ∨
        ∃ d : Compound, ∃ after, cs = key.toList ++ '@' :: after ∧ d.Reads after u rest) := by
  unfold parseParameter at h
  split at h
  next key' behind hkey =>
    split at h
    next => exact absurd h (by simp)
    next nonempty =>
      obtain ⟨tokened, whole⟩ := token_eq hkey nonempty
      split at h
      next after =>
        obtain ⟨⟨v, rest'⟩, hv, h⟩ := bind_eq_ok.mp h
        obtain ⟨hk, rfl⟩ := Prod.mk.inj (Except.ok.inj h)
        obtain ⟨rfl, rfl⟩ := Prod.mk.inj hk
        obtain ⟨d, hd⟩ := hn _ _ _ hv
        refine ⟨⟨_, tokened⟩, rfl, .inr ⟨d, after, ?_, hd⟩⟩
        rw [String.toList_ofList, whole]
      next after =>
        obtain ⟨text, decoded, h⟩ := bind_eq_ok.mp h
        obtain ⟨hk, rfl⟩ := Prod.mk.inj (Except.ok.inj h)
        obtain ⟨rfl, rfl⟩ := Prod.mk.inj hk
        obtain ⟨e, -, rfl, literal⟩ := exists_encoded decoded
        refine ⟨⟨_, tokened⟩, rfl, .inl ⟨e, rfl, ?_⟩⟩
        rw [String.toList_ofList, ← literal, whole]
      next => exact absurd h (by simp)

/-- What is read as a row of parameters. No parameter is left; and if a format is reckoned with only where one
comes next, the row is greedy. -/
theorem reads_of_parseParameters (hn : ∀ cs u rest, nested cs = .ok (u, rest) → ∃ d : Compound, d.Reads cs u rest)
    {done parameters : List (String × Uri)} {n : Nat} {cs rest : List Char} (enough : cs.length ≤ n)
    (h : parseParameters nested done n cs = .ok (parameters, rest)) :
    ∃ ps : Parameters, cs = ps.text ++ rest ∧ Table.insertAll done ps.pairs = parameters ∧ ¬ Plus rest ∧
      ∀ format, (format = true → Bar rest) → ps.Greedy format := by
  induction n generalizing done cs with
  | zero =>
      obtain ⟨rfl, rfl⟩ := Prod.mk.inj (Except.ok.inj h)
      obtain rfl := List.length_eq_zero_iff.mp (Nat.le_zero.mp enough)
      exact ⟨.nil, rfl, rfl, by simp [Plus, Text.trimStart_nil], fun _ _ => trivial⟩
  | succ n ih =>
      unfold parseParameters at h
      split at h
      next after plus =>
        obtain ⟨⟨⟨key, u⟩, behind⟩, hp, h⟩ := bind_eq_ok.mp h
        obtain ⟨before, hbefore⟩ := exists_blanks cs
        rw [plus] at hbefore
        obtain ⟨k, rfl, ⟨e, rfl, written⟩ | ⟨d, tail, written, hd⟩⟩ := reads_of_parseParameter hn hp
        · have less : behind.length ≤ n := by
            rw [hbefore, written] at enough
            simp only [List.length_append, List.length_cons] at enough
            omega
          obtain ⟨ps, hps, table, stop, greedy⟩ := ih less h
          refine ⟨.literal before k e ps, ?_, table, stop, greedy⟩
          rw [hbefore, written, hps]
          simp only [Parameters.text, List.append_assoc, List.cons_append]
        · have less : behind.length ≤ n := by
            rw [hbefore, written, hd.text] at enough
            simp only [List.length_append, List.length_cons] at enough
            omega
          obtain ⟨ps, hps, table, stop, greedy⟩ := ih less h
          refine ⟨.nested before k d ps, ?_, ?_, stop, fun format hf => ⟨hd.greedy, fun takes => ?_, ?_,
            greedy format hf⟩⟩
          · rw [hbefore, written, hd.text, hps]
            simp only [Parameters.text, List.append_assoc, List.cons_append]
          · rw [← table, Parameters.pairs, hd.value]
            rfl
          · -- what is left behind the nested URI begins with no parameter, so there is none
            have none := hd.full.1 takes
            rw [hps] at none
            exact Classical.byContradiction fun some => none (plus_parameters some rest)
          · rintro takes rfl
            have none := hd.full.2 takes
            rw [hps] at none
            cases format with
            | false => rfl
            | true => exact absurd (hf rfl) none
      next no =>
        obtain ⟨rfl, rfl⟩ := Prod.mk.inj (Except.ok.inj h)
        refine ⟨.nil, rfl, rfl, fun plus => ?_, fun _ _ => trivial⟩
        obtain ⟨after, hafter⟩ := plus_iff.mp plus
        exact no after hafter

/-- What is read as a URI. -/
theorem reads_of_parseUri (hn : ∀ cs u rest, nested cs = .ok (u, rest) → ∃ d : Compound, d.Reads cs u rest)
    {cs rest : List Char} {u : Uri} (h : parseUri nested cs = .ok (u, rest)) :
    ∃ r : Reference, r.Reads cs u rest := by
  unfold parseUri at h
  split at h
  next scheme behind hscheme =>
    split at h
    next => exact absurd h (by simp)
    next nonempty =>
      obtain ⟨isScheme, whole⟩ := schemeToken_eq hscheme nonempty
      split at h
      next after =>
        obtain ⟨name, decoded, h⟩ := bind_eq_ok.mp h
        obtain ⟨⟨fragment, rest₁⟩, hf, h⟩ := bind_eq_ok.mp h
        obtain ⟨⟨parameters, rest₂⟩, hp, h⟩ := bind_eq_ok.mp h
        obtain ⟨⟨format, rest₃⟩, hs, h⟩ := bind_eq_ok.mp h
        obtain ⟨rfl, rfl⟩ := Prod.mk.inj (Except.ok.inj h)
        obtain ⟨e, -, rfl, named⟩ := exists_encoded decoded
        obtain ⟨f, fragmented, rfl⟩ := reads_of_parseFragment hf
        obtain ⟨ps, written, rfl, noPlus, greedy⟩ := reads_of_parseParameters hn (Nat.le_refl _) hp
        obtain ⟨s, suffixed, rfl, noBar⟩ := reads_of_parseFormat hs
        refine ⟨.uri ⟨_, isScheme⟩ e f ps s, ⟨?_, rfl, greedy _ fun some => ?_, fun takes => ?_, fun takes => ?_⟩⟩
        · simp only [Reference.text, String.toList_ofList, List.append_assoc, List.cons_append]
          rw [← whole, ← suffixed, ← written, ← fragmented, ← named]
        · obtain ⟨t, rfl⟩ := Option.isSome_iff_exists.mp some
          rw [suffixed]
          exact bar_suffix t _
        · obtain rfl := Option.isNone_iff_eq_none.mp takes
          rw [suffixed] at noPlus
          exact noPlus
        · exact noBar (Option.isNone_iff_eq_none.mp takes)
      next => exact absurd h (by simp)

/-- What is read as an alias or a URI, behind blanks. -/
theorem reads_of_parseReference (hn : ∀ cs u rest, nested cs = .ok (u, rest) → ∃ d : Compound, d.Reads cs u rest)
    {cs rest : List Char} {u : Uri} (h : parseReference nested cs = .ok (u, rest)) :
    ∃ r : Reference, r.Reads (trimStart cs) u rest := by
  unfold parseReference at h
  split at h
  next after tilde =>
    split at h
    next raw behind hraw =>
      split at h
      next => exact absurd h (by simp [bind, Except.bind, throw, throwThe, MonadExceptOf.throw])
      next nonempty =>
        obtain ⟨-, -, h⟩ := bind_eq_ok.mp h
        obtain ⟨name, decoded, h⟩ := bind_eq_ok.mp h
        obtain ⟨⟨format, rest₂⟩, hs, h⟩ := bind_eq_ok.mp h
        obtain ⟨rfl, rfl⟩ := Prod.mk.inj (Except.ok.inj h)
        obtain ⟨rfl, rfl⟩ : after.takeWhile isName = raw ∧ after.dropWhile isName = behind := Prod.mk.inj hraw
        obtain ⟨e, hraw, rfl, named⟩ := exists_encoded decoded
        obtain ⟨s, suffixed, rfl, noBar⟩ := reads_of_parseFormat hs
        refine ⟨.byAlias e (hraw ▸ nonempty) s, ⟨?_, rfl, trivial, fun takes => ?_, fun takes => ?_⟩⟩
        · rw [tilde, Reference.text, List.cons_append, List.append_assoc, ← suffixed, ← named]
        · exact absurd takes (by simp [Reference.takesParameters])
        · exact noBar (Option.isNone_iff_eq_none.mp takes)
  next => exact reads_of_parseUri hn h

end

/-- What is read as a compound URI, however deep it nests. -/
theorem reads_of_parseCompound (n : Nat) (cs : List Char) (u : Uri) (rest : List Char)
    (h : parseCompound n cs = .ok (u, rest)) : ∃ d : Compound, d.Reads cs u rest := by
  induction n generalizing cs u rest with
  | zero => exact absurd h (by simp [parseCompound])
  | succ n ih =>
      obtain ⟨before, hbefore⟩ := exists_blanks cs
      unfold parseCompound at h
      split at h
      next inner bracket =>
        obtain ⟨⟨v, behind⟩, hv, h⟩ := bind_eq_ok.mp h
        obtain ⟨r, hr⟩ := reads_of_parseReference ih hv
        change close v behind = _ at h
        unfold close at h
        split at h
        next rest' closed =>
          obtain ⟨rfl, rfl⟩ := Prod.mk.inj (Except.ok.inj h)
          obtain ⟨inside, hinside⟩ := exists_blanks inner
          obtain ⟨closing, hclosing⟩ := exists_blanks behind
          refine ⟨.bracketed before inside r closing, ⟨?_, hr.value, hr.greedy, fun takes => ?_, fun takes => ?_⟩⟩
          · rw [bracket] at hbefore
            rw [closed] at hclosing
            rw [hr.text] at hinside
            simp only [Compound.text, List.append_assoc, List.cons_append, List.nil_append]
            rw [← hclosing, ← hinside, ← hbefore]
          · exact absurd takes (by simp [Compound.takesParameters])
          · exact absurd takes (by simp [Compound.takesFormat])
        next => exact absurd h (by simp)
      next =>
        obtain ⟨r, hr⟩ := reads_of_parseReference ih h
        have text := hr.text
        rw [Text.trimStart_trimStart] at text
        refine ⟨.bare before r, ⟨?_, hr.value, hr.greedy, hr.full⟩⟩
        rw [Compound.text, List.append_assoc, ← text, ← hbefore]

/-- What is parsed has a greedy derivation that says just that. -/
theorem derived_of_parse {text : String} {u : Uri} (h : parse text = .ok u) :
    ∃ d : Derivation, d.text = text.toList ∧ d.Greedy ∧ d.value = u := by
  unfold parse at h
  split at h
  next v hv =>
    obtain rfl := Except.ok.inj h
    obtain ⟨⟨w, rest⟩, hw, hv⟩ := bind_eq_ok.mp hv
    obtain ⟨d, hd⟩ := reads_of_parseCompound _ _ _ _ hw
    change ending w rest = _ at hv
    unfold ending at hv
    split at hv
    next finished =>
      obtain rfl := Except.ok.inj hv
      obtain ⟨blanks, hblanks⟩ := exists_blanks rest
      rw [finished, List.append_nil] at hblanks
      refine ⟨⟨d, blanks⟩, ?_, hd.greedy, hd.value⟩
      rw [Derivation.text, ← hblanks, ← hd.text]
    next => exact absurd hv (by simp)
  next => exact absurd h (by simp)

end ObjectGraph.Uri.Grammar
