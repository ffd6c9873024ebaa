import ObjectGraph.Proofs.Grammar.Derivation

/-!
# `Proofs.Grammar.Unambiguous` — a text has one greedy derivation

Two greedy derivations of a text, each with something behind it that it could not take, are the same, and so is
what is behind them. The tokens are the same because each ends where its class does: a mark or a blank stands
behind it, or nothing. The blanks are the same because no blank stands behind them. What is left to choose is
which of the URIs that are open takes a parameter or a format, and there greed leaves no choice.

The proof is by recursion on the first derivation, in the order in which the text is written.

Contents:
* `append_unique`, `blanks_unique`, `suffix_unique`, `fragment_unique`;
* `Compound.unique`, `Derivation.unique`.
-/

namespace ObjectGraph.Uri.Grammar

open Text (isBlank trimStart)

/-! ## Tokens -/

/-- Rows of a class are the same if neither goes on behind. -/
theorem append_unique {p : Char → Bool} {xs ys cs ds : List Char} (h : xs ++ cs = ys ++ ds)
    (hx : ∀ c ∈ xs, p c = true) (hy : ∀ c ∈ ys, p c = true) (hc : ∀ c ∈ cs.head?, p c = false)
    (hd : ∀ c ∈ ds.head?, p c = false) : xs = ys ∧ cs = ds := by
  have read := token_append hx hc
  rw [h, token_append hy hd] at read
  exact ⟨(Prod.mk.inj read).1.symm, (Prod.mk.inj read).2.symm⟩

/-- Blanks are the same if what is behind them does not begin with one. -/
theorem blanks_unique {a b : Blanks} {c d : Char} {cs ds : List Char} (h : a.val ++ c :: cs = b.val ++ d :: ds)
    (hc : isBlank c = false) (hd : isBlank d = false) : a = b ∧ c = d ∧ cs = ds := by
  obtain ⟨blanks, rest⟩ := append_unique h a.property b.property (by rintro _ ⟨⟩; exact hc) (by rintro _ ⟨⟩; exact hd)
  exact ⟨Subtype.ext blanks, (List.cons.inj rest).1, (List.cons.inj rest).2⟩

/-- Tokens that are texts are the same if each is followed by a character that is not of the class. -/
theorem token_unique {p : Char → Bool} {a b : {s : String // IsToken p s}} {c d : Char} {cs ds : List Char}
    (h : a.val.toList ++ c :: cs = b.val.toList ++ d :: ds) (hc : p c = false) (hd : p d = false) :
    a = b ∧ c = d ∧ cs = ds := by
  obtain ⟨tokens, rest⟩ := append_unique h a.property.2 b.property.2 (by rintro _ ⟨⟩; exact hc)
    (by rintro _ ⟨⟩; exact hd)
  exact ⟨Subtype.ext (String.toList_inj.mp tokens), (List.cons.inj rest).1, (List.cons.inj rest).2⟩

/-- Encoded texts are the same if neither goes on behind. -/
theorem encoded_unique {p : Char → Bool} {a b : Encoded p} {cs ds : List Char} (h : a.raw ++ cs = b.raw ++ ds)
    (hc : ∀ c ∈ cs.head?, p c = false) (hd : ∀ c ∈ ds.head?, p c = false) : a = b ∧ cs = ds := by
  obtain ⟨raw, rest⟩ := append_unique h a.ofClass b.ofClass hc hd
  exact ⟨Encoded.eq_of_raw raw, rest⟩

/-- A scheme and its colon are the same. -/
theorem scheme_unique {a b : {s : String // IsScheme s}} {cs ds : List Char}
    (h : a.val.toList ++ ':' :: cs = b.val.toList ++ ':' :: ds) : a = b ∧ cs = ds := by
  have word : ∀ s : {s : String // IsScheme s}, ∀ c ∈ s.val.toList, isWord c = true := by
    intro s c hc
    obtain ⟨d, ds, hl, hd, hds⟩ := s.property
    rcases List.mem_cons.mp (hl ▸ hc) with rfl | hc
    · exact isWord_of_isLetter hd
    · exact hds c hc
  obtain ⟨tokens, rest⟩ := append_unique h (word a) (word b) (by rintro _ ⟨⟩; rfl) (by rintro _ ⟨⟩; rfl)
  exact ⟨Subtype.ext (String.toList_inj.mp tokens), (List.cons.inj rest).2⟩

/-- A format that may be there is the same, if one that comes next would have been taken. -/
theorem suffix_unique {a b : Option Suffix} {cs ds : List Char} (h : suffixText a ++ cs = suffixText b ++ ds)
    (hc : Ends cs) (hd : Ends ds) (ca : a = none → ¬ Bar cs) (db : b = none → ¬ Bar ds) : a = b ∧ cs = ds := by
  cases a with
  | none =>
      cases b with
      | none => exact ⟨rfl, h⟩
      | some t =>
          have next := bar_suffix t ds
          rw [← h] at next
          exact absurd next (ca rfl)
  | some s =>
      cases b with
      | none =>
          have next := bar_suffix s cs
          rw [h] at next
          exact absurd next (db rfl)
      | some t =>
          obtain ⟨before, after, word⟩ := s
          obtain ⟨before', after', word'⟩ := t
          simp only [suffixText, List.append_assoc, List.cons_append] at h
          obtain ⟨rfl, -, h⟩ := blanks_unique h rfl rfl
          have first : ∀ w : {s : String // IsToken isWord s}, ∃ c ws, w.val.toList = c :: ws ∧ isBlank c = false := by
            intro w
            obtain ⟨c, ws, hl⟩ := List.exists_cons_of_ne_nil w.property.1
            exact ⟨c, ws, hl, (of_isWord (w.property.2 c (hl ▸ List.mem_cons_self))).1⟩
          obtain ⟨c, ws, hw, hb⟩ := first word
          obtain ⟨c', ws', hw', hb'⟩ := first word'
          rw [hw, hw', List.cons_append, List.cons_append] at h
          obtain ⟨rfl, same, h⟩ := blanks_unique h hb hb'
          have words : word.val.toList ++ cs = word'.val.toList ++ ds := by
            rw [hw, hw', List.cons_append, List.cons_append, same, h]
          obtain ⟨tokens, rest⟩ := append_unique words word.property.2 word'.property.2 hc.isWord hd.isWord
          obtain rfl : word = word' := Subtype.ext (String.toList_inj.mp tokens)
          exact ⟨rfl, rest⟩

/-- A fragment that may be there is the same. -/
theorem fragment_unique {a b : Option (Encoded isPlain)} {cs ds : List Char}
    (h : fragmentText a ++ cs = fragmentText b ++ ds) (hc : Ends cs) (hd : Ends ds) : a = b ∧ cs = ds := by
  have hash : ∀ {es : List Char}, Ends es → ∀ f fs, es ≠ '#' :: (f ++ fs) := by
    rintro es he f fs rfl
    exact absurd (he '#' rfl) (by decide)
  cases a with
  | none =>
      cases b with
      | none => exact ⟨rfl, h⟩
      | some g => exact absurd h (hash hc g.raw ds)
  | some f =>
      cases b with
      | none => exact absurd h.symm (hash hd f.raw cs)
      | some g =>
          obtain ⟨rfl, rest⟩ := encoded_unique (List.cons.inj h).2 hc hd
          exact ⟨rfl, rest⟩

/-! ## Trees -/

/-- References that are the same text behind blanks are behind the same ones. -/
theorem blanks_reference_unique {b b' : Blanks} {r r' : Reference} {cs ds : List Char}
    (h : b.val ++ (r.text ++ cs) = b'.val ++ (r'.text ++ ds)) : b = b' ∧ r.text ++ cs = r'.text ++ ds := by
  obtain ⟨c, tail, ht, blank, -⟩ := r.head_text
  obtain ⟨c', tail', ht', blank', -⟩ := r'.head_text
  have whole := h
  rw [ht, ht', List.cons_append, List.cons_append] at whole
  obtain ⟨rfl, -, -⟩ := blanks_unique whole blank blank'
  exact ⟨rfl, List.append_cancel_left h⟩

/-- Behind its parameters a URI that could take more has no more. -/
theorem Reference.Full.not_plus {scheme : {s : String // IsScheme s}} {name : Encoded isName}
    {fragment : Option (Encoded isPlain)} {parameters : Parameters} {format : Option Suffix} {cs : List Char}
    (h : (Reference.uri scheme name fragment parameters format).Full cs) : ¬ Plus (suffixText format ++ cs) := by
  refine not_plus_suffix ?_
  rintro rfl
  exact h.1 rfl

/-- What is behind a row of parameters does not begin with a bar, if there is a parameter. -/
theorem not_bar_parameters {parameters : Parameters} (h : parameters ≠ .nil) (cs : List Char) :
    ¬ Bar (parameters.text ++ cs) := (plus_parameters h cs).not_bar

/-- A nested URI in a greedy row of parameters could take nothing of what is behind it. -/
theorem full_of_greedy {format : Bool} {before : Blanks} {key : {s : String // IsToken isKey s}}
    {value : Compound} {rest : Parameters} (h : (Parameters.nested before key value rest).Greedy format)
    {cs : List Char} (plus : ¬ Plus cs) (bar : format = false → ¬ Bar cs) : value.Full (rest.text ++ cs) := by
  obtain ⟨-, parameters, suffix, -⟩ := h
  refine ⟨fun takes => ?_, fun takes => ?_⟩
  · rw [parameters takes]
    exact plus
  · by_cases hr : rest = .nil
    · have none := suffix takes hr
      rw [hr]
      exact bar none
    · exact not_bar_parameters hr cs

/-- What is in brackets can take nothing of the bracket that closes them. -/
theorem full_of_closing (r : Reference) (b : Blanks) (cs : List Char) : r.Full (b.val ++ ']' :: cs) := by
  have trimmed := trimStart_blanks_cons b (c := ']') rfl cs
  refine ⟨fun _ plus => ?_, fun _ bar => ?_⟩
  · rw [Plus, trimmed] at plus
    exact absurd plus (by simp)
  · rw [Bar, trimmed] at bar
    exact absurd bar (by simp)

mutual

/-- Greedy derivations of the same text are the same, if what follows could not be taken. -/
theorem Compound.unique (d e : Compound) {cs ds : List Char} (h : d.text ++ cs = e.text ++ ds) (gd : d.Greedy)
    (ge : e.Greedy) (fd : d.Full cs) (fe : e.Full ds) (hc : Ends cs) (hd : Ends ds) : d = e ∧ cs = ds := by
  match d, e with
  | .bare b r, .bare b' r' =>
      rw [Compound.text, Compound.text, List.append_assoc, List.append_assoc] at h
      obtain ⟨rfl, same⟩ := blanks_reference_unique h
      obtain ⟨rfl, rest⟩ := Reference.unique r r' same gd ge fd fe hc hd
      exact ⟨rfl, rest⟩
  | .bare b r, .bracketed b' i' r' k' =>
      obtain ⟨c, tail, ht, blank, bracket⟩ := r.head_text
      rw [Compound.text, Compound.text, ht, List.append_assoc, List.append_assoc, List.cons_append,
        List.cons_append] at h
      obtain ⟨-, same, -⟩ := blanks_unique h blank rfl
      exact absurd same bracket
  | .bracketed b i r k, .bare b' r' =>
      obtain ⟨c', tail', ht', blank, bracket⟩ := r'.head_text
      rw [Compound.text, Compound.text, ht', List.append_assoc, List.append_assoc, List.cons_append,
        List.cons_append] at h
      obtain ⟨-, same, -⟩ := blanks_unique h rfl blank
      exact absurd same.symm bracket
  | .bracketed b i r k, .bracketed b' i' r' k' =>
      simp only [Compound.text, List.append_assoc, List.cons_append, List.nil_append] at h
      obtain ⟨rfl, -, h⟩ := blanks_unique h rfl rfl
      obtain ⟨rfl, same⟩ := blanks_reference_unique h
      obtain ⟨rfl, rest⟩ := Reference.unique r r' same gd ge (full_of_closing r k cs)
        (full_of_closing r' k' ds) (.blanks k (.cons rfl cs)) (.blanks k' (.cons rfl ds))
      obtain ⟨rfl, -, rest⟩ := blanks_unique rest rfl rfl
      exact ⟨rfl, rest⟩

/-- Greedy derivations of the same text are the same, if what follows could not be taken. -/
theorem Reference.unique (r q : Reference) {cs ds : List Char} (h : r.text ++ cs = q.text ++ ds) (gr : r.Greedy)
    (gq : q.Greedy) (fr : r.Full cs) (fq : q.Full ds) (hc : Ends cs) (hd : Ends ds) : r = q ∧ cs = ds := by
  have tilde : ∀ (s : {s : String // IsScheme s}) (xs ys : List Char), '~' :: xs ≠ s.val.toList ++ ys := by
    intro s xs ys he
    obtain ⟨c, tail, hl, letter, -⟩ := s.property
    rw [hl, List.cons_append] at he
    exact absurd ((List.cons.inj he).1 ▸ letter) (by decide)
  match r, q with
  | .byAlias n ne f, .byAlias n' ne' f' =>
      simp only [Reference.text, List.cons_append, List.append_assoc] at h
      obtain ⟨rfl, formats⟩ := encoded_unique (List.cons.inj h).2 (ends_suffix f hc).isName (ends_suffix f' hd).isName
      obtain ⟨rfl, rest⟩ := suffix_unique formats hc hd (fun e => fr.2 (e ▸ rfl)) (fun e => fq.2 (e ▸ rfl))
      exact ⟨rfl, rest⟩
  | .byAlias n ne f, .uri s' n' fr' ps' f' =>
      simp only [Reference.text, List.cons_append, List.append_assoc] at h
      exact absurd h (tilde s' _ _)
  | .uri s n fg ps f, .byAlias n' ne' f' =>
      simp only [Reference.text, List.cons_append, List.append_assoc] at h
      exact absurd h.symm (tilde s _ _)
  | .uri s n fg ps f, .uri s' n' fg' ps' f' =>
      simp only [Reference.text, List.cons_append, List.append_assoc] at h
      obtain ⟨rfl, names⟩ := scheme_unique h
      have behind := ends_parameters ps (ends_suffix f hc)
      have behind' := ends_parameters ps' (ends_suffix f' hd)
      obtain ⟨rfl, fragments⟩ :=
        encoded_unique names (isName_head_fragment fg behind) (isName_head_fragment fg' behind')
      obtain ⟨rfl, parameters⟩ := fragment_unique fragments behind behind'
      have bar : ∀ {g : Option Suffix} {es : List Char}, (g = none → ¬ Bar es) →
          g.isSome = false → ¬ Bar (suffixText g ++ es) := by
        rintro (_ | g) es he hg
        · exact he rfl
        · exact absurd hg (by simp)
      obtain ⟨rfl, formats⟩ := Parameters.unique ps ps' parameters gr gq fr.not_plus fq.not_plus
        (bar fun e => fr.2 (e ▸ rfl)) (bar fun e => fq.2 (e ▸ rfl)) (ends_suffix f hc) (ends_suffix f' hd)
      obtain ⟨rfl, rest⟩ := suffix_unique formats hc hd (fun e => fr.2 (e ▸ rfl)) (fun e => fq.2 (e ▸ rfl))
      exact ⟨rfl, rest⟩

/-- Greedy rows of parameters with the same text are the same, if no parameter follows, and no format but one
that was reckoned with. -/
theorem Parameters.unique (ps qs : Parameters) {f g : Bool} {cs ds : List Char} (h : ps.text ++ cs = qs.text ++ ds)
    (gp : ps.Greedy f) (gq : qs.Greedy g) (pc : ¬ Plus cs) (pd : ¬ Plus ds) (bc : f = false → ¬ Bar cs)
    (bd : g = false → ¬ Bar ds) (hc : Ends cs) (hd : Ends ds) : ps = qs ∧ cs = ds := by
  match ps, qs with
  | .nil, .nil => exact ⟨rfl, h⟩
  | .nil, .literal .. | .nil, .nested .. =>
      have begins : cs = _ ++ ds := h
      exact absurd (begins ▸ plus_parameters (by simp) ds) pc
  | .literal .., .nil | .nested .., .nil =>
      have begins : ds = _ ++ cs := h.symm
      exact absurd (begins ▸ plus_parameters (by simp) cs) pd
  | .literal b k v rest, .literal b' k' v' rest' =>
      simp only [Parameters.text, List.append_assoc, List.cons_append] at h
      obtain ⟨rfl, -, keys⟩ := blanks_unique h rfl rfl
      obtain ⟨rfl, -, values⟩ := token_unique keys rfl rfl
      obtain ⟨rfl, others⟩ := encoded_unique values (ends_parameters rest hc) (ends_parameters rest' hd)
      obtain ⟨rfl, behind⟩ := Parameters.unique rest rest' others gp gq pc pd bc bd hc hd
      exact ⟨rfl, behind⟩
  | .literal b k v rest, .nested b' k' v' rest' =>
      simp only [Parameters.text, List.append_assoc, List.cons_append] at h
      obtain ⟨-, -, keys⟩ := blanks_unique h rfl rfl
      obtain ⟨-, sign, -⟩ := token_unique keys rfl rfl
      exact absurd sign (by decide)
  | .nested b k v rest, .literal b' k' v' rest' =>
      simp only [Parameters.text, List.append_assoc, List.cons_append] at h
      obtain ⟨-, -, keys⟩ := blanks_unique h rfl rfl
      obtain ⟨-, sign, -⟩ := token_unique keys rfl rfl
      exact absurd sign (by decide)
  | .nested b k v rest, .nested b' k' v' rest' =>
      simp only [Parameters.text, List.append_assoc, List.cons_append] at h
      obtain ⟨rfl, -, keys⟩ := blanks_unique h rfl rfl
      obtain ⟨rfl, -, values⟩ := token_unique keys rfl rfl
      obtain ⟨rfl, others⟩ := Compound.unique v v' values gp.1 gq.1 (full_of_greedy gp pc bc) (full_of_greedy gq pd bd)
        (ends_parameters rest hc) (ends_parameters rest' hd)
      obtain ⟨rfl, behind⟩ := Parameters.unique rest rest' others gp.2.2.2 gq.2.2.2 pc pd bc bd hc hd
      exact ⟨rfl, behind⟩

end

/-- A text has one greedy derivation at most. -/
theorem Derivation.unique {d e : Derivation} (h : d.text = e.text) (gd : d.Greedy) (ge : e.Greedy) : d = e := by
  have ends : ∀ b : Blanks, Ends b.val := by
    intro b
    have nothing : Ends (b.val ++ []) := .blanks b fun c hc => absurd hc (by simp)
    rwa [List.append_nil] at nothing
  have full : ∀ (c : Compound) (b : Blanks), c.Full b.val := by
    intro c b
    have trimmed := trimStart_ending b
    refine ⟨fun _ plus => ?_, fun _ bar => ?_⟩
    · rw [Plus, trimmed] at plus
      exact absurd plus (by simp)
    · rw [Bar, trimmed] at bar
      exact absurd bar (by simp)
  obtain ⟨c, b⟩ := d
  obtain ⟨c', b'⟩ := e
  obtain ⟨rfl, same⟩ := Compound.unique c c' h gd ge (full c b) (full c' b') (ends b) (ends b')
  obtain rfl : b = b' := Subtype.ext same
  rfl

end ObjectGraph.Uri.Grammar
