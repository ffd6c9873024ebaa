import ObjectGraph.Uri.Parser

/-!
# `Proofs.Canonical` — canonical forms are read back

A URI is well formed if its scheme, the keys of its parameters and its format are tokens, at every depth.
What is parsed is well formed, and the canonical form of what is well formed is parsed to just that. So a
URI that was parsed is known by its canonical form, and equality of URIs is equality of all their parts.

Behind a name, a fragment, a parameter or a format of a canonical form stands a mark that belongs to none of
them, or nothing: there each token ends. Brackets keep the parameters of a nested URI from those that follow.

Contents:
* `IsScheme`, `IsToken`, `WellFormed`;
* what each production reads in a canonical form, up to `parse_canonical`;
* what each production yields, up to `wellFormed_of_parse`;
* `canonical_round_trip`.
-/

namespace ObjectGraph.Uri

open Text (trimStart isBlank)
open Text.Percent (decode? encodePath)

/-! ## Well-formed URIs -/

/-- A text that is a scheme. -/
def IsScheme (s : String) : Prop :=
  ∃ c cs, s.toList = c :: cs ∧ isLetter c = true ∧ ∀ d ∈ cs, isWord d = true

/-- The scheme of references is a scheme. -/
theorem isScheme_named : IsScheme "named" :=
  ⟨'n', "amed".toList, rfl, rfl, List.all_eq_true.mp (by decide)⟩

/-- A text that is a token of a class. -/
def IsToken (p : Char → Bool) (s : String) : Prop := s.toList ≠ [] ∧ ∀ c ∈ s.toList, p c = true

/-- A URI that a text can say: scheme, keys and format are tokens, and each key is there once. -/
inductive WellFormed : Uri → Prop
  | mk {scheme name : String} {fragment : Option String} {parameters : List (String × Uri)}
      {format : Option String} (hs : IsScheme scheme) (ascending : Table.Ascending parameters)
      (keys : ∀ p ∈ parameters, IsToken isKey p.1) (nested : ∀ p ∈ parameters, WellFormed p.2)
      (hf : ∀ f ∈ format, IsToken isWord f) : WellFormed (mk scheme name fragment parameters format)

/-! ## Characters -/

theorem isWord_of_isLetter {c : Char} (h : isLetter c = true) : isWord c = true := by
  simp [isWord, h]

/-- The characters of words are ASCII. -/
theorem toNat_lt_of_isWord {c : Char} (h : isWord c = true) : c.toNat < 128 := by
  simp only [isWord, isLetter, Char.isDigit, Bool.or_eq_true, Bool.and_eq_true, decide_eq_true_eq, beq_iff_eq,
    Char.le_def, UInt32.le_iff_toNat_le, ge_iff_le] at h
  rcases h with ((((⟨-, h⟩ | ⟨-, h⟩) | ⟨-, h⟩) | rfl) | rfl) | rfl
  · exact Nat.lt_of_le_of_lt h (by decide)
  · exact Nat.lt_of_le_of_lt h (by decide)
  · exact Nat.lt_of_le_of_lt h (by decide)
  · decide
  · decide
  · decide

/-- Characters of words stand for themselves when they are encoded. -/
theorem unreserved_of_isWord {c : Char} (h : isWord c = true) :
    ∃ a : UInt8, Text.Percent.isUnreserved a = true ∧ c = Char.ofNat a.toNat := by
  have small : c.toNat < 256 := Nat.lt_trans (toNat_lt_of_isWord h) (by decide)
  have octet : (UInt8.ofNat c.toNat).toNat = c.toNat := Nat.mod_eq_of_lt small
  have key : ∀ b : Fin 256, isWord (Char.ofNat b.val) = true →
      Text.Percent.isUnreserved (UInt8.ofNat b.val) = true := by
    decide +kernel
  refine ⟨UInt8.ofNat c.toNat, key ⟨c.toNat, small⟩ ?_, ?_⟩
  · rwa [Char.ofNat_toNat]
  · rw [octet, Char.ofNat_toNat]

/-- A word is neither blank nor the sign of an alias. -/
theorem of_isWord {c : Char} (h : isWord c = true) : isBlank c = false ∧ c ≠ '~' ∧ c ≠ '[' := by
  have key : ∀ b : Fin 128, isWord (Char.ofNat b.val) = true →
      isBlank (Char.ofNat b.val) = false ∧ Char.ofNat b.val ≠ '~' ∧ Char.ofNat b.val ≠ '[' := by
    decide +kernel
  have fact := key ⟨c.toNat, toNat_lt_of_isWord h⟩
  rw [Char.ofNat_toNat] at fact
  exact fact h

theorem isName_unreserved {a : UInt8} (h : Text.Percent.isUnreserved a = true) :
    isName (Char.ofNat a.toNat) = true := by
  have key : ∀ b : Fin 256, Text.Percent.isUnreserved (UInt8.ofNat b.val) = true →
      isName (Char.ofNat b.val) = true := by
    decide +kernel
  exact key ⟨a.toNat, a.toNat_lt⟩ (by simpa using h)

/-- An encoded path is written in characters of names. -/
theorem isName_of_mem_encodePath {s : String} {c : Char} (h : c ∈ encodePath s) : isName c = true := by
  rcases Text.Percent.mem_encodePath h with rfl | rfl | ⟨a, ha, rfl⟩
  · rfl
  · rfl
  · exact isName_unreserved ha

theorem isPlain_of_isName {c : Char} (h : isName c = true) : isPlain c = true :=
  (Bool.and_eq_true_iff.mp h).1

/-- A scheme is its own encoded form. -/
theorem encodePath_scheme {s : String} (hs : IsScheme s) : encodePath s = s.toList := by
  obtain ⟨c, cs, hl, hc, hcs⟩ := hs
  refine Text.Percent.encodePath_unreserved fun d hd => unreserved_of_isWord ?_
  rcases List.mem_cons.mp (hl ▸ hd) with rfl | hd
  · exact isWord_of_isLetter hc
  · exact hcs d hd

/-! ## What is read in a canonical form

`Heads marks cs` says that `cs` is empty or begins with one of the marks: tokens end there. -/

/-- A text begins with one of some marks, if with anything. -/
def Heads (marks : List Char) (cs : List Char) : Prop := ∀ c ∈ cs.head?, c ∈ marks

theorem Heads.nil (marks : List Char) : Heads marks [] := by
  intro c hc
  exact absurd hc (by simp)

theorem Heads.cons {marks : List Char} {c : Char} (h : c ∈ marks) (cs : List Char) : Heads marks (c :: cs) := by
  rintro d ⟨⟩
  exact h

theorem Heads.mono {marks marks' cs : List Char} (h : Heads marks cs) (hm : ∀ c ∈ marks, c ∈ marks') :
    Heads marks' cs :=
  fun c hc => hm c (h c hc)

/-- Marks that are not of a class end its tokens. -/
theorem Heads.ends {marks cs : List Char} (h : Heads marks cs) {p : Char → Bool}
    (hp : marks.any p = false) : ∀ c ∈ cs.head?, p c = false :=
  fun c hc => Bool.eq_false_iff.mpr (List.any_eq_false.mp hp c (h c hc))

/-- Nothing is trimmed in front of marks that are not blank. -/
theorem Heads.trimStart {marks cs : List Char} (h : Heads marks cs) (hm : marks.any isBlank = false) :
    trimStart cs = cs := by
  cases cs with
  | nil => rfl
  | cons c cs => exact Text.trimStart_cons (h.ends hm c rfl) cs

/-- The scheme is read up to what is no character of a word. -/
theorem schemeToken_append {s : String} (hs : IsScheme s) {rest : List Char}
    (hr : ∀ c ∈ rest.head?, isWord c = false) : schemeToken (s.toList ++ rest) = (s.toList, rest) := by
  obtain ⟨c, cs, hl, hc, hcs⟩ := hs
  have tail := token_append hcs hr
  rw [token, Prod.mk.injEq] at tail
  rw [hl, List.cons_append, schemeToken, if_pos hc, tail.1, tail.2]

/-- A URI is read from a scheme and a name that is encoded in whatever way, and from what stands behind it. -/
theorem parseUri_append (nested : List Char → Except Stop (Uri × List Char)) {scheme name : String}
    (hs : IsScheme scheme) {raw rest : List Char} (hraw : ∀ c ∈ raw, isName c = true)
    (hn : decode? raw = some name) (hr : ∀ c ∈ rest.head?, isName c = false) :
    parseUri nested (scheme.toList ++ ':' :: (raw ++ rest)) = (do
      let (fragment, rest) ← parseFragment rest
      let (parameters, rest) ← parseParameters nested [] rest.length rest
      let (format, rest) ← parseFormat rest
      pure (mk scheme name fragment parameters format, rest)) := by
  have colon : ∀ c ∈ (':' :: (raw ++ rest)).head?, isWord c = false := by
    rintro c ⟨⟩
    rfl
  have nonempty : scheme.toList ≠ [] := by
    obtain ⟨c, cs, hl, -⟩ := hs
    rw [hl]
    exact List.cons_ne_nil c cs
  unfold parseUri
  rw [schemeToken_append hs colon]
  show (if scheme.toList = [] then Except.error _ else (do
    let name ← decodeToken (token isName (raw ++ rest)).1 (raw ++ rest)
    let (fragment, rest) ← parseFragment (token isName (raw ++ rest)).2
    let (parameters, rest) ← parseParameters nested [] rest.length rest
    let (format, rest) ← parseFormat rest
    pure (mk (String.ofList scheme.toList) name fragment parameters format, rest))) = _
  rw [if_neg nonempty, token_append hraw hr, decodeToken, hn, String.ofList_toList]
  rfl

/-- The characters of a fragment that may be there. -/
def writeFragment : Option String → List Char
  | some f => '#' :: encodePath f
  | none => []

/-- The characters of a format that may be there. -/
def writeFormat : Option String → List Char
  | some f => '|' :: f.toList
  | none => []

theorem write_append {scheme : String} (hs : IsScheme scheme) (name : String) (fragment : Option String)
    (parameters : List (String × Uri)) (format : Option String) (rest : List Char) :
    (mk scheme name fragment parameters format).write ++ rest
      = scheme.toList ++ ':' :: (encodePath name
        ++ (writeFragment fragment ++ (writeParameters parameters ++ (writeFormat format ++ rest)))) := by
  rw [← encodePath_scheme hs]
  cases fragment <;> cases format <;> simp [write, writeFragment, writeFormat]

theorem heads_writeFormat (format : Option String) {rest : List Char} (hr : Heads [']'] rest) :
    Heads ['|', ']'] (writeFormat format ++ rest) := by
  cases format with
  | none => exact hr.mono (by simp)
  | some f => exact .cons (by simp) _

theorem heads_writeParameters (parameters : List (String × Uri)) {rest : List Char} (hr : Heads ['|', ']'] rest) :
    Heads ['+', '|', ']'] (writeParameters parameters ++ rest) := by
  cases parameters with
  | nil =>
      rw [writeParameters]
      exact hr.mono (by simp)
  | cons p ps =>
      rw [writeParameters]
      exact .cons (by simp) _

theorem heads_writeFragment (fragment : Option String) {rest : List Char} (hr : Heads ['+', '|', ']'] rest) :
    Heads ['#', '+', '|', ']'] (writeFragment fragment ++ rest) := by
  cases fragment with
  | none => exact hr.mono (by simp)
  | some f => exact .cons (by simp) _

theorem parseFragment_write (fragment : Option String) {rest : List Char} (hr : Heads ['+', '|', ']'] rest) :
    parseFragment (writeFragment fragment ++ rest) = .ok (fragment, rest) := by
  cases fragment with
  | none =>
      cases rest with
      | nil => rfl
      | cons c rest =>
          have hash : c ≠ '#' := by
            rintro rfl
            exact absurd (hr _ rfl) (by decide)
          unfold parseFragment
          split
          next heq => exact absurd (List.cons.inj heq).1 hash
          next => rfl
  | some f =>
      have plain : ∀ c ∈ encodePath f, isPlain c = true := fun c hc => isPlain_of_isName (isName_of_mem_encodePath hc)
      have read := token_append plain (hr.ends (by decide))
      show (do
        let text ← decodeToken (token isPlain (encodePath f ++ rest)).1 (encodePath f ++ rest)
        pure (some text, (token isPlain (encodePath f ++ rest)).2)) = _
      rw [read, decodeToken, Text.Percent.decode?_encodePath]
      rfl

theorem parseFormat_write {format : Option String} (hf : ∀ f ∈ format, IsToken isWord f) {rest : List Char}
    (hr : Heads [']'] rest) : parseFormat (writeFormat format ++ rest) = .ok (format, rest) := by
  cases format with
  | none =>
      have trimmed : trimStart rest = rest := hr.trimStart (by decide)
      unfold parseFormat
      split
      next after heq =>
        have bar := hr '|' (by rw [← trimmed]; exact heq ▸ rfl)
        exact absurd bar (by decide)
      next => rfl
  | some f =>
      obtain ⟨nonempty, word⟩ := hf f rfl
      have read := token_append word (hr.ends (p := isWord) (by decide))
      have trimmed : trimStart (f.toList ++ rest) = f.toList ++ rest := by
        obtain ⟨c, cs, hl⟩ := List.exists_cons_of_ne_nil nonempty
        rw [hl]
        exact Text.trimStart_cons (of_isWord (word c (hl ▸ List.mem_cons_self))).1 _
      show (if (token isWord (trimStart (f.toList ++ rest))).1 = [] then Except.error _
        else Except.ok (some (String.ofList (token isWord (trimStart (f.toList ++ rest))).1),
          (token isWord (trimStart (f.toList ++ rest))).2)) = _
      rw [trimmed, read, if_neg nonempty, String.ofList_toList]

/-- A parameter with a URI for its value is read, behind its plus sign, if that is. -/
theorem parseParameter_nested {nested : List Char → Except Stop (Uri × List Char)} {key : String}
    (hk : IsToken isKey key) {u : Uri} {cs rest : List Char} (hn : nested cs = .ok (u, rest)) :
    parseParameter nested (key.toList ++ '@' :: cs) = .ok ((key, u), rest) := by
  obtain ⟨nonempty, word⟩ := hk
  have hkey : token isKey (key.toList ++ '@' :: cs) = (key.toList, '@' :: cs) := by
    refine token_append word ?_
    rintro c ⟨⟩
    rfl
  unfold parseParameter
  rw [hkey]
  show (if key.toList = [] then Except.error _
    else nested cs >>= fun r => pure ((String.ofList key.toList, r.1), r.2)) = _
  rw [if_neg nonempty, hn, String.ofList_toList]
  rfl

/-- The parameters of a canonical form are read one after the other; their keys ascend, so each comes behind
those that were read before it. -/
theorem parseParameters_write {nested : List Char → Except Stop (Uri × List Char)}
    {parameters : List (String × Uri)} (keys : ∀ p ∈ parameters, IsToken isKey p.1)
    (hn : ∀ p ∈ parameters, ∀ rest, nested ('[' :: p.2.write ++ ']' :: rest) = .ok (p.2, rest))
    {done : List (String × Uri)} (ascending : Table.Ascending (done ++ parameters)) {n : Nat}
    (enough : parameters.length ≤ n) {rest : List Char} (hr : Heads ['|', ']'] rest) :
    parseParameters nested done n (writeParameters parameters ++ rest) = .ok (done ++ parameters, rest) := by
  induction parameters generalizing done n with
  | nil =>
      rw [writeParameters, List.nil_append, List.append_nil]
      cases n with
      | zero => rfl
      | succ n =>
          have trimmed : trimStart rest = rest := hr.trimStart (by decide)
          unfold parseParameters
          split
          next after heq =>
            have plus := hr '+' (by rw [← trimmed]; exact heq ▸ rfl)
            exact absurd plus (by decide)
          next => rfl
  | cons p ps ih =>
      obtain ⟨key, u⟩ := p
      obtain ⟨n, rfl⟩ : ∃ m, n = m + 1 := ⟨n - 1, by simp at enough; omega⟩
      have one := parseParameter_nested (keys (key, u) List.mem_cons_self)
        (hn (key, u) List.mem_cons_self (writeParameters ps ++ rest))
      have last : Table.insert key u done = done ++ [(key, u)] := by
        refine Table.insert_of_forall_lt u fun x hx => ?_
        have ascends : (Table.keys done ++ key :: Table.keys ps).Pairwise (· < ·) := by
          simpa [Table.Ascending, Table.keys] using ascending
        exact (List.pairwise_append.mp ascends).2.2 x hx key List.mem_cons_self
      have text : writeParameters ((key, u) :: ps) ++ rest
          = '+' :: (key.toList ++ '@' :: ('[' :: u.write ++ ']' :: (writeParameters ps ++ rest))) := by
        simp [writeParameters]
      have ascending' : Table.Ascending (done ++ [(key, u)] ++ ps) := by
        rwa [List.append_assoc]
      have onward := ih (fun p hp => keys p (List.mem_cons_of_mem _ hp))
        (fun p hp => hn p (List.mem_cons_of_mem _ hp)) ascending' (Nat.le_of_succ_le_succ enough)
      rw [text, parseParameters, Text.trimStart_cons rfl]
      show (parseParameter nested
          (key.toList ++ '@' :: ('[' :: u.write ++ ']' :: (writeParameters ps ++ rest))) >>= fun r =>
        parseParameters nested (Table.insert r.1.1 r.1.2 done) n r.2) = _
      rw [one]
      show parseParameters nested (Table.insert key u done) n (writeParameters ps ++ rest) = _
      rw [last, onward, List.append_assoc]
      rfl

/-- A text that begins with a character of a word is no alias. -/
theorem parseReference_of_isWord (nested : List Char → Except Stop (Uri × List Char)) {c : Char}
    (h : isWord c = true) (cs : List Char) : parseReference nested (c :: cs) = parseUri nested (c :: cs) := by
  obtain ⟨blank, tilde, -⟩ := of_isWord h
  unfold parseReference
  rw [Text.trimStart_cons blank]
  split
  next heq => exact absurd (List.cons.inj heq).1 tilde
  next => rfl

/-- A text that begins with a character of a word has no brackets. -/
theorem parseCompound_of_isWord (n : Nat) {c : Char} (h : isWord c = true) (cs : List Char) :
    parseCompound (n + 1) (c :: cs) = parseReference (parseCompound n) (c :: cs) := by
  obtain ⟨blank, -, bracket⟩ := of_isWord h
  unfold parseCompound
  rw [Text.trimStart_cons blank]
  split
  next heq => exact absurd (List.cons.inj heq).1 bracket
  next => rfl

/-- After a reference in brackets the bracket is to be closed. -/
def close (u : Uri) (cs : List Char) : Except Stop (Uri × List Char) :=
  match trimStart cs with
  | ']' :: rest => .ok (u, rest)
  | rest => .error ⟨.closing, rest⟩

/-- What is read inside brackets. -/
theorem parseCompound_bracketed {n : Nat} {u : Uri} {inner rest : List Char}
    (h : parseReference (parseCompound n) (inner ++ ']' :: rest) = .ok (u, ']' :: rest)) :
    parseCompound (n + 1) ('[' :: inner ++ ']' :: rest) = .ok (u, rest) := by
  rw [List.cons_append, parseCompound, Text.trimStart_cons rfl]
  show (parseReference (parseCompound n) (inner ++ ']' :: rest) >>= fun r => close r.1 r.2) = _
  rw [h]
  show close u (']' :: rest) = _
  rw [close, Text.trimStart_cons rfl]
  rfl

theorem length_le_length_writeParameters (parameters : List (String × Uri)) :
    parameters.length ≤ (writeParameters parameters).length := by
  induction parameters with
  | nil => exact Nat.zero_le _
  | cons p ps ih =>
      simp only [writeParameters, List.length_cons, List.length_append]
      omega

/-- A nested URI is written shorter than the parameters it is among. -/
theorem length_write_lt {parameters : List (String × Uri)} {p : String × Uri} (h : p ∈ parameters) :
    p.2.write.length < (writeParameters parameters).length := by
  induction parameters with
  | nil => exact absurd h (by simp)
  | cons q ps ih =>
      simp only [writeParameters, List.length_cons, List.length_append]
      rcases List.mem_cons.mp h with rfl | h
      · omega
      · have shorter := ih h
        omega

/-- The canonical form of a well-formed URI is read up to its end. The induction is on the nesting; a nested
URI stands in brackets and has less text, so there are steps enough for it. -/
theorem parseReference_write {u : Uri} (h : WellFormed u) (n : Nat) {rest : List Char} (hn : u.write.length ≤ n)
    (hr : Heads [']'] rest) : parseReference (parseCompound n) (u.write ++ rest) = .ok (u, rest) := by
  induction h generalizing n rest with
  | @mk scheme name fragment parameters format hs ascending keys nested hf ih =>
      have text := write_append hs name fragment parameters format []
      have longer : (writeParameters parameters).length ≤ n := by
        rw [List.append_nil] at text
        rw [text] at hn
        simp only [List.length_append, List.length_cons] at hn
        omega
      have bracketed : ∀ p ∈ parameters, ∀ rest,
          parseCompound n ('[' :: p.2.write ++ ']' :: rest) = .ok (p.2, rest) := by
        intro p hp rest
        have shorter := length_write_lt hp
        obtain ⟨n, rfl⟩ : ∃ m, n = m + 1 := ⟨n - 1, by omega⟩
        exact parseCompound_bracketed (ih p hp n (by omega) (.cons (by simp) rest))
      have first : Table.Ascending ([] ++ parameters) := ascending
      have headsFormat := heads_writeFormat format hr
      have headsParameters := heads_writeParameters parameters headsFormat
      have headsFragment := heads_writeFragment fragment headsParameters
      have enough : parameters.length ≤ (writeParameters parameters ++ (writeFormat format ++ rest)).length := by
        have fits := length_le_length_writeParameters parameters
        rw [List.length_append]
        omega
      have uri := parseUri_append (parseCompound n) hs (fun c hc => isName_of_mem_encodePath hc)
        (Text.Percent.decode?_encodePath name) (headsFragment.ends (p := isName) (by decide))
      rw [parseFragment_write fragment headsParameters] at uri
      obtain ⟨c, cs, hl, hc, -⟩ := id hs
      rw [write_append hs, hl, List.cons_append, parseReference_of_isWord _ (isWord_of_isLetter hc),
        ← List.cons_append, ← hl, uri]
      show (do
        let (parameters, rest) ← parseParameters (parseCompound n) []
          (writeParameters parameters ++ (writeFormat format ++ rest)).length
          (writeParameters parameters ++ (writeFormat format ++ rest))
        let (format, rest) ← parseFormat rest
        pure (mk scheme name fragment parameters format, rest)) = _
      rw [parseParameters_write keys bracketed first enough headsFormat]
      show (do
        let (format, rest) ← parseFormat (writeFormat format ++ rest)
        pure (mk scheme name fragment parameters format, rest)) = _
      rw [parseFormat_write hf hr]
      rfl

/-- Canonical forms are read back: every part of a well-formed URI, at every depth. -/
theorem parse_canonical {u : Uri} (h : WellFormed u) : parse u.canonical = .ok u := by
  have read := parseReference_write h u.write.length (Nat.le_refl _) (.nil [']'])
  have head : ∃ c cs, u.write = c :: cs ∧ isWord c = true := by
    cases h with
    | @mk scheme name fragment parameters format hs ascending keys nested hf =>
        obtain ⟨c, cs, hl, hc, -⟩ := id hs
        have text := write_append hs name fragment parameters format []
        rw [List.append_nil, hl] at text
        exact ⟨c, _, text, isWord_of_isLetter hc⟩
  have text : parseText u.write = .ok u := by
    obtain ⟨c, cs, hw, hc⟩ := head
    have compound := parseCompound_of_isWord u.write.length hc cs
    rw [← hw] at compound
    rw [List.append_nil] at read
    rw [parseText, compound, read]
    rfl
  rw [parse, canonical, String.toList_ofList, text]

/-! ## What is parsed is well formed -/

theorem isToken_of_token {p : Char → Bool} {cs : List Char} (h : (token p cs).1 ≠ []) :
    IsToken p (String.ofList (token p cs).1) := by
  rw [IsToken, String.toList_ofList]
  exact ⟨h, fun c hc => of_mem_token hc⟩

theorem isScheme_of_schemeToken {cs : List Char} (h : (schemeToken cs).1 ≠ []) :
    IsScheme (String.ofList (schemeToken cs).1) := by
  cases cs with
  | nil => exact absurd rfl h
  | cons c cs =>
      rw [schemeToken] at h ⊢
      split at h
      next letter =>
        rw [if_pos letter]
        exact ⟨c, cs.takeWhile isWord, String.toList_ofList, letter, fun d hd => of_mem_token hd⟩
      next => exact absurd rfl h

theorem isToken_of_parseFormat {cs rest : List Char} {format : Option String}
    (h : parseFormat cs = .ok (format, rest)) : ∀ f ∈ format, IsToken isWord f := by
  unfold parseFormat at h
  split at h
  next after _ =>
    change (if (token isWord (trimStart after)).1 = [] then Except.error (Stop.mk .format after)
      else Except.ok (some (String.ofList (token isWord (trimStart after)).1), _)) = _ at h
    split at h
    next => exact absurd h (by simp)
    next nonempty =>
      obtain ⟨rfl, -⟩ := Prod.mk.inj (Except.ok.inj h)
      rintro f ⟨⟩
      exact isToken_of_token nonempty
  next =>
    obtain ⟨rfl, -⟩ := Prod.mk.inj (Except.ok.inj h)
    exact fun f hf => absurd hf (by simp)

/-- A literal is well formed. -/
theorem wellFormed_literal (text : String) : WellFormed (literal text) := by
  refine .mk ⟨'s', [], rfl, rfl, by simp⟩ List.Pairwise.nil (by simp) (by simp) (by simp)

/-- The parameters of a well-formed URI. -/
structure Proper (parameters : List (String × Uri)) : Prop where
  ascending : Table.Ascending parameters
  keys : ∀ p ∈ parameters, IsToken isKey p.1
  nested : ∀ p ∈ parameters, WellFormed p.2

theorem Proper.nil : Proper [] := ⟨List.Pairwise.nil, by simp, by simp⟩

theorem Proper.insert {parameters : List (String × Uri)} (h : Proper parameters) {key : String} {u : Uri}
    (hkey : IsToken isKey key) (hu : WellFormed u) : Proper (Table.insert key u parameters) where
  ascending := Table.ascending_insert key u h.ascending
  keys p hp := by
    rcases Table.mem_insert hp with rfl | hp
    · exact hkey
    · exact h.keys p hp
  nested p hp := by
    rcases Table.mem_insert hp with rfl | hp
    · exact hu
    · exact h.nested p hp

/-- A reader succeeds if what it reads first, and what it reads then, succeed. -/
theorem bind_eq_ok {α β : Type} {x : Except Stop α} {f : α → Except Stop β} {b : β} :
    (x >>= f) = .ok b ↔ ∃ a, x = .ok a ∧ f a = .ok b := by
  cases x <;> simp [bind, Except.bind]

section

variable {nested : List Char → Except Stop (Uri × List Char)}

theorem proper_of_parseParameter (hn : ∀ cs u rest, nested cs = .ok (u, rest) → WellFormed u)
    {cs rest : List Char} {key : String} {u : Uri} (h : parseParameter nested cs = .ok ((key, u), rest)) :
    IsToken isKey key ∧ WellFormed u := by
  unfold parseParameter at h
  split at h
  next key' after hkey =>
    split at h
    next => exact absurd h (by simp)
    next nonempty =>
      obtain rfl : (token isKey cs).1 = key' := by rw [hkey]
      have tokened := isToken_of_token nonempty
      split at h
      next after =>
        obtain ⟨⟨v, rest'⟩, hv, h⟩ := bind_eq_ok.mp h
        obtain ⟨hk, -⟩ := Prod.mk.inj (Except.ok.inj h)
        obtain ⟨rfl, rfl⟩ := Prod.mk.inj hk
        exact ⟨tokened, hn _ _ _ hv⟩
      next after =>
        obtain ⟨text, -, h⟩ := bind_eq_ok.mp h
        obtain ⟨hk, -⟩ := Prod.mk.inj (Except.ok.inj h)
        obtain ⟨rfl, rfl⟩ := Prod.mk.inj hk
        exact ⟨tokened, wellFormed_literal text⟩
      next => exact absurd h (by simp)

theorem proper_of_parseParameters (hn : ∀ cs u rest, nested cs = .ok (u, rest) → WellFormed u)
    {done parameters : List (String × Uri)} (hd : Proper done) {n : Nat} {cs rest : List Char}
    (h : parseParameters nested done n cs = .ok (parameters, rest)) : Proper parameters := by
  induction n generalizing done cs with
  | zero =>
      obtain ⟨rfl, -⟩ := Prod.mk.inj (Except.ok.inj h)
      exact hd
  | succ n ih =>
      unfold parseParameters at h
      split at h
      next after _ =>
        obtain ⟨⟨⟨key, u⟩, rest'⟩, hp, h⟩ := bind_eq_ok.mp h
        obtain ⟨hkey, hu⟩ := proper_of_parseParameter hn hp
        exact ih (hd.insert hkey hu) h
      next =>
        obtain ⟨rfl, -⟩ := Prod.mk.inj (Except.ok.inj h)
        exact hd

theorem wellFormed_of_parseUri (hn : ∀ cs u rest, nested cs = .ok (u, rest) → WellFormed u)
    {cs rest : List Char} {u : Uri} (h : parseUri nested cs = .ok (u, rest)) : WellFormed u := by
  unfold parseUri at h
  split at h
  next scheme after hscheme =>
    split at h
    next => exact absurd h (by simp)
    next nonempty =>
      obtain rfl : (schemeToken cs).1 = scheme := by rw [hscheme]
      split at h
      next after =>
        obtain ⟨name, -, h⟩ := bind_eq_ok.mp h
        obtain ⟨⟨fragment, rest₁⟩, -, h⟩ := bind_eq_ok.mp h
        obtain ⟨⟨parameters, rest₂⟩, hp, h⟩ := bind_eq_ok.mp h
        obtain ⟨⟨format, rest₃⟩, hf, h⟩ := bind_eq_ok.mp h
        obtain ⟨rfl, -⟩ := Prod.mk.inj (Except.ok.inj h)
        have proper := proper_of_parseParameters hn .nil hp
        exact .mk (isScheme_of_schemeToken nonempty) proper.ascending proper.keys proper.nested
          (isToken_of_parseFormat hf)
      next => exact absurd h (by simp)

theorem wellFormed_of_parseReference (hn : ∀ cs u rest, nested cs = .ok (u, rest) → WellFormed u)
    {cs rest : List Char} {u : Uri} (h : parseReference nested cs = .ok (u, rest)) : WellFormed u := by
  unfold parseReference at h
  split at h
  next after _ =>
    split at h
    next raw rest₁ hraw =>
      split at h
      next => exact absurd h (by simp [bind, Except.bind, throw, throwThe, MonadExceptOf.throw])
      next =>
        obtain ⟨-, -, h⟩ := bind_eq_ok.mp h
        obtain ⟨name, -, h⟩ := bind_eq_ok.mp h
        obtain ⟨⟨format, rest₂⟩, hf, h⟩ := bind_eq_ok.mp h
        obtain ⟨rfl, -⟩ := Prod.mk.inj (Except.ok.inj h)
        exact .mk ⟨'a', [], rfl, rfl, by simp⟩ List.Pairwise.nil (by simp) (by simp) (isToken_of_parseFormat hf)
  next => exact wellFormed_of_parseUri hn h

end

/-- What is read is well formed, however deep it is nested. -/
theorem wellFormed_of_parseCompound (n : Nat) (cs : List Char) (u : Uri) (rest : List Char)
    (h : parseCompound n cs = .ok (u, rest)) : WellFormed u := by
  induction n generalizing cs u rest with
  | zero => exact absurd h (by simp [parseCompound])
  | succ n ih =>
      unfold parseCompound at h
      split at h
      next inner _ =>
        obtain ⟨⟨v, rest₁⟩, hv, h⟩ := bind_eq_ok.mp h
        have formed := wellFormed_of_parseReference ih hv
        change close v rest₁ = _ at h
        unfold close at h
        split at h
        next =>
          obtain ⟨rfl, -⟩ := Prod.mk.inj (Except.ok.inj h)
          exact formed
        next => exact absurd h (by simp)
      next => exact wellFormed_of_parseReference ih h

/-- After a whole reference the text is to end. -/
def ending (u : Uri) (cs : List Char) : Except Stop Uri :=
  match trimStart cs with
  | [] => .ok u
  | rest => .error ⟨.ending, rest⟩

/-- What is parsed is well formed. -/
theorem wellFormed_of_parse {text : String} {u : Uri} (h : parse text = .ok u) : WellFormed u := by
  unfold parse at h
  split at h
  next v hv =>
    obtain rfl := Except.ok.inj h
    obtain ⟨⟨w, rest⟩, hw, hv⟩ := bind_eq_ok.mp hv
    change ending w rest = _ at hv
    unfold ending at hv
    split at hv
    next =>
      obtain rfl := Except.ok.inj hv
      exact wellFormed_of_parseCompound _ _ _ _ hw
    next => exact absurd hv (by simp)
  next => exact absurd h (by simp)

/-! ## The round trip -/

/-- The canonical form says all of a URI. A well-formed URI is parsed from it with all its parts, and whatever
is parsed is well formed. So what was parsed has a canonical form that is parsed to the same canonical form,
and URIs that were parsed are equal just if all their parts are the same. -/
theorem canonical_round_trip :
    (∀ u, WellFormed u → parse u.canonical = .ok u) ∧ (∀ text u, parse text = .ok u → WellFormed u) ∧
      (∀ text u, parse text = .ok u → ∃ v, parse u.canonical = .ok v ∧ v.canonical = u.canonical) ∧
      ∀ text text' u v, parse text = .ok u → parse text' = .ok v → (u.equals v = true ↔ u = v) := by
  refine ⟨fun u => parse_canonical, fun text u => wellFormed_of_parse, fun text u h => ?_,
    fun text text' u v h h' => ?_⟩
  · exact ⟨u, parse_canonical (wellFormed_of_parse h), rfl⟩
  · rw [equals_iff]
    constructor
    · intro same
      have read := parse_canonical (wellFormed_of_parse h)
      rw [same, parse_canonical (wellFormed_of_parse h')] at read
      exact (Except.ok.inj read).symm
    · exact fun same => same ▸ rfl

/-- A text as people write it, with blanks, a literal and a nested URI without brackets, and what it says in
canonical form. -/
theorem canonical_round_trip_button :
    ∃ u, parse "[ make:Button +title=Go +color@named:red ]" = .ok u ∧
      u.canonical = "make:Button+color@[named:red]+title@[s:Go]" ∧ parse u.canonical = .ok u := by
  have reads : (match parse "[ make:Button +title=Go +color@named:red ]" with
      | .ok u => decide (u.canonical = "make:Button+color@[named:red]+title@[s:Go]")
      | .error _ => false) = true := by decide +kernel
  obtain ⟨back, formed, -⟩ := canonical_round_trip
  split at reads
  next u h => exact ⟨u, h, of_decide_eq_true reads, back u (formed _ u h)⟩
  next => exact absurd reads (by simp)

end ObjectGraph.Uri
