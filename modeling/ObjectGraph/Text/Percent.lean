import ObjectGraph.Text.Octets
import ObjectGraph.Text.Split

/-!
# `Text.Percent` — percent-encoding

Encoding writes every octet except the unreserved ones (letters, digits and `-_.~`) as a percent
sign and two hexadecimal digits. Decoding is lenient: a percent sign that no two digits follow
stands for itself; but the octets decoded must be UTF-8.

Contents:
* `encode`, `decode?` and the path form `encodePath`, which leaves `/` in place;
* `isUnreserved`, `mem_encode` and `mem_encodePath`: what can stand in encoded text;
* `decode?_encode`, `decode?_encodePath`: every text comes back;
* `encodePath_unreserved`, texts that stand for themselves.
-/

namespace ObjectGraph.Text.Percent

/-- Octets that stand for themselves in encoded text. -/
def isUnreserved (b : UInt8) : Bool :=
  let n := b.toNat
  (0x30 ≤ n && n ≤ 0x39) || (0x41 ≤ n && n ≤ 0x5A) || (0x61 ≤ n && n ≤ 0x7A)
    || n == 0x2D || n == 0x5F || n == 0x2E || n == 0x7E

/-- The encoded form of one octet. -/
def encodeOctet (b : UInt8) : List Char :=
  if isUnreserved b then [Char.ofNat b.toNat] else '%' :: hexPair b

/-- The encoded form of a text. -/
def encode (s : String) : List Char := (octets s).flatMap encodeOctet

/-- The octets that encoded text stands for. -/
def decodeOctets : List Char → List UInt8
  | [] => []
  | '%' :: c :: d :: cs =>
      match hexValue? c, hexValue? d with
      | some hi, some lo => UInt8.ofNat (16 * hi + lo) :: decodeOctets cs
      | _, _ => 0x25 :: decodeOctets (c :: d :: cs)
  | c :: cs => String.utf8EncodeChar c ++ decodeOctets cs

/-- The text that encoded text stands for; `none` when its octets are no UTF-8. -/
def decode? (cs : List Char) : Option String := ofOctets? (decodeOctets cs)

/-- The encoded form of a path: each segment encoded, the slashes left in place. -/
def encodePath (s : String) : List Char :=
  join '/' ((split '/' s.toList).map fun segment => encode (String.ofList segment))

/-! ## Decoding what was encoded -/

/-- An unreserved octet is a character of its own, and that is neither a percent sign nor a slash. -/
theorem utf8EncodeChar_unreserved {b : UInt8} (h : isUnreserved b = true) :
    Char.ofNat b.toNat ≠ '%' ∧ Char.ofNat b.toNat ≠ '/'
      ∧ String.utf8EncodeChar (Char.ofNat b.toNat) = [b] := by
  have key : ∀ b : Fin 256, isUnreserved (UInt8.ofNat b.val) = true →
      Char.ofNat b.val ≠ '%' ∧ Char.ofNat b.val ≠ '/'
        ∧ String.utf8EncodeChar (Char.ofNat b.val) = [UInt8.ofNat b.val] := by
    decide +kernel
  have hb : UInt8.ofNat b.toNat = b := by simp
  have fact := key ⟨b.toNat, b.toNat_lt⟩ (by simpa using h)
  rwa [hb] at fact

/-- A character that is one octet, and no percent sign, decodes to that octet. -/
theorem decodeOctets_unreserved {b : UInt8} (h : isUnreserved b = true) (cs : List Char) :
    decodeOctets (Char.ofNat b.toNat :: cs) = b :: decodeOctets cs := by
  obtain ⟨hne, -, henc⟩ := utf8EncodeChar_unreserved h
  rw [decodeOctets.eq_def]
  split
  · rename_i heq; simp at heq
  · rename_i heq; exact absurd (List.cons.inj heq).1 hne
  · rename_i heq
    obtain ⟨rfl, rfl⟩ := List.cons.inj heq
    rw [henc]; rfl

/-- One encoded octet in front decodes to that octet. -/
theorem decodeOctets_encodeOctet (b : UInt8) (cs : List Char) :
    decodeOctets (encodeOctet b ++ cs) = b :: decodeOctets cs := by
  by_cases h : isUnreserved b = true
  · simp [encodeOctet, h, decodeOctets_unreserved h]
  · have hb : b.toNat < 256 := b.toNat_lt
    have hi : b.toNat / 16 < 16 := by omega
    have lo : b.toNat % 16 < 16 := by omega
    have sum : 16 * (b.toNat / 16) + b.toNat % 16 = b.toNat := by omega
    simp [encodeOctet, h, hexPair, decodeOctets, hexValue?_hexDigit hi,
      hexValue?_hexDigit lo, sum]

/-- Encoded octets in front decode to those octets. -/
theorem decodeOctets_flatMap_append (bs : List UInt8) (cs : List Char) :
    decodeOctets (bs.flatMap encodeOctet ++ cs) = bs ++ decodeOctets cs := by
  induction bs with
  | nil => rfl
  | cons b bs ih => simp [List.append_assoc, decodeOctets_encodeOctet, ih]

/-- Every text comes back from its encoded form. -/
theorem decode?_encode (s : String) : decode? (encode s) = some s := by
  have h := decodeOctets_flatMap_append (octets s) []
  simp only [List.append_nil, decodeOctets] at h
  rw [decode?, encode, h, ofOctets?_octets]

/-- An encoded text in front of others decodes to its octets. -/
theorem decodeOctets_encode_append (s : String) (cs : List Char) :
    decodeOctets (encode s ++ cs) = octets s ++ decodeOctets cs :=
  decodeOctets_flatMap_append (octets s) cs

/-- Encoded pieces with slashes between them decode to the octets of the pieces with slashes between them. -/
theorem decodeOctets_join {pieces : List (List Char)} (h : pieces ≠ []) :
    decodeOctets (join '/' (pieces.map fun piece => encode (String.ofList piece)))
      = octets (String.ofList (join '/' pieces)) := by
  induction pieces with
  | nil => exact absurd rfl h
  | cons piece pieces ih =>
      by_cases hp : pieces = []
      · subst hp
        have single := decodeOctets_encode_append (String.ofList piece) []
        rw [List.append_nil, decodeOctets, List.append_nil] at single
        exact single
      · have hmap : pieces.map (fun piece => encode (String.ofList piece)) ≠ [] := by simpa using hp
        have slash : ∀ cs, decodeOctets ('/' :: cs) = String.utf8EncodeChar '/' ++ decodeOctets cs := by
          intro cs
          simp [decodeOctets]
        rw [List.map_cons, join_cons hmap, join_cons hp, decodeOctets_encode_append, slash, ih hp,
          octets_ofList, octets_ofList, octets_ofList, List.flatMap_append, List.flatMap_cons]

/-- Every text comes back from its encoded form as a path. -/
theorem decode?_encodePath (s : String) : decode? (encodePath s) = some s := by
  rw [decode?, encodePath, decodeOctets_join (split_ne_nil '/' s.toList), join_split, String.ofList_toList,
    ofOctets?_octets]

/-! ## What stands in encoded text -/

/-- Encoded text holds unreserved characters and percent signs only. -/
theorem mem_encodeOctet {b : UInt8} {c : Char} (h : c ∈ encodeOctet b) :
    c = '%' ∨ ∃ a : UInt8, isUnreserved a = true ∧ c = Char.ofNat a.toNat := by
  have digits : ∀ m : Fin 16, ∃ a : UInt8, isUnreserved a = true
      ∧ hexDigit m.val = Char.ofNat a.toNat := by
    intro m
    refine ⟨UInt8.ofNat (hexDigit m.val).toNat, ?_⟩
    revert m
    decide
  by_cases hb : isUnreserved b = true
  · simp only [encodeOctet, hb, if_true, List.mem_singleton] at h
    exact Or.inr ⟨b, hb, h⟩
  · have hlt : b.toNat < 256 := b.toNat_lt
    simp only [encodeOctet, hb, Bool.false_eq_true, if_false, hexPair, List.mem_cons,
      List.not_mem_nil, or_false] at h
    rcases h with h | h | h
    · exact Or.inl h
    · obtain ⟨a, ha, he⟩ := digits ⟨b.toNat / 16, by omega⟩
      exact Or.inr ⟨a, ha, h.trans he⟩
    · obtain ⟨a, ha, he⟩ := digits ⟨b.toNat % 16, by omega⟩
      exact Or.inr ⟨a, ha, h.trans he⟩

/-- Encoded text holds unreserved characters and percent signs only. -/
theorem mem_encode {s : String} {c : Char} (h : c ∈ encode s) :
    c = '%' ∨ ∃ a : UInt8, isUnreserved a = true ∧ c = Char.ofNat a.toNat := by
  obtain ⟨b, _, hb⟩ := List.mem_flatMap.1 h
  exact mem_encodeOctet hb

/-- An encoded path holds slashes besides. -/
theorem mem_encodePath {s : String} {c : Char} (h : c ∈ encodePath s) :
    c = '/' ∨ c = '%' ∨ ∃ a : UInt8, isUnreserved a = true ∧ c = Char.ofNat a.toNat := by
  refine (mem_join h).imp_right fun ⟨piece, hp, hc⟩ => ?_
  obtain ⟨segment, -, rfl⟩ := List.mem_map.mp hp
  exact mem_encode hc

/-- A text of unreserved characters is its own encoded form. -/
theorem encode_unreserved {cs : List Char}
    (h : ∀ c ∈ cs, ∃ a : UInt8, isUnreserved a = true ∧ c = Char.ofNat a.toNat) :
    encode (String.ofList cs) = cs := by
  rw [encode, octets_ofList]
  induction cs with
  | nil => rfl
  | cons c cs ih =>
      obtain ⟨a, ha, rfl⟩ := h c List.mem_cons_self
      have octet := (utf8EncodeChar_unreserved ha).2.2
      have own : encodeOctet a = [Char.ofNat a.toNat] := if_pos ha
      rw [List.flatMap_cons, octet, List.flatMap_append, List.flatMap_cons, List.flatMap_nil, own,
        ih fun d hd => h d (List.mem_cons_of_mem _ hd)]
      rfl

/-- A text of unreserved characters is its own encoded form as a path. -/
theorem encodePath_unreserved {s : String}
    (h : ∀ c ∈ s.toList, ∃ a : UInt8, isUnreserved a = true ∧ c = Char.ofNat a.toNat) :
    encodePath s = s.toList := by
  have noSlash : '/' ∉ s.toList := by
    intro hs
    obtain ⟨a, ha, he⟩ := h '/' hs
    exact (utf8EncodeChar_unreserved ha).2.1 he.symm
  rw [encodePath, split_of_not_mem noSlash, List.map_singleton]
  exact encode_unreserved h

end ObjectGraph.Text.Percent
