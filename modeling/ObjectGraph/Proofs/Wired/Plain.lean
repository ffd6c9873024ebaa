import ObjectGraph.Build.Node
import ObjectGraph.Proofs.Canonical
import ObjectGraph.Proofs.Keys

/-!
# `Proofs.Wired.Plain` — plain data

Plain data is made of scalars, texts that stand for themselves, references to names, lists and maps; a map
may name a class, which is one of records or unknown. Nothing in it is merged, inherited or filled in.

Contents:
* `Refers`, `PlainKey` and how to decide it; `Json.Plain`;
* `Json.classOf?`, `Json.entryOf?`, `Json.depth`;
* `refers_encode`, how a reference is written;
* `Json.index?_eq`, `Json.index?_natText`; what plain data has under a key, and the keys of its entries.
-/

namespace ObjectGraph

open Container (andClassKey classKey typeKey factoryKey andMark)

/-! ## Plain texts and keys -/

/-- A text that refers to a name, and says nothing else. -/
def Refers (s n : String) : Prop :=
  IsName n ∧ ∃ rest, s.toList = '@' :: rest ∧ Uri.parse (String.ofList rest) = .ok (.simple "named" n)

/-- A key of plain data: it names an entry or a class, and says neither what to merge nor how to build. -/
structure PlainKey (key : String) : Prop where
  isName : IsName key
  undirected : ∀ c ∈ key.toList.head?, c ≠ '*' ∧ c ≠ '$'
  unmarked : andMark.toList.isPrefixOf key.toList = false
  unhinted : key ≠ andClassKey ∧ key ≠ typeKey ∧ key ≠ factoryKey

instance (key : String) : Decidable (PlainKey key) :=
  have : Decidable (∀ c ∈ key.toList.head?, c ≠ '*' ∧ c ≠ '$') := Option.decidableForallMem key.toList.head?
  decidable_of_iff
    (IsName key ∧ (∀ c ∈ key.toList.head?, c ≠ '*' ∧ c ≠ '$') ∧ andMark.toList.isPrefixOf key.toList = false ∧
      key ≠ andClassKey ∧ key ≠ typeKey ∧ key ≠ factoryKey)
    ⟨fun ⟨h, hu, hm, hh⟩ => ⟨h, hu, hm, hh⟩, fun ⟨h, hu, hm, hh⟩ => ⟨h, hu, hm, hh⟩⟩

/-- The constructor of records that hold nothing. -/
def Constructor.record : Constructor := .ofComponent (.fresh .record [])

/-- A class of records, or none at all. -/
def TypeRegistry.PlainClass (types : TypeRegistry) (c : String) : Prop :=
  types.constructor? c = some .record ∨ types.constructor? c = none

namespace Json

/-- Plain data. Rows are shorter than addresses go. -/
inductive Plain (types : TypeRegistry) : Json → Prop
  | null : Plain types .null
  | bool (b : Bool) : Plain types (.bool b)
  | number (n : Number) : Plain types (.number n)
  | text {s : String} (hs : Unprefixed s) : Plain types (.string s)
  | reference {s n : String} (hs : Refers s n) : Plain types (.string s)
  | array {items : List Json} (short : items.length < Nat.pow 2 64) (hi : ∀ j ∈ items, Plain types j) :
      Plain types (.array items)
  | object {members : List (String × Json)} (nodup : (Table.keys members).Nodup)
      (keys : ∀ m ∈ members, PlainKey m.1)
      (hint : ∀ j, (classKey, j) ∈ members → ∃ c, j = .string c ∧ Unprefixed c ∧ types.PlainClass c)
      (hm : ∀ m ∈ members, m.1 ≠ classKey → Plain types m.2) : Plain types (.object members)

/-- The class that a map names. -/
def classOf? (members : List (String × Json)) : Option String :=
  match members.lookup classKey with
  | some (.string c) => some c
  | _ => none

/-- What a map has for a property or an entry. -/
def entryOf? (members : List (String × Json)) (key : String) : Option Json :=
  if key = classKey then none else members.lookup key

mutual

/-- How deep lists and maps are nested. -/
def depth : Json → Nat
  | .array items => depthOfItems items + 1
  | .object members => depthOfMembers members + 1
  | _ => 0

/-- How deep some items are nested. -/
def depthOfItems : List Json → Nat
  | [] => 0
  | j :: js => max (depth j) (depthOfItems js)

/-- How deep some members are nested. -/
def depthOfMembers : List (String × Json) → Nat
  | [] => 0
  | (_, j) :: ms => max (depth j) (depthOfMembers ms)

end

theorem depth_le_of_mem_items {j : Json} {items : List Json} (h : j ∈ items) :
    j.depth ≤ depthOfItems items := by
  induction items with
  | nil => exact absurd h (by simp)
  | cons i items ih =>
      rw [depthOfItems]
      rcases List.mem_cons.mp h with rfl | h
      · exact Nat.le_max_left _ _
      · exact Nat.le_trans (ih h) (Nat.le_max_right _ _)

theorem depth_le_of_mem_members {m : String × Json} {members : List (String × Json)} (h : m ∈ members) :
    m.2.depth ≤ depthOfMembers members := by
  induction members with
  | nil => exact absurd h (by simp)
  | cons e members ih =>
      rw [depthOfMembers]
      rcases List.mem_cons.mp h with rfl | h
      · exact Nat.le_max_left _ _
      · exact Nat.le_trans (ih h) (Nat.le_max_right _ _)

/-- What a key of data leads to is less deep. -/
theorem depth_lt_of_child? {j child : Json} {key : String} (h : j.child? key = some child) :
    child.depth < j.depth := by
  cases j with
  | object members => exact Nat.lt_succ_of_le (depth_le_of_mem_members (Table.mem_of_lookup h))
  | array items =>
      obtain ⟨i, -, hi⟩ := Option.bind_eq_some_iff.mp h
      exact Nat.lt_succ_of_le (depth_le_of_mem_items (List.mem_of_getElem? hi))
  | _ => exact absurd h (by simp [child?])

/-- What a plain map has for an entry is plain. -/
theorem Plain.of_entryOf? {types : TypeRegistry} {members : List (String × Json)} {key : String} {j : Json}
    (h : Plain types (.object members)) (hj : entryOf? members key = some j) : Plain types j := by
  cases h with
  | object nodup keys hint hm =>
      unfold entryOf? at hj
      split at hj
      · exact absurd hj (by simp)
      next hk => exact hm _ (Table.mem_of_lookup hj) hk

end Json

/-! ## References as they are written -/

section

open Text.Percent

theorem Refers.unique {s n m : String} (h : Refers s n) (h' : Refers s m) : n = m := by
  obtain ⟨-, rest, hs, hp⟩ := h
  obtain ⟨-, rest', hs', hp'⟩ := h'
  obtain rfl : rest = rest' := (List.cons.inj (hs.symm.trans hs')).2
  rw [hp] at hp'
  injection hp' with hu
  injection hu

theorem Refers.not_unprefixed {s n : String} (h : Refers s n) : ¬ Unprefixed s := by
  obtain ⟨-, rest, hs, -⟩ := h
  intro hu
  exact hu '@' (by rw [hs]; rfl) (by simp)

theorem isNameChar_of_mem_encode {n : String} {c : Char} (h : c ∈ encode n) : Uri.isName c = true := by
  rcases mem_encode h with rfl | ⟨b, hb, rfl⟩
  · rfl
  · exact Uri.isName_unreserved hb

theorem parseUri_encode (nested : List Char → Except Uri.Stop (Uri × List Char)) (n : String) :
    Uri.parseUri nested ("named:".toList ++ encode n) = .ok (.simple "named" n, []) := by
  have behind : ∀ c ∈ ([] : List Char).head?, Uri.isName c = false := by simp
  have uri := Uri.parseUri_append nested Uri.isScheme_named (fun c => isNameChar_of_mem_encode) (decode?_encode n)
    behind
  rw [List.append_nil] at uri
  exact uri

theorem parse_encode (n : String) :
    Uri.parse (String.ofList ("named:".toList ++ encode n)) = .ok (.simple "named" n) := by
  have text : Uri.parseText ("named:".toList ++ encode n) = .ok (.simple "named" n) := by
    have compound : ∀ m, Uri.parseCompound (m + 1) ("named:".toList ++ encode n)
        = Uri.parseUri (Uri.parseCompound m) ("named:".toList ++ encode n) := fun m => rfl
    rw [Uri.parseText, compound, parseUri_encode]
    rfl
  rw [Uri.parse, String.toList_ofList, text]

/-- The usual way to write a reference: the name is encoded. -/
theorem refers_encode {n : String} (hn : IsName n) :
    Refers (String.ofList ("@named:".toList ++ encode n)) n :=
  ⟨hn, "named:".toList ++ encode n, by rw [String.toList_ofList]; rfl, parse_encode n⟩

theorem refers_of_eq {s n : String} (hn : IsName n)
    (hs : s = String.ofList ("@named:".toList ++ encode n)) : Refers s n :=
  hs ▸ refers_encode hn

end

/-! ## Positions -/

namespace Json

/-- A plus sign before digits is passed over. -/
def unsigned : List Char → List Char
  | '+' :: rest => rest
  | cs => cs

theorem unsigned_eq_self {cs : List Char} (h : cs.head? ≠ some '+') : unsigned cs = cs := by
  unfold unsigned
  split
  next rest => exact absurd rfl h
  next => rfl

/-- A text is a position if its digits are a number below the bound. -/
theorem index?_eq (segment : String) : index? segment
    = (Decimal.readDigits? (unsigned segment.toList)).bind fun n => if n < Nat.pow 2 64 then some n else none := by
  unfold index? unsigned
  dsimp only
  generalize Decimal.readDigits? _ = n
  cases n <;> rfl

/-- The decimal digits of a position name it. -/
theorem index?_natText {i : Nat} (hi : i < Nat.pow 2 64) : index? (Decimal.natText i) = some i := by
  have text : (Decimal.natText i).toList = Nat.toDigits 10 i := String.toList_ofList
  have unsigned : (Nat.toDigits 10 i).head? ≠ some '+' := by
    intro h
    have plus := Decimal.isDigit_of_mem_toDigits (List.mem_of_mem_head? h)
    exact absurd plus (by decide)
  rw [index?_eq, text, unsigned_eq_self unsigned, Decimal.readDigits?_toDigits]
  exact if_pos hi

theorem isName_natText (i : Nat) : IsName (Decimal.natText i) := by
  have text : (Decimal.natText i).toList = Nat.toDigits 10 i := String.toList_ofList
  refine ⟨fun he => ?_, fun hm => ?_⟩
  · rw [he] at text
    exact absurd text.symm Nat.toDigits_ne_nil
  · rw [text] at hm
    exact absurd (Decimal.isDigit_of_mem_toDigits hm) (by decide)

end Json

/-! ## Plain keys -/

namespace PlainKey

open Container (isDirective propertyName hintKeys)

variable {key : String}

/-- A plain key means the property or the entry that it names. -/
theorem propertyName_eq (hk : PlainKey key) : propertyName key = key := by
  unfold propertyName
  rw [hk.unmarked, if_neg Bool.false_ne_true]

theorem isDirective_classKey : isDirective classKey = true := by decide +kernel

/-- A plain key that names no class is built. -/
theorem isDirective_eq_false (hk : PlainKey key) (hc : key ≠ classKey) : isDirective key = false := by
  have head : ∀ c, (key.toList.head? == some c) = true → c ∈ key.toList.head? := fun c hb => by simpa using hb
  have star : (key.toList.head? == some '*') = false :=
    Bool.eq_false_iff.mpr fun hb => (hk.undirected '*' (head '*' hb)).1 rfl
  have dollar : (key.toList.head? == some '$') = false :=
    Bool.eq_false_iff.mpr fun hb => (hk.undirected '$' (head '$' hb)).2 rfl
  have hint : hintKeys.contains key = false := by
    obtain ⟨h1, h2, h3⟩ := hk.unhinted
    simp [hintKeys, h1, h2, h3, hc]
  unfold isDirective
  rw [star, dollar, hint]
  rfl

end PlainKey

/-! ## Plain data -/

namespace Json.Plain

variable {types : TypeRegistry} {members : List (String × Json)} {key : String} {j : Json}

theorem plainKey (h : Plain types (.object members)) {m : String × Json} (hm : m ∈ members) : PlainKey m.1 := by
  cases h with
  | object nodup keys hint entries => exact keys m hm

theorem nodup (h : Plain types (.object members)) : (Table.keys members).Nodup := by
  cases h with
  | object nodup keys hint entries => exact nodup

/-- What is not a key of plain data is not found in it. -/
theorem lookup_eq_none (h : Plain types (.object members)) (hk : ¬ PlainKey key) :
    members.lookup key = none := by
  cases hl : members.lookup key with
  | none => rfl
  | some j => exact absurd (h.plainKey (Table.mem_of_lookup hl)) hk

/-- The keys of a node of plain data that are properties or entries are those of its entries. -/
theorem mem_entryKeys (h : Plain types (.object members)) {c : Configuration} (hc : c.data = .object members) :
    key ∈ Container.entryKeys c ↔ ∃ j, entryOf? members key = some j := by
  unfold Container.entryKeys Configuration.keys
  rw [hc, List.mem_filter]
  constructor
  · rintro ⟨hm, hk⟩
    obtain ⟨⟨name, j⟩, there, rfl⟩ := List.mem_map.mp hm
    refine ⟨j, (if_neg ?_).trans (Table.lookup_of_mem h.nodup there)⟩
    rintro hclass
    rw [hclass, PlainKey.isDirective_classKey] at hk
    exact absurd hk (by simp)
  · rintro ⟨j, hj⟩
    unfold entryOf? at hj
    split at hj
    · exact absurd hj (by simp)
    next hclass =>
      have there := Table.mem_of_lookup hj
      refine ⟨List.mem_map_of_mem there, ?_⟩
      rw [(h.plainKey there).isDirective_eq_false hclass]
      rfl

theorem nodup_entryKeys (h : Plain types (.object members)) {c : Configuration} (hc : c.data = .object members) :
    (Container.entryKeys c).Nodup := by
  unfold Container.entryKeys Configuration.keys
  rw [hc]
  exact h.nodup.filter _

/-- An item of a list of plain data is what the list has under its number. -/
theorem child?_natText {items : List Json} (h : Plain types (.array items)) {i : Nat} (hi : items[i]? = some j) :
    (Json.array items).child? (Decimal.natText i) = some j := by
  have short : items.length < Nat.pow 2 64 := by
    cases h with
    | array short _ => exact short
  have position : i < Nat.pow 2 64 := Nat.lt_trans (List.getElem?_eq_some_iff.mp hi).1 short
  show (index? (Decimal.natText i)).bind _ = _
  rw [index?_natText position]
  exact hi

/-- A child with plain data has the data. -/
theorem data_child (h : Plain types j) (c : Configuration) : (c.child j).data = j := by
  cases j with
  | object members =>
      have rest : (Configuration.splitMembers members).2 = members := by
        rw [Configuration.splitMembers, List.partition_eq_filter_filter]
        refine List.filter_eq_self.mpr fun m hm => ?_
        have dollar : m.1.toList.head? ≠ some '$' := fun he => ((h.plainKey hm).undirected '$' he).2 rfl
        simpa [Configuration.isParameter] using dollar
      show Json.object (Configuration.splitMembers members).2 = _
      rw [rest]
  | _ => rfl

end Json.Plain

end ObjectGraph
