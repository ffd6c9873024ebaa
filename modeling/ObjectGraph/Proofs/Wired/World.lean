import Mathlib.Logic.Relation
import ObjectGraph.Proofs.Place
import ObjectGraph.Proofs.Wired.Plain

/-!
# `Proofs.Wired.World` — values that stand for plain data

While a pass goes on, a value that was built from plain data holds a placeholder wherever the data refers
to a name that is still building. What it may hold elsewhere depends on what has been built so far: a
*world* says which names have begun and which are built, which component was made for which node, and which
data each of its properties is for. Worlds only grow, and what stands for data in one stands for it in
every later one (`Realizes.mono`).

A chain of references may end in nothing: at a name that is not there, or at a map of an unknown class.
Such names are *barren*, and a reference to one gives nothing. Names whose chain ends in nothing or in a
scalar are *flat*: building one builds nothing but the chain, so nobody can come to wait for it.

A name *needs* another by value if its data refers to that outside all maps that name a class: what it is
built to holds what the other is built to. A name that is built is *grounded*, which means that what it
needs does not lead back to it.

Contents:
* `Link`, `Ends`, `Barren`, `Flat`;
* `Json.ByValue`, `Needs`, `Grounded`; `Json.Mentions`, `Reached`;
* `Home`, `nodeAt?`, `Below`; `World` and its order; `Realizes` and `Realizes.mono`;
* `Value.Whole`; what stands for data of each form, `Realizes.of_array` and such;
* `Realizes.of_at?`, `Realizes.setAt`: what the placeholders are, and filling one;
* `StandsFor`, `World.Sane`; what may stand for the data of a name.
-/

namespace ObjectGraph

open Json (classOf? entryOf?)
open Relation (TransGen ReflTransGen)

variable {types : TypeRegistry} {members : List (String × Json)}

/-! ## Chains of references -/

/-- The one name is a reference to the other. -/
def Link (members : List (String × Json)) (n m : String) : Prop :=
  ∃ s, members.lookup n = some (.string s) ∧ Refers s m

/-- The chain of references from a name ends in some data, or in none. -/
inductive Ends (members : List (String × Json)) (P : Option Json → Prop) : String → Prop
  | here {n : String} (h : P (members.lookup n)) : Ends members P n
  | link {n m : String} (hn : Link members n m) (hm : Ends members P m) : Ends members P n

/-- Nothing is built from this: it is not there, or a map of an unknown class. -/
def Nothing (types : TypeRegistry) (j : Option Json) : Prop :=
  j = none ∨ ∃ ms c, j = some (.object ms) ∧ classOf? ms = some c ∧ types.constructor? c = none

/-- A scalar that stands for itself. -/
def Scalar (j : Json) : Prop := j.isContainer = false ∧ ∀ s, j = .string s → Unprefixed s

/-- The chain from the name ends in nothing. -/
def Barren (types : TypeRegistry) (members : List (String × Json)) : String → Prop :=
  Ends members (Nothing types)

/-- The chain from the name ends in nothing or in a scalar. -/
def Flat (types : TypeRegistry) (members : List (String × Json)) : String → Prop :=
  Ends members fun j => Nothing types j ∨ ∃ i, j = some i ∧ Scalar i

theorem Link.unique {n m m' : String} (h : Link members n m) (h' : Link members n m') : m = m' := by
  obtain ⟨s, hs, hm⟩ := h
  obtain ⟨s', hs', hm'⟩ := h'
  obtain rfl : s = s' := by simpa using hs.symm.trans hs'
  exact hm.unique hm'

theorem not_nothing_of_link {n m : String} (h : Link members n m) : ¬ Nothing types (members.lookup n) := by
  obtain ⟨s, hs, -⟩ := h
  rw [hs]
  rintro (h | ⟨ms, c, h, -⟩)
  · exact absurd h (by simp)
  · exact absurd h (by simp)

theorem not_scalar_of_refers {s n : String} (h : Refers s n) : ¬ Scalar (.string s) :=
  fun hs => h.not_unprefixed (hs.2 s rfl)

theorem not_flat_of_link {n m : String} (h : Link members n m) :
    ¬ (Nothing types (members.lookup n) ∨ ∃ i, members.lookup n = some i ∧ Scalar i) := by
  rintro (hn | ⟨i, hi, hs⟩)
  · exact not_nothing_of_link h hn
  · obtain ⟨s, hs', hr⟩ := h
    obtain rfl : Json.string s = i := Option.some.inj (hs'.symm.trans hi)
    exact not_scalar_of_refers hr hs

namespace Ends

variable {P : Option Json → Prop} {n m : String}

/-- A chain goes on from the name that a name refers to. -/
theorem of_link (h : Ends members P n) (hl : Link members n m) (hP : ¬ P (members.lookup n)) :
    Ends members P m := by
  cases h with
  | here h => exact absurd h hP
  | link hn hm => exact hn.unique hl ▸ hm

/-- A chain that ends does not come back. -/
theorem not_cycle (h : Ends members P n) (hP : ∀ n m, Link members n m → ¬ P (members.lookup n)) :
    ¬ TransGen (Link members) n n := by
  induction h with
  | here h =>
      intro hc
      obtain ⟨m, hm, -⟩ := TransGen.head'_iff.mp hc
      exact hP _ m hm h
  | @link n m hn _ ih =>
      intro hc
      obtain ⟨m', hm', rest⟩ := TransGen.head'_iff.mp hc
      obtain rfl := hn.unique hm'
      exact ih (TransGen.tail' rest hn)

end Ends

theorem Barren.flat {n : String} (h : Barren types members n) : Flat types members n := by
  induction h with
  | here h => exact .here (.inl h)
  | link hn _ ih => exact .link hn ih

theorem Flat.of_link {n m : String} (h : Flat types members n) (hl : Link members n m) :
    Flat types members m :=
  Ends.of_link h hl (not_flat_of_link hl)

theorem Flat.of_transGen {n m : String} (h : Flat types members n) (hl : TransGen (Link members) n m) :
    Flat types members m := by
  induction hl with
  | single hl => exact h.of_link hl
  | tail _ hl ih => exact ih.of_link hl

theorem Flat.not_cycle {n : String} (h : Flat types members n) : ¬ TransGen (Link members) n n :=
  Ends.not_cycle h fun _ _ hl => not_flat_of_link hl

/-! ## What names need, and what they mention -/

/-- The data refers to a name outside all maps that name a class. -/
inductive Json.ByValue : Json → String → Prop
  | reference {s n : String} (hs : Refers s n) : ByValue (.string s) n
  | item {items : List Json} {j : Json} {n : String} (hj : j ∈ items) (h : ByValue j n) : ByValue (.array items) n
  | entry {ms : List (String × Json)} {key : String} {j : Json} {n : String} (hc : classOf? ms = none)
      (hj : entryOf? ms key = some j) (h : ByValue j n) : ByValue (.object ms) n

/-- A name needs another by value. -/
def Needs (members : List (String × Json)) (n m : String) : Prop :=
  ∃ j, members.lookup n = some j ∧ j.ByValue m

/-- What a name needs by value does not go on for ever. -/
def Grounded (members : List (String × Json)) : String → Prop := Acc fun m n => Needs members n m

/-- The data refers to a name outside all maps of unknown classes. -/
inductive Json.Mentions (types : TypeRegistry) : Json → String → Prop
  | reference {s n : String} (hs : Refers s n) : Mentions types (.string s) n
  | item {items : List Json} {j : Json} {n : String} (hj : j ∈ items) (h : Mentions types j n) :
      Mentions types (.array items) n
  | entry {ms : List (String × Json)} {key : String} {j : Json} {n : String}
      (hc : ∀ c, classOf? ms = some c → types.constructor? c ≠ none) (hj : entryOf? ms key = some j)
      (h : Mentions types j n) : Mentions types (.object ms) n

/-- The entry is built whether or not it is referred to. -/
structure Leading (members : List (String × Json)) (n : String) : Prop where
  there : (members.lookup n).isSome
  undirected : Container.isDirective n = false
  undashed : n.toList.head? ≠ some '-'

/-- A pass gets to the name: it leads, or what the pass gets to mentions it. -/
inductive Reached (types : TypeRegistry) (members : List (String × Json)) : String → Prop
  | leading {n : String} (h : Leading members n) : Reached types members n
  | mention {n m : String} {j : Json} (hn : Reached types members n) (hj : members.lookup n = some j)
      (hm : j.Mentions types m) : Reached types members m

theorem Link.needs {n m : String} (h : Link members n m) : Needs members n m := by
  obtain ⟨s, hs, hm⟩ := h
  exact ⟨.string s, hs, .reference hm⟩

/-- What is grounded does not need itself, not even by others. -/
theorem Grounded.not_cycle {n : String} (h : Grounded members n) : ¬ TransGen (Needs members) n n := by
  induction h with
  | intro n _ ih =>
      intro hc
      obtain ⟨m, hm, rest⟩ := TransGen.head'_iff.mp hc
      exact ih m hm (TransGen.tail' rest hm)

theorem Barren.grounded {n : String} (h : Barren types members n) : Grounded members n := by
  induction h with
  | @here n h =>
      refine ⟨n, fun m hm => ?_⟩
      obtain ⟨j, hj, hv⟩ := hm
      rcases h with h | ⟨ms, c, h, hc, -⟩
      · exact absurd (hj.symm.trans h) (by simp)
      · obtain rfl := Option.some.inj (hj.symm.trans h)
        cases hv with
        | entry hc' => exact absurd (hc'.symm.trans hc) (by simp)
  | @link n m hl _ ih =>
      refine ⟨n, fun m' hm' => ?_⟩
      obtain ⟨s, hs, hr⟩ := hl
      obtain ⟨j, hj, hv⟩ := hm'
      obtain rfl := Option.some.inj (hs.symm.trans hj)
      cases hv with
      | reference hr' => exact hr.unique hr' ▸ ih

/-! ## Worlds -/

/-- A node of the data: the name of its entry, and the way from there to the node, the last step first. -/
abbrev Home := String × List Place

/-- A part of some data that a pass may get to: an item of a list, or an entry of a map unless its class is
unknown. -/
def Json.part? (types : TypeRegistry) : Place → Json → Option Json
  | .index i, .array items => items[i]?
  | .key key, .object ms =>
      match classOf? ms with
      | some c => if (types.constructor? c).isSome then entryOf? ms key else none
      | none => entryOf? ms key
  | _, _ => none

/-- The data of a node. -/
def nodeAt? (types : TypeRegistry) (members : List (String × Json)) (n : String) : List Place → Option Json
  | [] => members.lookup n
  | step :: rest => (nodeAt? types members n rest).bind (Json.part? types step)

/-- The one node is the other, or below it. -/
def Below (p q : Home) : Prop := p.1 = q.1 ∧ q.2 <:+ p.2

theorem known_of_unclassed {ms : List (String × Json)} (hc : classOf? ms = none) :
    ∀ c, classOf? ms = some c → types.constructor? c ≠ none :=
  fun _ hc' => absurd (hc.symm.trans hc') (by simp)

theorem known_of_record {ms : List (String × Json)} {c : String} (hc : classOf? ms = some c)
    (hk : types.constructor? c = some .record) : ∀ c, classOf? ms = some c → types.constructor? c ≠ none := by
  intro c' hc'
  obtain rfl := Option.some.inj (hc.symm.trans hc')
  rw [hk]
  exact Option.some_ne_none _

theorem Json.part?_key {ms : List (String × Json)} (known : ∀ c, classOf? ms = some c → types.constructor? c ≠ none)
    (key : String) : Json.part? types (.key key) (.object ms) = entryOf? ms key := by
  show (match classOf? ms with
    | some c => if (types.constructor? c).isSome then entryOf? ms key else none
    | none => entryOf? ms key) = _
  cases hc : classOf? ms with
  | none => rfl
  | some c => exact if_pos (Option.isSome_iff_ne_none.mpr (known c hc))

/-- Nothing is below a barren name. -/
theorem Barren.nodeAt? {n : String} (hn : Barren types members n) {place : List Place} {j : Json}
    (hj : ObjectGraph.nodeAt? types members n place = some j) :
    place = [] ∧ Nothing types (some j) ∨ ∃ str, j = .string str := by
  induction place generalizing j with
  | nil =>
      change members.lookup n = some j at hj
      cases hn with
      | here hno => exact .inl ⟨rfl, hj ▸ hno⟩
      | link hl _ =>
          obtain ⟨str, hs, -⟩ := hl
          exact .inr ⟨str, Option.some.inj (hj.symm.trans hs)⟩
  | cons step rest ih =>
      obtain ⟨j', hj', hp⟩ := Option.bind_eq_some_iff.mp hj
      rcases ih hj' with ⟨-, hno | ⟨ms, c, hms, hc, hu⟩⟩ | ⟨str, rfl⟩
      · exact absurd hno (by simp)
      · obtain rfl := Option.some.inj hms
        cases step with
        | index i => exact absurd hp (by simp [Json.part?])
        | key key => exact absurd hp (by simp [Json.part?, hc, hu])
      · cases step <;> exact absurd hp (by simp [Json.part?])

theorem Below.refl (p : Home) : Below p p := ⟨rfl, List.suffix_refl _⟩

theorem Below.trans {p q r : Home} (h : Below p q) (h' : Below q r) : Below p r :=
  ⟨h.1.trans h'.1, h'.2.trans h.2⟩

/-- A part of a node is below it. -/
theorem Below.part (p : Home) (step : Place) : Below (p.1, step :: p.2) p := ⟨rfl, List.suffix_cons _ _⟩

theorem Below.not_part {p : Home} {step : Place} : ¬ Below p (p.1, step :: p.2) :=
  fun h => absurd h.2.length_le (Nat.not_succ_le_self _)

/-- What is below two parts of a node is below one part. -/
theorem Below.part_unique {p q : Home} {step step' : Place} (h : Below p (q.1, step :: q.2))
    (h' : Below p (q.1, step' :: q.2)) : step = step' :=
  List.head_eq_of_cons_eq (List.IsSuffix.eq_of_length (List.suffix_of_suffix_length_le h.2 h'.2 (Nat.le_refl _)) rfl)

/-- What has come about in a pass. -/
structure World where
  /-- The names that have begun and may be waited for. -/
  begun : String → Prop
  built : String → Option Value
  /-- The node that a component was made for, and its members. -/
  home : ObjectId → Option (Home × List (String × Json))
  /-- The property of a component has been visited. -/
  visited : ObjectId → String → Prop

namespace World

/-- A world in which nothing has come about. -/
def empty : World := ⟨fun _ => False, fun _ => none, fun _ => none, fun _ _ => False⟩

/-- The one world has grown into the other. -/
structure Le (w w' : World) : Prop where
  begun : ∀ n, w.begun n → w'.begun n
  built : ∀ n v, w.built n = some v → w'.built n = some v
  home : ∀ o h, w.home o = some h → w'.home o = some h
  visited : ∀ o k, w.visited o k → w'.visited o k

instance : LE World := ⟨Le⟩

theorem Le.refl (w : World) : w ≤ w := ⟨fun _ => id, fun _ _ => id, fun _ _ => id, fun _ _ => id⟩

theorem Le.trans {w w' w'' : World} (h : w ≤ w') (h' : w' ≤ w'') : w ≤ w'' where
  begun n hn := h'.begun n (h.begun n hn)
  built n v hv := h'.built n v (h.built n v hv)
  home o p hp := h'.home o p (h.home o p hp)
  visited o k hk := h'.visited o k (h.visited o k hk)

/-- What is built holds no placeholders. -/
def Complete (w : World) : Prop := ∀ n v, w.built n = some v → v.placeholders = []

end World

/-- What stands for a node's data: a value that may hold placeholders, or none. -/
inductive Realizes (types : TypeRegistry) (members : List (String × Json)) (w : World) :
    Home → Json → Option Value → Prop
  | scalar {h : Home} {j : Json} (hj : Scalar j) : Realizes types members w h j (some (Value.ofJson j))
  | waiting {h : Home} {s n : String} (hs : Refers s n) (hn : w.begun n) :
      Realizes types members w h (.string s) (some (.pending ⟨n, none⟩))
  | built {h : Home} {s n : String} {v : Value} (hs : Refers s n) (hv : w.built n = some v) :
      Realizes types members w h (.string s) (some v)
  | barren {h : Home} {s n : String} (hs : Refers s n) (hn : Barren types members n) :
      Realizes types members w h (.string s) none
  /-- An item that nothing stands for is null. -/
  | list {h : Home} {items : List Json} {vs : List Value} (f : Nat → Option Value)
      (length : vs.length = items.length)
      (hf : ∀ i j, items[i]? = some j → Realizes types members w (h.1, .index i :: h.2) j (f i))
      (hv : ∀ i j, items[i]? = some j → vs[i]? = some ((f i).getD .null)) :
      Realizes types members w h (.array items) (some (.list vs))
  /-- An entry that nothing stands for is missing. -/
  | map {h : Home} {ms : List (String × Json)} {es : List (String × Value)} (hc : classOf? ms = none)
      (hf : ∀ k j, entryOf? ms k = some j → Realizes types members w (h.1, .key k :: h.2) j (es.lookup k))
      (hn : ∀ k, entryOf? ms k = none → es.lookup k = none) (ha : Table.Ascending es) :
      Realizes types members w h (.object ms) (some (.map es))
  | record {h : Home} {ms : List (String × Json)} {c : String} {o : ObjectId}
      (hc : classOf? ms = some c) (hr : types.constructor? c = some .record)
      (ho : w.home o = some (h, ms)) (hk : ∀ k j, entryOf? ms k = some j → w.visited o k) :
      Realizes types members w h (.object ms) (some (.object o))
  | unknown {h : Home} {ms : List (String × Json)} {c : String} (hc : classOf? ms = some c)
      (hu : types.constructor? c = none) : Realizes types members w h (.object ms) none

/-- The value holds no placeholder, however far lists and maps go. -/
def Value.Whole (v : Value) : Prop := ∀ place p, v.at? place ≠ some (.pending p)

namespace Value.Whole

theorem of_complete {v : Value} (h : v.placeholders = []) : v.Whole :=
  fun _ _ hp => placeholders_ne_nil hp h

theorem item {vs : List Value} (h : (Value.list vs).Whole) {i : Nat} {ov : Option Value}
    (hi : vs[i]? = some (ov.getD .null)) {v : Value} (hv : ov = some v) : v.Whole := by
  intro place p hp
  refine h (.index i :: place) p ?_
  show (vs[i]?).bind _ = _
  rw [hi, hv]
  exact hp

theorem entry {es : List (String × Value)} (h : (Value.map es).Whole) {key : String} {v : Value}
    (hv : es.lookup key = some v) : v.Whole := by
  intro place p hp
  refine h (.key key :: place) p ?_
  show (es.lookup key).bind _ = _
  rw [hv]
  exact hp

end Value.Whole

variable {w w' : World} {h : Home} {j : Json} {v : Value} {ov : Option Value}

namespace Realizes

/-! What stands for data of each form. -/

theorem of_scalar (hr : Realizes types members w h j ov) (hj : Scalar j) : ov = some (Value.ofJson j) := by
  cases hr with
  | scalar => rfl
  | waiting hs | built hs | barren hs => exact absurd hj (not_scalar_of_refers hs)
  | list | map | record | unknown => exact absurd hj.1 Bool.noConfusion

/-- A reference stands for a placeholder, for what its name is built to, or for nothing. -/
theorem of_refers {s n : String} (hr : Realizes types members w h (.string s) ov) (hs : Refers s n) :
    (ov = some (.pending ⟨n, none⟩) ∧ w.begun n) ∨ (∃ v, ov = some v ∧ w.built n = some v) ∨
      ov = none ∧ Barren types members n := by
  cases hr with
  | scalar hj => exact absurd hj (not_scalar_of_refers hs)
  | waiting hs' hn =>
      obtain rfl := hs.unique hs'
      exact .inl ⟨rfl, hn⟩
  | built hs' hv =>
      obtain rfl := hs.unique hs'
      exact .inr (.inl ⟨_, rfl, hv⟩)
  | barren hs' hn =>
      obtain rfl := hs.unique hs'
      exact .inr (.inr ⟨rfl, hn⟩)

/-- A list stands for a list, with an item for each. -/
theorem of_array {items : List Json} (hr : Realizes types members w h (.array items) ov) :
    ∃ (vs : List Value) (f : Nat → Option Value), ov = some (.list vs) ∧ vs.length = items.length ∧
      ∀ i j, items[i]? = some j →
        Realizes types members w (h.1, .index i :: h.2) j (f i) ∧ vs[i]? = some ((f i).getD .null) := by
  cases hr with
  | scalar hj => exact absurd hj.1 Bool.noConfusion
  | list f length hf hv => exact ⟨_, f, rfl, length, fun i j hj => ⟨hf i j hj, hv i j hj⟩⟩

/-- A map that names no class stands for a map. -/
theorem of_map {ms : List (String × Json)} (hr : Realizes types members w h (.object ms) ov)
    (hc : classOf? ms = none) :
    ∃ es : List (String × Value), ov = some (.map es) ∧ Table.Ascending es ∧
      (∀ key j, entryOf? ms key = some j →
        Realizes types members w (h.1, .key key :: h.2) j (es.lookup key)) ∧
      ∀ key, entryOf? ms key = none → es.lookup key = none := by
  cases hr with
  | scalar hj => exact absurd hj.1 Bool.noConfusion
  | map _ hf hn ha => exact ⟨_, rfl, ha, hf, hn⟩
  | record hc' => exact absurd (hc.symm.trans hc') (by simp)
  | unknown hc' => exact absurd (hc.symm.trans hc') (by simp)

/-- A map that names a known class stands for the component that was made for it. -/
theorem of_record {ms : List (String × Json)} {c : String} (hr : Realizes types members w h (.object ms) ov)
    (hc : classOf? ms = some c) (hk : types.constructor? c = some .record) :
    ∃ o, ov = some (.object o) ∧ w.home o = some (h, ms) ∧ ∀ key j, entryOf? ms key = some j → w.visited o key := by
  cases hr with
  | scalar hj => exact absurd hj.1 Bool.noConfusion
  | map hc' => exact absurd (hc.symm.trans hc') (by simp)
  | record _ _ ho hv => exact ⟨_, rfl, ho, hv⟩
  | unknown hc' hu =>
      obtain rfl := Option.some.inj (hc.symm.trans hc')
      exact absurd (hk.symm.trans hu) (by simp)

/-- A map that names an unknown class stands for nothing. -/
theorem of_unknown {ms : List (String × Json)} {c : String} (hr : Realizes types members w h (.object ms) ov)
    (hc : classOf? ms = some c) (hu : types.constructor? c = none) : ov = none := by
  cases hr with
  | scalar hj => exact absurd hj.1 Bool.noConfusion
  | map hc' => exact absurd (hc.symm.trans hc') (by simp)
  | record hc' hk =>
      obtain rfl := Option.some.inj (hc.symm.trans hc')
      exact absurd (hu.symm.trans hk) (by simp)
  | unknown _ _ => rfl

/-- What stands for data stands for it in every later world. -/
theorem mono {ov : Option Value} (hr : Realizes types members w h j ov) (hw : w ≤ w') :
    Realizes types members w' h j ov := by
  induction hr with
  | scalar hj => exact .scalar hj
  | waiting hs hn => exact .waiting hs (hw.begun _ hn)
  | built hs hv => exact .built hs (hw.built _ _ hv)
  | barren hs hn => exact .barren hs hn
  | list f length _ hv ih => exact .list f length ih hv
  | map hc _ hn ha ih => exact .map hc ih hn ha
  | record hc hr ho hk => exact .record hc hr (hw.home _ _ ho) fun k j hj => hw.visited _ _ (hk k j hj)
  | unknown hc hu => exact .unknown hc hu

end Realizes

/-- A scalar is no placeholder. -/
theorem placeholders_ofJson_scalar (hj : Scalar j) : (Value.ofJson j).placeholders = [] := by
  obtain ⟨hc, -⟩ := hj
  cases j with
  | array items => exact absurd hc Bool.noConfusion
  | object ms => exact absurd hc Bool.noConfusion
  | _ => rfl

namespace Realizes

/-- A placeholder of a list that stands for data is one of what stands for an item, which is not null then. -/
theorem item_at? {items : List Json} {vs : List Value} {f : Nat → Option Value} (length : vs.length = items.length)
    (hv : ∀ i j, items[i]? = some j → vs[i]? = some ((f i).getD .null)) {place : List Place} {p : Pending}
    (hp : (Value.list vs).at? place = some (.pending p)) :
    ∃ i rest j x, place = .index i :: rest ∧ items[i]? = some j ∧ f i = some x ∧
      x.at? rest = some (.pending p) := by
  obtain ⟨i, rest, u, rfl, hu, hp⟩ := Value.at?_list hp
  have inside : i < items.length := length ▸ (List.getElem?_eq_some_iff.mp hu).1
  have item := List.getElem?_eq_getElem inside
  obtain rfl : u = (f i).getD .null := Option.some.inj (hu.symm.trans (hv i _ item))
  cases hf : f i with
  | none =>
      rw [hf] at hp
      exact absurd rfl (Value.placeholders_ne_nil hp)
  | some x =>
      rw [hf] at hp
      exact ⟨i, rest, _, x, rfl, item, hf, hp⟩

/-- A placeholder stands for a name that has begun, and for all of its value; the data needs the name. -/
theorem of_at? {ov : Option Value} (hr : Realizes types members w h j ov) (hc : w.Complete)
    (hv : ov = some v) {place : List Place} {p : Pending} (hp : v.at? place = some (.pending p)) :
    p.path = none ∧ w.begun p.name ∧ j.ByValue p.name := by
  induction hr generalizing v place with
  | scalar hj =>
      obtain rfl := Option.some.inj hv
      exact absurd (placeholders_ofJson_scalar hj) (Value.placeholders_ne_nil hp)
  | @waiting h s n hs hn =>
      obtain rfl := Option.some.inj hv
      obtain rfl := Value.at?_pending hp
      obtain rfl : (⟨n, none⟩ : Pending) = p := by simpa [Value.at?] using hp
      exact ⟨rfl, hn, .reference hs⟩
  | built hs hb =>
      obtain rfl := Option.some.inj hv
      exact absurd (hc _ _ hb) (Value.placeholders_ne_nil hp)
  | barren hs hn => exact absurd hv (by simp)
  | list f length _ hv' ih =>
      obtain rfl := Option.some.inj hv
      obtain ⟨i, rest, j, x, rfl, item, hfi, hp⟩ := item_at? length hv' hp
      obtain ⟨path, begun, needs⟩ := ih i j item hfi hp
      exact ⟨path, begun, .item (List.mem_of_getElem? item) needs⟩
  | @map h ms es hc' _ hn _ ih =>
      obtain rfl := Option.some.inj hv
      obtain ⟨key, rest, u, rfl, hu, hp⟩ := Value.at?_map hp
      cases hk : entryOf? ms key with
      | none => exact absurd (hu.symm.trans (hn key hk)) (by simp)
      | some j =>
          obtain ⟨path, begun, needs⟩ := ih key j hk hu hp
          exact ⟨path, begun, .entry hc' hk needs⟩
  | record _ _ _ _ =>
      obtain rfl := Option.some.inj hv
      exact absurd rfl (Value.placeholders_ne_nil hp)
  | unknown _ _ => exact absurd hv (by simp)

/-- A list stands for its data after an item has changed, if the item does. -/
theorem modifyItem {items : List Json} {vs : List Value} {f : Nat → Option Value} (length : vs.length = items.length)
    (hf : ∀ i j, items[i]? = some j → Realizes types members w (h.1, .index i :: h.2) j (f i))
    (hv : ∀ i j, items[i]? = some j → vs[i]? = some ((f i).getD .null)) {i : Nat} {g : Value → Value}
    (hi : f i = some v)
    (changed : ∀ j, items[i]? = some j → Realizes types members w (h.1, .index i :: h.2) j (some (g v))) :
    Realizes types members w h (.array items) (some (.list (Value.modifyItem g i vs))) := by
  refine .list (fun l => if i = l then some (g v) else f l) ?_ ?_ ?_
  · rw [Value.length_modifyItem, length]
  · intro l j hj
    by_cases hl : i = l
    · subst hl
      rw [if_pos rfl]
      exact changed j hj
    · rw [if_neg hl]
      exact hf l j hj
  · intro l j hj
    rw [Value.getElem?_modifyItem]
    by_cases hl : i = l
    · subst hl
      rw [if_pos rfl, if_pos rfl, hv i j hj, hi]
      rfl
    · rw [if_neg hl, if_neg hl]
      exact hv l j hj

/-- A map stands for its data after an entry has changed, if the entry does. -/
theorem modifyEntry {ms : List (String × Json)} {es : List (String × Value)} (hc : classOf? ms = none)
    (hf : ∀ key j, entryOf? ms key = some j → Realizes types members w (h.1, .key key :: h.2) j (es.lookup key))
    (hn : ∀ key, entryOf? ms key = none → es.lookup key = none) (ha : Table.Ascending es) {key : String}
    {g : Value → Value} (changed : ∀ j, entryOf? ms key = some j →
      Realizes types members w (h.1, .key key :: h.2) j ((es.lookup key).map g)) :
    Realizes types members w h (.object ms) (some (.map (Value.modifyEntry g key es))) := by
  refine .map hc (fun l j hj => ?_) (fun l hl => ?_) ?_
  · rw [Value.lookup_modifyEntry]
    by_cases hl : key = l
    · subst hl
      rw [if_pos rfl]
      exact changed j hj
    · rw [if_neg hl]
      exact hf l j hj
  · rw [Value.lookup_modifyEntry, hn l hl]
    split <;> rfl
  · unfold Table.Ascending
    rw [Value.keys_modifyEntry]
    exact ha

/-- Where a placeholder is filled with what its name was built to, the value stands for the data as before. -/
theorem setAt {ov : Option Value} (hr : Realizes types members w h j ov) (hc : w.Complete)
    (hv : ov = some v) {place : List Place} {p : Pending} (hp : v.at? place = some (.pending p)) {new : Value}
    (hn : w.built p.name = some new) : Realizes types members w h j (some (Value.setAt new place v)) := by
  induction hr generalizing v place with
  | scalar hj =>
      obtain rfl := Option.some.inj hv
      exact absurd (placeholders_ofJson_scalar hj) (Value.placeholders_ne_nil hp)
  | @waiting h s n hs _ =>
      obtain rfl := Option.some.inj hv
      obtain rfl := Value.at?_pending hp
      obtain rfl : (⟨n, none⟩ : Pending) = p := by simpa [Value.at?] using hp
      exact .built hs hn
  | built hs hb =>
      obtain rfl := Option.some.inj hv
      exact absurd (hc _ _ hb) (Value.placeholders_ne_nil hp)
  | barren hs hb => exact absurd hv (by simp)
  | list f length hr hv' ih =>
      obtain rfl := Option.some.inj hv
      obtain ⟨i, rest, j, x, rfl, item, hfi, hp⟩ := item_at? length hv' hp
      refine .modifyItem length hr hv' hfi fun j' hj' => ?_
      obtain rfl := Option.some.inj (item.symm.trans hj')
      exact ih i j item hfi hp
  | map hc' hr hm ha ih =>
      obtain rfl := Option.some.inj hv
      obtain ⟨key, rest, u, rfl, hu, hp⟩ := Value.at?_map hp
      refine .modifyEntry hc' hr hm ha fun j hj => ?_
      rw [hu]
      exact ih key j hj hu hp
  | record _ _ _ _ =>
      obtain rfl := Option.some.inj hv
      exact absurd rfl (Value.placeholders_ne_nil hp)
  | unknown _ _ => exact absurd hv (by simp)

end Realizes

/-! ## What is built -/

/-- A value that is handed on as it is, and is not read any further. -/
def Value.Solid (v : Value) : Prop := (∀ c, v ≠ .configuration c) ∧ ∀ r, v ≠ .resource r

/-- A value that a name may be built to. -/
structure StandsFor (types : TypeRegistry) (members : List (String × Json)) (w : World) (n : String) (v : Value) :
    Prop where
  realizes : ∃ j, members.lookup n = some j ∧ Realizes types members w (n, []) j (some v)
  complete : v.placeholders = []
  grounded : Grounded members n
  solid : v.Solid
  /-- Who waits for the name does not get null. -/
  worthwhile : ¬ Flat types members n → v.isNull = false

/-- What holds of the names in every world of a pass. -/
structure World.Sane (types : TypeRegistry) (members : List (String × Json)) (w : World) : Prop where
  begun : ∀ n, w.begun n → ¬ Flat types members n
  sound : ∀ n v, w.built n = some v → StandsFor types members w n v

theorem World.Sane.complete (hw : w.Sane types members) : w.Complete := fun n v hv => (hw.sound n v hv).complete

theorem StandsFor.mono {n : String} (hs : StandsFor types members w n v) (hw : w ≤ w') :
    StandsFor types members w' n v := by
  obtain ⟨⟨j, hj, hr⟩, complete, grounded, solid, worthwhile⟩ := hs
  exact ⟨⟨j, hj, hr.mono hw⟩, complete, grounded, solid, worthwhile⟩

namespace Realizes

/-- What stands for data is handed on as it is. -/
theorem solid {ov : Option Value} (hr : Realizes types members w h j ov) (hw : w.Sane types members)
    (hv : ov = some v) : v.Solid := by
  cases hr with
  | scalar hj =>
      obtain rfl := Option.some.inj hv
      obtain ⟨hc, -⟩ := hj
      cases j with
      | array items => exact absurd hc Bool.noConfusion
      | object ms => exact absurd hc Bool.noConfusion
      | _ => exact ⟨fun _ => by simp [Value.ofJson], fun _ => by simp [Value.ofJson]⟩
  | built hs hb =>
      obtain rfl := Option.some.inj hv
      exact (hw.sound _ _ hb).solid
  | barren hs hn => exact absurd hv (by simp)
  | unknown hc hu => exact absurd hv (by simp)
  | _ =>
      obtain rfl := Option.some.inj hv
      exact ⟨fun _ => by simp, fun _ => by simp⟩

/-- For a flat name no placeholder is handed out. -/
theorem complete_of_flat {n : String} (hn : Flat types members n) (hj : members.lookup n = some j)
    {ov : Option Value} (hr : Realizes types members w h j ov) (hw : w.Sane types members)
    (hv : ov = some v) : v.placeholders = [] := by
  have structured : j.isContainer = true → ¬ Nothing types (members.lookup n) → False := by
    intro hc hno
    cases hn with
    | here hP =>
        rcases hP with hP | ⟨i, hi, hs⟩
        · exact hno hP
        · obtain rfl : j = i := Option.some.inj (hj.symm.trans hi)
          exact absurd (hs.1.symm.trans hc) Bool.false_ne_true
    | link hl _ =>
        obtain ⟨s, hs, -⟩ := hl
        obtain rfl : j = .string s := Option.some.inj (hj.symm.trans hs)
        exact absurd hc Bool.false_ne_true
  cases hr with
  | scalar hs =>
      obtain rfl := Option.some.inj hv
      obtain ⟨hc, -⟩ := hs
      cases j with
      | array items => exact absurd hc Bool.noConfusion
      | object ms => exact absurd hc Bool.noConfusion
      | _ => rfl
  | waiting hs hb => exact absurd (hn.of_link ⟨_, hj, hs⟩) (hw.begun _ hb)
  | built hs hb =>
      obtain rfl := Option.some.inj hv
      exact (hw.sound _ _ hb).complete
  | barren hs hb => exact absurd hv (by simp)
  | list f length hf hi =>
      refine (structured rfl ?_).elim
      rw [hj]
      rintro (h | ⟨ms, c, h, -⟩)
      · exact absurd h (by simp)
      · exact absurd h (by simp)
  | map hc hf he _ =>
      refine (structured rfl ?_).elim
      rw [hj]
      rintro (h | ⟨ms', c, h, hc', -⟩)
      · exact absurd h (by simp)
      · obtain rfl := Json.object.inj (Option.some.inj h)
        exact absurd (hc.symm.trans hc') (by simp)
  | record _ _ _ _ =>
      obtain rfl := Option.some.inj hv
      rfl
  | unknown hc hu => exact absurd hv (by simp)

/-- What a name that is not flat is built to is not null. -/
theorem isNull_eq_false {n : String} (hn : ¬ Flat types members n) (hj : members.lookup n = some j)
    {ov : Option Value} (hr : Realizes types members w h j ov) (hw : w.Sane types members)
    (hv : ov = some v) : v.isNull = false := by
  cases hr with
  | scalar hs => exact absurd (.here (.inr ⟨j, hj, hs⟩)) hn
  | built hs hb =>
      obtain rfl := Option.some.inj hv
      exact (hw.sound _ _ hb).worthwhile fun hm => hn (.link ⟨_, hj, hs⟩ hm)
  | barren hs hb => exact absurd hv (by simp)
  | unknown hc hu => exact absurd hv (by simp)
  | _ =>
      obtain rfl := Option.some.inj hv
      rfl

/-- What the data of a whole value needs is grounded. -/
theorem grounded (hr : Realizes types members w h j ov) (hw : w.Sane types members)
    (whole : ∀ v, ov = some v → v.Whole) {n : String} (hn : j.ByValue n) : Grounded members n := by
  induction hn generalizing h ov with
  | reference hs =>
      obtain ⟨rfl, -⟩ | ⟨v, -, hv⟩ | ⟨-, hn⟩ := hr.of_refers hs
      · exact absurd rfl (whole _ rfl [] _)
      · exact (hw.sound _ _ hv).grounded
      · exact hn.grounded
  | item hj _ ih =>
      obtain ⟨i, hi⟩ := List.mem_iff_getElem?.mp hj
      obtain ⟨vs, f, rfl, -, item⟩ := hr.of_array
      obtain ⟨real, hv⟩ := item i _ hi
      exact ih real fun v => (whole _ rfl).item hv
  | @entry ms key j n hc hj _ ih =>
      obtain ⟨es, rfl, -, entry, -⟩ := hr.of_map hc
      exact ih (entry key j hj) fun v => (whole _ rfl).entry

/-- A complete value that stands for the data of a name is what the name may be built to. -/
theorem toStandsFor {n : String} (hr : Realizes types members w (n, []) j (some v)) (hj : members.lookup n = some j)
    (hw : w.Sane types members) (complete : v.placeholders = []) : StandsFor types members w n v where
  realizes := ⟨j, hj, hr⟩
  complete := complete
  grounded := by
    refine ⟨n, fun m hm => ?_⟩
    obtain ⟨i, hi, hv⟩ := hm
    obtain rfl : j = i := Option.some.inj (hj.symm.trans hi)
    refine hr.grounded hw ?_ hv
    rintro _ ⟨⟩
    exact .of_complete complete
  solid := hr.solid hw rfl
  worthwhile hf := hr.isNull_eq_false hf hj hw rfl

/-- A name that nothing stands for is barren. -/
theorem barren_of_none {n : String} (hj : members.lookup n = some j) {ov : Option Value}
    (hr : Realizes types members w h j ov) (hv : ov = none) : Barren types members n := by
  cases hr with
  | barren hs hb => exact .link ⟨_, hj, hs⟩ hb
  | unknown hc hu => exact .here (.inr ⟨_, _, hj, hc, hu⟩)
  | _ => exact absurd hv (by simp)

end Realizes

end ObjectGraph
