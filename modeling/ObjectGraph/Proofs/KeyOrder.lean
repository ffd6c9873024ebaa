import ObjectGraph.Proofs.Keys
import ObjectGraph.Proofs.Normal.Realm
import ObjectGraph.Proofs.Run

/-!
# `Proofs.KeyOrder` — the order of keys does not survive the value model

A map keeps its keys ascending, so data that becomes a value and is rendered again comes back with the keys
of each of its objects ascending. What stands under a key is what stood there, at every depth. So the data
comes back as it was exactly if its keys ascend already; in the same way the keys of a node that is promoted
from a parameter are those that were declared, but ascending.

Contents:
* `Table.map_insertAll`; `Json.sortedMembers`, the members of an object in order;
* `Json.Ordered`, `Json.Proper.ordered_sorted`, `Json.Ordered.sorted_eq`: what comes back is ordered, and
  ordered data comes back;
* `Json.Proper.child?_sorted`, `follow?_sorted`, `keysOf_sorted`, `same_sorted`: it holds the same;
* `Configuration.keys_child_object`, `readNode_parameter`: a parameter that is promoted;
* `Value.key_order`.
-/

namespace ObjectGraph

open ObjectGraph.Configuration (isParameter keysOf)

namespace Table

variable {α β : Type}

/-- Values may be changed before they are written or after. -/
theorem map_insert (f : α → β) (k : String) (v : α) (t : List (String × α)) :
    (insert k v t).map (fun e => (e.1, f e.2)) = insert k (f v) (t.map fun e => (e.1, f e.2)) := by
  induction t with
  | nil => rfl
  | cons e t ih =>
      rw [insert, List.map_cons, insert]
      split
      · rfl
      · split
        · rfl
        · rw [List.map_cons, ih]

theorem map_insertAll (f : α → β) (t pairs : List (String × α)) :
    (insertAll t pairs).map (fun e => (e.1, f e.2))
      = insertAll (t.map fun e => (e.1, f e.2)) (pairs.map fun e => (e.1, f e.2)) := by
  induction pairs generalizing t with
  | nil => rfl
  | cons e pairs ih =>
      show (insertAll (insert e.1 e.2 t) pairs).map _ = _
      rw [ih, map_insert]
      rfl

end Table

namespace Json

/-! ## Ordered data -/

/-- The keys of every object in the data ascend. -/
inductive Ordered : Json → Prop
  | null : Ordered .null
  | bool (b : Bool) : Ordered (.bool b)
  | number (n : Number) : Ordered (.number n)
  | string (s : String) : Ordered (.string s)
  | array {items : List Json} (items_ordered : ∀ j ∈ items, Ordered j) : Ordered (.array items)
  | object {members : List (String × Json)} (ascending : Table.Ascending members)
      (members_ordered : ∀ m ∈ members, Ordered m.2) : Ordered (.object members)

/-- The members of an object, each ordered in itself, with their keys ascending. -/
def sortedMembers (members : List (String × Json)) : List (String × Json) :=
  Table.insertAll [] (members.map fun m => (m.1, m.2.sorted))

theorem sorted_object_eq (members : List (String × Json)) :
    (Json.object members).sorted = .object (sortedMembers members) := by
  have commute := Table.map_insertAll (fun v : Value => v.toJsonWith fun _ => .null) []
    (members.map fun m => (m.1, Value.ofJson m.2))
  rw [List.map_map] at commute
  rw [sorted_object]
  exact congrArg Json.object commute

theorem ascending_sortedMembers (members : List (String × Json)) :
    Table.Ascending (sortedMembers members) :=
  Table.ascending_insertAll _ List.Pairwise.nil

theorem mem_sortedMembers {members : List (String × Json)} {e : String × Json}
    (h : e ∈ sortedMembers members) : ∃ m ∈ members, e = (m.1, m.2.sorted) := by
  rcases Table.mem_insertAll h with h | h
  · exact absurd h List.not_mem_nil
  · obtain ⟨m, hm, rfl⟩ := List.mem_map.mp h
    exact ⟨m, hm, rfl⟩

/-- Under each key stands what stood there. -/
theorem lookup_sortedMembers {members : List (String × Json)} (hn : (Table.keys members).Nodup) (k : String) :
    (sortedMembers members).lookup k = (members.lookup k).map sorted := by
  have keys : Table.keys (members.map fun m => (m.1, m.2.sorted)) = Table.keys members := by
    rw [Table.keys, List.map_map]
    rfl
  rw [sortedMembers, Table.lookup_insertAll, List.lookup_nil, Option.or_none,
    Table.lookup_reverse (keys ▸ hn), Table.lookup_map]

/-- The keys are those that were there. -/
theorem keys_sortedMembers {members : List (String × Json)} (hn : (Table.keys members).Nodup) :
    (Table.keys (sortedMembers members)).Perm (Table.keys members) := by
  refine (List.perm_ext_iff_of_nodup (ascending_sortedMembers members).nodup hn).mpr fun k => ?_
  rw [Table.mem_keys_iff, Table.mem_keys_iff, lookup_sortedMembers hn, Option.isSome_map]

/-- Ordered data repeats no key. -/
theorem Ordered.proper {j : Json} (h : j.Ordered) : j.Proper := by
  induction h with
  | null => exact .null
  | bool b => exact .bool b
  | number n => exact .number n
  | string s => exact .string s
  | array _ ih => exact .array ih
  | object ascending _ ih => exact .object ascending.nodup ih

/-- Ordered data is its own ordered form. -/
theorem Ordered.sorted_eq {j : Json} (h : j.Ordered) : j.sorted = j := by
  induction h with
  | array _ ih => rw [sorted_array, List.map_congr_left ih, List.map_id']
  | @object members ascending _ ih =>
      have same : members.map (fun m => (m.1, m.2.sorted)) = members :=
        (List.map_congr_left fun m hm => congrArg (Prod.mk m.1) (ih m hm)).trans (List.map_id members)
      rw [sorted_object_eq, sortedMembers, same, Table.insertAll_nil ascending]
  | _ => rfl

namespace Proper

variable {j : Json}

/-- The ordered form is ordered. -/
theorem ordered_sorted (h : j.Proper) : j.sorted.Ordered := by
  induction h with
  | null => exact .null
  | bool b => exact .bool b
  | number n => exact .number n
  | string s => exact .string s
  | array _ ih =>
      rw [sorted_array]
      refine .array fun x hx => ?_
      obtain ⟨y, hy, rfl⟩ := List.mem_map.mp hx
      exact ih y hy
  | @object members _ _ ih =>
      rw [sorted_object_eq]
      refine .object (ascending_sortedMembers members) fun e he => ?_
      obtain ⟨m, hm, rfl⟩ := mem_sortedMembers he
      exact ih m hm

theorem sorted_eq_iff (h : j.Proper) : j.sorted = j ↔ j.Ordered :=
  ⟨fun same => same ▸ h.ordered_sorted, Ordered.sorted_eq⟩

theorem of_child? (h : j.Proper) {x : Json} {segment : String} (hx : j.child? segment = some x) : x.Proper :=
  h.piece (mem_pieces_of_child? hx)

theorem of_follow? (h : j.Proper) {x : Json} {path : List String} (hx : j.follow? path = some x) : x.Proper := by
  induction path generalizing j with
  | nil => exact Option.some.inj hx ▸ h
  | cons segment path ih =>
      obtain ⟨y, hy, hx⟩ := Option.bind_eq_some_iff.mp hx
      exact ih (h.of_child? hy) hx

/-- A step leads to the same, in order. -/
theorem child?_sorted (h : j.Proper) (segment : String) :
    j.sorted.child? segment = (j.child? segment).map Json.sorted := by
  cases h with
  | object nodup _ =>
      rw [sorted_object_eq]
      exact lookup_sortedMembers nodup segment
  | @array items _ =>
      rw [sorted_array]
      show ((index? segment).bind fun i => (items.map Json.sorted)[i]?) =
        ((index? segment).bind fun i => items[i]?).map Json.sorted
      cases index? segment with
      | none => rfl
      | some i => exact List.getElem?_map
  | _ => rfl

/-- A path leads to the same, in order. -/
theorem follow?_sorted (h : j.Proper) (path : List String) :
    j.sorted.follow? path = (j.follow? path).map Json.sorted := by
  induction path generalizing j with
  | nil => rfl
  | cons segment path ih =>
      rw [follow?, follow?, h.child?_sorted]
      cases hx : j.child? segment with
      | none => rfl
      | some x => exact ih (h.of_child? hx)

/-- The keys of a node are the same, up to their order. -/
theorem keysOf_sorted (h : j.Proper) : (keysOf j.sorted).Perm (keysOf j) := by
  cases h with
  | object nodup _ =>
      rw [sorted_object_eq]
      exact keys_sortedMembers nodup
  | array _ =>
      rw [sorted_array, keysOf, keysOf, List.length_map]
  | _ => exact .rfl

/-- Data and its ordered form are equal if the order of keys does not count. -/
theorem same_sorted (h : j.Proper) : j.same j.sorted = true := by
  induction h with
  | null => rfl
  | bool b => exact Proper.same_self (.bool b)
  | number n => exact Proper.same_self (.number n)
  | string s => exact Proper.same_self (.string s)
  | @array items _ ih =>
      have rows : ∀ items : List Json, (∀ x ∈ items, x.same x.sorted = true) →
          sameItems items (items.map Json.sorted) = true := by
        intro items hitems
        induction items with
        | nil => rw [List.map_nil, sameItems]
        | cons x items ihr =>
            rw [List.map_cons, sameItems, hitems x List.mem_cons_self,
              ihr fun y hy => hitems y (List.mem_cons_of_mem _ hy)]
            rfl
      rw [sorted_array, same]
      exact rows items ih
  | @object members nodup _ ih =>
      have length : members.length = (sortedMembers members).length := by
        have keys := (keys_sortedMembers nodup).length_eq
        rw [Table.keys, Table.keys, List.length_map, List.length_map] at keys
        exact keys.symm
      have there : sameMembers members (sortedMembers members) = true := by
        refine sameMembers_of_lookup fun m hm => ⟨m.2.sorted, ?_, ih m hm⟩
        rw [lookup_sortedMembers nodup, Table.lookup_of_mem nodup hm]
        rfl
      rw [sorted_object_eq, same, there, length]
      simp

end Proper

end Json

/-! ## Parameters that are promoted -/

namespace Configuration

variable {c : Configuration} {key parameter : String}

/-- The keys of a child are those of its data that are not parameters. -/
theorem keys_child_object (c : Configuration) (members : List (String × Json)) :
    (c.child (.object members)).keys = (Table.keys members).filter fun k => !isParameter k := by
  show Table.keys (members.partition fun m => isParameter m.1).2 = _
  rw [List.partition_eq_filter_filter, Table.keys, Table.keys, List.filter_map]
  rfl

/-- A parameter that is no text stands for its value, and the node at the key is promoted from it. -/
theorem readNode_parameter (env : Surroundings) (hops : Nat) (hk : IsName key)
    (hj : c.data.child? key = some (.string parameter)) (hp : isParameter parameter = true) {v : Value}
    (hb : c.context.lookup parameter = some v) (hv : ∀ s, v ≠ .string s) :
    c.readNode env hops key = Run.heap >>= fun heap => pure (c.promote heap v) := by
  obtain ⟨rest, begins⟩ : ∃ rest, parameter.toList = '$' :: rest := by
    have first : parameter.toList.head? = some '$' := by simpa [isParameter] using hp
    exact ⟨_, List.eq_cons_of_mem_head? first⟩
  have resolved : resolveText env hops c parameter = pure (some v) := by
    obtain ⟨back, unfolds⟩ := resolveText_eq env hops c parameter
    rw [unfolds, depthLimit, replaceText]
    simp only [begins, hb]
  have read : c.readAs env hops key .configuration
      = Run.heap >>= fun heap => pure ((c.promote heap v).map .configuration) := by
    unfold readAs
    rw [valueAt_of_isName env hops hk, hj]
    show resolveText env hops c parameter >>= _ = _
    rw [resolved]
    rfl
  unfold readNode
  rw [read, bind_assoc]
  refine congrArg _ (funext fun heap => ?_)
  cases c.promote heap v with
  | none => rfl
  | some d => rfl

end Configuration

namespace Value

/-- Data that becomes a value and is rendered again comes back with the keys of its objects ascending, and so
as it was exactly if they ascend already. At every path it holds what it held, with the same keys up to their
order. An object that a parameter is bound to is promoted to a node whose keys are those declared, in
ascending order. -/
theorem key_order (heap : Heap) {j : Json} (h : j.Proper) :
    let back := fun x : Json => (ofJson x).toJson heap
    (back j).Ordered ∧ j.same (back j) = true ∧ (back j = j ↔ j.Ordered) ∧
      (∀ path x, j.follow? path = some x →
        (back j).follow? path = some (back x) ∧ (keysOf (back x)).Perm (keysOf x)) ∧
      ∀ (env : Surroundings) (hops : Nat) (c : Configuration) (key parameter : String) (s : Session),
        j.isObject = true → IsName key → c.data.child? key = some (.string parameter) →
        isParameter parameter = true → c.context.lookup parameter = some (ofJson j) →
        ∃ d, c.readNode env hops key s = some (some d, s) ∧
          d.keys.Perm ((keysOf j).filter fun k => !isParameter k) ∧ d.keys.Pairwise (· < ·) := by
  intro back
  have ordered : ∀ {x : Json}, x.Proper → back x = x.sorted := fun hx => Json.toJsonWith_ofJson _ hx
  refine ⟨?_, ?_, ?_, fun path x hx => ?_, ?_⟩
  · rw [ordered h]
    exact h.ordered_sorted
  · rw [ordered h]
    exact h.same_sorted
  · rw [ordered h]
    exact h.sorted_eq_iff
  · rw [ordered h, ordered (h.of_follow? hx), h.follow?_sorted, hx]
    exact ⟨rfl, (h.of_follow? hx).keysOf_sorted⟩
  · intro env hops c key parameter s hobject hk hj hp hb
    obtain ⟨members, rfl⟩ : ∃ members, j = .object members := by
      cases j with
      | object members => exact ⟨members, rfl⟩
      | _ => exact absurd hobject Bool.false_ne_true
    have promoted : c.promote s.heap (ofJson (.object members))
        = some (c.child (.object (Json.sortedMembers members))) := by
      have rendered : (ofJson (.object members)).toJson s.heap = .object (Json.sortedMembers members) :=
        (Json.toJsonWith_ofJson _ h).trans (Json.sorted_object_eq members)
      rw [ofJson_object] at rendered ⊢
      show some (c.child ((Value.map (entriesOf members)).toJson s.heap)) = _
      rw [rendered]
    refine ⟨c.child (.object (Json.sortedMembers members)), ?_, ?_, ?_⟩
    · have read := Configuration.readNode_parameter env hops hk hj hp hb
        (by intro t; rw [ofJson_object]; exact Value.noConfusion)
      rw [read, Run.ended_iff, ← promoted]
      rfl
    · rw [Configuration.keys_child_object]
      cases h with
      | object nodup _ => exact (Json.keys_sortedMembers nodup).filter _
    · rw [Configuration.keys_child_object]
      exact (Json.ascending_sortedMembers members).filter _

/-- Two keys that are declared in descending order. -/
theorem proper_descending : (Json.object [("b", .null), ("a", .null)]).Proper :=
  .object (by decide) (by rintro _ (_ | ⟨_, _ | ⟨_, ⟨⟩⟩⟩) <;> exact .null)

/-- They are not the keys of a node that is promoted from them, in the order in which they are declared. -/
theorem key_order_descending :
    let j := Json.object [("b", .null), ("a", .null)]
    let c := Configuration.make (.object [("$p", j), ("m", .string "$p")]) .standard
    j.Proper ∧ ((ofJson j).toJson []).Ordered ∧
      ∃ d, c.readNode (.ofHost .bare) 0 "m" .start = some (some d, .start) ∧
        d.keys.Perm ["b", "a"] ∧ d.keys.Pairwise (· < ·) := by
  intro j c
  obtain ⟨hordered, -, -, -, promotes⟩ := key_order [] proper_descending
  have hparameter : Configuration.isParameter "$p" = true := by decide
  have hmember : Configuration.isParameter "m" = false := by decide
  have split : Configuration.splitParameters (.object [("$p", j), ("m", .string "$p")])
      = (.object [("m", .string "$p")], [("$p", ofJson j)]) := by
    simp [Configuration.splitParameters, Configuration.splitMembers, List.partition_eq_filter_filter, hparameter,
      hmember]
  have hdata : c.data = .object [("m", .string "$p")] := congrArg Prod.fst split
  have hcontext : c.context = [("$p", ofJson j)] :=
    congrArg (fun parts : Json × Params => Table.insertAll [] parts.2) split
  have hm : c.data.child? "m" = some (.string "$p") := by
    rw [hdata]
    show [("m", Json.string "$p")].lookup "m" = _
    rw [List.lookup_cons_self]
  have hbound : c.context.lookup "$p" = some (ofJson j) := by rw [hcontext, List.lookup_cons_self]
  exact ⟨proper_descending, hordered,
    promotes (.ofHost .bare) 0 c "m" "$p" .start rfl (by decide) hm hparameter hbound⟩

/-- Data need not come back as it was. -/
theorem not_toJson_ofJson : ¬ ∀ (heap : Heap) (j : Json), j.Proper → (ofJson j).toJson heap = j := by
  intro h
  have same := congrArg keysOf (h [] _ proper_descending)
  exact absurd same (by decide)

end Value

end ObjectGraph
