import ObjectGraph.Component.Declared
import ObjectGraph.Sample.Classes

/-!
# `Proofs.Assignment` — setting a property takes all of a value or none of it

A field holds content of its type: rows of texts, say, or perhaps a number. A value is read as such content, which fails
if anything in it does not fit, and content is shown as a value again. What a field accepts is one after the other
(`accept_eq`). What has been read is shown as something that is read as the same (`read?_shown`): only null is shown as
null, and whole numbers have been read within bounds in which they can be shown. Floating point numbers of half the
width are the exception: one that is too large for them is shown as null (`accept_single_large`).

Contents:
* `FieldType.Content`, `readWhole?`, `showWhole`, `read?`, `shown`;
* `showWhole_of_read`, `readWhole?_eq_some_iff`: whole numbers;
* `acceptAll_eq`, `acceptEntries_eq`, `acceptWhole_eq`, `accept_eq`;
* `isExact`, `shown_ne_null`, `mapM_shown`, `read?_shown`; `accept_single_large`;
* `Class.set?_reads`, `Class.set?_again`;
* `Heap.get?_put`, `set_put`, `set_declared`.
-/

namespace ObjectGraph

namespace FieldType

/-! ## Content -/

/-- What a field of a type holds. An infinite number of half the width is no number. -/
abbrev Content : FieldType → Type
  | bool => Bool
  | integer least greatest => { n : Int // least ≤ n ∧ n ≤ greatest }
  | float => Binary64
  | single => Option Binary64
  | string => String
  | date => Instant
  | uri => Uri
  | binary => List UInt8
  | object => ObjectId
  | configuration => Configuration
  | value => Value
  | option t => Option t.Content
  | list t => List t.Content
  | map t => List (String × t.Content)

/-- A value read as a whole number within bounds. -/
def readWhole? (least greatest : Int) (v : Value) : Option { n : Int // least ≤ n ∧ n ≤ greatest } :=
  v.wholeNumber?.bind fun n => if within : least ≤ n ∧ n ≤ greatest then some ⟨n, within⟩ else none

/-- A whole number shown as a value, unless it does not have 64 signed bits. -/
def showWhole (n : Int) : Value := if leastInteger ≤ n ∧ n < signedBound then .ofInt n else .null

/-- A value read as content of a type. -/
def read? : (t : FieldType) → Value → Option t.Content
  | bool, v => match v with | .bool b => some b | _ => none
  | integer least greatest, v => readWhole? least greatest v
  | float, v => v.float?
  | single, v => v.float?.map Binary64.toSingle?
  | string, v => match v with | .string s => some s | _ => none
  | date, v => match v with | .date t => some t | _ => none
  | uri, v => match v with | .uri u => some u | _ => none
  | binary, v => match v with | .binary bytes => some bytes | _ => none
  | object, v => match v with | .object id => some id | _ => none
  | configuration, v => match v with | .configuration c => some c | _ => none
  | value, v => some v
  | option t, v => match v with | .null => some none | v => (t.read? v).map some
  | list t, v => match v with | .list items => items.mapM t.read? | _ => none
  | map t, v => match v with
      | .map entries => entries.mapM fun e => (t.read? e.2).map fun x => (e.1, x)
      | _ => none

/-- Content shown as a value. -/
def shown : (t : FieldType) → t.Content → Value
  | bool, b => .bool b
  | integer _ _, n => showWhole n.1
  | float, x => .ofFloat x
  | single, some x => .ofFloat x
  | single, none => .null
  | string, s => .string s
  | date, t => .date t
  | uri, u => .uri u
  | binary, bytes => .binary bytes
  | object, id => .object id
  | configuration, c => .configuration c
  | value, v => v
  | option t, some x => t.shown x
  | option _, none => .null
  | list t, xs => .list (List.map t.shown xs)
  | map t, xs => .map (List.map (fun e => (e.1, t.shown e.2)) xs)

/-! ### Accepting is reading and showing -/

/-- What is read as a whole number is shown as it. -/
theorem showWhole_of_read {v : Value} {n : Int} (h : v.wholeNumber? = some n) : showWhole n = .ofInt n := by
  obtain ⟨x, -, whole⟩ := Option.bind_eq_some_iff.mp h
  exact if_pos (Number.range_of_wholeNumber? whole)

/-- The number that is read is the value's own. -/
theorem readWhole?_eq_some_iff {least greatest : Int} {v : Value} {n : { n : Int // least ≤ n ∧ n ≤ greatest }} :
    readWhole? least greatest v = some n ↔ v.wholeNumber? = some n.1 := by
  unfold readWhole?
  cases v.wholeNumber? with
  | none => exact ⟨nofun, nofun⟩
  | some m =>
      rw [Option.bind_some, Option.some.injEq]
      refine ⟨fun h => ?_, ?_⟩
      · split at h
        · exact congrArg Subtype.val (Option.some.inj h)
        · exact absurd h (by simp)
      · rintro rfl
        exact dif_pos n.2

variable {t : FieldType} {v : Value}

/-- A value that is not null is read as content that is there. -/
theorem read?_option (h : v ≠ .null) : (option t).read? v = (t.read? v).map some := by
  cases v with
  | null => exact absurd rfl h
  | _ => rfl

theorem acceptAll_eq {α : Type} {accept : Value → Option Value} {read : Value → Option α} {shown : α → Value}
    (h : ∀ v, accept v = (read v).map shown) (items : List Value) :
    acceptAll accept items = (items.mapM read).map (List.map shown) := by
  induction items with
  | nil => rfl
  | cons v items ih =>
      rw [acceptAll, h, ih, List.mapM_cons]
      cases read v with
      | none => rfl
      | some x => cases items.mapM read <;> rfl

theorem acceptEntries_eq {α : Type} {accept : Value → Option Value} {read : Value → Option α}
    {shown : α → Value} (h : ∀ v, accept v = (read v).map shown) (entries : List (String × Value)) :
    acceptEntries accept entries
      = (entries.mapM fun e => (read e.2).map fun x => (e.1, x)).map (List.map fun e => (e.1, shown e.2)) := by
  induction entries with
  | nil => rfl
  | cons e entries ih =>
      rw [acceptEntries, h, ih, List.mapM_cons]
      cases read e.2 with
      | none => rfl
      | some x => cases entries.mapM fun e => (read e.2).map fun x => (e.1, x) <;> rfl

theorem acceptWhole_eq (least greatest : Int) (v : Value) :
    (integer least greatest).accept v = (readWhole? least greatest v).map fun n => showWhole n.1 := by
  show (v.wholeNumber?.bind fun n => if least ≤ n ∧ n ≤ greatest then some (Value.ofInt n) else none) = _
  cases whole : v.wholeNumber? with
  | none => rw [readWhole?, whole]; rfl
  | some n =>
      rw [readWhole?, whole, Option.bind_some, Option.bind_some]
      split
      · rw [Option.map_some, showWhole_of_read whole]
      · rfl

/-- A field accepts what can be read as its content, in the form in which the content is shown. -/
theorem accept_eq (t : FieldType) (v : Value) : t.accept v = (t.read? v).map t.shown := by
  induction t generalizing v with
  | integer least greatest => exact acceptWhole_eq least greatest v
  | single =>
      show v.float?.map _ = (v.float?.map Binary64.toSingle?).map (shown single)
      rw [Option.map_map]
      refine congrArg (v.float?.map ·) (funext fun x => ?_)
      rw [Function.comp_apply]
      cases x.toSingle? <;> rfl
  | option t ih =>
      cases v with
      | null => rfl
      | _ =>
          show t.accept _ = ((t.read? _).map some).map (shown (option t))
          rw [ih, Option.map_map]
          rfl
  | list t ih =>
      cases v with
      | list items =>
          show (acceptAll t.accept items).map Value.list = (items.mapM t.read?).map (shown (list t))
          rw [acceptAll_eq ih, Option.map_map]
          rfl
      | _ => rfl
  | map t ih =>
      cases v with
      | map entries =>
          show (acceptEntries t.accept entries).map Value.map
            = (entries.mapM fun e => (t.read? e.2).map fun x => (e.1, x)).map (shown (map t))
          rw [acceptEntries_eq ih, Option.map_map]
          rfl
      | _ => rfl
  | float | value => rfl
  | _ => cases v <;> rfl

/-! ### What is shown is read as the same -/

/-- No number of half the width is in the type. -/
def isExact : FieldType → Bool
  | single => false
  | option t => t.isExact
  | list t => t.isExact
  | map t => t.isExact
  | _ => true

/-- Only null is shown as null. -/
theorem shown_ne_null {x : t.Content} (exact : t.isExact = true) (h : t.read? v = some x) (hv : v ≠ .null) :
    t.shown x ≠ .null := by
  induction t generalizing v with
  | integer least greatest =>
      rw [shown, showWhole_of_read (readWhole?_eq_some_iff.mp h)]
      exact nofun
  | single => exact absurd exact Bool.false_ne_true
  | value =>
      obtain rfl := Option.some.inj h
      exact hv
  | option t ih =>
      rw [read?_option hv] at h
      obtain ⟨y, read, rfl⟩ := Option.map_eq_some_iff.mp h
      exact ih exact read hv
  | _ => exact nofun

/-- A row of readings is read again if each of them is. -/
theorem mapM_shown {α β : Type} {read : α → Option β} {shown : β → α}
    (h : ∀ a b, read a = some b → read (shown b) = some b) {as : List α} {bs : List β}
    (all : as.mapM read = some bs) : (bs.map shown).mapM read = some bs := by
  induction as generalizing bs with
  | nil =>
      obtain rfl := Option.some.inj all
      rfl
  | cons a as ih =>
      rw [List.mapM_cons] at all
      obtain ⟨b, one, all⟩ := Option.bind_eq_some_iff.mp all
      obtain ⟨rest, more, all⟩ := Option.bind_eq_some_iff.mp all
      obtain rfl := Option.some.inj all
      rw [List.map_cons, List.mapM_cons, h a b one, ih more]
      rfl

/-- What a value is read as is shown as a value that is read as the same. -/
theorem read?_shown {x : t.Content} (exact : t.isExact = true) (h : t.read? v = some x) :
    t.read? (t.shown x) = some x := by
  induction t generalizing v with
  | integer least greatest =>
      have whole := readWhole?_eq_some_iff.mp h
      obtain ⟨_, -, number⟩ := Option.bind_eq_some_iff.mp whole
      rw [shown, showWhole_of_read whole]
      exact readWhole?_eq_some_iff.mpr (Number.wholeNumber?_ofInt (Number.range_of_wholeNumber? number))
  | single => exact absurd exact Bool.false_ne_true
  | option t ih =>
      by_cases hv : v = .null
      · subst hv
        obtain rfl := Option.some.inj h
        rfl
      · rw [read?_option hv] at h
        obtain ⟨y, read, rfl⟩ := Option.map_eq_some_iff.mp h
        -- were the content shown as null, it would be read as absent
        have there : t.shown y ≠ .null := shown_ne_null exact read hv
        show (option t).read? (t.shown y) = some (some y)
        rw [read?_option there, ih exact read, Option.map_some]
  | list t ih =>
      cases v with
      | list items => exact mapM_shown (fun _ _ read => ih exact read) h
      | _ => exact absurd h nofun
  | map t ih =>
      cases v with
      | map entries =>
          refine mapM_shown (fun e x read => ?_) h
          obtain ⟨y, value, rfl⟩ := Option.map_eq_some_iff.mp read
          show ((t.read? (t.shown y)).map fun z => (e.1, z)) = some (e.1, y)
          rw [ih exact value, Option.map_some]
      | _ => exact absurd h nofun
  | _ => rfl

/-- A number that is too large for half the width is accepted and shown as null, and null is not accepted. -/
theorem accept_single_large {x : Binary64} (large : x.toSingle? = none) :
    single.accept (.ofFloat x) = some .null ∧ single.accept .null = none := by
  refine ⟨?_, rfl⟩
  rw [accept_eq]
  simp [read?, Value.float?, Value.ofFloat, Value.number?, Number.toFloat, large, shown]

end FieldType

/-! ## Classes of declared fields -/

variable {name key : String} {fields : List Field} {configured : Fields → Fields} {held held' : Fields} {v : Value}

/-- A property is set if there is a field of this name and it can read the value; it holds what it has read. -/
theorem Class.set?_reads :
    (Class.declared name fields configured).set? held key v = some held' ↔
      ∃ f x, fields.find? (·.name == key) = some f ∧ f.type.read? v = some x
        ∧ held' = Table.put key (f.type.shown x) held := by
  rw [Class.set?_declared]
  constructor
  · rintro ⟨f, w, found, accepted, rfl⟩
    rw [FieldType.accept_eq] at accepted
    obtain ⟨x, read, rfl⟩ := Option.map_eq_some_iff.mp accepted
    exact ⟨f, x, found, read, rfl⟩
  · rintro ⟨f, x, found, read, rfl⟩
    exact ⟨f, f.type.shown x, found, by rw [FieldType.accept_eq, read, Option.map_some], rfl⟩

/-- What is shown of a property that has been set may be set again; nothing changes. -/
theorem Class.set?_again {f : Field} {x : f.type.Content} (found : fields.find? (·.name == key) = some f)
    (again : f.type.read? (f.type.shown x) = some x) (held : Fields) :
    (Class.declared name fields configured).set? (Table.put key (f.type.shown x) held) key (f.type.shown x)
      = some (Table.put key (f.type.shown x) held) :=
  Class.set?_reads.mpr ⟨f, x, found, again, (Table.put_put_self ..).symm⟩

/-! ## The heap -/

namespace Heap

variable {h : Heap} {o : ObjectId} {c : Component}

/-- The properties of a component that has been put in another's place. -/
theorem get?_put (there : h[o]? = some c) (taken : Fields) (q : String) :
    Heap.get? (List.set h o { c with fields := taken }) o q = c.ofClass.get? taken q := by
  rw [Heap.get?, getElem?_listSet_eq there]
  rfl

/-- A component that has been put in another's place, and whose properties stay as they are if one of them is set. -/
theorem set_put (there : h[o]? = some c) {taken : Fields} (stays : c.ofClass.set? taken key v = some taken) :
    Heap.set (List.set h o { c with fields := taken }) o key v = (true, List.set h o { c with fields := taken }) := by
  rw [set_taken (getElem?_listSet_eq there _) stays]
  exact congrArg (Prod.mk true) (List.set_set ..)

/-- A component with declared fields takes a value for a property exactly if there is a field of this name that can read
all of it. If it does not, nothing has changed. If it does, no other component and no other property has changed; the
property shows what has been read, and that is read as the same, so setting it again changes nothing. -/
theorem set_declared (there : h[o]? = some c) (declared : c.ofClass = .declared name fields configured)
    (exact : ∀ f ∈ fields, f.name = key → f.type.isExact = true) :
    ((h.set o key v).1 = true ↔
      ∃ f, fields.find? (·.name == key) = some f ∧ (f.type.read? v).isSome) ∧
    ((h.set o key v).1 = false → (h.set o key v).2 = h) ∧
    ((h.set o key v).1 = true →
      (∀ p, p ≠ o → (h.set o key v).2[p]? = h[p]?) ∧
      (∀ q, q ≠ key → (h.set o key v).2.get? o q = h.get? o q) ∧
      ∃ f x, fields.find? (·.name == key) = some f ∧ f.type.read? v = some x ∧
        (h.set o key v).2.get? o key = some (f.type.shown x) ∧
        f.type.read? (f.type.shown x) = some x ∧
        (h.set o key v).2.set o key (f.type.shown x) = (true, (h.set o key v).2)) := by
  obtain ⟨_, held, times⟩ := c
  subst declared
  cases set : (Class.declared name fields configured).set? held key v with
  | none =>
      rw [set_refused there set]
      refine ⟨⟨nofun, fun ⟨f, found, read⟩ => ?_⟩, fun _ => rfl, nofun⟩
      obtain ⟨x, read⟩ := Option.isSome_iff_exists.mp read
      rw [Class.set?_reads.mpr ⟨f, x, found, read, rfl⟩] at set
      exact absurd set nofun
  | some taken =>
      have others (p : ObjectId) (other : p ≠ o) : (h.set o key v).2[p]? = h[p]? :=
        getElem?_set_of_ne other.symm key v
      obtain ⟨f, x, found, read, rfl⟩ := Class.set?_reads.mp set
      obtain ⟨member, named⟩ := Field.of_find? found
      have again := FieldType.read?_shown (exact f member named) read
      have stays := set_put there (Class.set?_again found again held)
      rw [set_taken there set] at others ⊢
      refine ⟨⟨fun _ => ⟨f, found, read ▸ rfl⟩, fun _ => rfl⟩, nofun, fun _ =>
        ⟨others, fun q other => ?_, f, x, found, read, ?_, again, stays⟩⟩
      · rw [get?_put there, Class.get?_declared found, if_neg other, Heap.get?, there]
        rfl
      · rw [get?_put there, Class.get?_declared found, if_pos rfl]

/-- A kit takes rows of texts for its grid, and nothing of rows among which one thing is not a text. -/
theorem set_declared_grid :
    let heap : Heap := [Sample.instanceOf Sample.kit Sample.kitFields]
    let rows : Value := .list [.list [.string "a", .string "b"], .list []]
    let mixed : Value := .list [.list [.string "a"], .list [.string "b", .bool true]]
    heap.set 0 "grid" mixed = (false, heap) ∧
      (heap.set 0 "grid" rows).1 = true ∧ (heap.set 0 "grid" rows).2.get? 0 "grid" = some rows ∧
      (heap.set 0 "grid" rows).2.get? 0 "table" = heap.get? 0 "table" ∧
      (heap.set 0 "grid" rows).2.set 0 "grid" rows = (true, (heap.set 0 "grid" rows).2) := by
  intro heap rows mixed
  have exact : ∀ f ∈ Sample.kitFields, f.name = "grid" → f.type.isExact = true := by decide
  have found : Sample.kitFields.find? (·.name == "grid") = some ⟨"grid", .list (.list .string), none⟩ := by decide
  have there : heap[0]? = some (Sample.instanceOf Sample.kit Sample.kitFields) := rfl
  obtain ⟨-, refused, -⟩ := set_declared (v := mixed) there rfl exact
  obtain ⟨takes, -, taken⟩ := set_declared (v := rows) there rfl exact
  have one : (heap.set 0 "grid" rows).1 = true := takes.mpr ⟨_, found, rfl⟩
  obtain ⟨-, others, f, x, same, read, shows, -, again⟩ := taken one
  obtain rfl := Option.some.inj (found.symm.trans same)
  obtain rfl := Option.some.inj read
  exact ⟨Prod.ext rfl (refused rfl), one, shows, others "table" (by decide), again⟩

end Heap

end ObjectGraph
