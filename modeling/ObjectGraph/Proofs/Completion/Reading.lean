import ObjectGraph.Proofs.Normal.Realm
import ObjectGraph.Proofs.Run
import ObjectGraph.Proofs.Keys

/-!
# `Proofs.Completion.Reading` — reading without references

What a text stands for may depend on the parameters that its node sees and on nothing else, or it may be a
reference, to a URI or to the root, perhaps only after parameters have been filled in. If no reference is met
on the way, reading a node is quiet, whatever surrounds it, and what is there is data or a node of data.

Contents:
* `Configuration.Grounded`, nodes and parameters that are made of data, with `make` and `child`;
* `meaning`, what a text stands for without references, and `resolveText_yields`;
* `Value.Sound`, `Cursor.Sound`, `step_sound`;
* `Configuration.Holds`, what a node holds at a path without references, and `Holds.sound`, `valueAt_yields`,
  `readNode_yields`, `readString_yields`.
-/

namespace ObjectGraph

open Run (After Quiet Yields)

/-! ## Nodes that are made of data -/

/-- The node's data and its parameters are data that repeats no key. -/
structure Configuration.Grounded (c : Configuration) : Prop where
  data : c.data.Proper
  context : ∀ p ∈ c.context, ∃ j : Json, j.Proper ∧ p.2 = .ofJson j

namespace Configuration

variable {c : Configuration} {j : Json}

theorem proper_splitParameters (hj : j.Proper) : (splitParameters j).1.Proper ∧
    ∀ p ∈ (splitParameters j).2, ∃ j : Json, j.Proper ∧ p.2 = .ofJson j := by
  cases hj with
  | @object members nodup proper =>
      unfold splitParameters splitMembers
      simp only [List.partition_eq_filter_filter]
      constructor
      · exact .object (nodup.sublist (List.filter_sublist.map _))
          fun m hm => proper m (List.mem_of_mem_filter hm)
      · intro p hp
        obtain ⟨m, hm, rfl⟩ := List.mem_map.mp hp
        exact ⟨m.2, proper m (List.mem_of_mem_filter hm), rfl⟩
  | null => exact ⟨.null, by simp [splitParameters]⟩
  | bool b => exact ⟨.bool b, by simp [splitParameters]⟩
  | number n => exact ⟨.number n, by simp [splitParameters]⟩
  | string s => exact ⟨.string s, by simp [splitParameters]⟩
  | array proper => exact ⟨.array proper, by simp [splitParameters]⟩

/-- A root of data is made of data. -/
theorem Grounded.make (hj : j.Proper) (handler : Handler) : (Configuration.make j handler).Grounded where
  data := (proper_splitParameters hj).1
  context p hp := by
    rcases Table.mem_insertAll hp with hp | hp
    · exact absurd hp List.not_mem_nil
    · exact (proper_splitParameters hj).2 p hp

/-- So are its children. -/
theorem Grounded.child (hc : c.Grounded) (hj : j.Proper) : (c.child j).Grounded where
  data := (proper_splitParameters hj).1
  context p hp := by
    have from_either : p ∈ c.context ∨ p ∈ (splitParameters j).2 := by
      change p ∈ (if (splitParameters j).2 = [] then c.context
        else Table.insertAll c.context (splitParameters j).2) at hp
      split at hp
      · exact .inl hp
      · exact Table.mem_insertAll hp
    exact from_either.elim (hc.context p) ((proper_splitParameters hj).2 p)

theorem Grounded.withHandler (hc : c.Grounded) (handler : Handler) : (c.withHandler handler).Grounded :=
  ⟨hc.data, hc.context⟩

/-- A map of data repeats no key. -/
theorem Grounded.nodup (hc : c.Grounded) {members : List (String × Json)} (hdata : c.data = .object members) :
    (Table.keys members).Nodup := by
  have proper := hc.data
  rw [hdata] at proper
  cases proper with
  | object nodup _ => exact nodup

end Configuration

/-! ## Values that are made of data -/

/-- Data that repeats no key, or a node of such data. -/
inductive Value.Sound : Value → Prop
  | data {j : Json} (hj : j.Proper) : Sound (.ofJson j)
  | node {c : Configuration} (hc : c.Grounded) : Sound (.configuration c)

namespace Value

variable {v : Value} {j : Json}

theorem itemsContainPending_eq_false {items : List Value} (h : ∀ v ∈ items, v.containsPending = false) :
    itemsContainPending items = false := by
  induction items with
  | nil => rfl
  | cons v items ih =>
      rw [itemsContainPending, h v List.mem_cons_self, ih fun w hw => h w (List.mem_cons_of_mem _ hw)]
      rfl

theorem entriesContainPending_eq_false {entries : List (String × Value)}
    (h : ∀ e ∈ entries, e.2.containsPending = false) : entriesContainPending entries = false := by
  induction entries with
  | nil => rfl
  | cons e entries ih =>
      obtain ⟨k, v⟩ := e
      rw [entriesContainPending, h (k, v) List.mem_cons_self, ih fun e he => h e (List.mem_cons_of_mem _ he)]
      rfl

/-- Data holds no placeholder. -/
theorem containsPending_ofJson (hj : j.Proper) : (ofJson j).containsPending = false := by
  induction hj with
  | array _ ih =>
      rw [ofJson_array, containsPending]
      refine itemsContainPending_eq_false fun v hv => ?_
      obtain ⟨x, hx, rfl⟩ := List.mem_map.mp hv
      exact ih x hx
  | object _ _ ih =>
      rw [ofJson_object, containsPending]
      refine entriesContainPending_eq_false fun e he => ?_
      obtain ⟨m, hm, rfl⟩ := mem_entriesOf he
      exact ih m hm
  | _ => rfl

theorem Sound.containsPending (hv : v.Sound) : v.containsPending = false := by
  cases hv with
  | data hj => exact containsPending_ofJson hj
  | node _ => rfl

/-- Data is no node. -/
theorem ofJson_ne_configuration (j : Json) (c : Configuration) : ofJson j ≠ .configuration c := by
  cases j <;> simp [ofJson]

theorem Sound.grounded {c : Configuration} (h : (Value.configuration c).Sound) : c.Grounded := by
  generalize same : Value.configuration c = v at h
  cases h with
  | node hc => exact Value.configuration.inj same ▸ hc
  | @data j _ => exact absurd same.symm (ofJson_ne_configuration j c)

/-- Nothing that is made of data is a resource. -/
theorem Sound.ne_resource (hv : v.Sound) (r : Resource) : v ≠ .resource r := by
  cases hv with
  | node _ => exact Value.noConfusion
  | @data j _ => cases j <;> simp [ofJson]

/-- The text of data in a template does not depend on the components that exist. -/
theorem display?_ofJson (heap : Heap) (hj : j.Proper) : (ofJson j).display? heap = (ofJson j).display? [] := by
  have rendered : (ofJson j).toJson heap = (ofJson j).toJson [] := by
    unfold toJson
    rw [Json.toJsonWith_ofJson _ hj, Json.toJsonWith_ofJson _ hj]
  cases j with
  | array items =>
      rw [ofJson_array] at rendered ⊢
      exact congrArg (fun j : Json => some j.compact) rendered
  | object members =>
      rw [ofJson_object] at rendered ⊢
      exact congrArg (fun j : Json => some j.compact) rendered
  | _ => rfl

end Value

/-! ## Texts without references -/

namespace Configuration

variable {c : Configuration}

/-- What a text stands for, given the parameters that are seen: nothing, or a value. None of the two if it is a
reference, or becomes one when parameters are filled in. `n` is how many replacements there may be. -/
def meaning (context : Params) : Nat → String → Option (Option Value)
  | 0, _ => some none
  | n + 1, s =>
      match s.toList with
      | '$' :: _ =>
          match context.lookup s with
          | some (.string next) => meaning context n next
          | some v => some (some v)
          | none => some none
      | '?' :: rest => meaning context n (Template.expand [] context (String.ofList rest))
      | '@' :: _ => none
      | '#' :: _ => none
      | '\x60' :: rest => some (some (.string (String.ofList rest)))
      | _ => some (some (.string s))

/-- Resolves texts that are no references; a run is cut off at one. -/
def withoutReferences : Resolver := fun c s =>
  match meaning c.context depthLimit s with
  | some v => pure v
  | none => Run.exhausted

theorem Grounded.lookup (hc : c.Grounded) {k : String} {v : Value} (h : c.context.lookup k = some v) :
    ∃ j : Json, j.Proper ∧ v = .ofJson j := hc.context (k, v) (Table.mem_of_lookup h)

/-- Templates are filled with data, so it does not matter which components exist. -/
theorem Grounded.expand (hc : c.Grounded) (heap : Heap) (template : String) :
    Template.expand heap c.context template = Template.expand [] c.context template := by
  have same : Template.fill heap c.context = Template.fill [] c.context := by
    funext piece
    cases piece with
    | text cs => rfl
    | slot name =>
        have found : Template.lookup? heap c.context name = Template.lookup? [] c.context name := by
          unfold Template.lookup?
          cases h : c.context.lookup _ with
          | none => rfl
          | some v =>
              obtain ⟨j, hj, rfl⟩ := hc.lookup h
              exact Value.display?_ofJson heap hj
        rw [Template.fill, Template.fill, found]
  rw [Template.expand, Template.expand, same]

/-- How a text comes to stand for something: it names a parameter, is filled in, or stands for itself, perhaps
without the mark in front of it. -/
theorem meaning_cases {context : Params} {n : Nat} {s : String} {v : Option Value}
    (h : meaning context (n + 1) s = some v) :
    (∃ rest, s.toList = '$' :: rest ∧
      ((∃ next, context.lookup s = some (.string next) ∧ meaning context n next = some v) ∨
        (∃ w, context.lookup s = some w ∧ (∀ next, w ≠ .string next) ∧ v = some w) ∨
        context.lookup s = none ∧ v = none)) ∨
    (∃ rest, s.toList = '?' :: rest ∧
      meaning context n (Template.expand [] context (String.ofList rest)) = some v) ∨
    (∃ rest, s.toList = '\x60' :: rest ∧ v = some (.string (String.ofList rest))) ∨
    Unprefixed s ∧ v = some (.string s) := by
  unfold meaning at h
  split at h
  next rest begins =>
    refine .inl ⟨rest, begins, ?_⟩
    split at h
    next next found => exact .inl ⟨next, found, h⟩
    next w other found => exact .inr (.inl ⟨w, found, fun next same => other next same, (Option.some.inj h).symm⟩)
    next found => exact .inr (.inr ⟨found, (Option.some.inj h).symm⟩)
  next rest begins => exact .inr (.inl ⟨rest, begins, h⟩)
  next => exact absurd h (by simp)
  next => exact absurd h (by simp)
  next rest begins => exact .inr (.inr (.inl ⟨rest, begins, (Option.some.inj h).symm⟩))
  next dollar question at_ hash grave =>
    refine .inr (.inr (.inr ⟨fun a ha hm => ?_, (Option.some.inj h).symm⟩))
    obtain ⟨rest, begins⟩ := List.head?_eq_some_iff.mp ha
    simp only [List.mem_cons, List.not_mem_nil, or_false] at hm
    rcases hm with rfl | rfl | rfl | rfl | rfl
    · exact dollar rest begins
    · exact question rest begins
    · exact at_ rest begins
    · exact hash rest begins
    · exact grave rest begins

/-- What a text stands for without references is data. -/
theorem Grounded.meaning_data (hc : c.Grounded) {n : Nat} {s : String} {v : Value}
    (h : meaning c.context n s = some (some v)) : ∃ j : Json, j.Proper ∧ v = .ofJson j := by
  induction n generalizing s with
  | zero => exact absurd h (by simp [meaning])
  | succ n ih =>
      rcases meaning_cases h with ⟨rest, -, bound⟩ | ⟨rest, -, filled⟩ | ⟨rest, -, same⟩ | ⟨-, same⟩
      · rcases bound with ⟨next, -, means⟩ | ⟨w, found, -, same⟩ | ⟨-, absent⟩
        · exact ih means
        · obtain rfl : v = w := Option.some.inj same
          exact hc.lookup found
        · exact absurd absent (by simp)
      · exact ih filled
      · obtain rfl := Option.some.inj same
        exact ⟨.string _, .string _, rfl⟩
      · obtain rfl := Option.some.inj same
        exact ⟨.string _, .string _, rfl⟩

theorem Grounded.meaning_sound (hc : c.Grounded) {n : Nat} {s : String} {v : Value}
    (h : meaning c.context n s = some (some v)) : v.Sound := by
  obtain ⟨j, hj, rfl⟩ := hc.meaning_data h
  exact .data hj

theorem reportUnbound_yields (names : List String) (t : Session) : Yields (reportUnbound names) t () := by
  induction names generalizing t with
  | nil => exact .pure () t
  | cons name names ih => exact (Yields.report _ _ _ _ t).bind fun u _ => ih u

/-- A text that meets no reference is resolved quietly, to what it stands for. -/
theorem replaceText_yields (hc : c.Grounded) (env : Surroundings) (back : Option Resolver) (hops : Nat)
    (supplied : String) {n : Nat} {s : String} {v : Option Value} (h : meaning c.context n s = some v)
    (t : Session) : Yields (replaceText env back hops c supplied n s) t v := by
  induction n generalizing s t with
  | zero =>
      obtain rfl : none = v := by simpa [meaning] using h
      unfold replaceText
      exact (Yields.report _ _ _ _ t).bind fun u _ => .pure none u
  | succ n ih =>
      rcases meaning_cases h with ⟨rest, begins, bound⟩ | ⟨rest, begins, filled⟩ | ⟨rest, begins, rfl⟩ | ⟨plain, rfl⟩
      · unfold replaceText
        simp only [begins]
        rcases bound with ⟨next, found, means⟩ | ⟨w, found, other, rfl⟩ | ⟨absent, rfl⟩
        · rw [found]
          exact ih means t
        · rw [found]
          cases w with
          | string next => exact absurd rfl (other next)
          | _ => exact .pure _ t
        · rw [absent]
          exact (Yields.report _ _ _ _ t).bind fun u _ => .pure none u
      · unfold replaceText
        simp only [begins]
        refine (Yields.heap t).bind fun u _ => (reportUnbound_yields _ u).bind fun u' _ => ?_
        rw [hc.expand]
        exact ih filled u'
      · unfold replaceText
        simp only [begins]
        exact .pure _ t
      · rw [replaceText_of_unprefixed env back hops c supplied plain]
        exact .pure _ t

theorem resolveText_yields (hc : c.Grounded) (env : Surroundings) (hops : Nat) {s : String} {v : Option Value}
    (h : meaning c.context depthLimit s = some v) (t : Session) : Yields (resolveText env hops c s) t v := by
  obtain ⟨back, resolved⟩ := resolveText_eq env hops c s
  rw [resolved]
  exact replaceText_yields hc env back hops s h t

/-! ## Walking without references -/

/-- The cursor stands at what is made of data. -/
def Cursor.Sound : Cursor → Prop
  | .value v => v.Sound
  | .raw c j => c.Grounded ∧ j.Proper

/-- The step leads to what is made of data. -/
def Move.Sound : Move → Prop
  | .stop v => v.Sound
  | .go cursor => cursor.Sound

theorem stepRaw_sound (hc : c.Grounded) {j : Json} (hj : j.Proper) {segment : String} {move : Move}
    (hm : stepRaw c j segment = some move) : move.Sound := by
  obtain ⟨child, found, rfl⟩ := Option.map_eq_some_iff.mp hm
  exact ⟨hc, hj.piece (Json.mem_pieces_of_child? found)⟩

/-- A step from data leads to data. -/
theorem stepValue_data {j : Json} (hj : j.Proper) {heap : Heap} {segment : String} {rest : List String}
    {move : Move} (hm : stepValue heap (.ofJson j) segment rest = some move) :
    ∃ x : Json, x.Proper ∧ (move = .stop (.ofJson x) ∨ move = .go (.value (.ofJson x))) := by
  unfold stepValue at hm
  split at hm
  · exact ⟨j, hj, .inl (Option.some.inj hm).symm⟩
  · cases hj with
    | array proper =>
        rw [Value.ofJson_array] at hm
        obtain ⟨w, found, rfl⟩ := Option.map_eq_some_iff.mp hm
        obtain ⟨i, -, hi⟩ := Option.bind_eq_some_iff.mp found
        obtain ⟨x, hx, rfl⟩ := List.mem_map.mp (List.mem_of_getElem? hi)
        exact ⟨x, proper x hx, .inr rfl⟩
    | object _ proper =>
        rw [Value.ofJson_object] at hm
        obtain ⟨w, found, rfl⟩ := Option.map_eq_some_iff.mp hm
        obtain ⟨m, hx, same⟩ := Value.mem_entriesOf (Table.mem_of_lookup found)
        obtain rfl : w = .ofJson m.2 := congrArg Prod.snd same
        exact ⟨m.2, proper m hx, .inr rfl⟩
    | _ => exact absurd hm (by simp [Value.ofJson])

theorem stepValue_sound {v : Value} (hv : v.Sound) {heap : Heap} {segment : String} {rest : List String}
    {move : Move} (hm : stepValue heap v segment rest = some move) : move.Sound := by
  cases hv with
  | data hj =>
      obtain ⟨x, hx, rfl | rfl⟩ := stepValue_data hj hm
      · exact .data hx
      · exact .data hx
  | node hc =>
      unfold stepValue at hm
      split at hm
      · cases hm
        exact .node hc
      · exact stepRaw_sound hc hc.data hm

theorem step_sound {cursor : Cursor} (h : cursor.Sound) {heap : Heap} {segment : String} {rest : List String}
    {move : Move} (hm : step heap segment rest cursor = some move) : move.Sound := by
  cases cursor with
  | value v => exact stepValue_sound h hm
  | raw c j => exact stepRaw_sound h.1 h.2 hm

/-- A run that does the same in all sessions with some components, without a trace. -/
def Settled {α : Type} (heap : Heap) (x : Run α) (a : α) : Prop :=
  ∀ t : Session, t.heap = heap → x t = some (a, t)

theorem settled_withoutReferences {heap : Heap} {s : String} {v : Option Value}
    (h : Settled heap (withoutReferences c s) v) : meaning c.context depthLimit s = some v := by
  have ended := h { Session.start with heap } rfl
  unfold withoutReferences at ended
  split at ended
  next w hw =>
    rw [Run.ended_pure] at ended
    rw [hw, ended.1]
  next => exact absurd ended (by simp [Run.ended_iff, Run.exhausted])

theorem Settled.of_heap {α : Type} {heap : Heap} {f : Heap → Run α} {a : α}
    (h : Settled heap (Run.heap >>= f) a) : Settled heap (f heap) a := by
  intro t ht
  have ended := h t ht
  rw [Run.ended_iff, Run.run_bind] at ended
  rw [Run.ended_iff, ← ht]
  exact ended

theorem Settled.eq_of_pure {α : Type} {heap : Heap} {a b : α} (h : Settled heap (pure a) b) : b = a :=
  (Run.ended_pure.mp (h { Session.start with heap } rfl)).1

/-- Standing at the end of a walk. -/
theorem arrive_yields {heap : Heap} {cursor : Cursor} (hcur : cursor.Sound) {v : Option Value}
    (h : Settled heap (arrive withoutReferences cursor) v) :
    (∀ w ∈ v, w.Sound) ∧ ∀ env hops t, Yields (arrive (resolveText env hops) cursor) t v := by
  have given : ∀ {w : Value}, w.Sound → Settled heap (pure (some w) : Run (Option Value)) v →
      (∀ w ∈ v, w.Sound) ∧ ∀ t, Yields (pure (some w) : Run (Option Value)) t v := by
    intro w hw hv
    obtain rfl : v = some w := hv.eq_of_pure
    exact ⟨by rintro _ ⟨⟩; exact hw, fun t => .pure _ t⟩
  cases cursor with
  | value w =>
      obtain ⟨sound, yields⟩ := given hcur h
      exact ⟨sound, fun _ _ => yields⟩
  | raw c j =>
      obtain ⟨hc, hj⟩ := hcur
      cases j with
      | string s =>
          have means := settled_withoutReferences h
          refine ⟨?_, fun env hops t => resolveText_yields hc env hops means t⟩
          intro w hw
          obtain rfl := Option.mem_def.mp hw
          exact hc.meaning_sound means
      | object members =>
          obtain ⟨sound, yields⟩ := given (.node (hc.child hj)) h
          exact ⟨sound, fun _ _ => yields⟩
      | array items =>
          obtain ⟨sound, yields⟩ := given (.node (hc.child hj)) h
          exact ⟨sound, fun _ _ => yields⟩
      | _ =>
          obtain ⟨sound, yields⟩ := given (.data hj) h
          exact ⟨sound, fun _ _ => yields⟩

/-- A walk that goes on from a text and meets no reference goes on from what the text stands for. -/
theorem settled_text {heap : Heap} {s : String} {α : Type} {f : Option Cursor → Run α} {a : α}
    (h : Settled heap (settle withoutReferences (.raw c (.string s)) >>= f) a) :
    ∃ v, meaning c.context depthLimit s = some v ∧ Settled heap (f (v.map .value)) a := by
  change Settled heap ((withoutReferences c s >>= fun v => pure (v.map .value)) >>= f) a at h
  cases hm : meaning c.context depthLimit s with
  | none =>
      rw [withoutReferences, hm] at h
      have ended := h { Session.start with heap } rfl
      exact absurd ended (by simp [Run.ended_iff, Run.run_bind, Run.exhausted])
  | some v =>
      rw [withoutReferences, hm] at h
      exact ⟨v, rfl, h⟩

/-- Before a step, a text is resolved. -/
theorem settle_yields {heap : Heap} {cursor : Cursor} (hcur : cursor.Sound) {α : Type}
    {f : Option Cursor → Run α} {a : α} (h : Settled heap (settle withoutReferences cursor >>= f) a) :
    ∃ found : Option Cursor, (∀ cur ∈ found, cur.Sound) ∧ Settled heap (f found) a ∧
      ∀ env hops t, Yields (settle (resolveText env hops) cursor) t found := by
  have stays : (∀ resolve, settle resolve cursor = pure (some cursor)) →
      ∃ found : Option Cursor, (∀ cur ∈ found, cur.Sound) ∧ Settled heap (f found) a ∧
        ∀ env hops t, Yields (settle (resolveText env hops) cursor) t found := by
    intro same
    rw [same, pure_bind] at h
    refine ⟨some cursor, ?_, h, fun env hops t => ?_⟩
    · rintro _ ⟨⟩
      exact hcur
    · rw [same]
      exact .pure _ t
  cases cursor with
  | value v => exact stays fun _ => rfl
  | raw c j =>
      cases j with
      | string s =>
          obtain ⟨hc, -⟩ := hcur
          obtain ⟨v, means, settled⟩ := settled_text h
          refine ⟨v.map .value, fun cur hcur => ?_, settled, fun env hops t => ?_⟩
          · obtain ⟨w, rfl, rfl⟩ := Option.map_eq_some_iff.mp hcur
            exact hc.meaning_sound means
          · exact (resolveText_yields hc env hops means t).bind fun u _ => .pure _ u
      | _ => exact stays fun _ => rfl

theorem walk_cons (resolve : Resolver) (segment : String) (rest : List String) (cursor : Cursor) :
    walk resolve (segment :: rest) cursor = settle resolve cursor >>= fun found =>
      found.elim (pure none) fun next => Run.heap >>= fun heap => onward resolve rest (step heap segment rest next) := by
  rw [walk]
  refine congrArg _ (funext fun found => ?_)
  cases found <;> rfl

/-- A walk that meets no reference is quiet and leads to data, whatever surrounds the node. -/
theorem walk_yields {heap : Heap} {segs : List String} {cursor : Cursor} (hcur : cursor.Sound) {v : Option Value}
    (h : Settled heap (walk withoutReferences segs cursor) v) :
    (∀ w ∈ v, w.Sound) ∧
      ∀ env hops t, t.heap = heap → Yields (walk (resolveText env hops) segs cursor) t v := by
  induction segs generalizing cursor with
  | nil =>
      obtain ⟨sound, yields⟩ := arrive_yields hcur h
      exact ⟨sound, fun env hops t _ => yields env hops t⟩
  | cons segment rest ih =>
      rw [walk_cons] at h
      obtain ⟨found, sound, settled, yields⟩ := settle_yields hcur h
      cases found with
      | none =>
          obtain rfl : v = none := Settled.eq_of_pure settled
          refine ⟨by simp, fun env hops t _ => ?_⟩
          rw [walk_cons]
          exact (yields env hops t).bind fun u _ => .pure none u
      | some next =>
          have leads : ∀ move, step heap segment rest next = some move → move.Sound :=
            fun move hm => step_sound (sound next rfl) hm
          -- components do not change on the way, so the step is the one that the run without references makes
          have goes : ∀ env hops t, t.heap = heap →
              (∀ u, u.heap = heap → Yields (onward (resolveText env hops) rest (step heap segment rest next)) u v) →
              Yields (walk (resolveText env hops) (segment :: rest) cursor) t v := by
            intro env hops t ht hstep
            rw [walk_cons]
            refine (yields env hops t).bind fun u hu => (Yields.heap u).bind fun u' hu' => ?_
            have same : u.heap = heap := hu.heap.trans ht
            rw [same]
            exact hstep u' (hu'.heap.trans same)
          have settled : Settled heap (onward withoutReferences rest (step heap segment rest next)) v :=
            Settled.of_heap settled
          cases hm : step heap segment rest next with
          | none =>
              rw [hm] at settled goes
              obtain rfl : v = none := Settled.eq_of_pure settled
              exact ⟨by simp, fun env hops t ht => goes env hops t ht fun u _ => .pure none u⟩
          | some move =>
              rw [hm] at settled goes
              cases move with
              | stop w =>
                  obtain rfl : v = some w := Settled.eq_of_pure settled
                  refine ⟨?_, fun env hops t ht => goes env hops t ht fun u _ => .pure (some w) u⟩
                  rintro _ ⟨⟩
                  exact leads _ hm
              | go cursor =>
                  obtain ⟨sound, yields⟩ := ih (leads _ hm) settled
                  exact ⟨sound, fun env hops t ht => goes env hops t ht fun u hu => yields env hops u hu⟩

/-! ## What a node holds -/

/-- At the path the node holds a value, or nothing, and no reference is met on the way. -/
def Holds (c : Configuration) (path : String) (v : Option Value) : Prop :=
  ∀ s : Session, follow withoutReferences (.configuration c) path s = some (v, s)

namespace Holds

variable {path : String} {v w : Option Value}

theorem unique (h : c.Holds path v) (h' : c.Holds path w) : v = w := by
  have same := (h .start).symm.trans (h' .start)
  exact congrArg Prod.fst (Option.some.inj same)

/-- Where the walk along the path begins. -/
theorem begins (hc : c.Grounded) : (Cursor.value (.configuration c)).Sound := .node hc

theorem sound (h : c.Holds path v) (hc : c.Grounded) : ∀ w ∈ v, w.Sound := by
  have settled : Settled [] (walk withoutReferences (segments path) (.value (.configuration c))) v := fun s _ => h s
  exact (walk_yields (begins hc) settled).1

/-- Reading the path leads to what is there. -/
theorem valueAt_yields (h : c.Holds path v) (hc : c.Grounded) (env : Surroundings) (hops : Nat) (t : Session) :
    Yields (c.valueAt env hops path) t v :=
  (walk_yields (begins hc) fun s _ => h s).2 env hops t rfl

theorem readAs_yields (h : c.Holds path v) (hc : c.Grounded) (env : Surroundings) (hops : Nat)
    (r : Representation) (t : Session) :
    Yields (c.readAs env hops path r) t (v.bind fun w => c.represent env.host t.heap w r) := by
  refine (h.valueAt_yields hc env hops t).bind fun u hu => ?_
  cases v with
  | none => exact .pure none u
  | some w =>
      refine (Yields.heap u).bind fun u' _ => ?_
      rw [hu.heap]
      exact .pure _ u'

theorem readNode_yields (h : c.Holds path v) (hc : c.Grounded) (env : Surroundings) (hops : Nat) (t : Session) :
    Yields (c.readNode env hops path) t (v.bind (c.promote t.heap)) := by
  have promoted : (v.bind fun w => c.represent env.host t.heap w .configuration)
      = (v.bind (c.promote t.heap)).map .configuration := by
    cases v <;> rfl
  have read := h.readAs_yields hc env hops .configuration t
  rw [promoted] at read
  refine read.bind fun u _ => ?_
  cases v.bind (c.promote t.heap) with
  | none => exact .pure none u
  | some d => exact .pure (some d) u

theorem readString_yields (h : c.Holds path v) (hc : c.Grounded) (env : Surroundings) (hops : Nat) (t : Session) :
    Yields (c.readString env hops path) t
      ((v.bind fun w => c.represent env.host t.heap w .string).bind Value.string?) :=
  (h.readAs_yields hc env hops .string t).bind fun u _ => .pure _ u

end Holds

/-! ## What stands at a key -/

/-- What data of a node stands for: a list or a map for a node of its own, and a text for what it means. None if
that is a reference. -/
def denoted (c : Configuration) : Json → Option (Option Value)
  | .string s => meaning c.context depthLimit s
  | .object members => some (some (.configuration (c.child (.object members))))
  | .array items => some (some (.configuration (c.child (.array items))))
  | j => some (some (.ofJson j))

/-- What stands at a key of a node, or nothing. None if that is a reference. -/
def entry? (c : Configuration) (key : String) : Option (Option Value) :=
  match c.data.child? key with
  | some j => c.denoted j
  | none => some none

/-- A node holds at a key what stands there. -/
theorem holds_iff {key : String} (hk : IsName key) {v : Option Value} :
    c.Holds key v ↔ c.entry? key = some v := by
  have walks : follow withoutReferences (.configuration c) key
      = (c.data.child? key).elim (pure none) (resolveJson withoutReferences c) := by
    rw [follow_cons (segments_of_isName hk), funext fun heap => congrArg _ (step_of_isName hk c heap)]
    cases c.data.child? key <;> rfl
  have given : ∀ {w : Option Value}, (∀ s : Session, (pure w : Run (Option Value)) s = some (v, s)) ↔ some w = some v := by
    intro w
    constructor
    · intro h
      exact congrArg some (Run.ended_pure.mp (h .start)).1.symm
    · rintro ⟨⟩ s
      rfl
  unfold Holds entry?
  rw [walks]
  cases c.data.child? key with
  | none => exact given
  | some j =>
      cases j with
      | string s =>
          show (∀ t : Session, (withoutReferences c s) t = some (v, t)) ↔ meaning c.context depthLimit s = some v
          unfold withoutReferences
          cases meaning c.context depthLimit s with
          | some w => exact given
          | none => exact ⟨fun h => absurd (h .start) (by simp [Run.ended_iff, Run.exhausted]), fun h => absurd h (by simp)⟩
      | _ => exact given

/-- What stands at a key is a child if it is a list or a map, and otherwise data. -/
theorem Grounded.denoted_data (hc : c.Grounded) {j : Json} (hj : j.Proper) {v : Value}
    (h : c.denoted j = some (some v)) :
    (j.isContainer = true ∧ v = .configuration (c.child j)) ∨
      (j.isContainer = false ∧ ∃ x : Json, x.Proper ∧ v = .ofJson x) := by
  have stands : ∀ {w : Value}, some (some w) = some (some v) → v = w :=
    fun same => (Option.some.inj (Option.some.inj same)).symm
  cases j with
  | string s => exact .inr ⟨rfl, hc.meaning_data h⟩
  | object members => exact .inl ⟨rfl, stands h⟩
  | array items => exact .inl ⟨rfl, stands h⟩
  | _ => exact .inr ⟨rfl, _, hj, stands h⟩

end Configuration

end ObjectGraph
