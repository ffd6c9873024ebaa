import ObjectGraph.Build.Container
import ObjectGraph.Proofs.Completion.Descent

/-!
# `Proofs.Completion.Building` — building what has no references

A node whose keys meet no reference is built without a name being asked for. Components are made and
configured on the way, and things may fail, but no name begins, is built or is given up, and what is built
holds no placeholder. How deep nodes stand inside each other says how many steps suffice, if no key is empty.

Contents:
* `Session.SameNames`, `Run.Apart` with its rules;
* the operations of a container, one lemma for each, up to `Container.buildNode_apart`;
* `Container.word`, `Container.hint`, `Container.namesUnknown`, and `Container.built`: what decides
  whether a node is built;
* `Container.exists_steps`: nodes without references are built.
-/

namespace ObjectGraph

open Run (After Quiet Yields)
open Container (andClassKey classKey typeKey factoryKey hintKeys entryKeys)

/-! ## Runs that leave the names alone -/

/-- No name has changed, neither in its state nor in the order of completion. -/
structure Session.SameNames (s t : Session) : Prop where
  names : t.build.names = s.build.names
  order : t.build.order = s.build.order
  root : t.build.root = s.build.root

namespace Session.SameNames

variable {s t u : Session}

theorem refl (s : Session) : SameNames s s := ⟨rfl, rfl, rfl⟩

theorem trans (h : SameNames s t) (h' : SameNames t u) : SameNames s u :=
  ⟨h'.names.trans h.names, h'.order.trans h.order, h'.root.trans h.root⟩

theorem of_build (h : t.build = s.build) : SameNames s t := ⟨by rw [h], by rw [h], by rw [h]⟩

end Session.SameNames

namespace Run

variable {α β : Type} {cut : Prop} {x : Run α} {good good' : α → Prop}

/-- Wherever the run starts, it leaves the names alone and gives a result as it is to be, unless it is cut
off, which takes `cut`. -/
def Apart (cut : Prop) (x : Run α) (good : α → Prop) : Prop :=
  ∀ s, After x s (fun a t => s.SameNames t ∧ good a) fun _ => cut

namespace Apart

theorem pure {a : α} (h : good a) : Apart cut (Pure.pure a) good := fun s => ⟨.refl s, h⟩

theorem bind {f : α → Run β} {fine : β → Prop} (hx : Apart cut x good)
    (hf : ∀ a, good a → Apart cut (f a) fine) : Apart cut (x >>= f) fine := by
  intro s
  rw [after_bind]
  refine (hx s).mono (fun a t ⟨same, ha⟩ => ?_) fun _ => id
  exact (hf a ha t).mono (fun b u ⟨same', hb⟩ => ⟨same.trans same', hb⟩) fun _ => id

theorem mono (hx : Apart cut x good) (h : ∀ a, good a → good' a) : Apart cut x good' :=
  fun s => (hx s).mono (fun a _ ⟨same, ha⟩ => ⟨same, h a ha⟩) fun _ => id

theorem relax {cut' : Prop} (hx : Apart cut x good) (h : cut → cut') : Apart cut' x good :=
  fun s => (hx s).mono (fun _ _ => id) fun _ => h

/-- Reading leaves the names alone. -/
theorem of_yields (h : ∀ s, ∃ a, Yields x s a ∧ good a) : Apart cut x good := by
  intro s
  obtain ⟨a, yields, ha⟩ := h s
  refine yields.leads.mono (fun r t ⟨quiet, same⟩ => ⟨.of_build quiet.build, ?_⟩) fun _ => False.elim
  exact same ▸ ha

theorem heap : Apart cut heap fun _ => True := fun s => ⟨.refl s, trivial⟩

theorem build : Apart cut build fun _ => True := fun s => ⟨.refl s, trivial⟩

theorem report (l : Log.Level) (target message : String) (fields : List (String × Log.Field)) :
    Apart cut (report l target message fields) fun _ => True := fun _ => ⟨⟨rfl, rfl, rfl⟩, trivial⟩

theorem setProperty (o : ObjectId) (name : String) (v : Value) :
    Apart cut (setProperty o name v) fun _ => True := fun _ => ⟨⟨rfl, rfl, rfl⟩, trivial⟩

theorem finish (o : ObjectId) : Apart cut (finish o) fun _ => True := fun _ => ⟨⟨rfl, rfl, rfl⟩, trivial⟩

end Apart

end Run

/-- The act has nothing to do with names. -/
def Act.Nameless : Act → Prop
  | .start _ | .begin _ | .finish _ _ | .abandon _ | .await _ _ => False
  | _ => True

theorem Run.Apart.act {cut : Prop} {a : Act} (ha : a.Nameless) : Run.Apart cut (Run.act a) fun _ => True := by
  intro s
  cases a with
  | start _ => exact ha.elim
  | begin _ => exact ha.elim
  | finish _ _ => exact ha.elim
  | abandon _ => exact ha.elim
  | await _ _ => exact ha.elim
  | _ => exact ⟨⟨rfl, rfl, rfl⟩, trivial⟩

open Run (Apart)

namespace Container

variable {k : Container} {m : Machine} {hops : Nat} {cut : Prop} {c : Configuration} {key : String}

/-! ## Components -/

theorem assign_apart (host : Host) (o : ObjectId) (p : Property) (v : Value) (handler : Handler) :
    Apart cut (assign host o p v handler) fun _ => True := by
  refine Apart.heap.bind fun heap _ => ?_
  dsimp only
  split
  · exact .report _ _ _ _
  · refine .bind (.act trivial) fun _ _ => .bind (.setProperty _ _ _) fun accepted _ => ?_
    split
    · exact .pure trivial
    · exact .report _ _ _ _

/-- A value without placeholders is assigned at once. -/
theorem injectAt_apart (k : Container) (i : Nat) (o : ObjectId) (p : Property) {v : Value}
    (hv : v.containsPending = false) (handler : Handler) :
    Apart cut (k.injectAt m hops i o p v handler) fun _ => True := by
  unfold injectAt
  rw [Value.placeholders_eq_nil hv]
  exact assign_apart k.host o p v handler

theorem track_apart (o : ObjectId) : Apart cut (track o) fun _ => True := by
  refine Apart.build.bind fun b _ => ?_
  split
  · exact .pure trivial
  · exact .bind (.act trivial) fun _ _ => .pure trivial

theorem notifyIfReady_apart (i : Nat) : Apart cut (notifyIfReady i) fun _ => True := by
  refine Apart.build.bind fun b _ => ?_
  split
  · exact .pure trivial
  · split
    · exact .pure trivial
    · exact .bind (.act trivial) fun _ _ => .bind .heap fun heap _ => .bind (.report _ _ _ _) fun _ _ => .finish _

theorem markConfigured_apart (i : Nat) : Apart cut (markConfigured i) fun _ => True :=
  .bind (.act trivial) fun _ _ => notifyIfReady_apart i

/-- A component is made unless its class is unknown. -/
theorem construct_apart (k : Container) (name context : String) :
    Apart cut (k.construct name context) fun r => r.toOption.isSome = (k.types.constructor? name).isSome := by
  unfold construct
  cases k.types.constructor? name with
  | none => exact .pure rfl
  | some make => exact fun s => ⟨⟨rfl, rfl, rfl⟩, rfl⟩

/-- A component is there if its class is known, or if there is one already; and none is asked for if nothing
says of which class it is. -/
theorem componentFor_apart (k : Container) (type : PropertyType) (existing : Option Value) (context : String)
    (named : Option String) :
    Apart cut (k.componentFor type existing context named) fun r => type = .any → existing = none →
      r.toOption.isSome = named.all fun name => (k.types.constructor? name).isSome := by
  have made : ∀ name, Apart cut (do return (← k.construct name context).map some) fun r :
      Except BuildError (Option ObjectId) => r.toOption.isSome = (k.types.constructor? name).isSome := by
    intro name
    refine (construct_apart k name context).bind fun r hr => .pure ?_
    rw [← hr]
    cases r <;> rfl
  unfold componentFor
  split
  next name => exact (made name).mono fun r hr _ _ => by rw [hr]; rfl
  next => exact .pure fun _ h => absurd h (by simp)
  next => exact (made _).mono fun r _ h => absurd h (by simp)
  next => exact .pure fun h => absurd h (by simp)
  next => exact .pure fun _ _ => rfl

/-! ## Values -/

/-- What was built holds no placeholder. -/
def Whole (r : Except BuildError (Option Value)) : Prop := ∀ v, r = .ok (some v) → v.containsPending = false

theorem whole_none : Whole (.ok none) := fun _ h => absurd h (by simp)

theorem whole_error (e : BuildError) : Whole (.error e) := fun _ h => absurd h (by simp)

theorem whole_some {v : Value} (hv : v.containsPending = false) : Whole (.ok (some v)) := by
  rintro _ ⟨⟩
  exact hv

/-- The machine builds the nodes at a key apart from all names. -/
def BuildsAt (cut : Prop) (m : Machine) (hops : Nat) (c : Configuration) (key : String) : Prop :=
  ∀ d, c.Opens key d → ∀ type existing context, Apart cut (m.buildNode hops d type existing context) Whole

/-- The value at a key is built apart from all names, if it meets no reference. -/
theorem buildValue_apart (k : Container) (hc : c.Grounded) {v : Option Value} (hv : c.Holds key v)
    (hm : BuildsAt cut m hops c key) (type : PropertyType) (existing : Option Value) (context : String) :
    Apart cut (k.buildValue m hops c key type existing context) Whole := by
  unfold buildValue
  dsimp only
  split
  next raw =>
    have read : Apart cut (c.readNode (k.surroundings m) hops key) fun node => ∀ d, node = some d → c.Opens key d := by
      refine .of_yields fun s => ⟨_, hv.readNode_yields hc _ hops s, fun d hd => ?_⟩
      obtain ⟨w, rfl, promoted⟩ := Option.bind_eq_some_iff.mp hd
      refine ⟨w, hv, ?_⟩
      rw [if_pos raw, ← promoted, c.promote_sound s.heap (hv.sound hc w rfl)]
    refine read.bind fun node hnode => ?_
    cases node with
    | none => exact .pure whole_none
    | some d => exact hm d (hnode d rfl) type existing context
  next raw =>
    have read : Apart cut (c.valueAt (k.surroundings m) hops key) fun found => found = v :=
      .of_yields fun s => ⟨v, hv.valueAt_yields hc _ hops s, rfl⟩
    refine read.bind fun found same => ?_
    subst same
    cases found with
    | none => exact .pure whole_none
    | some w =>
        have sound : w.Sound := hv.sound hc w rfl
        split
        next none => exact .pure whole_none
        next d same =>
          obtain rfl : w = .configuration d := Option.some.inj same
          exact hm d ⟨_, hv, by rw [if_neg raw]⟩ type existing context
        next r same => exact absurd (Option.some.inj same) (sound.ne_resource r)
        next u _ _ same =>
          obtain rfl : w = u := Option.some.inj same
          exact .pure (whole_some sound.containsPending)

/-! ## Lists and maps -/

/-- The key meets no reference, and the machine builds what is there apart from all names. -/
structure Attainable (cut : Prop) (m : Machine) (hops : Nat) (c : Configuration) (key : String) : Prop where
  holds : ∃ v, c.Holds key v
  builds : BuildsAt cut m hops c key

theorem buildValue_attainable (k : Container) (hc : c.Grounded) (h : Attainable cut m hops c key) (type : PropertyType)
    (existing : Option Value) (context : String) :
    Apart cut (k.buildValue m hops c key type existing context) Whole := by
  obtain ⟨v, hv⟩ := h.holds
  exact buildValue_apart k hc hv h.builds type existing context

theorem buildEntry_apart (k : Container) (hc : c.Grounded) (h : Attainable cut m hops c key) (context : String) :
    Apart cut (k.buildEntry m hops c key context) fun v => ∀ w ∈ v, w.containsPending = false := by
  refine (buildValue_attainable k hc h .any none context).bind fun r hr => ?_
  cases r with
  | ok v => exact .pure fun w hw => hr w (congrArg Except.ok hw)
  | error e => exact (Apart.report _ _ _ _).bind fun _ _ => .pure (by simp)

theorem buildItems_apart (k : Container) (hc : c.Grounded) (context : String) {keys : List String}
    (h : ∀ key ∈ keys, Attainable cut m hops c key) :
    Apart cut (k.buildItems m hops c context keys) fun vs => ∀ v ∈ vs, v.containsPending = false := by
  induction keys with
  | nil => exact .pure (by simp)
  | cons key keys ih =>
      refine (buildEntry_apart k hc (h key List.mem_cons_self) _).bind fun v hv => ?_
      refine (ih fun key hk => h key (List.mem_cons_of_mem _ hk)).bind fun vs hvs => .pure fun w hw => ?_
      rcases List.mem_cons.mp hw with rfl | hw
      · cases v with
        | none => rfl
        | some w => exact hv w rfl
      · exact hvs w hw

theorem buildEntries_apart (k : Container) (hc : c.Grounded) (context : String) {keys : List String}
    (h : ∀ key ∈ keys, isDirective key = false → Attainable cut m hops c key) {done : List (String × Value)}
    (hdone : ∀ e ∈ done, e.2.containsPending = false) :
    Apart cut (k.buildEntries m hops c context done keys) fun es => ∀ e ∈ es, e.2.containsPending = false := by
  induction keys generalizing done with
  | nil => exact .pure hdone
  | cons key keys ih =>
      have later : ∀ key ∈ keys, isDirective key = false → Attainable cut m hops c key :=
        fun key hk => h key (List.mem_cons_of_mem _ hk)
      unfold buildEntries
      split
      next => exact ih later hdone
      next entry =>
        refine (buildEntry_apart k hc (h key List.mem_cons_self (by simpa using entry)) _).bind fun v hv => ?_
        cases v with
        | none => exact ih later hdone
        | some v =>
            refine ih later fun e he => ?_
            rcases Table.mem_insert he with rfl | he
            · exact hv v rfl
            · exact hdone e he

/-- The keys of lists are positions, which say nothing about how to build. -/
theorem isDirective_natText (i : Nat) : isDirective (Decimal.natText i) = false := by
  have digits : (Decimal.natText i).toList = Nat.toDigits 10 i := String.toList_ofList
  have digit : ∀ a, (Decimal.natText i).toList.head? = some a → a.isDigit = true := by
    intro a ha
    rw [digits] at ha
    exact Decimal.isDigit_of_mem_toDigits (List.mem_of_mem_head? ha)
  have other : ∀ a, a.isDigit = false → ((Decimal.natText i).toList.head? == some a) = false := by
    intro a ha
    rw [beq_eq_false_iff_ne]
    intro h
    exact absurd (digit a h) (by simp [ha])
  have unhinted : hintKeys.contains (Decimal.natText i) = false := by
    have dashed : ∀ key ∈ hintKeys, key.toList.head? = some '-' := by decide
    rw [List.contains_eq_mem, decide_eq_false_iff_not]
    intro hm
    exact absurd (digit '-' (dashed _ hm)) (by decide)
  rw [isDirective, other '*' (by decide), other '$' (by decide), unhinted]
  rfl

theorem isDirective_of_isList (hc : c.isList = true) (hk : key ∈ c.keys) : isDirective key = false := by
  unfold Configuration.isList at hc
  unfold Configuration.keys at hk
  cases hd : c.data with
  | array items =>
      rw [hd] at hk
      obtain ⟨i, -, rfl⟩ := List.mem_map.mp hk
      exact isDirective_natText i
  | _ => exact absurd hc (by simp [hd, Json.isArray])

theorem mem_entryKeys : key ∈ entryKeys c ↔ key ∈ c.keys ∧ isDirective key = false := by
  rw [entryKeys, List.mem_filter]
  simp

/-- A list or a map is built from what its keys build; what fails is left out or null. -/
theorem buildCollection_apart (k : Container) (hc : c.Grounded) (context : String)
    (h : ∀ key ∈ entryKeys c, Attainable cut m hops c key) :
    Apart cut (k.buildCollection m hops c context) fun v => v.containsPending = false := by
  unfold buildCollection
  split
  next list =>
    have ready : ∀ key ∈ c.keys, Attainable cut m hops c key :=
      fun key hk => h key (mem_entryKeys.mpr ⟨hk, isDirective_of_isList list hk⟩)
    refine (buildItems_apart k hc context ready).bind fun vs hvs => .pure ?_
    rw [Value.containsPending]
    exact Value.itemsContainPending_eq_false hvs
  next =>
    have ready : ∀ key ∈ c.keys, isDirective key = false → Attainable cut m hops c key :=
      fun key hk entry => h key (mem_entryKeys.mpr ⟨hk, entry⟩)
    refine (buildEntries_apart k hc context ready (by simp)).bind fun es hes => .pure ?_
    rw [Value.containsPending]
    exact Value.entriesContainPending_eq_false hes

/-! ## Configuring components -/

theorem configureKey_apart (k : Container) (hc : c.Grounded) (h : Attainable cut m hops c key) (i : Nat) (o : ObjectId)
    (context : String) : Apart cut (k.configureKey m hops i o c context key) fun _ => True := by
  unfold configureKey
  refine Apart.heap.bind fun heap _ => ?_
  split
  · exact .report _ _ _ _
  next p _ =>
    refine (buildValue_attainable k hc h p.type (existingValue heap o p) _).bind fun r hr => ?_
    split
    next v => exact injectAt_apart k i o p (hr v rfl) c.handler
    next => exact .report _ _ _ _
    next => exact .report _ _ _ _

theorem configureKeys_apart (k : Container) (hc : c.Grounded) (i : Nat) (o : ObjectId) (context : String)
    {keys : List String} (h : ∀ key ∈ keys, Attainable cut m hops c key) :
    Apart cut (k.configureKeys m hops i o c context keys) fun _ => True := by
  induction keys with
  | nil => exact .pure trivial
  | cons key keys ih =>
      refine .bind (.act trivial) fun _ _ => ?_
      refine (configureKey_apart k hc (h key List.mem_cons_self) i o context).bind fun _ _ => ?_
      exact .bind (.act trivial) fun _ _ => ih fun key hk => h key (List.mem_cons_of_mem _ hk)

theorem configureAt_apart (k : Container) (hc : c.Grounded) (o : ObjectId) (context : String)
    (h : ∀ key ∈ entryKeys c, Attainable cut m hops c key) :
    Apart cut (k.configureAt m hops o c context) fun _ => True := by
  unfold configureAt configureBy
  refine (track_apart o).bind fun i _ => .bind (.act trivial) fun _ _ => ?_
  exact (configureKeys_apart k hc i o context h).bind fun _ _ => markConfigured_apart i

/-! ## Nodes -/

/-- A node that says nothing about merging is normalized already, which takes a step. -/
theorem normalize_stays (hc : c.Grounded) (hu : c.Unmerged) (env : Surroundings) (hops n : Nat) (s : Session) :
    After (c.normalize env hops n) s (fun d t => d = c ∧ t = s) fun _ => n = 0 := by
  cases hd : c.data with
  | object members =>
      cases n with
      | zero =>
          unfold Configuration.normalize
          rw [hd, Configuration.flatten_of_unmerged env hops hu]
          rfl
      | succ n =>
          rw [Configuration.normalize_object env hops n hd (hc.nodup hd) hu]
          exact ⟨rfl, rfl⟩
  | _ =>
      unfold Configuration.normalize
      rw [hd, Configuration.flatten_of_unmerged env hops hu]
      exact ⟨rfl, rfl⟩

theorem normalize_apart (hc : c.Grounded) (hu : c.Unmerged) (env : Surroundings) (hops : Nat) {n : Nat}
    (hn : n = 0 → cut) : Apart cut (c.normalize env hops n) fun d => d = c :=
  fun s => (normalize_stays hc hu env hops n s).mono (fun _ _ ⟨same, stays⟩ => ⟨stays ▸ .refl s, same⟩) fun _ => hn

/-- How data reads as text does not depend on the components that exist. -/
def Steady (host : Host) (handler : Handler) : Prop :=
  ∀ heap (v : Value), v.Sound →
    handler.converter.convert host heap v .string = handler.converter.convert host [] v .string

theorem steady_standard (host : Host) {handler : Handler} (h : handler.converter = .standard) :
    Steady host handler := by
  intro heap v hv
  rw [h]
  show (Conversion.string? heap v).map Value.string = (Conversion.string? [] v).map Value.string
  cases hv with
  | node _ => rfl
  | @data j hj =>
      have display := Value.display?_ofJson heap hj
      cases j with
      | array items =>
          rw [Value.ofJson_array] at display ⊢
          exact congrArg (Option.map Value.string) display
      | object members =>
          rw [Value.ofJson_object] at display ⊢
          exact congrArg (Option.map Value.string) display
      | _ => rfl

/-- The text that a node has at a key, read by its handler. -/
def word (host : Host) (c : Configuration) (key : String) : Option String :=
  ((c.entry? key).join.bind fun v => c.represent host [] v .string).bind Value.string?

/-- The class that a node names, if it names one; none if it names a logical type that is unknown. -/
def hint (k : Container) (c : Configuration) : Option (Option String) :=
  match (word k.host c andClassKey).or (word k.host c classKey), word k.host c typeKey with
  | some name, _ => some (some name)
  | none, none => some none
  | none, some logical =>
      match k.types.classFor? logical with
      | some name => some (some name)
      | none => if k.types.hasClass logical then some (some logical) else none

/-- The node names a class or a logical type that is unknown. -/
def namesUnknown (k : Container) (c : Configuration) : Bool :=
  match k.hint c with
  | none => true
  | some named => !named.all fun name => (k.types.constructor? name).isSome

theorem readString_apart (hc : c.Grounded) (hk : IsName key) {v : Option Value} (hv : c.Holds key v) (hops : Nat) :
    Apart cut (c.readString (k.surroundings m) hops key)
      fun w => Steady k.host c.handler → w = word k.host c key := by
  refine .of_yields fun s => ⟨_, hv.readString_yields hc _ hops s, fun steady => ?_⟩
  rw [word, (Configuration.holds_iff hk).mp hv]
  cases v with
  | none => rfl
  | some w =>
      have same : c.represent k.host s.heap w .string = c.represent k.host [] w .string :=
        steady s.heap w (hv.sound hc w rfl)
      show (c.represent k.host s.heap w .string).bind _ = (c.represent k.host [] w .string).bind _
      rw [same]

theorem isName_of_hint (hk : key ∈ hintKeys) : IsName key := by
  have names : ∀ k ∈ hintKeys, IsName k := by decide
  exact names key hk

theorem classHint_apart (hc : c.Grounded) (h : ∀ key ∈ hintKeys, ∃ v, c.Holds key v) (context : String) :
    Apart cut (k.classHint m hops c context) fun r => Steady k.host c.handler → r.toOption = k.hint c := by
  have reads : ∀ key ∈ hintKeys, Apart cut (c.readString (k.surroundings m) hops key)
      fun w => Steady k.host c.handler → w = word k.host c key := by
    intro key hk
    obtain ⟨v, hv⟩ := h key hk
    exact readString_apart hc (isName_of_hint hk) hv hops
  unfold classHint
  refine (reads andClassKey (by decide)).bind fun first hfirst => ?_
  cases first with
  | some name => exact .pure fun steady => by rw [hint, ← hfirst steady]; rfl
  | none =>
      refine (reads classKey (by decide)).bind fun second hsecond => ?_
      cases second with
      | some name => exact .pure fun steady => by rw [hint, ← hfirst steady, ← hsecond steady]; rfl
      | none =>
          refine (reads typeKey (by decide)).bind fun third hthird => ?_
          cases third with
          | none =>
              exact .pure fun steady => by rw [hint, ← hfirst steady, ← hsecond steady, ← hthird steady]; rfl
          | some logical =>
              have told : Steady k.host c.handler → k.hint c = match k.types.classFor? logical with
                  | some name => some (some name)
                  | none => if k.types.hasClass logical then some (some logical) else none := by
                intro steady
                rw [hint, ← hfirst steady, ← hsecond steady, ← hthird steady]
                rfl
              dsimp only
              split
              next name known => exact .pure fun steady => by rw [told steady, known]; rfl
              next unknown =>
                split
                next known => exact .pure fun steady => by rw [told steady, unknown, if_pos known]; rfl
                next neither => exact .pure fun steady => by rw [told steady, unknown, if_neg neither]; rfl

/-- A value was built. -/
def built (r : Except BuildError (Option Value)) : Bool := r.toOption.join.isSome

/-- A node without references is built apart from all names. It fails if it names something that is unknown, and if
it is for no special property then in no other case. -/
theorem buildNode_apart (k : Container) (hc : c.Grounded) (hs : m.steps = 0 → cut) (hu : c.Unmerged)
    (hf : c.data.child? factoryKey = none) (hreads : ∀ key ∈ hintKeys, ∃ v, c.Holds key v)
    (h : ∀ key ∈ entryKeys c, Attainable cut m hops c key) (type : PropertyType) (existing : Option Value)
    (context : String) : Apart cut (k.buildNode m hops c type existing context) fun r => Whole r ∧
      (type = .any → existing = none → Steady k.host c.handler → built r = !k.namesUnknown c) := by
  unfold buildNode
  refine (normalize_apart hc hu _ hops hs).bind fun d hd => ?_
  subst hd
  split
  next wanted => exact .pure ⟨whole_some rfl, fun any => absurd (any.symm.trans wanted) (by simp)⟩
  next =>
    rw [Configuration.readString_of_child?_eq_none _ hops (isName_of_hint (by decide)) hf, pure_bind]
    dsimp only
    refine (classHint_apart hc hreads context).bind fun named hnamed => ?_
    cases named with
    | error e =>
        refine .pure ⟨whole_error e, fun _ _ steady => ?_⟩
        rw [namesUnknown, ← hnamed steady]
        rfl
    | ok named =>
        refine (componentFor_apart k type existing context named).bind fun made hmade => ?_
        have told : type = .any → existing = none → Steady k.host d.handler →
            made.toOption.isSome = !k.namesUnknown d := by
          intro any nothing steady
          rw [hmade any nothing, namesUnknown, ← hnamed steady]
          exact (Bool.not_not _).symm
        cases made with
        | error e => exact .pure ⟨whole_error e, told⟩
        | ok o =>
            cases o with
            | some o =>
                refine (configureAt_apart k hc o context h).bind fun _ _ => .pure ⟨whole_some rfl, told⟩
            | none =>
                refine (buildCollection_apart k hc context h).bind fun v hv => .pure ⟨whole_some hv, told⟩

/-! ## Enough steps -/

/-- With so many steps the node is built, and in any case apart from all names. -/
def BuiltWithin (k : Container) (enough : Nat) (c : Configuration) : Prop :=
  ∀ n hops type existing context, Apart (n < enough) ((k.machine n).buildNode hops c type existing context)
    fun r => Whole r ∧ (type = .any → existing = none → Steady k.host c.handler → built r = !k.namesUnknown c)

theorem BuiltWithin.mono {k : Container} {enough more : Nat} (h : k.BuiltWithin enough c) (le : enough ≤ more) :
    k.BuiltWithin more c :=
  fun n hops type existing context => (h n hops type existing context).relax fun hn => Nat.lt_of_lt_of_le hn le

/-- What suffices for each of some keys suffices for all of them, if there is enough of it. -/
theorem exists_enough (k : Container) (c : Configuration) {keys : List String}
    (h : ∀ key ∈ keys, ∀ d, c.Opens key d → ∃ enough, k.BuiltWithin enough d) :
    ∃ enough, ∀ key ∈ keys, ∀ d, c.Opens key d → k.BuiltWithin enough d := by
  induction keys with
  | nil => exact ⟨0, by simp⟩
  | cons key keys ih =>
      obtain ⟨rest, hrest⟩ := ih fun key hk => h key (List.mem_cons_of_mem _ hk)
      obtain ⟨first, hfirst⟩ : ∃ enough, ∀ d, c.Opens key d → k.BuiltWithin enough d := by
        by_cases opened : ∃ d, c.Opens key d
        · obtain ⟨d, hd⟩ := opened
          obtain ⟨enough, built⟩ := h key List.mem_cons_self d hd
          exact ⟨enough, fun d' hd' => hd.unique hd' ▸ built⟩
        · exact ⟨0, fun d hd => absurd ⟨d, hd⟩ opened⟩
      refine ⟨max first rest, fun key' hk d hd => ?_⟩
      rcases List.mem_cons.mp hk with rfl | hk
      · exact (hfirst d hd).mono (Nat.le_max_left first rest)
      · exact (hrest key' hk d hd).mono (Nat.le_max_right first rest)

/-- A node without references and without empty keys, inside of which there are none either, is built apart from all
names, and with enough steps it is built. -/
theorem exists_steps (k : Container) {c : Configuration} (hc : c.Grounded) (labelled : c.data.Labelled)
    (inside : ∀ d, Relation.ReflTransGen Configuration.Nests c d → d.Referenceless) :
    ∃ enough, k.BuiltWithin enough c := by
  -- what is built from the keys of a node is less deep
  induction depth : c.data.depth using Nat.strong_induction_on generalizing c with
  | _ deep ih =>
      subst depth
      obtain ⟨unmerged, own, reads⟩ := inside c .refl
      obtain ⟨enough, nested⟩ : ∃ enough, ∀ key ∈ entryKeys c, ∀ d, c.Opens key d → k.BuiltWithin enough d := by
        refine exists_enough k c fun key hk d hd => ?_
        have named : key ≠ "" := Configuration.ne_empty_of_mem_keys labelled (mem_entryKeys.mp hk).1
        obtain ⟨still, shallow⟩ := hd.descends hc labelled named
        exact ih _ shallow (hd.grounded hc) still (fun e he => inside e (.head ⟨key, hk, hd⟩ he)) rfl
      -- one step for the node, and one more for normalizing it
      refine ⟨enough + 2, fun n hops type existing context => ?_⟩
      cases n with
      | zero => exact fun _ => Nat.succ_pos _
      | succ n =>
          have hints : ∀ key ∈ hintKeys, ∃ v, c.Holds key v :=
            fun key hk => reads key (List.mem_append_left _ hk)
          have ready : ∀ key ∈ entryKeys c, Attainable (n + 1 < enough + 2) (k.machine n) hops c key := by
            intro key hk
            refine ⟨reads key (List.mem_append_right _ hk), fun d hd type existing context => ?_⟩
            refine ((nested key hk d hd n hops type existing context).relax fun hn => ?_).mono fun r hr => hr.1
            omega
          have steps : (k.machine n).steps = 0 → n + 1 < enough + 2 := by
            rw [steps_machine]
            omega
          exact buildNode_apart k hc steps unmerged own hints ready type existing context

end Container

end ObjectGraph
