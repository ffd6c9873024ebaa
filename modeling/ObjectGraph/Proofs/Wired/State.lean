import ObjectGraph.Proofs.Waiting.Conduct
import ObjectGraph.Proofs.Wired.Evaluation
import ObjectGraph.Proofs.Wired.World

/-!
# `Proofs.Wired.State` — sessions that stand in a world

In the middle of a pass over plain data a session *stands* in a world if its names, its parked values and
the components that were made for nodes are as the world has them: what a name is built to stands for its
data, what is parked stands for its data but for the placeholders left in it, and a visited property
holds what stands for its data, or is parked.

Each act that the container makes leads from a session that stands in a world to one that stands in a
later one. An operation *advances* both; what it does not touch is part of that, since the operation that
it is a step of goes on from there.

Contents:
* `PlainRoot`; `Named`, `Parked`, `Holding`, `Lodged`, `Standing`;
* `World.Vacant`, `Advance`; `Apart` and `Idle`, sessions that differ in little;
* steps on names: `Standing.begin`, `Standing.finish`, `Standing.abandon`, `Standing.await`;
* steps on parked values: `Standing.parkName`, `Standing.fillName`, `Standing.fill`;
* steps on components: `Standing.settle`, `Standing.write`, `Standing.skip`, `Standing.park`.
-/

namespace ObjectGraph

open Json (classOf? entryOf?)
open Relation (TransGen)

/-- A normalized root of plain data, whose references lead to the container. -/
structure PlainRoot (k : Container) where
  root : Configuration
  members : List (String × Json)
  data : root.data = .object members
  plain : Json.Plain k.types (.object members)
  named : root.handler.schemes.lookup "named" = some (.container .named)
  reads : Configuration.ReadsTexts k.host root.handler

/-- An assignment is parked for a property of a component. -/
def Build.Parks (b : Build) (o : ObjectId) (key : String) (d : Deferred) : Prop :=
  b.trackedOnes[d.owner]? = some o ∧ d.property = ⟨key, .any⟩

theorem Build.Parks.mono {b b' : Build} (hb : b.trackedOnes <+: b'.trackedOnes) {o : ObjectId} {key : String}
    {d : Deferred} (h : b.Parks o key d) : b'.Parks o key d :=
  ⟨getElem?_of_isPrefix hb h.1, h.2⟩

/-- Nothing has been made for a node yet, nor below it, and it is that of a name that has begun. -/
structure World.Vacant (w : World) (s : Session) (p : Home) : Prop where
  begun : (s.build.stateOf? p.1).isSome
  vacant : ∀ o q ms, w.home o = some (q, ms) → ¬ Below q p

namespace PlainRoot

variable {k : Container} (R : PlainRoot k)

/-- The chain of references from a name ends in nothing or in a scalar. -/
abbrev Flat (n : String) : Prop := ObjectGraph.Flat k.types R.members n

/-- A pass gets to the name. -/
abbrev Reached (n : String) : Prop := ObjectGraph.Reached k.types R.members n

/-- What stands for a node's data. -/
abbrev Realizes (w : World) (h : Home) (j : Json) (ov : Option Value) : Prop :=
  ObjectGraph.Realizes k.types R.members w h j ov

/-! ## Standing in a world -/

/-- The names are as a world has them. -/
structure Named (w : World) (b : Build) : Prop where
  root : b.root = some R.root
  built : ∀ n v, w.built n = some v ↔ b.stateOf? n = some (.built v)
  begun : ∀ n, w.begun n ↔ (b.stateOf? n).isSome ∧ ¬ R.Flat n
  known : ∀ n, (b.stateOf? n).isSome → (R.members.lookup n).isSome
  reached : ∀ n, (b.stateOf? n).isSome → R.Reached n
  order : ∀ n, n ∈ b.order ↔ (w.built n).isSome
  once : b.order.Nodup
  /-- Nobody waits for a name whose chain ends in nothing or in a scalar. -/
  unawaited : ∀ n, R.Flat n → NameState.waiters (b.stateOf? n) = []
  sound : ∀ n v, w.built n = some v → StandsFor k.types R.members w n v

/-- What is parked stands for its data. -/
structure Parked (w : World) (b : Build) : Prop where
  assignment : ∀ (i : Nat) (d : Deferred), b.deferred[i]? = some (some d) →
    d.outstanding = d.value.placeholders.length ∧
      ∃ o key h ms j, b.Parks o key d ∧ w.home o = some (h, ms) ∧ w.visited o key ∧ entryOf? ms key = some j ∧
        R.Realizes w (h.1, .key key :: h.2) j (some d.value)
  named : ∀ (i : Nat) (d : DeferredName), b.deferredNames[i]? = some (some d) →
    d.outstanding = d.value.placeholders.length ∧ ¬ R.Flat d.name ∧
      ∃ j, R.members.lookup d.name = some j ∧ R.Realizes w (d.name, []) j (some d.value)

/-- A component that was made for a node holds what stands for its data, as far as it has been visited. -/
structure Holding (w : World) (b : Build) (o : ObjectId) (h : Home) (ms : List (String × Json))
    (c : Component) : Prop where
  record : c.ofClass = .record
  unset : ∀ key, ¬ w.visited o key ∨ entryOf? ms key = none → c.fields.lookup key = none
  held : ∀ key j, w.visited o key → entryOf? ms key = some j →
    (∃ (i : Nat) (d : Deferred), b.deferred[i]? = some (some d) ∧ b.Parks o key d) ∨
      R.Realizes w (h.1, .key key :: h.2) j (c.fields.lookup key) ∧
        ∀ v, c.fields.lookup key = some v → v.placeholders = []

/-- Components were made for nodes of known classes, for none of them twice, and only for names that have begun. -/
structure Lodged (w : World) (b : Build) : Prop where
  node : ∀ o p ms, w.home o = some (p, ms) → nodeAt? k.types R.members p.1 p.2 = some (.object ms) ∧
    ∃ c, classOf? ms = some c ∧ k.types.constructor? c = some .record
  once : ∀ o o' p ms ms', w.home o = some (p, ms) → w.home o' = some (p, ms') → o = o'
  begun : ∀ o p ms, w.home o = some (p, ms) → (b.stateOf? p.1).isSome

/-- A session stands in a world. -/
structure Standing (w : World) (s : Session) : Prop where
  named : R.Named w s.build
  parked : R.Parked w s.build
  lodged : R.Lodged w s.build
  holding : ∀ (o : ObjectId) h ms, w.home o = some (h, ms) → ∃ c, s.heap[o]? = some c ∧ R.Holding w s.build o h ms c
  visited : ∀ o key, w.visited o key → (w.home o).isSome
  tracked : ∀ o ∈ s.build.trackedOnes, (w.home o).isSome

/-- What an operation does to the world and to the session. The component in hand may be visited further;
of those that were there before no other is. New components are for nodes at the site or below it, or for
names that had no state before. -/
structure Advance (hand : Option ObjectId) (site : Option Home) (w : World) (s : Session) (w' : World)
    (t : Session) : Prop where
  le : w ≤ w'
  kept : ∀ n, (s.build.stateOf? n).isSome → (t.build.stateOf? n).isSome
  /-- No name is left building whose chain ends in nothing or in a scalar. -/
  calm : ∀ n ws, R.Flat n → t.build.stateOf? n = some (.building ws) →
    ∃ ws', s.build.stateOf? n = some (.building ws')
  length : s.heap.length ≤ t.heap.length
  visited : ∀ o, o < s.heap.length → hand ≠ some o → w'.visited o = w.visited o
  /-- No component that was there is given a node. -/
  settled : ∀ o, o < s.heap.length → w'.home o = w.home o
  made : ∀ o, s.heap.length ≤ o → o < t.heap.length → (w'.home o).isSome
  lodged : ∀ o p ms, w'.home o = some (p, ms) →
    w.home o = some (p, ms) ∨ (∃ q ∈ site, Below p q) ∨ s.build.stateOf? p.1 = none

variable {R}
variable {hand : Option ObjectId} {site : Option Home} {w w' w'' : World} {s t u : Session} {b b' : Build}

theorem Named.sane (h : R.Named w b) : w.Sane k.types R.members :=
  ⟨fun n hn => ((h.begun n).mp hn).2, h.sound⟩

/-- What changes no name in the tables and in the world keeps the names. -/
theorem Named.congr (h : R.Named w b) (hw : w ≤ w') (hbegun : w'.begun = w.begun) (hbuilt : w'.built = w.built)
    (hroot : b'.root = b.root) (hnames : b'.names = b.names) (horder : b'.order = b.order) : R.Named w' b' where
  root := hroot.trans h.root
  built n v := by
    rw [hbuilt, Build.stateOf?, hnames]
    exact h.built n v
  begun n := by
    rw [hbegun, Build.stateOf?, hnames]
    exact h.begun n
  known n := by
    rw [Build.stateOf?, hnames]
    exact h.known n
  reached n := by
    rw [Build.stateOf?, hnames]
    exact h.reached n
  order n := by
    rw [hbuilt, horder]
    exact h.order n
  once := by
    rw [horder]
    exact h.once
  unawaited n hn := by
    rw [Build.stateOf?, hnames]
    exact h.unawaited n hn
  sound n v hv := by
    rw [hbuilt] at hv
    exact (h.sound n v hv).mono hw

/-- What no component is made by. -/
theorem Advance.unmade (le : w ≤ w') (kept : ∀ n, (s.build.stateOf? n).isSome → (t.build.stateOf? n).isSome)
    (calm : ∀ n ws, R.Flat n → t.build.stateOf? n = some (.building ws) →
      ∃ ws', s.build.stateOf? n = some (.building ws'))
    (length : t.heap.length = s.heap.length)
    (visited : ∀ o, o < s.heap.length → hand ≠ some o → w'.visited o = w.visited o) (home : w'.home = w.home) :
    R.Advance hand site w s w' t where
  le := le
  kept := kept
  calm := calm
  length := length ▸ Nat.le_refl _
  visited := visited
  settled o _ := congrFun home o
  made _ ho ho' := absurd (length ▸ ho') (Nat.not_lt.mpr ho)
  lodged _ _ _ hp := .inl (home ▸ hp)

theorem Advance.refl (w : World) (s : Session) : R.Advance hand site w s w s :=
  .unmade (.refl w) (fun _ => id) (fun _ ws _ h => ⟨ws, h⟩) rfl (fun _ _ _ => rfl) rfl

theorem Advance.trans (h : R.Advance hand site w s w' t) (h' : R.Advance hand site w' t w'' u) :
    R.Advance hand site w s w'' u where
  le := World.Le.trans h.le h'.le
  kept n hn := h'.kept n (h.kept n hn)
  calm n ws hn hs := by
    obtain ⟨ws', hs'⟩ := h'.calm n ws hn hs
    exact h.calm n ws' hn hs'
  length := Nat.le_trans h.length h'.length
  visited o ho hne := (h'.visited o (Nat.lt_of_lt_of_le ho h.length) hne).trans (h.visited o ho hne)
  settled o ho := (h'.settled o (Nat.lt_of_lt_of_le ho h.length)).trans (h.settled o ho)
  made o ho ho' := by
    by_cases there : o < t.heap.length
    · rw [h'.settled o there]
      exact h.made o ho there
    · exact h'.made o (Nat.not_lt.mp there) ho'
  lodged o p ms hp := by
    rcases h'.lodged o p ms hp with hp | hp | hp
    · exact h.lodged o p ms hp
    · exact .inr (.inl hp)
    · refine .inr (.inr (Option.not_isSome_iff_eq_none.mp fun begun => ?_))
      have kept := h.kept _ begun
      rw [hp] at kept
      exact absurd kept Bool.false_ne_true

/-- What leaves every component alone leaves alone those that are not in hand. -/
theorem Advance.weaken (h : R.Advance none site w s w' t) : R.Advance hand site w s w' t :=
  { h with visited := fun o ho _ => h.visited o ho (by simp) }

/-- What is made below a site is made below every site above it. -/
theorem Advance.widen {site' : Option Home} (h : R.Advance hand site w s w' t)
    (hsite : ∀ q ∈ site, ∃ r ∈ site', Below q r) : R.Advance hand site' w s w' t :=
  { h with
    lodged := fun o p ms hp => by
      rcases h.lodged o p ms hp with hp | ⟨q, hq, below⟩ | hp
      · exact .inl hp
      · obtain ⟨r, hr, above⟩ := hsite q hq
        exact .inr (.inl ⟨r, hr, below.trans above⟩)
      · exact .inr (.inr hp) }

/-- What only concerns names that begin may happen at any site. -/
theorem Advance.anywhere (h : R.Advance hand none w s w' t) : R.Advance hand site w s w' t :=
  h.widen fun _ hq => absurd hq (by simp)

/-- A node stays vacant while other sites are built on. -/
theorem Advance.vacant {p : Home} (h : R.Advance hand site w s w' t) (hp : w.Vacant s p)
    (apart : ∀ q ∈ site, ∀ r, Below r q → ¬ Below r p) : w'.Vacant t p where
  begun := h.kept _ hp.begun
  vacant o r ms hr below := by
    rcases h.lodged o r ms hr with hr | ⟨q, hq, there⟩ | hr
    · exact hp.vacant o r ms hr below
    · exact apart q hq r there below
    · have begun := hp.begun
      rw [← below.1, hr] at begun
      exact absurd begun Bool.false_ne_true

theorem Lodged.mono (h : R.Lodged w b) (hh : w'.home = w.home)
    (hb : ∀ n, (b.stateOf? n).isSome → (b'.stateOf? n).isSome) : R.Lodged w' b' where
  node o p ms ho := h.node o p ms (hh ▸ ho)
  once o o' p ms ms' ho ho' := h.once o o' p ms ms' (hh ▸ ho) (hh ▸ ho')
  begun o p ms ho := hb _ (h.begun o p ms (hh ▸ ho))

/-! ## What no name and no component shows -/

/-- Nothing has happened to the parked values and to the records. -/
structure Apart (s t : Session) : Prop where
  deferred : t.build.deferred = s.build.deferred
  deferredNames : t.build.deferredNames = s.build.deferredNames
  tracked : s.build.trackedOnes <+: t.build.trackedOnes
  length : s.heap.length ≤ t.heap.length
  records : ∀ (o : ObjectId) (c : Component), s.heap[o]? = some c → c.ofClass = .record →
    ∃ c', t.heap[o]? = some c' ∧ c'.ofClass = .record ∧ c'.fields = c.fields

theorem Parked.mono (h : R.Parked w b) (hw : w ≤ w') (hd : b'.deferred = b.deferred)
    (hn : b'.deferredNames = b.deferredNames) (ht : b.trackedOnes <+: b'.trackedOnes) : R.Parked w' b' where
  assignment i d hi := by
    rw [hd] at hi
    obtain ⟨hcount, o, key, p, ms, j, hparks, ho, hk, hj, hr⟩ := h.assignment i d hi
    exact ⟨hcount, o, key, p, ms, j, hparks.mono ht, hw.home _ _ ho, hw.visited _ _ hk, hj, hr.mono hw⟩
  named i d hi := by
    rw [hn] at hi
    obtain ⟨hcount, hflat, j, hj, hr⟩ := h.named i d hi
    exact ⟨hcount, hflat, j, hj, hr.mono hw⟩

theorem Holding.mono {o : ObjectId} {h : Home} {ms : List (String × Json)} {c c' : Component}
    (hc : R.Holding w b o h ms c) (hw : w ≤ w') (hv : w'.visited o = w.visited o)
    (hd : ∀ (i : Nat) (key : String) (d : Deferred), b.deferred[i]? = some (some d) → b.Parks o key d →
      ∃ (i' : Nat) (d' : Deferred), b'.deferred[i']? = some (some d') ∧ b'.Parks o key d')
    (hr : c'.ofClass = .record) (hf : c'.fields = c.fields) : R.Holding w' b' o h ms c' where
  record := hr
  unset key hk := by
    rw [hf]
    rw [hv] at hk
    exact hc.unset key hk
  held key j hk hj := by
    rw [hv] at hk
    rw [hf]
    rcases hc.held key j hk hj with ⟨i, d, hi, hparks⟩ | ⟨hreal, hcomplete⟩
    · exact .inl (hd i key d hi hparks)
    · exact .inr ⟨hreal.mono hw, hcomplete⟩

/-- Where nothing has happened to parked values and records, only the names have to be seen to. -/
theorem Standing.apart (h : R.Standing w s) (ha : Apart s t) (hn : R.Named w' t.build)
    (hl : R.Lodged w' t.build) (hw : w ≤ w') (hh : w'.home = w.home) (hv : w'.visited = w.visited)
    (ht : t.build.trackedOnes = s.build.trackedOnes) : R.Standing w' t where
  named := hn
  parked := h.parked.mono hw ha.deferred ha.deferredNames ha.tracked
  lodged := hl
  holding o p ms ho := by
    rw [hh] at ho
    obtain ⟨c, hc, hold⟩ := h.holding o p ms ho
    obtain ⟨c', hc', hr, hf⟩ := ha.records o c hc hold.record
    refine ⟨c', hc', hold.mono hw (congrFun hv o) (fun i key d hi hp => ⟨i, d, ?_, hp.mono ha.tracked⟩) hr hf⟩
    rw [ha.deferred]
    exact hi
  visited o key hk := by
    rw [hh]
    rw [hv] at hk
    exact h.visited o key hk
  tracked o ho := by
    rw [hh]
    rw [ht] at ho
    exact h.tracked o ho

/-- Nothing has happened that names, parked values or records show. -/
structure Idle (s t : Session) : Prop extends Apart s t where
  root : t.build.root = s.build.root
  names : t.build.names = s.build.names
  order : t.build.order = s.build.order
  same : t.build.trackedOnes = s.build.trackedOnes
  size : t.heap.length = s.heap.length

theorem Apart.of_names (hd : t.build.deferred = s.build.deferred)
    (hn : t.build.deferredNames = s.build.deferredNames) (ho : t.build.objects = s.build.objects)
    (hh : t.heap = s.heap) : Apart s t := by
  refine ⟨hd, hn, ?_, ?_, fun o c hc hr => ⟨c, ?_, hr, rfl⟩⟩
  · rw [Build.trackedOnes, Build.trackedOnes, ho]
  · rw [hh]
  · rw [hh]
    exact hc

theorem Idle.refl (s : Session) : Idle s s := ⟨.of_names rfl rfl rfl rfl, rfl, rfl, rfl, rfl, rfl⟩

theorem Idle.trans (h : Idle s t) (h' : Idle t u) : Idle s u where
  deferred := h'.deferred.trans h.deferred
  deferredNames := h'.deferredNames.trans h.deferredNames
  tracked := h.tracked.trans h'.tracked
  length := Nat.le_trans h.length h'.length
  records o c hc hr := by
    obtain ⟨c', hc', hr', hf⟩ := h.records o c hc hr
    obtain ⟨c'', hc'', hr'', hf'⟩ := h'.records o c' hc' hr'
    exact ⟨c'', hc'', hr'', hf'.trans hf⟩
  root := h'.root.trans h.root
  names := h'.names.trans h.names
  order := h'.order.trans h.order
  same := h'.same.trans h.same
  size := h'.size.trans h.size

theorem Idle.of_quiet (h : Run.Quiet s t) : Idle s t := by
  refine ⟨.of_names ?_ ?_ ?_ h.heap, ?_, ?_, ?_, ?_, congrArg List.length h.heap⟩ <;> rw [h.build]

/-- The names have the states that they had. -/
theorem Idle.kept (h : Idle s t) (n : String) (hn : (s.build.stateOf? n).isSome) : (t.build.stateOf? n).isSome := by
  rw [Build.stateOf?, h.names]
  exact hn

theorem Idle.vacant (h : Idle s t) {p : Home} (hp : w.Vacant s p) : w.Vacant t p := ⟨h.kept _ hp.begun, hp.vacant⟩

theorem Standing.idle (h : R.Standing w s) (hi : Idle s t) : R.Standing w t :=
  h.apart hi.toApart (h.named.congr (.refl w) rfl rfl hi.root hi.names hi.order) (h.lodged.mono rfl hi.kept)
    (.refl w) rfl rfl hi.same

/-- Where the names are as before, the world may be too. -/
theorem Advance.still (hn : t.build.names = s.build.names) (hl : t.heap.length = s.heap.length) :
    R.Advance hand site w s w t := by
  have states : ∀ n, t.build.stateOf? n = s.build.stateOf? n := by
    intro n
    rw [Build.stateOf?, Build.stateOf?, hn]
  refine .unmade (.refl w) ?_ ?_ hl (fun _ _ _ => rfl) rfl
  · intro n hn
    rw [states]
    exact hn
  · intro n ws _ hs
    rw [states] at hs
    exact ⟨ws, hs⟩

theorem Advance.idle (hi : Idle s t) : R.Advance hand site w s w t := .still hi.names hi.size

/-! ## Names -/

end PlainRoot

/-- The name has begun, and may be waited for unless its chain ends in nothing or in a scalar. -/
def World.begin (w : World) (P : String → Prop) (n : String) : World :=
  { w with begun := fun m => w.begun m ∨ m = n ∧ ¬ P n }

/-- The name is built. -/
def World.finish (w : World) (n : String) (v : Value) : World :=
  { w with built := fun m => if m = n then some v else w.built m }

theorem World.le_begin (w : World) (P : String → Prop) (n : String) : w ≤ w.begin P n :=
  ⟨fun _ => .inl, fun _ _ => id, fun _ _ => id, fun _ _ => id⟩

theorem World.le_finish {w : World} {n : String} (hn : w.built n = none) (v : Value) : w ≤ w.finish n v := by
  refine ⟨fun _ => id, fun m u hm => ?_, fun _ _ => id, fun _ _ => id⟩
  show (if m = n then some v else w.built m) = some u
  rw [if_neg, hm]
  rintro rfl
  exact absurd (hn.symm.trans hm) (by simp)

namespace PlainRoot

variable {k : Container} {R : PlainRoot k} {hand : Option ObjectId} {w w' : World} {s t : Session} {b : Build}
variable {n : String}

theorem Named.built_eq_none (h : R.Named w b) (hn : ∀ v, b.stateOf? n ≠ some (.built v)) : w.built n = none := by
  cases hb : w.built n with
  | none => rfl
  | some v => exact absurd ((h.built n v).mp hb) (hn v)

theorem Named.begin (h : R.Named w b) (hn : b.stateOf? n = none) (hm : (R.members.lookup n).isSome)
    (hr : R.Reached n) : R.Named (w.begin R.Flat n) (b.apply (.begin n)) where
  root := h.root
  built m v := by
    rw [Build.stateOf?_begin]
    by_cases hm : m = n
    · subst hm
      rw [if_pos rfl]
      have none : w.built m = none := h.built_eq_none fun v hv => absurd (hn.symm.trans hv) (by simp)
      show w.built m = some v ↔ _
      rw [none]
      simp
    · rw [if_neg hm]
      exact h.built m v
  begun m := by
    rw [Build.stateOf?_begin]
    show w.begun m ∨ m = n ∧ ¬ R.Flat n ↔ _
    rw [h.begun m]
    by_cases hm : m = n
    · subst hm
      rw [if_pos rfl, hn]
      simp
    · rw [if_neg hm]
      simp [hm]
  known m hs := by
    rw [Build.stateOf?_begin] at hs
    by_cases hmn : m = n
    · exact hmn ▸ hm
    · rw [if_neg hmn] at hs
      exact h.known m hs
  reached m hs := by
    rw [Build.stateOf?_begin] at hs
    by_cases hmn : m = n
    · exact hmn ▸ hr
    · rw [if_neg hmn] at hs
      exact h.reached m hs
  order := h.order
  once := h.once
  unawaited m hf := by
    rw [Build.stateOf?_begin]
    split
    · rfl
    · exact h.unawaited m hf
  sound m v hv := (h.sound m v hv).mono (w.le_begin R.Flat n)

theorem Named.finish (h : R.Named w b) {ws : List Waiter} (hn : b.stateOf? n = some (.building ws)) {v : Value}
    (hv : StandsFor k.types R.members w n v) : R.Named (w.finish n v) (b.apply (.finish n v)) where
  root := h.root
  built m u := by
    rw [Build.stateOf?_finish]
    show (if m = n then some v else w.built m) = some u ↔ _
    by_cases hm : m = n
    · rw [if_pos hm, if_pos hm]
      simp
    · rw [if_neg hm, if_neg hm]
      exact h.built m u
  begun m := by
    rw [Build.isSome_stateOf?_finish hn]
    exact h.begun m
  known m hs := h.known m (Build.isSome_stateOf?_finish hn v m ▸ hs)
  reached m hs := h.reached m (Build.isSome_stateOf?_finish hn v m ▸ hs)
  order m := by
    show m ∈ b.order ++ [n] ↔ (if m = n then some v else w.built m).isSome
    by_cases hm : m = n
    · simp [hm]
    · rw [if_neg hm, ← h.order m]
      simp [hm]
  once := by
    have new : n ∉ b.order := by
      rw [h.order n, h.built_eq_none fun v hv => absurd (hn.symm.trans hv) (by simp)]
      simp
    refine List.nodup_append.mpr ⟨h.once, by simp, fun m hm l hl he => ?_⟩
    obtain rfl := List.mem_singleton.mp hl
    exact new (he ▸ hm)
  unawaited m hf := by
    rw [Build.stateOf?_finish]
    split
    · rfl
    · exact h.unawaited m hf
  sound m u hu := by
    have none : w.built n = none := h.built_eq_none fun v hv => absurd (hn.symm.trans hv) (by simp)
    refine StandsFor.mono ?_ (World.le_finish none v)
    change (if m = n then some v else w.built m) = some u at hu
    by_cases hm : m = n
    · rw [if_pos hm] at hu
      obtain rfl := Option.some.inj hu
      exact hm ▸ hv
    · rw [if_neg hm] at hu
      exact h.sound m u hu

theorem Named.abandon (h : R.Named w b) (hf : R.Flat n) (hn : w.built n = none) :
    R.Named w (b.apply (.abandon n)) where
  root := h.root
  built m v := by
    rw [Build.stateOf?_abandon]
    by_cases hm : m = n
    · rw [if_pos hm, hm, hn]
      simp
    · rw [if_neg hm]
      exact h.built m v
  begun m := by
    rw [Build.stateOf?_abandon, h.begun m]
    by_cases hm : m = n
    · subst hm
      simp [hf]
    · rw [if_neg hm]
  known m hs := by
    rw [Build.stateOf?_abandon] at hs
    by_cases hm : m = n
    · rw [if_pos hm] at hs
      exact absurd hs (by simp)
    · rw [if_neg hm] at hs
      exact h.known m hs
  reached m hs := by
    rw [Build.stateOf?_abandon] at hs
    by_cases hm : m = n
    · rw [if_pos hm] at hs
      exact absurd hs (by simp)
    · rw [if_neg hm] at hs
      exact h.reached m hs
  order := h.order
  once := h.once
  unawaited m hfm := by
    rw [Build.stateOf?_abandon]
    split
    · rfl
    · exact h.unawaited m hfm
  sound := h.sound

theorem Named.await (h : R.Named w b) {ws : List Waiter} (hn : b.stateOf? n = some (.building ws))
    (hf : ¬ R.Flat n) (x : Waiter) : R.Named w (b.apply (.await n x)) where
  root := h.root
  built m v := by
    rw [Build.stateOf?_await]
    by_cases hm : m = n
    · rw [if_pos hm, h.built m v, hm, hn]
      simp
    · rw [if_neg hm]
      exact h.built m v
  begun m := by
    rw [Build.isSome_stateOf?_await hn]
    exact h.begun m
  known m hs := h.known m (Build.isSome_stateOf?_await hn x m ▸ hs)
  reached m hs := h.reached m (Build.isSome_stateOf?_await hn x m ▸ hs)
  order := h.order
  once := h.once
  unawaited m hfm := by
    rw [Build.stateOf?_await]
    split
    next hm => exact absurd (hm ▸ hfm) hf
    · exact h.unawaited m hfm
  sound := h.sound

/-- A name begins. -/
theorem Standing.begin (h : R.Standing w s) (hn : s.build.stateOf? n = none)
    (hm : (R.members.lookup n).isSome) (hr : R.Reached n) :
    R.Standing (w.begin R.Flat n) (s.acted (.begin n)) :=
  h.apart (.of_names rfl rfl rfl rfl) (h.named.begin hn hm hr)
    (h.lodged.mono rfl fun m hm => by
      show ((s.build.apply (.begin n)).stateOf? m).isSome
      rw [Build.stateOf?_begin]
      split
      · rfl
      · exact hm)
    (w.le_begin R.Flat n) rfl rfl rfl

/-- A name is built. -/
theorem Standing.finish (h : R.Standing w s) {ws : List Waiter}
    (hn : s.build.stateOf? n = some (.building ws)) {v : Value} (hv : StandsFor k.types R.members w n v) :
    R.Standing (w.finish n v) (s.acted (.finish n v)) := by
  have none : w.built n = none := h.named.built_eq_none fun v hv => absurd (hn.symm.trans hv) (by simp)
  refine h.apart (.of_names rfl rfl rfl rfl) (h.named.finish hn hv) (h.lodged.mono rfl fun m hm => ?_)
    (World.le_finish none v) rfl rfl rfl
  show ((s.build.apply (.finish n v)).stateOf? m).isSome
  rw [Build.isSome_stateOf?_finish hn]
  exact hm

/-- No component is made for a name that is given up. -/
theorem Lodged.abandon (h : R.Lodged w b) (hn : Barren k.types R.members n) : R.Lodged w (b.apply (.abandon n)) where
  node := h.node
  once := h.once
  begun o p ms ho := by
    rw [Build.stateOf?_abandon, if_neg]
    · exact h.begun o p ms ho
    · rintro rfl
      obtain ⟨there, c, hc, hr⟩ := h.node o p ms ho
      rcases hn.nodeAt? there with ⟨-, hno | ⟨ms', c', hms, hc', hu⟩⟩ | ⟨str, hs⟩
      · exact absurd hno (by simp)
      · obtain rfl := Json.object.inj (Option.some.inj hms)
        obtain rfl := Option.some.inj (hc.symm.trans hc')
        exact absurd (hr.symm.trans hu) (by simp)
      · exact absurd hs (by simp)

/-- A name is given up. -/
theorem Standing.abandon (h : R.Standing w s) (hb : Barren k.types R.members n) (hn : w.built n = none) :
    R.Standing w (s.acted (.abandon n)) :=
  h.apart (.of_names rfl rfl rfl rfl) (h.named.abandon hb.flat hn) (h.lodged.abandon hb) (.refl w) rfl rfl rfl

/-- A placeholder waits for a name. -/
theorem Standing.await (h : R.Standing w s) {ws : List Waiter}
    (hn : s.build.stateOf? n = some (.building ws)) (hf : ¬ R.Flat n) (x : Waiter) :
    R.Standing w (s.acted (.await n x)) :=
  h.apart (.of_names rfl rfl rfl rfl) (h.named.await hn hf x)
    (h.lodged.mono rfl fun m hm => by
      show ((s.build.apply (.await n x)).stateOf? m).isSome
      rw [Build.isSome_stateOf?_await hn]
      exact hm)
    (.refl w) rfl rfl rfl

/-! ## Parked values -/

/-- What is parked after a place has been filled was parked before, or is what has been filled. -/
theorem of_getElem?_modify {α : Type} {ds : List (Option α)} {i l : Nat} {fill : α → α} {left : α → Bool} {e : α}
    (he : (ds.modify i fun d => (d.map fill).filter left)[l]? = some (some e)) :
    i ≠ l ∧ ds[l]? = some (some e) ∨ i = l ∧ ∃ d, ds[i]? = some (some d) ∧ fill d = e := by
  by_cases hil : i = l
  · subst hil
    rw [List.getElem?_modify_eq] at he
    obtain ⟨d, hd, he⟩ := Option.map_eq_some_iff.mp he
    obtain ⟨filled, -⟩ := Option.filter_eq_some_iff.mp he
    obtain ⟨d', rfl, hd'⟩ := Option.map_eq_some_iff.mp filled
    exact .inr ⟨rfl, d', hd, hd'⟩
  · rw [List.getElem?_modify_ne _ _ hil] at he
    exact .inl ⟨hil, he⟩

/-- With one more place filled there is one placeholder less. -/
theorem count_filled (hw : w.Complete) {value v : Value} {place : List Place} {p : Pending} {count : Nat}
    (hcount : count = value.placeholders.length) (hp : value.at? place = some (.pending p))
    (hv : w.built p.name = some v) : count - 1 = (Value.setAt v place value).placeholders.length := by
  have one := Value.length_placeholders_setAt (hw p.name v hv) hp
  rw [hcount, ← one]
  rfl

theorem Parked.fill (h : R.Parked w b) (hw : w.Complete) {i : Nat} {d : Deferred}
    (hd : b.deferred[i]? = some (some d)) {place : List Place} {p : Pending}
    (hp : d.value.at? place = some (.pending p)) {v : Value} (hv : w.built p.name = some v) :
    R.Parked w (b.apply (.fill i place v)) where
  assignment l e he := by
    rcases of_getElem?_modify he with ⟨-, he⟩ | ⟨rfl, d', hd', rfl⟩
    · exact h.assignment l e he
    · obtain rfl : d = d' := by simpa using hd.symm.trans hd'
      obtain ⟨hcount, o, key, q, ms, j, hparks, ho, hk, hj, hr⟩ := h.assignment i d hd
      exact ⟨count_filled hw hcount hp hv, o, key, q, ms, j, hparks, ho, hk, hj, hr.setAt hw rfl hp hv⟩
  named := h.named

theorem Parked.fillName (h : R.Parked w b) (hw : w.Complete) {i : Nat} {d : DeferredName}
    (hd : b.deferredNames[i]? = some (some d)) {place : List Place} {p : Pending}
    (hp : d.value.at? place = some (.pending p)) {v : Value} (hv : w.built p.name = some v) :
    R.Parked w (b.apply (.fillName i place v)) where
  assignment := h.assignment
  named l e he := by
    rcases of_getElem?_modify he with ⟨-, he⟩ | ⟨rfl, d', hd', rfl⟩
    · exact h.named l e he
    · obtain rfl : d = d' := by simpa using hd.symm.trans hd'
      obtain ⟨hcount, hflat, j, hj, hr⟩ := h.named i d hd
      exact ⟨count_filled hw hcount hp hv, hflat, j, hj, hr.setAt hw rfl hp hv⟩

/-- A named value is parked. -/
theorem Standing.parkName (h : R.Standing w s) (hf : ¬ R.Flat n) {j : Json} (hj : R.members.lookup n = some j)
    {v : Value} (hr : R.Realizes w (n, []) j (some v)) :
    R.Standing w (s.acted (.parkName ⟨n, v, v.placeholders.length⟩)) where
  named := h.named.congr (.refl w) rfl rfl rfl rfl rfl
  parked := by
    refine ⟨h.parked.assignment, fun i d hi => ?_⟩
    change (s.build.deferredNames ++ [some ⟨n, v, v.placeholders.length⟩])[i]? = _ at hi
    rcases List.mem_append.mp (List.mem_of_getElem? hi) with hd | hd
    · obtain ⟨l, hl⟩ := List.mem_iff_getElem?.mp hd
      exact h.parked.named l d hl
    · obtain rfl : d = ⟨n, v, v.placeholders.length⟩ := by simpa using hd
      exact ⟨rfl, hf, j, hj, hr⟩
  lodged := h.lodged.mono rfl fun _ => id
  holding o p ms ho := by
    obtain ⟨c, hc, hold⟩ := h.holding o p ms ho
    exact ⟨c, hc, hold.record, hold.unset, hold.held⟩
  visited := h.visited
  tracked := h.tracked

/-- A place of a parked named value is filled. -/
theorem Standing.fillName (h : R.Standing w s) {i : Nat} {d : DeferredName}
    (hd : s.build.deferredNames[i]? = some (some d)) {place : List Place} {p : Pending}
    (hp : d.value.at? place = some (.pending p)) {v : Value} (hv : w.built p.name = some v) :
    R.Standing w (s.acted (.fillName i place v)) where
  named := h.named.congr (.refl w) rfl rfl rfl rfl rfl
  parked := h.parked.fillName h.named.sane.complete hd hp hv
  lodged := h.lodged.mono rfl fun _ => id
  holding o p ms ho := by
    obtain ⟨c, hc, hold⟩ := h.holding o p ms ho
    exact ⟨c, hc, hold.record, hold.unset, hold.held⟩
  visited := h.visited
  tracked := h.tracked

/-- A place of a parked assignment is filled that has others to be filled. -/
theorem Standing.fill (h : R.Standing w s) {i : Nat} {d : Deferred}
    (hd : s.build.deferred[i]? = some (some d)) {place : List Place} {p : Pending}
    (hp : d.value.at? place = some (.pending p)) {v : Value} (hv : w.built p.name = some v)
    (more : 0 < (d.filled place v).outstanding) : R.Standing w (s.acted (.fill i place v)) where
  named := h.named.congr (.refl w) rfl rfl rfl rfl rfl
  parked := h.parked.fill h.named.sane.complete hd hp hv
  lodged := h.lodged.mono rfl fun _ => id
  holding o q ms ho := by
    obtain ⟨c, hc, hold⟩ := h.holding o q ms ho
    refine ⟨c, hc, hold.mono (.refl w) rfl (fun l key e hl hparks => ?_) hold.record rfl⟩
    by_cases hil : i = l
    · subst hil
      obtain rfl : d = e := by simpa using hd.symm.trans hl
      refine ⟨i, d.filled place v, ?_, hparks⟩
      show (s.build.deferred.modify i _)[i]? = _
      rw [List.getElem?_modify_eq, hd]
      simp [Option.filter, more]
    · refine ⟨l, e, ?_, hparks⟩
      show (s.build.deferred.modify i _)[l]? = _
      rw [List.getElem?_modify_ne _ _ hil, hl]
  visited := h.visited
  tracked := h.tracked

/-! ## Components -/

end PlainRoot

/-- A component is made for a node. -/
def World.construct (w : World) (o : ObjectId) (h : Home) (ms : List (String × Json)) : World :=
  { w with home := fun p => if p = o then some (h, ms) else w.home p }

/-- A property of a component is visited. -/
def World.visit (w : World) (o : ObjectId) (key : String) : World :=
  { w with visited := fun p l => w.visited p l ∨ p = o ∧ l = key }

theorem World.le_construct {w : World} {o : ObjectId} (ho : w.home o = none) (h : Home)
    (ms : List (String × Json)) : w ≤ w.construct o h ms := by
  refine ⟨fun _ => id, fun _ _ => id, fun p q hp => ?_, fun _ _ => id⟩
  show (if p = o then some (h, ms) else w.home p) = some q
  rw [if_neg, hp]
  rintro rfl
  exact absurd (ho.symm.trans hp) (by simp)

theorem World.le_visit (w : World) (o : ObjectId) (key : String) : w ≤ w.visit o key :=
  ⟨fun _ => id, fun _ _ => id, fun _ _ => id, fun _ _ => .inl⟩

theorem World.visit_of_visited {w : World} {o : ObjectId} {key : String} (h : w.visited o key) :
    w.visit o key = w := by
  have same : (w.visit o key).visited = w.visited := by
    funext p l
    refine propext ⟨?_, .inl⟩
    rintro (hl | ⟨rfl, rfl⟩)
    · exact hl
    · exact h
  show { w with visited := (w.visit o key).visited } = w
  rw [same]

/-- A record takes every value. -/
theorem Heap.set_record {h : Heap} {o : ObjectId} {c : Component} (hc : h[o]? = some c)
    (hr : c.ofClass = .record) (name : String) (v : Value) :
    (h.set o name v).2 = List.set h o { c with fields := Table.insert name v c.fields } := by
  have taken : c.ofClass.set? c.fields name v = some (Table.insert name v c.fields) := by
    rw [hr]
    rfl
  rw [Heap.set_taken hc taken]

namespace PlainRoot

variable {k : Container} {R : PlainRoot k} {hand : Option ObjectId} {w w' : World} {s t : Session} {b : Build}
variable {o : ObjectId} {p : Home} {ms : List (String × Json)} {key : String} {j : Json}

theorem Standing.home_eq_none (h : R.Standing w s) (ho : s.heap.length ≤ o) : w.home o = none := by
  cases hh : w.home o with
  | none => rfl
  | some q =>
      obtain ⟨p, ms⟩ := q
      obtain ⟨c, hc, -⟩ := h.holding o p ms hh
      exact absurd (List.getElem?_eq_none ho) (by simp [hc])

theorem World.home_construct (w : World) (o q : ObjectId) (p : Home) (ms : List (String × Json)) :
    (w.construct o p ms).home q = if q = o then some (p, ms) else w.home q := rfl

/-- A component is made for a vacant node. -/
theorem Lodged.construct (h : R.Lodged w b) (hv : w.Vacant s p) (hb : s.build = b)
    (hp : nodeAt? k.types R.members p.1 p.2 = some (.object ms)) {c : String} (hc : classOf? ms = some c)
    (hr : k.types.constructor? c = some .record) (o : ObjectId) : R.Lodged (w.construct o p ms) b where
  node q r ms' hq := by
    rw [World.home_construct] at hq
    by_cases hqo : q = o
    · rw [if_pos hqo] at hq
      obtain ⟨rfl, rfl⟩ : p = r ∧ ms = ms' := by simpa using hq
      exact ⟨hp, c, hc, hr⟩
    · rw [if_neg hqo] at hq
      exact h.node q r ms' hq
  once q q' r ms' ms'' hq hq' := by
    rw [World.home_construct] at hq hq'
    have vacant : ∀ x mx, w.home x = some (p, mx) → False := fun x mx hx => hv.vacant x p mx hx (.refl p)
    by_cases hqo : q = o
    · rw [if_pos hqo] at hq
      obtain ⟨rfl, -⟩ : p = r ∧ ms = ms' := by simpa using hq
      by_cases hqo' : q' = o
      · exact hqo.trans hqo'.symm
      · rw [if_neg hqo'] at hq'
        exact (vacant q' ms'' hq').elim
    · rw [if_neg hqo] at hq
      by_cases hqo' : q' = o
      · rw [if_pos hqo'] at hq'
        obtain ⟨rfl, -⟩ : p = r ∧ ms = ms'' := by simpa using hq'
        exact (vacant q ms' hq).elim
      · rw [if_neg hqo'] at hq'
        exact h.once q q' r ms' ms'' hq hq'
  begun q r ms' hq := by
    rw [World.home_construct] at hq
    by_cases hqo : q = o
    · rw [if_pos hqo] at hq
      obtain ⟨rfl, -⟩ : p = r ∧ ms = ms' := by simpa using hq
      exact hb ▸ hv.begun
    · rw [if_neg hqo] at hq
      exact h.begun q r ms' hq

/-- A component is made for a node. -/
theorem Standing.construct (h : R.Standing w s) (hvacant : w.Vacant s p)
    (hp : nodeAt? k.types R.members p.1 p.2 = some (.object ms)) {name : String} (hclass : classOf? ms = some name)
    (hrecord : k.types.constructor? name = some .record) (hb : t.build = s.build)
    (hh : t.heap = s.heap ++ [.fresh .record []]) : R.Standing (w.construct s.heap.length p ms) t := by
  have le := World.le_construct (h.home_eq_none (Nat.le_refl _)) p ms
  have apart : Apart s t := by
    refine ⟨by rw [hb], by rw [hb], by rw [hb], ?_, fun o c hc hr => ⟨c, ?_, hr, rfl⟩⟩
    · rw [hh, List.length_append]
      exact Nat.le_add_right _ _
    · rw [hh, List.getElem?_append_left (List.getElem?_eq_some_iff.mp hc).1]
      exact hc
  refine ⟨?_, h.parked.mono le apart.deferred apart.deferredNames apart.tracked, ?_, ?_, ?_, ?_⟩
  · rw [hb]
    exact h.named.congr le rfl rfl rfl rfl rfl
  · rw [hb]
    exact h.lodged.construct hvacant rfl hp hclass hrecord _
  · intro o q rs ho
    change (if o = s.heap.length then some (p, ms) else w.home o) = _ at ho
    by_cases hnew : o = s.heap.length
    · subst hnew
      refine ⟨.fresh .record [], ?_, rfl, fun _ _ => rfl, fun key j hk _ => ?_⟩
      · rw [hh, List.getElem?_append_right (Nat.le_refl _), Nat.sub_self]
        rfl
      -- nothing of a component that was not there has been visited
      · have there := h.visited _ key hk
        rw [h.home_eq_none (Nat.le_refl _)] at there
        exact absurd there (by simp)
    · rw [if_neg hnew] at ho
      obtain ⟨c, hc, hold⟩ := h.holding o q rs ho
      obtain ⟨c', hc', hr, hf⟩ := apart.records o c hc hold.record
      refine ⟨c', hc', hold.mono le rfl (fun i key d hi hp => ⟨i, d, ?_, hp.mono apart.tracked⟩) hr hf⟩
      rw [apart.deferred]
      exact hi
  · intro o key hk
    show (if o = s.heap.length then some (p, ms) else w.home o).isSome
    split
    · rfl
    · exact h.visited o key hk
  · intro o ho
    rw [hb] at ho
    show (if o = s.heap.length then some (p, ms) else w.home o).isSome
    split
    · rfl
    · exact h.tracked o ho

/-- The component whose property is visited holds at it what stands for its data, or that is parked, and is as it was
elsewhere. -/
theorem Holding.visit {b' : Build} {c c' : Component} (hold : R.Holding w b o p ms c)
    (hj : entryOf? ms key = some j) (record : c'.ofClass = .record)
    (same : ∀ l, l ≠ key → c'.fields.lookup l = c.fields.lookup l)
    (here : (∃ (i : Nat) (d : Deferred), b'.deferred[i]? = some (some d) ∧ b'.Parks o key d) ∨
      R.Realizes (w.visit o key) (p.1, .key key :: p.2) j (c'.fields.lookup key) ∧
        ∀ v, c'.fields.lookup key = some v → v.placeholders = [])
    (left : ∀ (i : Nat) (d : Deferred) l, l ≠ key → b.deferred[i]? = some (some d) → b.Parks o l d →
      ∃ (i' : Nat) (d' : Deferred), b'.deferred[i']? = some (some d') ∧ b'.Parks o l d') :
    R.Holding (w.visit o key) b' o p ms c' where
  record := record
  unset l hl := by
    have other : l ≠ key := by
      rintro rfl
      rcases hl with hl | hl
      · exact hl (.inr ⟨rfl, rfl⟩)
      · exact absurd (hj.symm.trans hl) (by simp)
    rw [same l other]
    exact hold.unset l (hl.imp (fun hl hv => hl (.inl hv)) id)
  held l i hl hi := by
    by_cases hlk : l = key
    · subst hlk
      obtain rfl : j = i := Option.some.inj (hj.symm.trans hi)
      exact here
    · have visited : w.visited o l := hl.resolve_right fun hr => hlk hr.2
      rw [same l hlk]
      rcases hold.held l i visited hi with ⟨a, d, ha, hd⟩ | ⟨hreal, hcomplete⟩
      · exact .inl (left a d l hlk ha hd)
      · exact .inr ⟨hreal.mono (w.le_visit o key), hcomplete⟩

/-- A property of a component is visited: what it holds then stands for its data, or is parked. -/
theorem Standing.visit (h : R.Standing w s) (ho : w.home o = some (p, ms)) (hj : entryOf? ms key = some j)
    (hn : R.Named (w.visit o key) t.build) (hp : R.Parked (w.visit o key) t.build)
    (hl : R.Lodged w t.build) (there : ∀ c, s.heap[o]? = some c → c.ofClass = .record → ∃ c', t.heap[o]? = some c' ∧
      c'.ofClass = .record ∧ (∀ l, l ≠ key → c'.fields.lookup l = c.fields.lookup l) ∧
      ((∃ (i : Nat) (d : Deferred), t.build.deferred[i]? = some (some d) ∧ t.build.Parks o key d) ∨
        R.Realizes (w.visit o key) (p.1, .key key :: p.2) j (c'.fields.lookup key) ∧
          ∀ v, c'.fields.lookup key = some v → v.placeholders = []))
    (others : ∀ q, q ≠ o → t.heap[q]? = s.heap[q]?)
    (left : ∀ (i : Nat) (d : Deferred) q l, s.build.deferred[i]? = some (some d) → s.build.Parks q l d →
      q = o ∧ l = key ∨
        ∃ (i' : Nat) (d' : Deferred), t.build.deferred[i']? = some (some d') ∧ t.build.Parks q l d')
    (ht : t.build.trackedOnes = s.build.trackedOnes) : R.Standing (w.visit o key) t where
  named := hn
  parked := hp
  lodged := hl.mono rfl fun _ => id
  holding q r rs hq := by
    obtain ⟨c, hc, hold⟩ := h.holding q r rs hq
    by_cases hqo : q = o
    · subst hqo
      obtain ⟨rfl, rfl⟩ : p = r ∧ ms = rs := by simpa using ho.symm.trans hq
      obtain ⟨c', hc', hr, same, here⟩ := there c hc hold.record
      exact ⟨c', hc', hold.visit hj hr same here fun i d l hl hi hd =>
        (left i d q l hi hd).resolve_left fun he => hl he.2⟩
    · refine ⟨c, (others q hqo).trans hc, hold.mono (w.le_visit o key) ?_ (fun i l d hi hd => ?_) hold.record rfl⟩
      · funext l
        refine propext ⟨?_, .inl⟩
        rintro (hl | ⟨he, -⟩)
        · exact hl
        · exact absurd he hqo
      · exact (left i d q l hi hd).resolve_left fun he => hqo he.1
  visited q l hl := by
    rcases hl with hl | ⟨rfl, rfl⟩
    · exact h.visited q l hl
    · show (w.home q).isSome
      rw [ho]
      rfl
  tracked q hq := by
    rw [ht] at hq
    exact h.tracked q hq

theorem Named.visit (h : R.Named w b) (o : ObjectId) (key : String) : R.Named (w.visit o key) b :=
  h.congr (w.le_visit o key) rfl rfl rfl rfl rfl

/-- A value that holds no placeholder is written. What was parked for the property may be parked no more. -/
theorem Standing.write (h : R.Standing w s) (ho : w.home o = some (p, ms)) (hj : entryOf? ms key = some j)
    {v : Value} (hr : R.Realizes w (p.1, .key key :: p.2) j (some v)) (hv : v.placeholders = [])
    (hn : R.Named w t.build) (hp : R.Parked w t.build) (hl : R.Lodged w t.build)
    (hh : t.heap = (s.heap.set o key v).2)
    (left : ∀ (i : Nat) (d : Deferred) q l, s.build.deferred[i]? = some (some d) → s.build.Parks q l d →
      q = o ∧ l = key ∨
        ∃ (i' : Nat) (d' : Deferred), t.build.deferred[i']? = some (some d') ∧ t.build.Parks q l d')
    (ht : t.build.trackedOnes = s.build.trackedOnes) : R.Standing (w.visit o key) t := by
  have le := w.le_visit o key
  refine h.visit ho hj (hn.visit o key) (hp.mono le rfl rfl (List.prefix_refl _)) hl ?_ ?_ left ht
  · intro c hc hrec
    rw [hh, Heap.set_record hc hrec]
    refine ⟨_, Heap.getElem?_listSet_eq hc _, hrec, ?_, .inr ⟨?_, ?_⟩⟩
    · intro l hl
      show (Table.insert key v c.fields).lookup l = _
      rw [Table.lookup_insert, if_neg hl]
    · show R.Realizes _ _ j ((Table.insert key v c.fields).lookup key)
      rw [Table.lookup_insert, if_pos rfl]
      exact hr.mono le
    · intro u hu
      change (Table.insert key v c.fields).lookup key = some u at hu
      rw [Table.lookup_insert, if_pos rfl] at hu
      exact Option.some.inj hu ▸ hv
  · intro q hq
    rw [hh]
    exact Heap.getElem?_set_of_ne (Ne.symm hq) key v

/-- A property that nothing is built for stays unset. -/
theorem Standing.skip (h : R.Standing w s) (ho : w.home o = some (p, ms)) (hj : entryOf? ms key = some j)
    (hk : ¬ w.visited o key) (hr : R.Realizes w (p.1, .key key :: p.2) j none) :
    R.Standing (w.visit o key) s := by
  have le := w.le_visit o key
  refine h.visit ho hj (h.named.visit o key) (h.parked.mono le rfl rfl (List.prefix_refl _)) h.lodged ?_
    (fun _ _ => rfl) (fun i d q l hi hd => .inr ⟨i, d, hi, hd⟩) rfl
  intro c hc hrec
  obtain ⟨c', hc', hold⟩ := h.holding o p ms ho
  obtain rfl : c = c' := Option.some.inj (hc.symm.trans hc')
  have unset := hold.unset key (.inl hk)
  refine ⟨c, hc, hrec, fun _ _ => rfl, .inr ⟨?_, ?_⟩⟩
  · rw [unset]
    exact hr.mono le
  · intro v hv
    exact absurd (unset.symm.trans hv) (by simp)

/-- A value that holds placeholders is parked. -/
theorem Standing.park (h : R.Standing w s) (ho : w.home o = some (p, ms)) (hj : entryOf? ms key = some j)
    {v : Value} (hr : R.Realizes w (p.1, .key key :: p.2) j (some v)) {i : Nat}
    (hi : s.build.trackedOnes[i]? = some o) (handler : Handler) :
    R.Standing (w.visit o key) (s.acted (.park ⟨i, ⟨key, .any⟩, v, v.placeholders.length, handler⟩)) := by
  have le := w.le_visit o key
  have tracked : (s.build.apply (.park ⟨i, ⟨key, .any⟩, v, v.placeholders.length, handler⟩)).trackedOnes
      = s.build.trackedOnes :=
    (s.build.trackedOnes_apply (by simp)).trans (List.append_nil _)
  have before : R.Parked _ s.build := h.parked.mono le rfl rfl (List.prefix_refl _)
  have new : (s.build.apply (.park ⟨i, ⟨key, .any⟩, v, v.placeholders.length, handler⟩)).Parks o key
      ⟨i, ⟨key, .any⟩, v, v.placeholders.length, handler⟩ := by
    refine ⟨?_, rfl⟩
    rw [tracked]
    exact hi
  refine h.visit ho hj (h.named.congr le rfl rfl rfl rfl rfl) ⟨?_, before.named⟩ (h.lodged.mono rfl fun _ => id) ?_
    (fun _ _ => rfl) ?_ tracked
  · intro l d hl
    rcases List.mem_append.mp (List.mem_of_getElem? hl) with hd | hd
    · obtain ⟨l, hl⟩ := List.mem_iff_getElem?.mp hd
      obtain ⟨hcount, q, name, r, rs, i', hparks, rest⟩ := before.assignment l d hl
      exact ⟨hcount, q, name, r, rs, i', hparks.mono (tracked ▸ List.prefix_refl _), rest⟩
    · obtain rfl : d = ⟨i, ⟨key, .any⟩, v, v.placeholders.length, handler⟩ := by simpa using hd
      exact ⟨rfl, o, key, p, ms, j, new, ho, .inr ⟨rfl, rfl⟩, hj, hr.mono le⟩
  · intro c hc hrec
    refine ⟨c, hc, hrec, fun _ _ => rfl, .inl ⟨s.build.deferred.length, _, ?_, new⟩⟩
    show (s.build.deferred ++ [_])[s.build.deferred.length]? = _
    rw [List.getElem?_append_right (Nat.le_refl _), Nat.sub_self]
    rfl
  · intro l d q name hl hparks
    refine .inr ⟨l, d, ?_, hparks.mono (tracked ▸ List.prefix_refl _)⟩
    show (s.build.deferred ++ [_])[l]? = _
    rw [List.getElem?_append_left (List.getElem?_eq_some_iff.mp hl).1]
    exact hl

/-- The last place of a parked assignment is filled, and it is made. -/
theorem Standing.fill_write (h : R.Standing w s) {i : Nat} {d : Deferred}
    (hd : s.build.deferred[i]? = some (some d)) {place : List Place} {q : Pending}
    (hp : d.value.at? place = some (.pending q)) {v : Value} (hv : w.built q.name = some v)
    (last : ¬ 0 < (d.filled place v).outstanding) (hparks : s.build.Parks o key d)
    (hb : t.build = s.build.apply (.fill i place v))
    (hh : t.heap = (s.heap.set o key (d.filled place v).value).2) : R.Standing w t := by
  have complete := h.named.sane.complete
  have parked := h.parked.fill complete hd hp hv
  obtain ⟨hcount, o', key', r, ms, j, hparks', ho, hk, hj, hr⟩ := h.parked.assignment i d hd
  obtain rfl : o = o' := Option.some.inj (hparks.1.symm.trans hparks'.1)
  obtain rfl : key = key' := congrArg Property.name (hparks.2.symm.trans hparks'.2)
  have done : (d.filled place v).value.placeholders = [] := by
    refine List.eq_nil_of_length_eq_zero ?_
    exact (count_filled complete hcount hp hv).symm.trans (Nat.eq_zero_of_not_pos last)
  rw [← World.visit_of_visited hk]
  refine h.write ho hj (hr.setAt complete rfl hp hv) done ?_ ?_ ?_ hh ?_ (hb ▸ rfl)
  · rw [hb]
    exact h.named.congr (.refl w) rfl rfl rfl rfl rfl
  · rw [hb]
    exact parked
  · rw [hb]
    exact h.lodged.mono rfl fun _ => id
  · intro l e x name hl hx
    by_cases hil : i = l
    · subst hil
      obtain rfl : d = e := by simpa using hd.symm.trans hl
      refine .inl ⟨Option.some.inj (hx.1.symm.trans hparks.1), congrArg Property.name (hx.2.symm.trans hparks.2)⟩
    · refine .inr ⟨l, e, ?_, ?_⟩
      · rw [hb]
        show (s.build.deferred.modify i _)[l]? = _
        rw [List.getElem?_modify_ne _ _ hil, hl]
      · rw [hb]
        exact hx

end PlainRoot

end ObjectGraph
