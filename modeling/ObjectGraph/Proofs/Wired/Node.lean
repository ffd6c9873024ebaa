import ObjectGraph.Proofs.Wired.Serve

/-!
# `Proofs.Wired.Node` — building nodes in a world

Building a node of plain data leads from a session that stands in a world to one that stands in a later
world, and what it gives stands for the node's data there. While a list or a map is built, or a record is
configured, no name is building whose chain of references ends in nothing or in a scalar (`Clear`): so
whoever meets a name that is building may wait for it, and will not wait for nothing.

How many steps that takes is bounded by how deep the data is and by how many names have no state
(`cost`): a reference goes on into another entry only if its name has none yet.

Contents:
* `Node`, `Clear`, `Open`, `Ready`;
* `cost`, `Builds`;
* `buildValue_wires`, `buildEntry_wires`, `buildItems_wires`; `Filled`, `buildEntries_wires`;
* `configureKeys_wires`, `configureAt_wires`;
* `buildNode_wires`.
-/

namespace ObjectGraph

open Container (classKey andClassKey typeKey factoryKey isDirective propertyName)
open Json (classOf? entryOf?)
open Relation (TransGen)
open Run (After Quiet)

/-- What is tracked stays where it is. -/
theorem Settles.trackedOnes_getElem? {pre post : Burden} {s t : Session} (h : Settles pre post s t) {i : Nat}
    {o : ObjectId} (hi : s.build.trackedOnes[i]? = some o) : t.build.trackedOnes[i]? = some o :=
  getElem?_of_isPrefix h.tracked hi

/-- The parts of a vacant node are vacant. -/
theorem World.Vacant.part {w : World} {s : Session} {h : Home} (hv : w.Vacant s h) (step : Place) :
    w.Vacant s (h.1, step :: h.2) :=
  ⟨hv.begun, fun o p ms hp below => hv.vacant o p ms hp (below.trans (.part h step))⟩

namespace PlainRoot

variable {k : Container} {R : PlainRoot k} {m : Machine} {hand : Option ObjectId} {site : Option Home}
variable {w w' : World} {s t : Session}
variable {c : Configuration} {j : Json} {key n : String}

/-! ## Where building may go on -/

/-- Plain data that mentions only names that a pass gets to. -/
structure Fit (R : PlainRoot k) (j : Json) : Prop where
  plain : Json.Plain k.types j
  reached : ∀ n, j.Mentions k.types n → R.Reached n

/-- A configuration that is a node of the root, with its data. -/
structure Node (R : PlainRoot k) (c : Configuration) (j : Json) : Prop where
  data : c.data = j
  handler : c.handler = R.root.handler

theorem Node.child {d : Json} (hc : R.Node c d) (hj : R.Fit j) : R.Node (c.child j) j :=
  ⟨hj.plain.data_child c, hc.handler⟩

theorem Fit.item {items : List Json} (h : R.Fit (.array items)) (hj : j ∈ items) : R.Fit j where
  plain := by
    cases h.plain with
    | array _ hi => exact hi j hj
  reached n hn := h.reached n (.item hj hn)

/-- The entries of a map fit, unless its class is unknown. -/
theorem Fit.entry {ms : List (String × Json)} (h : R.Fit (.object ms))
    (hc : ∀ c, classOf? ms = some c → k.types.constructor? c ≠ none) (hj : entryOf? ms key = some j) : R.Fit j :=
  ⟨h.plain.of_entryOf? hj, fun n hn => h.reached n (.entry hc hj hn)⟩

/-- No name is building whose chain ends in nothing or in a scalar. -/
def Clear (R : PlainRoot k) (s : Session) : Prop :=
  ∀ n ws, R.Flat n → s.build.stateOf? n ≠ some (.building ws)

/-- A name that is building and whose chain ends in nothing or in a scalar leads to the name at hand. -/
def Open (R : PlainRoot k) (n : String) (s : Session) : Prop :=
  ∀ d ws, R.Flat d → s.build.stateOf? d = some (.building ws) → TransGen (Link R.members) d n

/-- Some data may be built. -/
structure Ready (R : PlainRoot k) (j : Json) (s : Session) : Prop where
  reference : ∀ str n, j = .string str → Refers str n → R.Open n s
  node : j.isContainer = true → Nothing k.types (some j) ∨ R.Clear s

theorem Clear.ready (h : R.Clear s) (j : Json) : R.Ready j s :=
  ⟨fun _ _ _ _ d ws hd hs => absurd hs (h d ws hd), fun _ => .inr h⟩

theorem Clear.advance (h : R.Clear s) (ha : R.Advance hand site w s w' t) : R.Clear t := by
  intro n ws hn hs
  obtain ⟨ws', hs'⟩ := ha.calm n ws hn hs
  exact h n ws' hn hs'

theorem Clear.idle (h : R.Clear s) (hi : Idle s t) : R.Clear t := by
  intro n ws hn hs
  refine h n ws hn ?_
  rw [Build.stateOf?, ← hi.names]
  exact hs

theorem Open.quiet (h : R.Open n s) (hq : Quiet s t) : R.Open n t := by
  intro d ws hd hs
  rw [hq.build] at hs
  exact h d ws hd hs

/-- A session that stands in a later world, of which something holds. -/
def Leads (R : PlainRoot k) (hand : Option ObjectId) (site : Option Home) (w : World) (s : Session)
    (P : World → Prop) (t : Session) : Prop :=
  ∃ w', R.Advance hand site w s w' t ∧ R.Standing w' t ∧ P w'

namespace Leads

variable {P Q : World → Prop} {u : Session}

theorem idle (h : R.Leads hand site w s P t) (hi : Idle t u) : R.Leads hand site w s P u := by
  obtain ⟨w', hadv, hs, hp⟩ := h
  exact ⟨w', hadv.trans (.idle hi), hs.idle hi, hp⟩

/-- From a later world it goes on to later ones. -/
theorem after (h : R.Advance hand site w s w' t) (h' : R.Leads hand site w' t P u)
    (hp : ∀ w'', w' ≤ w'' → P w'' → Q w'') : R.Leads hand site w s Q u := by
  obtain ⟨w'', hadv, hs, hq⟩ := h'
  exact ⟨w'', h.trans hadv, hs, hp w'' hadv.le hq⟩

end Leads

/-- What was made at a part was made at the node. -/
theorem part_site (h : Home) (step : Place) : ∀ q ∈ some (h.1, step :: h.2), ∃ r ∈ some h, Below q r := by
  rintro q ⟨⟩
  exact ⟨h, rfl, .part h step⟩

/-- What is made at one part leaves the others vacant. -/
theorem apart_of_ne {h : Home} {step step' : Place} (hne : step ≠ step') :
    ∀ q ∈ some (h.1, step :: h.2), ∀ r, Below r q → ¬ Below r (h.1, step' :: h.2) := by
  rintro q ⟨⟩ r hr hr'
  exact hne (Below.part_unique hr hr')

/-- A node of the root, with its data. -/
abbrev At (R : PlainRoot k) (h : Home) (j : Json) : Prop := nodeAt? k.types R.members h.1 h.2 = some j

theorem At.item {h : Home} {items : List Json} (hat : R.At h (.array items)) {i : Nat} (hj : items[i]? = some j) :
    R.At (h.1, .index i :: h.2) j := by
  show (nodeAt? k.types R.members h.1 h.2).bind _ = some j
  rw [hat]
  exact hj

theorem At.entry {h : Home} {ms : List (String × Json)} (hat : R.At h (.object ms))
    (known : ∀ c, classOf? ms = some c → k.types.constructor? c ≠ none) (hj : entryOf? ms key = some j) :
    R.At (h.1, .key key :: h.2) j := by
  show (nodeAt? k.types R.members h.1 h.2).bind _ = some j
  rw [hat]
  exact (Json.part?_key known key).trans hj

/-! ## How long building goes on -/

/-- How many names have no state. -/
def room (R : PlainRoot k) (s : Session) : Nat := R.members.countP fun e => (s.build.stateOf? e.1).isNone

/-- How many steps it takes at most to get the value of a name. -/
def cost (R : PlainRoot k) (s : Session) : Nat :=
  R.room s * ((Json.object R.members).depth + 2) + R.members.length + 1

theorem cost_anti (h : R.Advance hand site w s w' t) : R.cost t ≤ R.cost s := by
  have rooms : R.room t ≤ R.room s := by
    refine List.countP_mono_left fun e _ he => ?_
    cases hs : s.build.stateOf? e.1 with
    | none => rfl
    | some st =>
        have kept := h.kept e.1 (by rw [hs]; rfl)
        rw [Option.isNone_iff_eq_none] at he
        rw [he] at kept
        exact absurd kept (by simp)
  have more := Nat.mul_le_mul_right ((Json.object R.members).depth + 2) rooms
  unfold cost
  omega

theorem cost_quiet (h : Quiet s t) : R.cost t = R.cost s := by
  unfold cost room
  rw [h.build]

theorem lt_cost (h : m.steps ≤ R.unfinished w) : m.steps < R.cost s := by
  have less := Nat.le_trans h (unfinished_le_length w)
  unfold cost
  omega

/-- What the operations go on into leads to a later world, and gives what stands for the data there. -/
structure Builds (R : PlainRoot k) (m : Machine) : Prop where
  portal : ∀ hops n w s, IsName n → R.Reached n → s.Bears .nothing → R.Standing w s → R.Open n s →
    After (m.portal .named hops (.simple "named" n) []) s
      (fun o => R.Leads none none w s fun w' => ∀ h str, Refers str n → R.Realizes w' h (.string str) o.toOption.join)
      fun _ => m.steps < R.cost s
  buildNode : ∀ hops c j h context w s, R.Node c j → R.Fit j → R.At h j → j.isContainer = true →
    s.Bears .nothing → R.Standing w s → w.Vacant s h → Nothing k.types (some j) ∨ R.Clear s →
    After (m.buildNode hops c .any none context) s
      (fun r => R.Leads none (some h) w s fun w' => R.Realizes w' h j r.toOption.join)
      fun _ => m.steps < R.cost s + j.depth

/-! ## Values -/

/-- The value at a key stands for what the node has there. -/
theorem buildValue_wires (hm : R.Builds m) (hops : Nat) {d : Json} (hc : R.Node c d) (hk : IsName key)
    (hj : d.child? key = some j) (hp : R.Fit j) {h : Home} (hat : R.At h j) (context : String)
    (hb : s.Bears .nothing) (hs : R.Standing w s) (hvacant : w.Vacant s h) (hr : R.Ready j s) :
    After (k.buildValue m hops c key .any none context) s
      (fun r => R.Leads none (some h) w s fun w' => R.Realizes w' h j r.toOption.join)
      fun _ => m.steps < R.cost s + j.depth := by
  rw [← hc.data] at hj
  have scalar : Scalar j → After (k.buildValue m hops c key .any none context) s
      (fun r => R.Leads none (some h) w s fun w' => R.Realizes w' h j r.toOption.join)
      fun _ => m.steps < R.cost s + j.depth := by
    intro hscalar
    rw [Container.buildValue_scalar hk hj hscalar.1 hscalar.2]
    exact ⟨w, .refl w s, hs, .scalar hscalar⟩
  have container : j.isContainer = true → After (k.buildValue m hops c key .any none context) s
      (fun r => R.Leads none (some h) w s fun w' => R.Realizes w' h j r.toOption.join)
      fun _ => m.steps < R.cost s + j.depth := by
    intro hcontainer
    rw [Container.buildValue_container hk hj hcontainer]
    exact hm.buildNode hops _ j h context w s (hc.child hp) hp hat hcontainer hb hs hvacant (hr.node hcontainer)
  cases hp.plain with
  | null => exact scalar ⟨rfl, fun _ he => absurd he (by simp)⟩
  | bool b => exact scalar ⟨rfl, fun _ he => absurd he (by simp)⟩
  | number x => exact scalar ⟨rfl, fun _ he => absurd he (by simp)⟩
  | text hu => exact scalar ⟨rfl, fun _ he => Json.string.inj he ▸ hu⟩
  | @reference str n hrefers =>
      have named : c.handler.schemes.lookup "named" = some (.container .named) := by
        rw [hc.handler]
        exact R.named
      refine Container.buildValue_reference
        (P := fun v => R.Leads none (some h) w s fun w' => R.Realizes w' h (.string str) v) named hk hj hrefers none
        context (fun v t u hq ht => ht.idle (.of_quiet hq)) ?_
      intro t hops' hq
      refine (hm.portal hops' n w t hrefers.1 (hp.reached n (.reference hrefers)) (hb.quiet hq) (hs.idle (.of_quiet hq))
        ((hr.reference str n rfl hrefers).quiet hq)).mono (fun o u hu => ?_) fun _ hcut => ?_
      · obtain ⟨w', hadv, hs', hv⟩ := hu
        have value := hv h str hrefers
        have solid : ∀ v, o = .ok (some v) → v.Solid := by
          rintro v rfl
          exact value.solid hs'.named.sane rfl
        refine ⟨fun r he => (solid _ he).2 r rfl, fun c he => (solid _ he).1 c rfl, w', ?_, hs', value⟩
        exact Advance.trans (.idle (.of_quiet hq)) hadv.anywhere
      · rw [cost_quiet hq] at hcut
        exact hcut
  | array short hi => exact container rfl
  | object nodup keys hint hmembers => exact container rfl

/-- An entry of a list or a map stands for what the node has there. -/
theorem buildEntry_wires (hm : R.Builds m) (hops : Nat) {d : Json} (hc : R.Node c d) (hk : IsName key)
    (hj : d.child? key = some j) (hp : R.Fit j) {h : Home} (hat : R.At h j) (context : String)
    (hb : s.Bears .nothing) (hs : R.Standing w s) (hvacant : w.Vacant s h) (clear : R.Clear s) :
    After (k.buildEntry m hops c key context) s
      (fun v => R.Leads none (some h) w s fun w' => R.Realizes w' h j v)
      fun _ => m.steps + 1 < R.cost s + d.depth := by
  unfold Container.buildEntry
  rw [Run.after_bind]
  refine (buildValue_wires hm hops hc hk hj hp hat context hb hs hvacant (clear.ready j)).mono (fun r t ht => ?_)
    fun _ hcut => ?_
  · cases r with
    | ok v => exact ht
    | error e =>
        show After (Run.report _ _ _ _ >>= fun _ => pure none) t _ _
        rw [Run.after_bind, Run.after_report, Run.after_pure]
        exact ht.idle (.of_quiet ⟨rfl, rfl, rfl⟩)
  · have less := Json.depth_lt_of_child? hj
    omega

/-! ## Lists and maps -/

/-- The items of a list from some position on. -/
theorem buildItems_wires (hm : R.Builds m) (ha : m.Accounts) (hops : Nat) {items rest : List Json}
    (hc : R.Node c (.array items)) (hp : R.Fit (.array items)) {h : Home} (hat : R.At h (.array items))
    (context : String) {i : Nat} (hrest : items.drop i = rest) (hb : s.Bears .nothing) (hs : R.Standing w s)
    (hvacant : ∀ l, i ≤ l → w.Vacant s (h.1, .index l :: h.2)) (clear : R.Clear s) :
    After (k.buildItems m hops c context ((List.range' i rest.length).map Decimal.natText)) s
      (fun vs => R.Leads none (some h) w s fun w' => ∃ f : Nat → Option Value, vs.length = rest.length ∧
        ∀ l j, rest[l]? = some j →
          R.Realizes w' (h.1, .index (i + l) :: h.2) j (f l) ∧ vs[l]? = some ((f l).getD .null))
      fun _ => m.steps + 1 < R.cost s + (Json.array items).depth := by
  induction rest generalizing i s w with
  | nil =>
      refine ⟨w, .refl w s, hs, fun _ => none, rfl, fun l j hl => ?_⟩
      exact absurd hl (by simp)
  | cons j rest ih =>
      have item : items[i]? = some j := by
        rw [← Nat.add_zero i, ← List.getElem?_drop, hrest]
        rfl
      have child := hp.plain.child?_natText item
      have later : items.drop (i + 1) = rest := by
        rw [← List.drop_drop, hrest]
        rfl
      have name := Json.isName_natText i
      show After (k.buildEntry m hops c (Decimal.natText i) (Container.entryContext context (Decimal.natText i))
        >>= fun v => k.buildItems m hops c context ((List.range' (i + 1) rest.length).map Decimal.natText)
          >>= fun vs => pure (v.getD .null :: vs)) s _ _
      -- as any key: the digits would be evaluated wherever the run is looked at
      generalize Decimal.natText i = key at child name ⊢
      have entry := buildEntry_wires hm hops hc name child (hp.item (List.mem_of_getElem? item)) (hat.item item)
        (Container.entryContext context key) hb hs (hvacant i (Nat.le_refl i)) clear
      have carries := Container.buildEntry_carries (k := k) ha.within hops c key (Container.entryContext context key)
      rw [Run.after_bind]
      refine (entry.bears carries hb).mono (fun v t ht => ?_) fun _ => id
      obtain ⟨hb', w', hadv, hs', hv⟩ := ht
      have others : ∀ l, i + 1 ≤ l → w'.Vacant t (h.1, .index l :: h.2) := by
        intro l hl
        refine hadv.vacant (hvacant l (Nat.le_of_succ_le hl)) (apart_of_ne ?_)
        exact fun he => absurd hl (Place.index.inj he ▸ Nat.not_succ_le_self i)
      rw [Run.after_bind]
      refine (ih later hb' hs' others (clear.advance hadv)).mono (fun vs u hu => ?_) fun _ hcut => ?_
      · refine Leads.after (hadv.widen (part_site h _)) hu ?_
        rintro w'' hle ⟨f, hlength, hf⟩
        refine ⟨fun l => l.casesOn v f, congrArg Nat.succ hlength, fun l j' hl => ?_⟩
        cases l with
        | zero =>
            obtain rfl : j = j' := by simpa using hl
            exact ⟨hv.mono hle, rfl⟩
        | succ l =>
            have here := hf l j' (by simpa using hl)
            rw [Nat.add_right_comm, Nat.add_assoc] at here
            exact ⟨here.1, here.2⟩
      · have less := cost_anti hadv
        omega

/-- A table holds what stands for the entries of a map, but for those whose keys are left. -/
structure Filled (R : PlainRoot k) (w : World) (h : Home) (ms : List (String × Json)) (keys : List String)
    (table : List (String × Value)) : Prop where
  done : ∀ key j, entryOf? ms key = some j → key ∉ keys →
    R.Realizes w (h.1, .key key :: h.2) j (table.lookup key)
  left : ∀ key, entryOf? ms key = none ∨ key ∈ keys → table.lookup key = none
  ascending : Table.Ascending table

namespace Filled

variable {h : Home} {ms : List (String × Json)} {key : String} {keys : List String}
variable {table table' : List (String × Value)}

/-- With all keys left nothing is filled yet. -/
theorem start (R : PlainRoot k) (w : World) (h : Home) (ms : List (String × Json)) :
    R.Filled w h ms (Table.keys ms) [] where
  done key j hj hk := by
    have found : ms.lookup key = some j := by
      unfold entryOf? at hj
      split at hj
      · exact absurd hj (by simp)
      · exact hj
    exact absurd (List.mem_map_of_mem (Table.mem_of_lookup found)) hk
  left _ _ := rfl
  ascending := List.Pairwise.nil

/-- A key that is no entry is passed over. -/
theorem pass (h' : R.Filled w h ms (key :: keys) table) (hk : entryOf? ms key = none) :
    R.Filled w h ms keys table where
  done l j hj hl := by
    refine h'.done l j hj fun hm => ?_
    rcases List.mem_cons.mp hm with rfl | hm
    · exact absurd (hk.symm.trans hj) (by simp)
    · exact hl hm
  left l hl := h'.left l (hl.imp id (List.mem_cons_of_mem key))
  ascending := h'.ascending

/-- The next key is filled: the table has there what stands for the entry, and is as before elsewhere. -/
theorem next (h' : R.Filled w h ms (key :: keys) table) (hnew : key ∉ keys) (hj : entryOf? ms key = some j)
    (hw : w ≤ w') (hr : R.Realizes w' (h.1, .key key :: h.2) j (table'.lookup key))
    (same : ∀ l, l ≠ key → table'.lookup l = table.lookup l) (ascending : Table.Ascending table') :
    R.Filled w' h ms keys table' where
  done l i hi hl := by
    by_cases hlk : l = key
    · subst hlk
      obtain rfl : j = i := Option.some.inj (hj.symm.trans hi)
      exact hr
    · rw [same l hlk]
      exact (h'.done l i hi fun hm => hl ((List.mem_cons.mp hm).resolve_left hlk)).mono hw
  left l hl := by
    have other : l ≠ key := by
      rintro rfl
      rcases hl with hl | hl
      · exact absurd (hj.symm.trans hl) (by simp)
      · exact hnew hl
    rw [same l other]
    exact h'.left l (hl.imp id (List.mem_cons_of_mem key))
  ascending := ascending

end Filled

/-- The entries of a map, after those that are done. -/
theorem buildEntries_wires (hm : R.Builds m) (ha : m.Accounts) (hops : Nat) {ms : List (String × Json)}
    (hc : R.Node c (.object ms)) (hp : R.Fit (.object ms)) (hnone : classOf? ms = none) {h : Home}
    (hat : R.At h (.object ms)) (context : String) {keys : List String} {table : List (String × Value)}
    (hkeys : ∀ key ∈ keys, ∃ j, ms.lookup key = some j) (hn : keys.Nodup) (hb : s.Bears .nothing)
    (hs : R.Standing w s) (hvacant : ∀ key ∈ keys, w.Vacant s (h.1, .key key :: h.2)) (clear : R.Clear s)
    (filled : R.Filled w h ms keys table) :
    After (k.buildEntries m hops c context table keys) s
      (fun es => R.Leads none (some h) w s fun w' => R.Filled w' h ms [] es)
      fun _ => m.steps + 1 < R.cost s + (Json.object ms).depth := by
  induction keys generalizing table s w with
  | nil => exact ⟨w, .refl w s, hs, filled⟩
  | cons key keys ih =>
      obtain ⟨j, hj⟩ := hkeys key (by simp)
      obtain ⟨hnew, hn⟩ := List.nodup_cons.mp hn
      have hkeys := fun key hm => hkeys key (List.mem_cons_of_mem _ hm)
      have hvacants := fun key hm => hvacant key (List.mem_cons_of_mem _ hm)
      have plainKey : PlainKey key := hp.plain.plainKey (Table.mem_of_lookup hj)
      by_cases hclass : key = classKey
      -- the class is no entry
      · unfold Container.buildEntries
        rw [if_pos (hclass ▸ PlainKey.isDirective_classKey)]
        exact ih hkeys hn hb hs hvacants clear (filled.pass (if_pos hclass))
      · have entry : entryOf? ms key = some j := (if_neg hclass).trans hj
        have known : ∀ c, classOf? ms = some c → k.types.constructor? c ≠ none := known_of_unclassed hnone
        have built := buildEntry_wires hm hops hc plainKey.isName hj (hp.entry known entry) (hat.entry known entry)
          (Container.entryContext context key) hb hs (hvacant key List.mem_cons_self) clear
        have carries := Container.buildEntry_carries (k := k) ha.within hops c key
          (Container.entryContext context key)
        unfold Container.buildEntries
        rw [if_neg (by rw [plainKey.isDirective_eq_false hclass]; exact Bool.false_ne_true)]
        dsimp only
        rw [plainKey.propertyName_eq, Run.after_bind]
        refine (built.bears carries hb).mono (fun v t ht => ?_) fun _ => id
        obtain ⟨hb', w', hadv, hs', hv⟩ := ht
        have less := cost_anti hadv
        have others : ∀ l ∈ keys, w'.Vacant t (h.1, .key l :: h.2) := by
          intro l hl
          refine hadv.vacant (hvacants l hl) (apart_of_ne fun he => ?_)
          exact hnew (Place.key.inj he ▸ hl)
        -- whatever was found for the key, the rest is filled in from there
        have onward : ∀ table', R.Filled w' h ms keys table' →
            After (k.buildEntries m hops c context table' keys) t
              (fun es => R.Leads none (some h) w s fun w' => R.Filled w' h ms [] es)
              fun _ => m.steps + 1 < R.cost s + (Json.object ms).depth := by
          intro table' filled'
          refine (ih hkeys hn hb' hs' others (clear.advance hadv) filled').mono (fun es u hu => ?_) fun _ hcut => ?_
          · exact Leads.after (hadv.widen (part_site h _)) hu fun _ _ => id
          · omega
        cases v with
        | none =>
            have lacks : table.lookup key = none := filled.left key (.inr List.mem_cons_self)
            exact onward table (filled.next hnew entry hadv.le (lacks ▸ hv) (fun _ _ => rfl) filled.ascending)
        | some v =>
            refine onward (Table.insert key v table) (filled.next hnew entry hadv.le ?_ (fun l hl => ?_)
              (Table.ascending_insert key v filled.ascending))
            · rw [Table.lookup_insert, if_pos rfl]
              exact hv
            · rw [Table.lookup_insert, if_neg hl]

/-- A list, or a map that names no class. -/
theorem buildCollection_wires (hm : R.Builds m) (ha : m.Accounts) (hops : Nat) (hc : R.Node c j)
    (hp : R.Fit j) (hj : j.isContainer = true) (hclass : ∀ ms, j = .object ms → classOf? ms = none) {h : Home}
    (hat : R.At h j) (context : String) (hb : s.Bears .nothing) (hs : R.Standing w s) (hvacant : w.Vacant s h)
    (clear : R.Clear s) :
    After (k.buildCollection m hops c context) s
      (fun v => R.Leads none (some h) w s fun w' => R.Realizes w' h j (some v))
      fun _ => m.steps + 1 < R.cost s + j.depth := by
  unfold Container.buildCollection Configuration.isList Configuration.keys
  rw [hc.data]
  cases j with
  | array items =>
      show After (k.buildItems m hops c context ((List.range items.length).map Decimal.natText) >>= fun vs =>
        pure (Value.list vs)) s _ _
      rw [Run.after_bind, List.range_eq_range']
      refine (buildItems_wires hm ha hops hc hp hat context List.drop_zero hb hs (fun l _ => hvacant.part _)
        clear).mono (fun vs t ht => ?_) fun _ => id
      refine Leads.after (.refl w s) ht ?_
      rintro w' - ⟨f, hlength, hf⟩
      refine .list f hlength (fun i j hi => ?_) fun i j hi => (hf i j hi).2
      have item := (hf i j hi).1
      rwa [Nat.zero_add] at item
  | object ms =>
      show After (k.buildEntries m hops c context [] (Table.keys ms) >>= fun es => pure (Value.map es)) s _ _
      rw [Run.after_bind]
      have there : ∀ key ∈ Table.keys ms, ∃ j, ms.lookup key = some j := by
        intro key hk
        obtain ⟨⟨_, j⟩, hm, rfl⟩ := List.mem_map.mp hk
        exact ⟨j, Table.lookup_of_mem hp.plain.nodup hm⟩
      refine (buildEntries_wires hm ha hops hc hp (hclass ms rfl) hat context there hp.plain.nodup hb hs
        (fun key _ => hvacant.part _) clear (.start R w h ms)).mono (fun es t ht => ?_) fun _ => id
      refine Leads.after (.refl w s) ht fun w' _ filled => ?_
      exact .map (hclass ms rfl) (fun key j hj => filled.done key j hj List.not_mem_nil)
        (fun key hk => filled.left key (.inl hk)) filled.ascending
  | _ => exact absurd hj Bool.false_ne_true

/-! ## Records -/

variable {o : ObjectId} {p : Home} {ms : List (String × Json)} {u : Session}

/-- A record has every property, and the one that has not been visited has no value. -/
theorem Standing.property (hs : R.Standing w s) (ho : w.home o = some (p, ms)) (hv : ¬ w.visited o key) :
    s.heap.property? o key = some ⟨key, .any⟩ ∧ s.heap.get? o key = none ∧ o < s.heap.length := by
  obtain ⟨c, hc, hold⟩ := hs.holding o p ms ho
  refine ⟨?_, ?_, (List.getElem?_eq_some_iff.mp hc).1⟩
  · unfold Heap.property?
    rw [hc]
    show c.ofClass.property? c.fields key = _
    rw [hold.record]
    rfl
  · unfold Heap.get?
    rw [hc]
    show c.ofClass.get? c.fields key = _
    rw [hold.record]
    exact hold.unset key (.inl hv)

/-- A key of a record's node is seen to: its property has been visited. -/
theorem configureKey_wires (hm : R.Builds m) (hd : R.Delivers m) (ha : m.Accounts) (hops : Nat) {i : Nat}
    (hi : s.build.trackedOnes[i]? = some o) (hc : R.Node c (.object ms)) (hp : R.Fit (.object ms))
    (known : ∀ c, classOf? ms = some c → k.types.constructor? c ≠ none) (context : String)
    (hj : entryOf? ms key = some j) (hb : s.Bears .nothing) (hs : R.Standing w s)
    (hvacant : w.Vacant s (p.1, .key key :: p.2)) (clear : R.Clear s) (ho : w.home o = some (p, ms))
    (hv : ¬ w.visited o key) :
    After (k.configureKey m hops i o c context key) s
      (fun _ => R.Leads (some o) (some (p.1, .key key :: p.2)) w s fun w' =>
        ∀ l, w'.visited o l ↔ w.visited o l ∨ l = key)
      fun _ => m.steps + 1 < R.cost s + (Json.object ms).depth := by
  have other : key ≠ classKey := by
    rintro rfl
    exact absurd hj (by simp [entryOf?])
  have found : ms.lookup key = some j := (if_neg other).symm.trans hj
  have plainKey : PlainKey key := hp.plain.plainKey (Table.mem_of_lookup found)
  have deep := Json.depth_lt_of_child? (j := .object ms) found
  obtain ⟨property, unset, inside⟩ := hs.property ho hv
  have existing : Container.existingValue s.heap o ⟨key, .any⟩ = none := unset
  have hat : R.At p (.object ms) := (hs.lodged.node o p ms ho).1
  have value := buildValue_wires hm hops hc plainKey.isName found (hp.entry known hj) (hat.entry known hj)
    (Container.entryContext context key) hb hs hvacant (clear.ready j)
  have carries := Container.buildValue_carries (k := k) ha.within hops c key .any none
    (Container.entryContext context key)
  unfold Container.configureKey
  rw [Run.after_bind, Run.after_heap, plainKey.propertyName_eq, property]
  dsimp only
  rw [existing, Run.after_bind]
  refine (value.settles carries).mono (fun r t ht => ?_) fun _ hcut => by omega
  obtain ⟨settles, w', hadv, hs', hr⟩ := ht
  have same : w'.visited o = w.visited o := hadv.visited o inside (by simp)
  have home := hadv.le.home o _ ho
  -- nothing is built for the key: the property stays unset
  have skipped : R.Realizes w' (p.1, .key key :: p.2) j none → ∀ u, Quiet t u →
      R.Leads (some o) (some (p.1, .key key :: p.2)) w s
        (fun w' => ∀ l, w'.visited o l ↔ w.visited o l ∨ l = key) u := by
    intro hr u hq
    have skip : R.Standing (w'.visit o key) t := hs'.skip home hj (same ▸ hv) hr
    have visit : R.Advance (some o) none w' t (w'.visit o key) u := by
      refine .visit w' o key ?_ ?_
      · rw [hq.build]
      · rw [hq.heap]
    refine ⟨w'.visit o key, hadv.weaken.trans visit.anywhere, skip.idle (.of_quiet hq), fun l => ?_⟩
    rw [← same]
    simp [World.visit]
  rcases r with e | _ | v
  · exact skipped hr _ ⟨rfl, rfl, rfl⟩
  · exact skipped hr _ ⟨rfl, rfl, rfl⟩
  · have tracked : t.build.trackedOnes[i]? = some o := settles.trackedOnes_getElem? hi
    refine (injectAt_wires hd ha hops tracked (settles.bears hb) hs' home hj hr c.handler).mono
      (fun _ u hu => ?_) fun _ hcut => ?_
    · obtain ⟨w'', hadv', hs'', hw''⟩ := hu
      refine ⟨w'', hadv.weaken.trans hadv'.anywhere, hs'', fun l => ?_⟩
      rw [hw'' l, same]
    · have enough := lt_cost (s := s) hcut
      omega

theorem configureKeys_wires (hm : R.Builds m) (hd : R.Delivers m) (ha : m.Accounts) (hops : Nat) {i : Nat}
    (hc : R.Node c (.object ms)) (hp : R.Fit (.object ms))
    (known : ∀ c, classOf? ms = some c → k.types.constructor? c ≠ none) (context : String) {keys : List String}
    (hkeys : ∀ key ∈ keys, ∃ j, entryOf? ms key = some j) (hn : keys.Nodup)
    (hi : s.build.trackedOnes[i]? = some o) (hb : s.Bears .nothing) (hs : R.Standing w s)
    (hvacant : ∀ key ∈ keys, w.Vacant s (p.1, .key key :: p.2)) (clear : R.Clear s)
    (ho : w.home o = some (p, ms)) (hv : ∀ key ∈ keys, ¬ w.visited o key) :
    After (k.configureKeys m hops i o c context keys) s
      (fun _ => R.Leads (some o) (some p) w s fun w' => ∀ key ∈ keys, w'.visited o key)
      fun _ => m.steps + 1 < R.cost s + (Json.object ms).depth := by
  induction keys generalizing s w with
  | nil => exact ⟨w, .refl w s, hs, fun _ hk => absurd hk (by simp)⟩
  | cons key keys ih =>
      obtain ⟨j, hj⟩ := hkeys key (by simp)
      obtain ⟨hnew, hn⟩ := List.nodup_cons.mp hn
      have reach : Idle s (s.acted (.reach i (propertyName key))) := .acted trivial
      have reached := Settles.bears (Container.note_within (.inl ⟨i, propertyName key, rfl⟩) s) hb
      have first := configureKey_wires hm hd ha hops (s := s.acted (.reach i (propertyName key))) hi hc hp known
        context hj reached (hs.idle reach) (reach.vacant (hvacant key List.mem_cons_self)) (clear.idle reach) ho
        (hv key (by simp))
      have carries := Container.configureKey_within (k := k) ha hops i o c context key
      show After (Run.act (.reach i (propertyName key)) >>= fun _ => k.configureKey m hops i o c context key >>=
        fun _ => Run.act (.visit i (propertyName key)) >>= fun _ => k.configureKeys m hops i o c context keys) s _ _
      rw [Run.after_bind, Run.after_act, Run.after_bind]
      refine ((carries _).and first).mono (fun _ t ht => ?_) fun _ hcut => hcut.2
      obtain ⟨keeps, w', hadv, hs', hw'⟩ := ht
      have settles : Settles .nothing .nothing (s.acted (.reach i (propertyName key))) t :=
        keeps ((Container.tracked_iff s.build i).mpr (List.getElem?_eq_some_iff.mp hi).1)
      have visit : Idle t (t.acted (.visit i (propertyName key))) := .acted trivial
      have visited := Settles.bears (Container.note_within (.inr (.inl ⟨i, propertyName key, rfl⟩)) t)
        (settles.bears reached)
      have tracked : t.build.trackedOnes[i]? = some o := settles.trackedOnes_getElem? hi
      have onward : R.Advance (some o) (some (p.1, .key key :: p.2)) w s w' (t.acted (.visit i (propertyName key))) :=
        (Advance.trans (.idle reach) hadv).trans (.idle visit)
      have others : ∀ l ∈ keys, w'.Vacant (t.acted (.visit i (propertyName key))) (p.1, .key l :: p.2) := by
        intro l hl
        refine onward.vacant (hvacant l (List.mem_cons_of_mem _ hl)) (apart_of_ne fun he => ?_)
        exact hnew (Place.key.inj he ▸ hl)
      rw [Run.after_bind, Run.after_act]
      refine (ih (s := t.acted (.visit i (propertyName key))) (fun l hl => hkeys l (List.mem_cons_of_mem _ hl)) hn
        tracked visited (hs'.idle visit) others (clear.advance onward) (hadv.le.home o _ ho) ?_).mono
        (fun _ u hu => ?_) fun _ hcut => ?_
      · intro l hl hl'
        rcases (hw' l).mp hl' with hl' | rfl
        · exact hv l (List.mem_cons_of_mem _ hl) hl'
        · exact hnew hl
      · refine Leads.after (onward.widen (part_site p _)) hu fun w'' hle hw'' l hl => ?_
        rcases List.mem_cons.mp hl with rfl | hl
        · exact hle.visited o l ((hw' l).mpr (.inr rfl))
        · exact hw'' l hl
      · have less := cost_anti onward
        omega

/-- A record that was made for a node is configured: all its properties have been visited. -/
theorem configureAt_wires (hm : R.Builds m) (hd : R.Delivers m) (ha : m.Accounts) (hops : Nat)
    (hc : R.Node c (.object ms)) (hp : R.Fit (.object ms))
    (known : ∀ c, classOf? ms = some c → k.types.constructor? c ≠ none) (context : String)
    (hb : s.Bears .nothing) (hs : R.Standing w s) (hvacant : ∀ key, w.Vacant s (p.1, .key key :: p.2))
    (clear : R.Clear s) (ho : w.home o = some (p, ms)) (hv : ∀ key, ¬ w.visited o key) :
    After (k.configureAt m hops o c context) s
      (fun _ => R.Leads (some o) (some p) w s fun w' => ∀ key j, entryOf? ms key = some j → w'.visited o key)
      fun _ => m.steps + 1 < R.cost s + (Json.object ms).depth := by
  have mem : ∀ key, key ∈ Container.entryKeys c ↔ ∃ j, entryOf? ms key = some j :=
    fun key => hp.plain.mem_entryKeys hc.data
  unfold Container.configureAt Container.configureBy
  rw [Run.after_bind]
  have housed : (w.home o).isSome := by rw [ho]; rfl
  refine ((Container.track_after o s).and (@track_wires k R (some o) (some p) w s _ o hs housed)).mono
    (fun i t ht => ?_) fun _ => And.right
  obtain ⟨⟨settles, tracked⟩, hadv, hs'⟩ := ht
  generalize hnames : (Container.entryKeys c).map propertyName = names
  have enter : Idle t (t.acted (.enter i names)) := .acted trivial
  have entered := Settles.bears (Container.note_within (.inr (.inr (.inl ⟨i, names, rfl⟩))) t) (settles.bears hb)
  have onward := hadv.trans (.idle enter)
  have visits := configureKeys_wires hm hd ha hops hc hp known context (fun key hk => (mem key).mp hk)
    (hp.plain.nodup_entryKeys hc.data)
    (s := t.acted (.enter i names)) tracked entered (hs'.idle enter)
    (fun key _ => ⟨onward.kept _ (hvacant key).begun, (hvacant key).vacant⟩) (clear.advance onward) ho
    fun key _ => hv key
  show After (Run.act (.enter i names) >>= fun _ => k.configureKeys m hops i o c context (Container.entryKeys c) >>=
    fun _ => Container.markConfigured i) t _ _
  rw [Run.after_bind, Run.after_act, Run.after_bind]
  refine visits.mono (fun _ u hu => ?_) fun _ hcut => ?_
  · refine (markConfigured_idle i u).mono (fun _ u' hu' => ?_) fun _ => id
    refine Leads.idle (Leads.after onward hu fun w' _ hw' key j hj => ?_) hu'
    exact hw' key ((mem key).mpr ⟨j, hj⟩)
  · have less := cost_anti onward
    omega

/-! ## Nodes -/

/-- A record that has just been made advances only itself. -/
theorem Advance.construct (h : R.Advance (some s.heap.length) (some p) (w.construct s.heap.length p ms) u w' t)
    (ho : w.home s.heap.length = none) (hb : u.build = s.build) (hh : u.heap = s.heap ++ [.fresh .record []]) :
    R.Advance none (some p) w s w' t where
  le := World.Le.trans (World.le_construct ho p ms) h.le
  kept n hn := h.kept n (hb ▸ hn)
  calm n ws hf hs := by
    obtain ⟨ws', hs'⟩ := h.calm n ws hf hs
    exact ⟨ws', hb ▸ hs'⟩
  length := by
    have longer := h.length
    rw [hh, List.length_append] at longer
    exact Nat.le_trans (Nat.le_add_right _ _) longer
  visited q hq _ := by
    have there : q < u.heap.length := by
      rw [hh, List.length_append]
      exact Nat.lt_of_lt_of_le hq (Nat.le_add_right _ _)
    exact h.visited q there fun he => absurd hq (Option.some.inj he ▸ Nat.lt_irrefl _)
  settled q hq := by
    have there : q < u.heap.length := by
      rw [hh, List.length_append]
      exact Nat.lt_of_lt_of_le hq (Nat.le_add_right _ _)
    rw [h.settled q there, World.home_construct, if_neg (Nat.ne_of_lt hq)]
  made q hq hq' := by
    have size : u.heap.length = s.heap.length + 1 := by
      rw [hh, List.length_append]
      rfl
    by_cases new : q = s.heap.length
    · rw [h.settled q (size ▸ new ▸ Nat.lt_succ_self _), World.home_construct, if_pos new]
      rfl
    · exact h.made q (by omega) hq'
  lodged q r ms' hr := by
    rcases h.lodged q r ms' hr with hr | hr | hr
    · rw [World.home_construct] at hr
      split at hr
      · obtain ⟨rfl, -⟩ : p = r ∧ ms = ms' := by simpa using hr
        exact .inr (.inl ⟨p, rfl, .refl p⟩)
      · exact .inl hr
    · exact .inr (.inl hr)
    · exact .inr (.inr (hb ▸ hr))

/-- A map of a known class is built into a record of its own. -/
theorem buildRecord_wires (hm : R.Builds m) (hd : R.Delivers m) (ha : m.Accounts) (hops : Nat)
    (hc : R.Node c (.object ms)) (hp : R.Fit (.object ms)) {name : String} (hclass : classOf? ms = some name)
    (hr : k.types.constructor? name = some .record) {h : Home} (hat : R.At h (.object ms)) (context : String)
    (hb : s.Bears .nothing) (hs : R.Standing w s) (hvacant : w.Vacant s h) (clear : R.Clear s)
    (ht : t = { s with heap := s.heap ++ [.fresh .record []] }) :
    After (k.configureAt m hops s.heap.length c context) t
      (fun _ => R.Leads none (some h) w s fun w' => R.Realizes w' h (.object ms) (some (.object s.heap.length)))
      fun _ => m.steps + 1 < R.cost s + (Json.object ms).depth := by
  have new := hs.home_eq_none (Nat.le_refl _)
  have build : t.build = s.build := by rw [ht]
  have heap : t.heap = s.heap ++ [.fresh .record []] := by rw [ht]
  have home : (w.construct s.heap.length h ms).home s.heap.length = some (h, ms) := if_pos rfl
  have fresh : ∀ key, ¬ (w.construct s.heap.length h ms).visited s.heap.length key := by
    intro key hv
    have there := hs.visited _ key hv
    rw [new] at there
    exact absurd there (by simp)
  have known := known_of_record hclass hr
  have bears : t.Bears .nothing := by
    obtain ⟨l, fs, ns, hl, rest⟩ := hb
    exact ⟨l, fs, ns, hl.trans build.symm, rest⟩
  have cost : R.cost t = R.cost s := by
    unfold PlainRoot.cost room
    rw [build]
  -- the record is for the node itself, and so its parts are still vacant
  have parts : ∀ key, (w.construct s.heap.length h ms).Vacant t (h.1, .key key :: h.2) := by
    refine fun key => ⟨build ▸ hvacant.begun, fun q r ms' hq below => ?_⟩
    rw [World.home_construct] at hq
    split at hq
    · obtain ⟨rfl, -⟩ : h = r ∧ ms = ms' := by simpa using hq
      exact Below.not_part below
    · exact hvacant.vacant q r ms' hq (below.trans (.part h _))
  refine (configureAt_wires hm hd ha hops hc hp known context bears (hs.construct hvacant hat hclass hr build heap)
    parts (fun n ws hn => build ▸ clear n ws hn) home fresh).mono (fun _ u hu => ?_) fun _ hcut => cost ▸ hcut
  obtain ⟨w', hadv, hs', hv⟩ := hu
  exact ⟨w', hadv.construct new build heap, hs', .record hclass hr (hadv.le.home _ _ home) hv⟩

/-- The class of a plain map is one of records or unknown. -/
theorem Fit.plainClass (hp : R.Fit (.object ms)) {name : String} (hclass : classOf? ms = some name) :
    k.types.PlainClass name := by
  unfold classOf? at hclass
  cases hp.plain with
  | object nodup keys hint entries =>
      split at hclass
      next text hl =>
        obtain ⟨text', he, -, plain⟩ := hint _ (Table.mem_of_lookup hl)
        obtain rfl := Json.string.inj he
        exact Option.some.inj hclass ▸ plain
      · exact absurd hclass (by simp)

/-- Where nothing may be building that ends in nothing, it is not unless the class of the data is unknown. -/
theorem clear_of_ready (hr : Nothing k.types (some j) ∨ R.Clear s)
    (known : ∀ ms c, j = .object ms → classOf? ms = some c → k.types.constructor? c ≠ none) : R.Clear s := by
  refine hr.resolve_left ?_
  rintro (h | ⟨ms, c, h, hc, hu⟩)
  · exact absurd h (by simp)
  · exact known ms c (Option.some.inj h) hc hu

/-- What a node builds stands for its data. -/
theorem buildNode_wires (hm : R.Builds m) (hd : R.Delivers m) (ha : m.Accounts) (hops : Nat) (hc : R.Node c j)
    (hp : R.Fit j) {h : Home} (hat : R.At h j) (hj : j.isContainer = true) (context : String) (hb : s.Bears .nothing)
    (hs : R.Standing w s) (hvacant : w.Vacant s h) (hr : Nothing k.types (some j) ∨ R.Clear s) :
    After (k.buildNode m hops c .any none context) s
      (fun r => R.Leads none (some h) w s fun w' => R.Realizes w' h j r.toOption.join)
      fun _ => m.steps + 1 < R.cost s + j.depth := by
  have reads : Configuration.ReadsTexts k.host c.handler := hc.handler ▸ R.reads
  unfold Container.buildNode
  dsimp only
  rw [Run.after_bind]
  refine (hp.plain.normalize_after hj hc.data _ hops m.steps s).mono (fun c' t heq => ?_) fun _ hcut => ?_
  · obtain ⟨hnode, hsession⟩ := heq
    rw [hnode, hsession, if_neg (by decide), Container.readString_hint hp.plain hj hc.data hops (.inr (.inr rfl))]
    show After (k.classHint m hops c context >>= _) s _ _
    rw [Container.classHint_eq hp.plain hj hc.data reads]
    -- what names no class is a list or a map
    have collection : (∀ ms, j = .object ms → classOf? ms = none) →
        After (k.buildCollection m hops c context >>= fun v =>
          (pure (.ok (some v)) : Run (Except BuildError (Option Value)))) s
          (fun r => R.Leads none (some h) w s fun w' => R.Realizes w' h j r.toOption.join)
          fun _ => m.steps + 1 < R.cost s + j.depth := by
      intro hnone
      rw [Run.after_bind]
      refine buildCollection_wires hm ha hops hc hp hj hnone hat context hb hs hvacant ?_
      exact clear_of_ready hr fun ms c he hclass => absurd ((hnone ms he).symm.trans hclass) (by simp)
    cases j with
    | array items => exact collection fun ms he => absurd he (by simp)
    | object ms =>
        show After ((pure (.ok (classOf? ms)) : Run (Except BuildError (Option String))) >>= _) s _ _
        cases hclass : classOf? ms with
        | none => exact collection fun ms' he => Json.object.inj he ▸ hclass
        | some name =>
            show After (k.componentFor .any none context (some name) >>= _) s _ _
            rcases hp.plainClass hclass with known | unknown
            · rw [Run.after_bind]
              refine Container.componentFor_record known context s ?_
              refine (Run.after_bind _ _).mpr
                (buildRecord_wires hm hd ha hops hc hp hclass known hat context hb hs hvacant ?_ rfl)
              refine clear_of_ready hr fun ms' c he hc' => ?_
              obtain rfl := Json.object.inj he
              obtain rfl := Option.some.inj (hclass.symm.trans hc')
              rw [known]
              exact Option.some_ne_none _
            · rw [Container.componentFor_unknown unknown]
              exact ⟨w, .refl w s, hs, .unknown hclass unknown⟩
    | _ => exact absurd hj Bool.false_ne_true
  · have deep : 0 < j.depth := by
      cases j with
      | array items => exact Nat.succ_pos _
      | object ms => exact Nat.succ_pos _
      | _ => exact absurd hj Bool.false_ne_true
    rw [hcut]
    unfold PlainRoot.cost
    omega

end PlainRoot

end ObjectGraph
