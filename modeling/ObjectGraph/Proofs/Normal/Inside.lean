import ObjectGraph.Proofs.Normal.Realm
import ObjectGraph.Proofs.Reading

/-!
# `Proofs.Normal.Inside` — reading stays inside a realm, and ends

A node is *inside* a realm if its data fits the realm, the parameters it sees are data of the realm, its
handler dereferences nothing, and the same holds of its root. Whatever is read from such a node is a text,
data of the realm, or a node inside it; so merging stays inside too. Reading ends in any case, because
replacements and references to the root are bounded. The lemmas follow the definitions, one per function.

Contents:
* `Handler.Inert`, `Handler.inert_empty`;
* `Realm.Held`, `Realm.Inside` with its closure lemmas;
* `Realm.Gives`, `Realm.Stands`, `Realm.Reads`; `resolveText_reads`, `readNode_inside`;
* `flatten_inside`, `parent?_inside`.
-/

namespace ObjectGraph

open Run (Ends)

/-! ## Handlers that dereference nothing -/

/-- Whatever text of a URI is dereferenced, nothing comes of it. -/
def Handler.Inert (env : Surroundings) (h : Handler) : Prop :=
  ∀ hops text, Ends (h.dereferenceText env hops text) (· = none)

/-- A handler without schemes and aliases dereferences nothing. -/
theorem Handler.inert_empty (env : Surroundings) : empty.Inert env := by
  intro hops text
  unfold dereferenceText
  cases Uri.parse text with
  | error e => exact (Ends.report _ _ _ _).bind fun _ _ => .pure rfl
  | ok u =>
      have fails : ∃ e, tryDereference env empty hops u = Pure.pure (.error e) := by
        obtain ⟨scheme, name, fragment, parameters, format⟩ := u
        by_cases isAlias : (Uri.mk scheme name fragment parameters format).isAlias = true
        · refine ⟨.unknownAlias name, ?_⟩
          show dereferenceWith .. = _
          rw [dereferenceWith, if_pos isAlias]
          rfl
        · refine ⟨.schemeNotFound scheme, ?_⟩
          show dereferenceWith .. = _
          rw [dereferenceWith, if_neg isAlias]
          rfl
      obtain ⟨e, fails⟩ := fails
      show Ends (dereferenceUri env empty hops u) _
      rw [dereferenceUri, fails, pure_bind]
      exact (Ends.report _ _ _ _).bind fun _ _ => .pure rfl

namespace Realm

variable {R S : Realm} {env : Surroundings} {c d : Configuration}

/-! ## Nodes inside a realm -/

/-- The values of a context are data of a realm. -/
def Binds (R : Realm) (context : Params) : Prop := ∀ p ∈ context, ∃ j ∈ R.data, p.2 = .ofJson j

theorem Binds.mono (h : R ≤ S) {context : Params} (hc : R.Binds context) : S.Binds context :=
  fun p hp => (hc p hp).imp fun _ ⟨hj, e⟩ => ⟨h hj, e⟩

theorem Binds.insertAll {context more : Params} (h : R.Binds context) (h' : R.Binds more) :
    R.Binds (Table.insertAll context more) :=
  fun p hp => (Table.mem_insertAll hp).elim (h p) (h' p)

theorem Binds.unite {own : Params × Origin} {other : Params} (h : R.Binds own.1) (h' : R.Binds other) :
    R.Binds (Configuration.unite own other).1 := by
  unfold Configuration.unite
  split
  · exact h
  · exact h'.insertAll h

/-- What a node holds itself lies in a realm, and its handler dereferences nothing. -/
structure Held (R : Realm) (env : Surroundings) (c : Configuration) : Prop where
  data : R.Fits c.data
  context : R.Binds c.context
  inert : c.handler.Inert env

/-- A node and its root lie in a realm. -/
structure Inside (R : Realm) (env : Surroundings) (c : Configuration) : Prop where
  own : R.Held env c
  root : R.Held env c.root
  isRoot : c.root.isRoot = true

theorem Held.mono (h : R ≤ S) (hc : R.Held env c) : S.Held env c :=
  ⟨hc.data.mono h, hc.context.mono h, hc.inert⟩

theorem Inside.mono (h : R ≤ S) (hc : R.Inside env c) : S.Inside env c :=
  ⟨hc.own.mono h, hc.root.mono h, hc.isRoot⟩

/-- The root of a root is that itself. -/
theorem root_of_isRoot (h : c.isRoot = true) : c.root = c := by
  rw [Configuration.root, Option.isNone_iff_eq_none.mp h]
  rfl

/-- The root of a node inside a realm is inside. -/
theorem Inside.anchor (h : R.Inside env c) : R.Inside env c.root := by
  have same : c.root.root = c.root := root_of_isRoot h.isRoot
  exact ⟨h.root, same.symm ▸ h.root, same.symm ▸ h.isRoot⟩

/-- A change to a node that leaves its root alone, unless it is the root. -/
theorem Inside.change (h : R.Inside env c) (hd : R.Held env d) (same : d.root? = c.root?) :
    R.Inside env d := by
  cases hr : c.root? with
  | none =>
      have top : d.isRoot = true := by rw [Configuration.isRoot, same, hr]; rfl
      have self : d.root = d := root_of_isRoot top
      exact ⟨hd, self.symm ▸ hd, self.symm ▸ top⟩
  | some r =>
      have root : d.root = c.root := by rw [Configuration.root, Configuration.root, same]
                                        simp [hr]
      exact ⟨hd, root.symm ▸ h.root, root.symm ▸ h.isRoot⟩

theorem Inside.derive (h : R.Inside env c) {data : Json} {context : Params} (hd : R.Fits data)
    (hc : R.Binds context) (origin : Origin) : R.Inside env (c.derive data context origin) :=
  h.change ⟨hd, hc, h.own.inert⟩ rfl

/-- The parameters of data that fits are data of the realm, and the rest fits. -/
theorem splitParameters_fits {j : Json} (h : R.Fits j) :
    R.Fits (Configuration.splitParameters j).1 ∧ R.Binds (Configuration.splitParameters j).2 := by
  cases j with
  | object ms =>
      simp only [Configuration.splitParameters, Configuration.splitMembers,
        List.partition_eq_filter_filter]
      refine ⟨h.filter _, fun p hp => ?_⟩
      obtain ⟨m, hm, rfl⟩ := List.mem_map.mp hp
      exact ⟨m.2, (h.2 m (List.mem_of_mem_filter hm)).1, rfl⟩
  | _ => exact ⟨h, fun _ hp => absurd hp List.not_mem_nil⟩

theorem inside_make {data : Json} {handler : Handler} (hd : R.Fits data) (hi : handler.Inert env) :
    R.Inside env (.make data handler) := by
  obtain ⟨rest, params⟩ := splitParameters_fits hd
  have none : R.Binds [] := fun _ hp => absurd hp List.not_mem_nil
  have held : R.Held env (.make data handler) := ⟨rest, none.insertAll params, hi⟩
  exact ⟨held, held, rfl⟩

theorem Inside.child (h : R.Inside env c) {data : Json} (hd : R.Fits data) :
    R.Inside env (c.child data) := by
  obtain ⟨rest, params⟩ := splitParameters_fits hd
  refine ⟨⟨rest, ?_, h.own.inert⟩, h.root, h.isRoot⟩
  show R.Binds (if (Configuration.splitParameters data).2 = [] then c.context
    else Table.insertAll c.context (Configuration.splitParameters data).2)
  split
  · exact h.own.context
  · exact h.own.context.insertAll params

theorem Inside.withParameters (h : R.Inside env c) {params : Params} (hp : R.Binds params) :
    R.Inside env (c.withParameters params) := by
  unfold Configuration.withParameters
  split
  · exact h
  · have named : R.Binds (params.map fun p => (Template.parameterKey p.1, p.2)) := by
      intro p hm
      obtain ⟨q, hq, rfl⟩ := List.mem_map.mp hm
      exact hp q hq
    exact h.change ⟨h.own.data, h.own.context.insertAll named, h.own.inert⟩ rfl

theorem Inside.withStrict (h : R.Inside env c) (strict : Bool) : R.Inside env (c.withStrict strict) :=
  h.change ⟨h.own.data, h.own.context, h.own.inert⟩ rfl

theorem Inside.mixin (h : R.Inside env c) (hd : R.Inside env d) : R.Inside env (c.mixin d) := by
  unfold Configuration.mixin
  split
  next own members hc hm =>
    have base : R.Fits (.object own) := hc ▸ h.own.data
    have upper : R.Fits (.object members) := hm ▸ hd.own.data
    exact h.derive (base.overlay upper.2) (Binds.unite h.own.context hd.own.context) _
  next => exact h

theorem Inside.extend (h : R.Inside env c) (hd : R.Inside env d) : R.Inside env (c.extend d) := by
  unfold Configuration.extend
  split
  next members own hm hc =>
    have base : R.Fits (.object members) := hm ▸ hd.own.data
    have upper : R.Fits (.object own) := hc ▸ h.own.data
    exact h.derive (base.overlay upper.2) (Binds.unite h.own.context hd.own.context) _
  next => exact h

/-! ## What reading gives -/

/-- What can be read inside a realm. -/
inductive Gives (R : Realm) (env : Surroundings) : Value → Prop
  | text (s : String) : Gives R env (.string s)
  | data {j : Json} (hj : j ∈ R.data) : Gives R env (.ofJson j)
  | node {c : Configuration} (hc : R.Inside env c) : Gives R env (.configuration c)

/-- A run ends, and what it gives, if anything, can be read inside a realm. -/
def Reads (R : Realm) (env : Surroundings) (x : Run (Option Value)) : Prop :=
  Ends x fun v => ∀ w ∈ v, R.Gives env w

/-- Where a walk inside a realm can stand. -/
def Stands (R : Realm) (env : Surroundings) : Configuration.Cursor → Prop
  | .value v => R.Gives env v
  | .raw c j => R.Inside env c ∧ j ∈ R.data

/-- What a step inside a realm leads to. -/
def Leads (R : Realm) (env : Surroundings) : Configuration.Move → Prop
  | .stop v => R.Gives env v
  | .go cursor => R.Stands env cursor

/-- A way to resolve texts leads out of a realm for none of the nodes inside. -/
def Resolves (R : Realm) (env : Surroundings) (resolve : Configuration.Resolver) : Prop :=
  ∀ c s, R.Inside env c → R.Reads env (resolve c s)

theorem reads_none : R.Reads env (pure none) := .pure (by simp)

theorem reads_some {v : Value} (h : R.Gives env v) : R.Reads env (pure (some v)) :=
  .pure (by rintro _ ⟨⟩; exact h)

open ObjectGraph.Configuration

variable {resolve : Resolver}

theorem resolveJson_reads (hr : R.Resolves env resolve) (hc : R.Inside env c) {j : Json} (hj : j ∈ R.data) :
    R.Reads env (resolveJson resolve c j) := by
  cases j with
  | string s => exact hr c s hc
  | object members => exact reads_some (.node (hc.child (fits_of_mem hj)))
  | array items => exact reads_some (.node (hc.child (fits_of_mem hj)))
  | _ => exact reads_some (.data hj)

theorem arrive_reads (hr : R.Resolves env resolve) {cursor : Cursor} (h : R.Stands env cursor) :
    R.Reads env (arrive resolve cursor) := by
  cases cursor with
  | value v => exact reads_some h
  | raw c j => exact resolveJson_reads hr h.1 h.2

theorem settle_stands (hr : R.Resolves env resolve) {cursor : Cursor} (h : R.Stands env cursor) :
    Ends (Configuration.settle resolve cursor) fun settled => ∀ cursor ∈ settled, R.Stands env cursor := by
  unfold Configuration.settle
  split
  next c s =>
    refine (hr c s h.1).bind fun v hv => .pure fun cursor hm => ?_
    obtain ⟨w, hw, rfl⟩ := Option.map_eq_some_iff.mp hm
    exact hv w hw
  next => exact .pure (by rintro _ ⟨⟩; exact h)

theorem stepRaw_leads (hc : R.Inside env c) {j : Json} (hj : R.Fits j) {segment : String} {move : Move}
    (hm : stepRaw c j segment = some move) : R.Leads env move := by
  obtain ⟨child, found, rfl⟩ := Option.map_eq_some_iff.mp hm
  exact ⟨hc, hj.piece (Json.mem_pieces_of_child? found)⟩

/-- A step from data that has become a value leads to a piece of it. -/
theorem stepValue_ofJson {j : Json} (hj : j ∈ R.data) {heap : Heap} {segment : String} {rest : List String}
    {move : Move} (hm : stepValue heap (.ofJson j) segment rest = some move) : R.Leads env move := by
  unfold stepValue at hm
  split at hm
  · cases hm
    exact .data hj
  · cases j with
    | array items =>
        rw [Value.ofJson_array] at hm
        obtain ⟨w, found, rfl⟩ := Option.map_eq_some_iff.mp hm
        obtain ⟨i, -, at_⟩ := Option.bind_eq_some_iff.mp found
        obtain ⟨x, hx, rfl⟩ := List.mem_map.mp (List.mem_of_getElem? at_)
        exact .data (R.piece _ hj x hx)
    | object members =>
        rw [Value.ofJson_object] at hm
        obtain ⟨w, found, rfl⟩ := Option.map_eq_some_iff.mp hm
        obtain ⟨m, hx, e⟩ := Value.mem_entriesOf (Table.mem_of_lookup found)
        obtain rfl : w = .ofJson m.2 := congrArg Prod.snd e
        exact .data (R.piece _ hj _ (List.mem_map_of_mem hx))
    | _ => exact absurd hm (by simp [Value.ofJson])

theorem stepValue_leads {v : Value} (hv : R.Gives env v) {heap : Heap} {segment : String}
    {rest : List String} {move : Move} (hm : stepValue heap v segment rest = some move) :
    R.Leads env move := by
  cases hv with
  | data hj => exact stepValue_ofJson hj hm
  | text s =>
      unfold stepValue at hm
      split at hm
      · cases hm
        exact .text s
      · exact absurd hm (by simp)
  | node hc =>
      unfold stepValue at hm
      split at hm
      · cases hm
        exact .node hc
      · exact stepRaw_leads hc hc.own.data hm

theorem step_leads {cursor : Cursor} (h : R.Stands env cursor) {heap : Heap} {segment : String}
    {rest : List String} {move : Move} (hm : step heap segment rest cursor = some move) :
    R.Leads env move := by
  cases cursor with
  | value v => exact stepValue_leads h hm
  | raw c j => exact stepRaw_leads h.1 (fits_of_mem h.2) hm

theorem walk_reads (hr : R.Resolves env resolve) (segs : List String) {cursor : Cursor}
    (h : R.Stands env cursor) : R.Reads env (walk resolve segs cursor) := by
  induction segs generalizing cursor with
  | nil => exact arrive_reads hr h
  | cons segment rest ih =>
      rw [walk]
      refine (settle_stands hr h).bind fun settled hs => ?_
      cases settled with
      | none => exact reads_none
      | some cursor =>
          refine Ends.heap.bind fun heap _ => ?_
          cases hm : step heap segment rest cursor with
          | none => exact reads_none
          | some move =>
              have leads := step_leads (hs cursor rfl) hm
              cases move with
              | stop v => exact reads_some leads
              | go next => exact ih leads

theorem follow_reads (hr : R.Resolves env resolve) {v : Value} (hv : R.Gives env v) (path : String) :
    R.Reads env (follow resolve v path) := walk_reads hr _ hv

/-! ## Resolving texts -/

theorem followRoot_reads {back : Option Resolver} (hb : ∀ read ∈ back, R.Resolves env read)
    (hc : R.Inside env c) (path literal : String) : R.Reads env (followRoot back c path literal) := by
  unfold followRoot
  cases back with
  | none => exact (Ends.report _ _ _ _).bind fun _ _ => reads_none
  | some read =>
      refine (hb read rfl _ path hc.anchor).bind fun v hv => ?_
      cases v with
      | some w => exact reads_some (hv w rfl)
      | none =>
          dsimp only
          split
          · exact (Ends.report _ _ _ _).bind fun _ _ => reads_none
          · exact (Ends.report _ _ _ _).bind fun _ _ => reads_some (.text literal)

theorem replaceText_reads {back : Option Resolver} (hb : ∀ read ∈ back, R.Resolves env read)
    (hc : R.Inside env c) (hops : Nat) (supplied : String) (n : Nat) (current : String) :
    R.Reads env (replaceText env back hops c supplied n current) := by
  induction n generalizing current with
  | zero => exact (Ends.report _ _ _ _).bind fun _ _ => reads_none
  | succ n ih =>
      unfold replaceText
      split
      · split
        next next found => exact ih next
        next v _ found =>
          obtain ⟨j, hj, e⟩ := hc.own.context _ (Table.mem_of_lookup found)
          obtain rfl : v = .ofJson j := e
          exact reads_some (.data hj)
        next => exact (Ends.report _ _ _ _).bind fun _ _ => reads_none
      · exact Ends.heap.bind fun heap _ => (reportUnbound_ends _).bind fun _ _ => ih _
      · exact (hc.own.inert hops _).mono fun v hv => by simp [hv]
      · exact followRoot_reads hb hc _ _
      · exact reads_some (.text _)
      · exact reads_some (.text _)

theorem resolveText_reads (hops : Nat) : R.Resolves env (resolveText env hops) := by
  induction hops with
  | zero => exact fun c s hc => replaceText_reads (by simp) hc _ _ _ _
  | succ hops ih =>
      refine fun c s hc => replaceText_reads ?_ hc _ _ _ _
      rintro _ ⟨⟩ root path hroot
      exact follow_reads ih (.node hroot) path

/-! ## Reading nodes -/

theorem valueAt_reads (hc : R.Inside env c) (hops : Nat) (path : String) :
    R.Reads env (c.valueAt env hops path) := follow_reads (resolveText_reads hops) (.node hc) path

theorem promote_inside (hc : R.Inside env c) (heap : Heap) {v : Value} (hv : R.Gives env v)
    (hd : c.promote heap v = some d) : R.Inside env d := by
  cases hv with
  | text s => exact absurd hd (by simp [promote])
  | node h => exact Option.some.inj hd ▸ h
  | @data j hj =>
      have ordered : (Value.ofJson j).toJson heap = j.sorted := Json.toJsonWith_ofJson _ (R.proper j hj)
      have child : R.Inside env (c.child ((Value.ofJson j).toJson heap)) := by
        rw [ordered]
        exact hc.child (fits_of_mem (R.sorted j hj))
      cases j with
      | array items =>
          rw [Value.ofJson_array] at hd child
          exact Option.some.inj hd ▸ child
      | object members =>
          rw [Value.ofJson_object] at hd child
          exact Option.some.inj hd ▸ child
      | _ => exact absurd hd (by simp [promote, Value.ofJson])

theorem readNode_inside (hc : R.Inside env c) (hops : Nat) (path : String) :
    Ends (c.readNode env hops path) fun node => ∀ d ∈ node, R.Inside env d := by
  have read : Ends (c.readAs env hops path .configuration)
      fun v => ∀ d, v = some (.configuration d) → R.Inside env d := by
    refine (valueAt_reads hc hops path).bind fun v hv => ?_
    cases v with
    | none => exact .pure (by simp)
    | some w =>
        refine Ends.heap.bind fun heap _ => .pure fun d hd => ?_
        obtain ⟨e, promoted, same⟩ := Option.map_eq_some_iff.mp hd
        cases same
        exact promote_inside hc heap (hv w rfl) promoted
  refine read.bind fun v hv => ?_
  split
  next d => exact .pure (by rintro _ ⟨⟩; exact hv d rfl)
  next => exact .pure (by simp)

theorem readNodes_inside (hc : R.Inside env c) (hops : Nat) (keys : List String) :
    Ends (c.readNodes env hops keys) fun nodes => ∀ d ∈ nodes, R.Inside env d := by
  induction keys with
  | nil => exact .pure (by simp)
  | cons key keys ih =>
      refine (readNode_inside hc hops key).bind fun node hn => ih.bind fun nodes hns => .pure ?_
      intro d hd
      rcases List.mem_append.mp hd with hd | hd
      · exact hn d (Option.mem_toList.mp hd)
      · exact hns d hd

theorem readList_inside (hc : R.Inside env c) (hops : Nat) (path : String) :
    Ends (c.readList env hops path) fun nodes => ∀ d ∈ nodes, R.Inside env d := by
  refine (readNode_inside hc hops path).bind fun node hn => ?_
  cases node with
  | none => exact .pure (by simp)
  | some d =>
      dsimp only
      split
      · exact readNodes_inside (hn d rfl) hops _
      · exact .pure (by simpa using hn d rfl)

/-! ## Merging -/

theorem mixinAt_inside (hc : R.Inside env c) (hops : Nat) (key : String) :
    Ends (c.mixinAt env hops key) fun nodes => ∀ d ∈ nodes, R.Inside env d := by
  unfold mixinAt
  split
  · refine (readNode_inside hc hops key).bind fun node hn => ?_
    cases node with
    | none => exact (Ends.report _ _ _ _).bind fun _ _ => .pure (by simp)
    | some d => exact .pure (by simpa using hn d rfl)
  · exact .pure (by simp)

theorem mixins_inside (hc : R.Inside env c) (hops : Nat) :
    Ends (c.mixins env hops) fun nodes => ∀ d ∈ nodes, R.Inside env d := by
  refine (mixinAt_inside hc hops configKey).bind fun first h₁ =>
    (mixinAt_inside hc hops mixinKey).bind fun second h₂ => ?_
  have together : ∀ more : List Configuration, (∀ d ∈ more, R.Inside env d) →
      Ends (pure (first ++ second ++ more)) fun nodes => ∀ d ∈ nodes, R.Inside env d := by
    intro more h₃
    refine .pure fun d hd => ?_
    rcases List.mem_append.mp hd with hd | hd
    · exact (List.mem_append.mp hd).elim (h₁ d) (h₂ d)
    · exact h₃ d hd
  dsimp only
  split
  · exact (readList_inside hc hops mixinsKey).bind together
  · exact (Ends.pure (by simp)).bind together

theorem flatten_inside (hc : R.Inside env c) (hops : Nat) : Ends (c.flatten env hops) (R.Inside env) := by
  refine (mixins_inside hc hops).bind fun uppers hu => .pure ?_
  induction uppers generalizing c with
  | nil => exact hc
  | cons upper uppers ih =>
      exact ih (hc.mixin (hu upper List.mem_cons_self)) fun d hd => hu d (List.mem_cons_of_mem _ hd)

theorem parent?_inside (hc : R.Inside env c) (hops : Nat) :
    Ends (c.parent? env hops) fun parent => ∀ p ∈ parent, R.Inside env p := by
  unfold parent?
  split
  · refine (readNode_inside hc hops extendsKey).bind fun node hn => ?_
    cases node with
    | none => exact (Ends.report _ _ _ _).bind fun _ _ => .pure (by simp)
    | some d =>
        exact (flatten_inside (hn d rfl) hops).bind fun p hp => .pure (by rintro _ ⟨⟩; exact hp)
  · exact .pure (by simp)

end Realm

end ObjectGraph
