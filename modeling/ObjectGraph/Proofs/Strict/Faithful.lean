import ObjectGraph.Proofs.Strict.Level

/-!
# `Proofs.Strict.Faithful` — strict reading gives no text for a path that leads nowhere

When a strict node follows a path from the root that leads nowhere this is reported, and the reference has no
value. Then what the reference was part of has none either, and so on up to the reading that began it, as long as
all the nodes on the way are strict: whatever an even strict node gives, no strict node has missed on the way
(`readAs_faithful`). What it gives is even again, so the same holds of anything read from that.

There is one way out. A document by itself is a loose root; when a path goes on into it, or a format makes a
configuration of it, nobody asks how strict the node is that the path began at. Then the text of a reference that
leads nowhere is given as a value (`not_readAs_faithful`), although the same document, read as a configuration by
the same node, gives nothing there.

Contents:
* `missedMessage`, `Spared`; `Run.Calm`, `Run.Answers` and their rules;
* `Surroundings.Loose`, `Surroundings.loose_ofFiles`;
* `Handler`: `dereferenceText_calm` and what it is made of;
* `Configuration`: `resolveText_answers`, `valueAt_answers`, `readAs_answers`;
* `readAs_faithful`, `not_readAs_faithful`.
-/

namespace ObjectGraph

open Run (After)

/-! ## What is reported -/

/-- What is reported when a strict node has followed a path that leads nowhere. -/
def missedMessage : String := "root path did not resolve"

/-- Between two sessions no strict node has followed a path that leads nowhere. -/
def Spared (s t : Session) : Prop :=
  ∃ new, t.events = new ++ s.events ∧ ∀ e ∈ new, e.message ≠ some missedMessage

theorem Spared.of_eq {s t : Session} (h : t.events = s.events) : Spared s t := ⟨[], h, by simp⟩

theorem Spared.trans {s t u : Session} (h : Spared s t) (h' : Spared t u) : Spared s u := by
  obtain ⟨new, ht, hn⟩ := h
  obtain ⟨more, hu, hm⟩ := h'
  refine ⟨more ++ new, by rw [hu, ht, List.append_assoc], ?_⟩
  intro e he
  exact (List.mem_append.mp he).elim (hm e) (hn e)

namespace Run

variable {α β : Type} {b : Bool}

/-- The run leaves no component with a strict node, no strict node misses, and the result is as it is to be. -/
def Calm (x : Run α) (good : α → Prop) : Prop :=
  ∀ s, s.heap.Loose → After x s (fun a t => t.heap.Loose ∧ Spared s t ∧ good a) fun _ => True

/-- The same of a run that may give nothing: of a strict one it need not be said then that no strict node has
missed. -/
def Answers (b : Bool) (x : Run (Option α)) (good : α → Prop) : Prop :=
  ∀ s, s.heap.Loose →
    After x s (fun r t => t.heap.Loose ∧ (b = false ∨ r.isSome → Spared s t) ∧ ∀ a ∈ r, good a) fun _ => True

/-- The run gives nothing. -/
def Refuses (x : Run (Option α)) : Prop :=
  ∀ s, s.heap.Loose → After x s (fun r t => t.heap.Loose ∧ r = none) fun _ => True

variable {good : α → Prop} {fine : β → Prop}

namespace Calm

theorem pure {a : α} (h : good a) : Calm (Pure.pure a) good := fun _ hs => ⟨hs, .of_eq rfl, h⟩

theorem bind {x : Run α} {f : α → Run β} (hx : Calm x good) (hf : ∀ a, good a → Calm (f a) fine) :
    Calm (x >>= f) fine := by
  intro s hs
  rw [after_bind]
  refine (hx s hs).mono ?_ fun _ => id
  intro a t ha
  refine (hf a ha.2.2 t ha.1).mono ?_ fun _ => id
  intro c u hc
  exact ⟨hc.1, ha.2.1.trans hc.2.1, hc.2.2⟩

theorem heap : Calm heap Heap.Loose := fun _ hs => ⟨hs, .of_eq rfl, hs⟩

theorem report {l : Log.Level} {target message : String} {fields : List (String × Log.Field)}
    (h : message ≠ missedMessage) : Calm (report l target message fields) fun _ => True := by
  intro s hs
  refine ⟨hs, ⟨[⟨l, target, some message, fields⟩], rfl, ?_⟩, trivial⟩
  intro e he
  obtain rfl := List.mem_singleton.mp he
  exact fun same => h (Option.some.inj same)

theorem openFile (host : Host) (path : String) : Calm (openFile host path) fun _ => True :=
  fun _ hs => ⟨hs, .of_eq rfl, trivial⟩

/-- A calm run, and an answer after it. -/
theorem answers {x : Run α} {f : α → Run (Option β)} (hx : Calm x good)
    (hf : ∀ a, good a → Answers b (f a) fine) : Answers b (x >>= f) fine := by
  intro s hs
  rw [after_bind]
  refine (hx s hs).mono ?_ fun _ => id
  intro a t ha
  refine (hf a ha.2.2 t ha.1).mono ?_ fun _ => id
  intro c u hc
  exact ⟨hc.1, fun given => ha.2.1.trans (hc.2.1 given), hc.2.2⟩

end Calm

namespace Answers

theorem of_calm {x : Run (Option α)} (hx : Calm x fun r => ∀ a ∈ r, good a) : Answers b x good :=
  fun s hs => (hx s hs).mono (fun _ _ h => ⟨h.1, fun _ => h.2.1, h.2.2⟩) fun _ => id

theorem none : Answers b (Pure.pure none) good := of_calm (.pure (by simp))

theorem some {a : α} (h : good a) : Answers b (Pure.pure (some a)) good :=
  of_calm (.pure (by rintro _ ⟨⟩; exact h))

/-- What is answered without strict nodes is an answer at every level. -/
theorem loose {x : Run (Option α)} {good' : α → Prop} (hx : Answers false x good) (h : ∀ a, good a → good' a) :
    Answers b x good' :=
  fun s hs => (hx s hs).mono (fun _ _ ha => ⟨ha.1, fun _ => ha.2.1 (.inl rfl), fun a m => h a (ha.2.2 a m)⟩)
    fun _ => id

/-- An answer, and what is made of it. A strict run that has no answer is to give nothing. -/
theorem bind {x : Run (Option α)} {f : Option α → Run (Option β)} (hx : Answers b x good)
    (hf : ∀ a, good a → Answers b (f (.some a)) fine) (strict : b = true → Refuses (f .none))
    (otherwise : b = false → Answers b (f .none) fine) : Answers b (x >>= f) fine := by
  intro s hs
  rw [after_bind]
  refine (hx s hs).mono ?_ fun _ => id
  intro r t hr
  obtain ⟨ht, spared, given⟩ := hr
  cases r with
  | some a =>
      refine (hf a (given a rfl) t ht).mono ?_ fun _ => id
      intro c u hc
      exact ⟨hc.1, fun h => (spared (.inr rfl)).trans (hc.2.1 h), hc.2.2⟩
  | none =>
      cases b with
      | true =>
          refine (strict rfl t ht).mono ?_ fun _ => id
          intro c u hc
          obtain ⟨hu, rfl⟩ := hc
          exact ⟨hu, by simp, by simp⟩
      | false =>
          refine (otherwise rfl t ht).mono ?_ fun _ => id
          intro c u hc
          exact ⟨hc.1, fun h => (spared (.inl rfl)).trans (hc.2.1 h), hc.2.2⟩

/-- An answer, and what is made of it; of none nothing is made. -/
theorem bind_some {x : Run (Option α)} {f : Option α → Run (Option β)} (hx : Answers b x good)
    (hf : ∀ a, good a → Answers b (f (.some a)) fine) (nothing : f .none = Pure.pure .none) :
    Answers b (x >>= f) fine := by
  refine hx.bind hf ?_ ?_
  · intro _ s hs
    rw [nothing]
    exact ⟨hs, rfl⟩
  · intro _
    rw [nothing]
    exact .none

end Answers

end Run

open Run (Calm Answers Refuses)

/-- Nothing that the surroundings give holds a strict node. -/
structure Surroundings.Loose (env : Surroundings) : Prop where
  host : env.host.Loose
  portal : ∀ p hops u params, Params.UpTo false params → Calm (env.portal p hops u params) Outcome.Loose

/-- Surroundings of files only give no nodes. -/
theorem Surroundings.loose_ofFiles (files : Files) : (ofHost (.ofFiles files)).Loose :=
  ⟨Host.loose_ofFiles files, fun _ _ _ _ _ => .pure fun v h => absurd h (by simp)⟩

variable {env : Surroundings} {b : Bool}

/-! ## Dereferencing -/

namespace Handler

theorem loose_error (e : Error) : Outcome.Loose (.error e) := fun _ h => absurd h (by simp)

theorem loose_none : Outcome.Loose (.ok none) := fun _ h => absurd h (by simp)

theorem loose_some {v : Value} (h : v.UpTo false) : Outcome.Loose (.ok (some v)) := by
  rintro _ ⟨⟩
  exact h

theorem applyFormat_calm {host : Host} (hh : host.Loose) (handler : Handler) {v : Value} (hv : v.UpTo false)
    (u : Uri) : Calm (applyFormat host handler v u) Outcome.Loose := by
  unfold applyFormat
  split
  · exact .pure (loose_some hv)
  · split
    · exact .pure (loose_error _)
    · refine Calm.heap.bind fun heap _ => .pure ?_
      intro w hw
      exact hv.format hh (Except.ok.inj hw)

theorem inFile_loose (u : Uri) (bytes : List UInt8) : Outcome.Loose (inFile u bytes) := by
  unfold inFile
  dsimp only
  split
  · exact loose_some (.leaf rfl)
  · split
    · exact loose_error _
    · intro v hv
      obtain ⟨part, -, rfl⟩ := Option.map_eq_some_iff.mp (Except.ok.inj hv)
      split
      · exact .leaf rfl
      · exact .ofJson false part

theorem readFile_calm (host : Host) (directory : String) (u : Uri) :
    Calm (readFile host directory u) Outcome.Loose := by
  refine (Calm.openFile host _).bind ?_
  intro bytes _
  cases bytes with
  | error e => exact .pure (loose_error _)
  | ok bytes => exact .pure (inFile_loose u bytes)

theorem resolveScheme_calm (he : env.Loose) (hops : Nat) (u : Uri) {params : Params}
    (hp : params.UpTo false) (s : Scheme) : Calm (resolveScheme env hops u params s) Outcome.Loose := by
  cases s with
  | literal => exact .pure (loose_some (.leaf rfl))
  | files directory => exact readFile_calm env.host directory u
  | container portal => exact he.portal portal hops u params hp
  | detached => exact .pure loose_none
  | custom id _ => exact .pure (he.host.scheme id u params hp)

theorem dereferenceIn_calm (he : env.Loose) (handler : Handler) (hops : Nat) (s : Scheme) (u : Uri)
    {params : Params} (hp : params.UpTo false) :
    Calm (dereferenceIn env handler hops s u params) Outcome.Loose := by
  refine (Calm.report (by decide)).bind fun _ _ => (resolveScheme_calm he hops _ hp s).bind ?_
  intro outcome ho
  cases outcome with
  | error e => exact .pure (loose_error _)
  | ok v =>
      cases v with
      | none => exact .pure loose_none
      | some v => exact applyFormat_calm he.host handler ((ho v rfl).attach handler s _) _

theorem dereferenceAlias_calm (he : env.Loose) (handler : Handler) {follow : Option (Uri → Run Outcome)}
    (hf : ∀ f ∈ follow, ∀ u, Calm (f u) Outcome.Loose) (u : Uri) :
    Calm (dereferenceAlias env handler follow u) Outcome.Loose := by
  unfold dereferenceAlias
  split
  · split
    · exact .pure (loose_error _)
    · refine (hf _ rfl _).bind ?_
      intro outcome ho
      cases outcome with
      | error e => exact .pure (loose_error _)
      | ok v =>
          cases v with
          | none => exact .pure loose_none
          | some v => exact applyFormat_calm he.host handler (ho v rfl) u
  · exact .pure (loose_error _)

theorem keepParameter_calm (whole : Uri) (name : String) {rest : Params} (hr : rest.UpTo false)
    {outcome : Outcome} (ho : outcome.Loose) : Calm (keepParameter whole name rest outcome) (Params.UpTo false) := by
  cases outcome with
  | error e => exact (Calm.report (by decide)).bind fun _ _ => .pure hr
  | ok v =>
      cases v with
      | none => exact (Calm.report (by decide)).bind fun _ _ => .pure hr
      | some v => exact .pure (hr.insert (ho v rfl))

mutual

theorem dereferenceWith_calm (he : env.Loose) (handler : Handler) (hops : Nat)
    {follow : Option (Uri → Run Outcome)} (hf : ∀ f ∈ follow, ∀ u, Calm (f u) Outcome.Loose) (u : Uri) :
    Calm (dereferenceWith env handler hops follow u) Outcome.Loose := by
  match u with
  | .mk scheme name fragment parameters format =>
      unfold dereferenceWith
      dsimp only
      split
      · exact dereferenceAlias_calm he handler hf _
      · split
        · exact .pure (loose_error _)
        · exact (dereferenceParameters_calm he handler hops hf _ (.nil false) parameters).bind
            fun params hp => dereferenceIn_calm he handler hops _ _ hp

theorem dereferenceParameters_calm (he : env.Loose) (handler : Handler) (hops : Nat)
    {follow : Option (Uri → Run Outcome)} (hf : ∀ f ∈ follow, ∀ u, Calm (f u) Outcome.Loose) (whole : Uri)
    {done : Params} (hd : done.UpTo false) (parameters : List (String × Uri)) :
    Calm (dereferenceParameters env handler hops follow whole done parameters) (Params.UpTo false) := by
  match parameters with
  | [] => exact .pure hd
  | (name, u) :: rest =>
      have next := fun done hd => @dereferenceParameters_calm he handler hops follow hf whole done hd rest
      unfold dereferenceParameters
      dsimp only
      split
      · exact (Calm.pure (hd.insert (.leaf rfl))).bind next
      · exact (dereferenceWith_calm he handler hops hf u).bind fun outcome ho =>
          (keepParameter_calm whole name hd ho).bind next

end

theorem dereference_calm (he : env.Loose) (handler : Handler) (hops aliases : Nat) (u : Uri) :
    Calm (dereference env handler hops aliases u) Outcome.Loose := by
  induction aliases generalizing u with
  | zero => exact dereferenceWith_calm he handler hops (fun f hf => absurd hf (by simp)) u
  | succ aliases ih =>
      refine dereferenceWith_calm he handler hops ?_ u
      intro f hf
      cases hf
      exact ih

/-- What a text of a URI leads to holds no strict node, and no strict node misses on the way. -/
theorem dereferenceText_calm (he : env.Loose) (handler : Handler) (hops : Nat) (text : String) :
    Calm (dereferenceText env handler hops text) fun r => ∀ v ∈ r, v.UpTo false := by
  unfold dereferenceText
  cases Uri.parse text with
  | error e => exact (Calm.report (by decide)).bind fun _ _ => .pure (by simp)
  | ok u =>
      refine (dereference_calm he handler hops aliasLimit u).bind ?_
      intro outcome ho
      cases outcome with
      | error e => exact (Calm.report (by decide)).bind fun _ _ => .pure (by simp)
      | ok v => exact .pure fun w hw => ho w (congrArg Except.ok hw)

end Handler

/-! ## Walking and resolving -/

namespace Configuration

/-- Where a walk stands that began at some level. -/
def Cursor.UpTo (b : Bool) : Cursor → Prop
  | .value v => v.UpTo b
  | .raw c _ => ∃ strict, (strict = true → b = true) ∧ c.Even strict

/-- What a step leads to. -/
def Move.UpTo (b : Bool) : Move → Prop
  | .stop v => v.UpTo b
  | .go cursor => cursor.UpTo b

/-- A way to resolve texts answers for even nodes. -/
def Resolver.Answers (resolve : Resolver) : Prop :=
  ∀ b c s, c.Even b → Run.Answers b (resolve c s) (Value.UpTo b)

variable {resolve : Resolver} {c : Configuration}

/-- What an even node below a level resolves to is below it. -/
theorem resolve_answers (hr : resolve.Answers) {strict : Bool} (le : strict = true → b = true)
    (hc : c.Even strict) (s : String) : Answers b (resolve c s) (Value.UpTo b) := by
  cases strict with
  | true =>
      obtain rfl := le rfl
      exact hr true c s hc
  | false => exact (hr false c s hc).loose fun v hv => hv.loose

theorem arrive_answers (hr : resolve.Answers) {cursor : Cursor} (h : cursor.UpTo b) :
    Answers b (arrive resolve cursor) (Value.UpTo b) := by
  cases cursor with
  | value v => exact .some h
  | raw c j =>
      obtain ⟨strict, le, hc⟩ := h
      cases j with
      | string s => exact resolve_answers hr le hc s
      | object members => exact .some (.configuration le (hc.child _))
      | array items => exact .some (.configuration le (hc.child _))
      | _ => exact .some (.ofJson b _)

theorem settle_answers (hr : resolve.Answers) {cursor : Cursor} (h : cursor.UpTo b) :
    Answers b (settle resolve cursor) (Cursor.UpTo b) := by
  unfold settle
  split
  next c s =>
    obtain ⟨strict, le, hc⟩ := h
    exact (resolve_answers hr le hc s).bind_some (fun v hv => .some hv) rfl
  next => exact .some h

theorem stepRaw_upTo {strict : Bool} (le : strict = true → b = true) (hc : c.Even strict) {j : Json}
    {segment : String} {move : Move} (hm : stepRaw c j segment = some move) : move.UpTo b := by
  obtain ⟨child, -, rfl⟩ := Option.map_eq_some_iff.mp hm
  exact ⟨strict, le, hc⟩

/-- A step from a value raises no level: a document that it leads into is loose. -/
theorem stepValue_upTo {heap : Heap} (hh : heap.Loose) {v : Value} (hv : v.UpTo b) {segment : String}
    {rest : List String} {move : Move} (hm : stepValue heap v segment rest = some move) : move.UpTo b := by
  unfold stepValue at hm
  split at hm
  next =>
    cases hm
    exact hv
  next =>
    cases v with
    | configuration c =>
        obtain ⟨strict, le, hc⟩ := hv.node
        exact stepRaw_upTo le hc hm
    | pending p =>
        cases hm
        exact .leaf rfl
    | map entries =>
        obtain ⟨w, found, rfl⟩ := Option.map_eq_some_iff.mp hm
        exact hv.entries _ (Table.mem_of_lookup found)
    | list items =>
        obtain ⟨w, found, rfl⟩ := Option.map_eq_some_iff.mp hm
        obtain ⟨i, -, there⟩ := Option.bind_eq_some_iff.mp found
        exact hv.items w (List.mem_of_getElem? there)
    | resource r =>
        obtain ⟨d, opened, taken⟩ := Option.bind_eq_some_iff.mp hm
        exact stepRaw_upTo (by simp) (Resource.even_of_toConfiguration? opened) taken
    | object o =>
        obtain ⟨w, found, rfl⟩ := Option.map_eq_some_iff.mp hm
        exact (hh o segment w found).loose
    | _ => exact absurd hm (by simp)

theorem step_upTo {heap : Heap} (hh : heap.Loose) {cursor : Cursor} (h : cursor.UpTo b) {segment : String}
    {rest : List String} {move : Move} (hm : step heap segment rest cursor = some move) : move.UpTo b := by
  cases cursor with
  | value v => exact stepValue_upTo hh h hm
  | raw c j =>
      obtain ⟨strict, le, hc⟩ := h
      exact stepRaw_upTo le hc hm

theorem walk_answers (hr : resolve.Answers) (segs : List String) {cursor : Cursor} (h : cursor.UpTo b) :
    Answers b (walk resolve segs cursor) (Value.UpTo b) := by
  induction segs generalizing cursor with
  | nil => exact arrive_answers hr h
  | cons segment rest ih =>
      rw [walk]
      refine (settle_answers hr h).bind_some ?_ rfl
      intro cursor hc
      refine Calm.heap.answers ?_
      intro heap hh
      cases hm : step heap segment rest cursor with
      | none => exact .none
      | some move =>
          have leads := step_upTo hh hc hm
          cases move with
          | stop v => exact .some leads
          | go next => exact ih leads

theorem follow_answers (hr : resolve.Answers) {v : Value} (hv : v.UpTo b) (path : String) :
    Answers b (follow resolve v path) (Value.UpTo b) := walk_answers hr _ hv

/-- A path that leads nowhere: a strict node gives nothing, and only then it is reported as missed. -/
theorem followRoot_answers {back : Option Resolver} (hb : ∀ read ∈ back, Resolver.Answers read)
    (hc : c.Even b) (path literal : String) :
    Answers b (followRoot back c path literal) (Value.UpTo b) := by
  unfold followRoot
  cases back with
  | none => exact (Calm.report (by decide)).answers fun _ _ => .none
  | some read =>
      refine (hb read rfl b c.root path hc.anchor).bind (fun v hv => .some hv) ?_ ?_
      · intro strict s hs
        rw [show c.strict = true from hc.strict.trans strict]
        exact ⟨hs, rfl⟩
      · intro loose
        rw [show c.strict = false from hc.strict.trans loose]
        exact (Calm.report (by decide)).answers fun _ _ => .some (.leaf rfl)

theorem reportUnbound_calm (names : List String) : Calm (reportUnbound names) fun _ => True := by
  induction names with
  | nil => exact .pure trivial
  | cons name names ih => exact (Calm.report (by decide)).bind fun _ _ => ih

theorem replaceText_answers (he : env.Loose) {back : Option Resolver}
    (hb : ∀ read ∈ back, Resolver.Answers read) (hc : c.Even b) (hops : Nat) (supplied : String) (n : Nat)
    (current : String) : Answers b (replaceText env back hops c supplied n current) (Value.UpTo b) := by
  induction n generalizing current with
  | zero => exact (Calm.report (by decide)).answers fun _ _ => .none
  | succ n ih =>
      unfold replaceText
      split
      · split
        next next _ => exact ih next
        next v _ found => exact .some (hc.context _ (Table.mem_of_lookup found))
        next => exact (Calm.report (by decide)).answers fun _ _ => .none
      · exact Calm.heap.answers fun heap _ => (reportUnbound_calm _).answers fun _ _ => ih _
      · refine .of_calm fun s hs => (Handler.dereferenceText_calm he c.handler hops _ s hs).mono ?_ fun _ => id
        exact fun r t h => ⟨h.1, h.2.1, fun v hv => (h.2.2 v hv).loose⟩
      · exact followRoot_answers hb hc _ _
      · exact .some (.leaf rfl)
      · exact .some (.leaf rfl)

/-- Texts are resolved so that no strict node has missed where something is given. -/
theorem resolveText_answers (he : env.Loose) (hops : Nat) : (resolveText env hops).Answers := by
  induction hops with
  | zero => exact fun b c s hc => replaceText_answers he (by simp) hc _ _ _ _
  | succ hops ih =>
      refine fun b c s hc => replaceText_answers he ?_ hc _ _ _ _
      rintro _ ⟨⟩ b root path hroot
      exact follow_answers ih (.configuration id hroot) path

/-! ## Reading -/

theorem valueAt_answers (he : env.Loose) (hc : c.Even b) (hops : Nat) (path : String) :
    Answers b (c.valueAt env hops path) (Value.UpTo b) :=
  follow_answers (resolveText_answers he hops) (.configuration id hc) path

theorem readAs_answers (he : env.Loose) (hc : c.Even b) (hops : Nat) (path : String) (r : Representation) :
    Answers b (c.readAs env hops path r) (Value.UpTo b) := by
  refine (valueAt_answers he hc hops path).bind_some ?_ rfl
  intro v hv
  exact Calm.heap.answers fun heap _ => .of_calm (.pure fun w hw => hv.represent he.host hc hw)

/-- A root that is declared strict is even, and whatever an even strict node gives, in any representation, no
strict node has missed on the way. What it gives is even too, so that this holds of what is read from it in turn;
and a document that it reads as a configuration is as strict as itself. -/
theorem readAs_faithful (he : env.Loose) {s : Session} (hs : s.heap.Loose) (data : Json) (handler : Handler) :
    ((make data handler).withStrict true).Even true ∧
      ∀ c : Configuration, c.Even true →
        (∀ hops path r v t, c.readAs env hops path r s = some (some v, t) →
          Spared s t ∧ v.UpTo true ∧ t.heap.Loose) ∧
        ∀ heap document d, c.promote heap (.resource document) = some d → d.Even true := by
  refine ⟨.make_strict data handler true, ?_⟩
  intro c hc
  constructor
  · intro hops path r v t read
    obtain ⟨loose, spared, given⟩ := (readAs_answers he hc hops path r s hs).of_ended read
    exact ⟨spared (.inr rfl), given v rfl, loose⟩
  · intro heap document d hd
    have same := Even.promote_resource hd
    rwa [hc.strict] at same

/-! ### A document that is entered -/

/-- A document in which a reference leads nowhere. -/
def gappy (u : Uri) : Resource := .plain u (.json (.object [("missing", .string "#nowhere")]))

/-- A host that has this document under every URI. -/
def archive : Host :=
  { Host.bare with
    scheme := fun _ u _ => .ok (some (.resource (gappy u))) }

/-- A strict root that refers to the document, and to a path of its own. -/
def catalogue : Configuration :=
  (make (.object [("db", .string "@doc:db"), ("main", .string "#db")])
    (Handler.empty.withScheme "doc" (.custom 0 false))).withStrict true

theorem loose_archive : (Surroundings.ofHost archive).Loose := by
  refine ⟨⟨fun _ _ u _ => Handler.loose_some (.leaf rfl), ?_, ?_⟩, fun _ _ _ _ _ => .pure Handler.loose_none⟩
  · exact fun _ _ _ _ _ h => absurd h (by simp [Surroundings.ofHost, archive, Host.bare, Host.ofFiles])
  · exact fun _ _ _ _ _ _ _ h => absurd h (by simp [Surroundings.ofHost, archive, Host.bare, Host.ofFiles])

theorem readAs_faithful_catalogue :
    (∃ v t, catalogue.readAs (.ofHost archive) depthLimit "main" .default Session.start = some (some v, t)) ∧
      catalogue.Even true ∧ ∀ c : Configuration, c.Even true →
        (∀ hops path r v t, c.readAs (.ofHost archive) hops path r Session.start = some (some v, t) →
          Spared Session.start t ∧ v.UpTo true ∧ t.heap.Loose) ∧
        ∀ heap document d, c.promote heap (.resource document) = some d → d.Even true := by
  have bare : Session.start.heap.Loose := fun o name v h => absurd h (by simp [Session.start, Heap.get?])
  refine ⟨?_, readAs_faithful loose_archive bare _ _⟩
  have given : ((catalogue.readAs (.ofHost archive) depthLimit "main" .default).run Session.start).1.join.isSome
      = true := by decide +kernel
  rcases run : (catalogue.readAs (.ofHost archive) depthLimit "main" .default).run Session.start with ⟨found, t⟩
  rw [run] at given
  obtain ⟨v, hv⟩ := Option.isSome_iff_exists.mp given
  obtain rfl : found = some (some v) := Option.join_eq_some_iff.mp hv
  exact ⟨v, t, Run.ended_iff.mpr run⟩

/-- What is reported when the text of a path that leads nowhere is given. -/
def literalMessage : String := "root path did not resolve; using literal text"

/-- The text that a reading gives, and the messages that are reported meanwhile, the newest first. -/
def told (x : Run (Option Value)) : Option (Option String) × List (Option String) :=
  ((x.run Session.start).1.map fun v => v.bind Value.string?, (x.run Session.start).2.events.map (·.message))

theorem exists_of_told {x : Run (Option Value)} {text : String} {messages : List (Option String)}
    (h : told x = (some (some text), messages)) :
    ∃ v t, x Session.start = some (some v, t) ∧ t.events.map (·.message) = messages := by
  obtain ⟨value, reported⟩ := Prod.ext_iff.mp h
  obtain ⟨given, ended, found⟩ := Option.map_eq_some_iff.mp value
  obtain ⟨v, rfl, -⟩ := Option.bind_eq_some_iff.mp found
  exact ⟨v, (x.run Session.start).2, Run.ended_iff.mpr (Prod.ext ended rfl), reported⟩

/-- A strict root may give text for a path that leads nowhere: the path goes on into a document, which by itself
is loose. -/
theorem not_readAs_faithful :
    ¬ ∀ (env : Surroundings) (hops : Nat) (data : Json) (handler : Handler) (path : String)
        (r : Representation) (s t : Session) (v : Value),
      ((make data handler).withStrict true).readAs env hops path r s = some (some v, t) →
      ∃ new, t.events = new ++ s.events ∧
        ∀ e ∈ new, e.message ≠ some missedMessage ∧ e.message ≠ some literalMessage := by
  intro faithful
  have run : told (catalogue.readAs (.ofHost archive) depthLimit "db.missing" .default)
      = (some (some "#nowhere"), [some literalMessage, some "dereference"]) := by decide +kernel
  obtain ⟨v, t, read, messages⟩ := exists_of_told run
  obtain ⟨new, events, none⟩ := faithful _ _ _ _ _ _ _ _ _ read
  have all : new.map (·.message) = [some literalMessage, some "dereference"] := by
    rw [← messages, events]
    exact congrArg _ (List.append_nil new).symm
  have mem : some literalMessage ∈ new.map (·.message) := by
    rw [all]
    exact List.mem_cons_self
  obtain ⟨e, he, same⟩ := List.mem_map.mp mem
  exact (none e he).2 same

-- the same root reads the document as a configuration, and finds nothing there
example : told (do
    match ← catalogue.readNode (.ofHost archive) depthLimit "db" with
    | some d => d.readAs (.ofHost archive) depthLimit "missing" .default
    | none => return some .null) = (some none, [some missedMessage, some "dereference"]) := by decide +kernel

end Configuration

end ObjectGraph
