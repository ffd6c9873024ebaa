import ObjectGraph.Configuration.Merge
import ObjectGraph.Proofs.Run

/-!
# `Proofs.Reading` — reading keeps to every course that the container's schemes keep to

Reading a configuration reports events and asks for files; anything else it does, it does through the
container's schemes. So whatever these keep to (`Surroundings.Within`), dereferencing, resolving texts, walking
along paths, merging and normalizing keep to as well. The proofs follow the definitions, one lemma per
function; for dereferencing they hold of any property of rows of runs.

Contents:
* `Surroundings.All`, `Surroundings.Within`;
* `Handler`: `dereferenceText_rowwise` and what it is made of, `dereferenceText_within`;
* `Configuration`: `valueAt_within`, `readAs_within`, the typed readings;
* `Configuration`: `flatten_within`, `normalize_within`.
-/

namespace ObjectGraph

open Run (Course Within)

variable {R : Course} {env : Surroundings}

/-- What the container's schemes run has a property. -/
def Surroundings.All (P : (α : Type) → Run α → Prop) (env : Surroundings) : Prop :=
  ∀ p hops u params, P _ (env.portal p hops u params)

/-- The container's schemes keep to a course. -/
def Surroundings.Within (R : Course) (env : Surroundings) : Prop :=
  ∀ p hops u params, Run.Within R (env.portal p hops u params)

/-! ## Dereferencing -/

namespace Handler

section

variable {P : (α : Type) → Run α → Prop} (hP : Run.Rowwise P)

include hP

theorem applyFormat_rowwise (host : Host) (handler : Handler) (v : Value) (u : Uri) :
    P _ (applyFormat host handler v u) := by
  unfold applyFormat
  split
  · exact hP.pure _
  · split
    · exact hP.pure _
    · exact hP.bind hP.heap fun heap => hP.pure _

theorem readFile_rowwise (host : Host) (directory : String) (u : Uri) :
    P _ (readFile host directory u) := by
  refine hP.bind (hP.openFile host _) fun bytes => ?_
  cases bytes with
  | error e => exact hP.pure _
  | ok bytes => exact hP.pure _

theorem dereferenceAlias_rowwise (env : Surroundings) (handler : Handler)
    {follow : Option (Uri → Run Outcome)} (hf : ∀ f ∈ follow, ∀ u, P _ (f u)) (u : Uri) :
    P _ (dereferenceAlias env handler follow u) := by
  unfold dereferenceAlias
  split
  · split
    · exact hP.pure _
    · refine hP.bind (hf _ rfl _) fun outcome => ?_
      cases outcome with
      | error e => exact hP.pure _
      | ok v =>
          cases v with
          | none => exact hP.pure _
          | some v => exact applyFormat_rowwise hP _ _ _ _
  · exact hP.pure _

theorem keepParameter_rowwise (whole : Uri) (name : String) (rest : Params)
    (outcome : Outcome) : P _ (keepParameter whole name rest outcome) := by
  cases outcome with
  | error e => exact hP.bind (hP.report _ _ _ _) fun _ => hP.pure _
  | ok v =>
      cases v with
      | none => exact hP.bind (hP.report _ _ _ _) fun _ => hP.pure _
      | some v => exact hP.pure _

theorem resolveScheme_rowwise (he : env.All P) (hops : Nat) (u : Uri)
    (params : Params) (s : Scheme) : P _ (resolveScheme env hops u params s) := by
  cases s with
  | files directory => exact readFile_rowwise hP env.host directory u
  | container portal => exact he portal hops u params
  | _ => exact hP.pure _

theorem dereferenceIn_rowwise (he : env.All P) (handler : Handler) (hops : Nat)
    (s : Scheme) (u : Uri) (params : Params) :
    P _ (dereferenceIn env handler hops s u params) := by
  refine hP.bind (hP.report _ _ _ _) fun _ => hP.bind (resolveScheme_rowwise hP he hops _ params s)
    fun outcome => ?_
  cases outcome with
  | error e => exact hP.pure _
  | ok v =>
      cases v with
      | none => exact hP.pure _
      | some v => exact applyFormat_rowwise hP _ _ _ _

mutual

theorem dereferenceWith_rowwise (he : env.All P) (handler : Handler) (hops : Nat)
    {follow : Option (Uri → Run Outcome)} (hf : ∀ f ∈ follow, ∀ u, P _ (f u)) (u : Uri) :
    P _ (dereferenceWith env handler hops follow u) := by
  match u with
  | .mk scheme name fragment parameters format =>
      unfold dereferenceWith
      dsimp only
      split
      · exact dereferenceAlias_rowwise hP env handler hf _
      · split
        · exact hP.pure _
        · exact hP.bind (dereferenceParameters_rowwise he handler hops hf _ [] parameters)
            fun params => dereferenceIn_rowwise hP he handler hops _ _ params

theorem dereferenceParameters_rowwise (he : env.All P) (handler : Handler) (hops : Nat)
    {follow : Option (Uri → Run Outcome)} (hf : ∀ f ∈ follow, ∀ u, P _ (f u)) (whole : Uri)
    (done : Params) (parameters : List (String × Uri)) :
    P _ (dereferenceParameters env handler hops follow whole done parameters) := by
  match parameters with
  | [] => exact hP.pure _
  | (name, u) :: rest =>
      have next := fun done => dereferenceParameters_rowwise he handler hops hf whole done rest
      unfold dereferenceParameters
      dsimp only
      split
      · exact hP.bind (hP.pure _) next
      · exact hP.bind (dereferenceWith_rowwise he handler hops hf u) fun outcome =>
          hP.bind (keepParameter_rowwise hP whole name done outcome) next

end

theorem dereference_rowwise (he : env.All P) (handler : Handler) (hops aliases : Nat)
    (u : Uri) : P _ (dereference env handler hops aliases u) := by
  induction aliases generalizing u with
  | zero => exact dereferenceWith_rowwise hP he handler hops (fun f hf => absurd hf (by simp)) u
  | succ aliases ih =>
      refine dereferenceWith_rowwise hP he handler hops (fun f hf => ?_) u
      cases hf
      exact ih

theorem dereferenceText_rowwise (he : env.All P) (handler : Handler) (hops : Nat)
    (text : String) : P _ (dereferenceText env handler hops text) := by
  unfold dereferenceText
  cases Uri.parse text with
  | error e => exact hP.bind (hP.report _ _ _ _) fun _ => hP.pure _
  | ok u =>
      refine hP.bind (dereference_rowwise hP he handler hops aliasLimit u) fun outcome => ?_
      cases outcome with
      | error e => exact hP.bind (hP.report _ _ _ _) fun _ => hP.pure _
      | ok v => exact hP.pure _

end

theorem dereferenceText_within (he : env.Within R) (handler : Handler) (hops : Nat) (text : String) :
    Within R (dereferenceText env handler hops text) :=
  dereferenceText_rowwise (Within.rowwise R) he handler hops text

end Handler

/-! ## Walking and resolving -/

namespace Configuration

theorem resolveJson_within {resolve : Resolver} (hr : ∀ c s, Within R (resolve c s))
    (c : Configuration) (j : Json) : Within R (resolveJson resolve c j) := by
  cases j with
  | string s => exact hr c s
  | _ => exact .pure _

theorem arrive_within {resolve : Resolver} (hr : ∀ c s, Within R (resolve c s))
    (cursor : Cursor) : Within R (arrive resolve cursor) := by
  cases cursor with
  | value v => exact .pure _
  | raw c j => exact resolveJson_within hr c j

theorem settle_within {resolve : Resolver} (hr : ∀ c s, Within R (resolve c s))
    (cursor : Cursor) : Within R (settle resolve cursor) := by
  unfold settle
  split
  · exact .bind (hr _ _) fun v => .pure _
  · exact .pure _

theorem walk_within {resolve : Resolver} (hr : ∀ c s, Within R (resolve c s))
    (path : List String) (cursor : Cursor) : Within R (walk resolve path cursor) := by
  induction path generalizing cursor with
  | nil => exact arrive_within hr cursor
  | cons segment rest ih =>
      refine .bind (settle_within hr cursor) fun settled => ?_
      cases settled with
      | none => exact .pure _
      | some settled =>
          refine .bind (.heap) fun heap => ?_
          cases step heap segment rest settled with
          | none => exact .pure _
          | some move =>
              cases move with
              | stop v => exact .pure _
              | go next => exact ih next

theorem follow_within {resolve : Resolver} (hr : ∀ c s, Within R (resolve c s))
    (v : Value) (path : String) : Within R (follow resolve v path) :=
  walk_within hr (segments path) (.value v)

theorem followRoot_within {back : Option Resolver}
    (hb : ∀ f ∈ back, ∀ c s, Within R (f c s)) (c : Configuration) (path literal : String) :
    Within R (followRoot back c path literal) := by
  unfold followRoot
  cases back with
  | none => exact .bind (.report _ _ _ _) fun _ => .pure _
  | some read =>
      refine .bind (hb read rfl _ _) fun v => ?_
      split
      · exact .pure _
      · split
        · exact .bind (.report _ _ _ _) fun _ => .pure _
        · exact .bind (.report _ _ _ _) fun _ => .pure _

theorem reportUnbound_within (names : List String) :
    Within R (reportUnbound names) := by
  induction names with
  | nil => exact .pure _
  | cons name names ih => exact .bind (.report _ _ _ _) fun _ => ih

theorem reportUnbound_ends (names : List String) : Run.Ends (reportUnbound names) fun _ => True := by
  induction names with
  | nil => exact .pure trivial
  | cons name names ih => exact (Run.Ends.report _ _ _ _).bind fun _ _ => ih

theorem replaceText_within (he : env.Within R) {back : Option Resolver}
    (hb : ∀ f ∈ back, ∀ c s, Within R (f c s)) (hops : Nat) (c : Configuration) (supplied : String)
    (n : Nat) (current : String) : Within R (replaceText env back hops c supplied n current) := by
  induction n generalizing current with
  | zero => exact .bind (.report _ _ _ _) fun _ => .pure _
  | succ n ih =>
      unfold replaceText
      split
      · split
        · exact ih _
        · exact .pure _
        · exact .bind (.report _ _ _ _) fun _ => .pure _
      · exact .bind (.heap) fun heap => .bind (reportUnbound_within _) fun _ => ih _
      · exact Handler.dereferenceText_within he c.handler hops _
      · exact followRoot_within hb c _ current
      · exact .pure _
      · exact .pure _

theorem resolveText_within (he : env.Within R) (hops : Nat) (c : Configuration)
    (s : String) : Within R (resolveText env hops c s) := by
  induction hops generalizing c s with
  | zero => exact replaceText_within he (fun f hf => absurd hf (by simp)) _ _ _ _ _
  | succ hops ih =>
      refine replaceText_within he (fun f hf => ?_) _ _ _ _ _
      cases hf
      exact fun root path => follow_within ih _ path

/-! ## Reading -/

section

variable (he : env.Within R) (hops : Nat) (c : Configuration)

include he

theorem valueAt_within (path : String) : Within R (c.valueAt env hops path) :=
  follow_within (resolveText_within he hops) _ path

theorem readAs_within (path : String) (r : Representation) :
    Within R (c.readAs env hops path r) := by
  refine .bind (valueAt_within he hops c path) fun v => ?_
  cases v with
  | none => exact .pure _
  | some v => exact .bind (.heap) fun heap => .pure _

theorem readString_within (path : String) : Within R (c.readString env hops path) :=
  .bind (readAs_within he hops c path .string) fun _ => .pure _

theorem readNode_within (path : String) : Within R (c.readNode env hops path) := by
  refine .bind (readAs_within he hops c path .configuration) fun v => ?_
  split
  · exact .pure _
  · exact .pure _

theorem readNodes_within (keys : List String) : Within R (c.readNodes env hops keys) := by
  induction keys with
  | nil => exact .pure _
  | cons key keys ih =>
      exact .bind (readNode_within he hops c key) fun _ => .bind ih fun _ => .pure _

theorem readList_within (path : String) : Within R (c.readList env hops path) := by
  refine .bind (readNode_within he hops c path) fun node => ?_
  cases node with
  | none => exact .pure _
  | some d =>
      simp only
      split
      · exact readNodes_within he hops d _
      · exact .pure _

/-! ## Merging -/

theorem mixinAt_within (key : String) : Within R (c.mixinAt env hops key) := by
  unfold mixinAt
  split
  · refine .bind (readNode_within he hops c key) fun upper => ?_
    cases upper with
    | some upper => exact .pure _
    | none => exact .bind (.report _ _ _ _) fun _ => .pure _
  · exact .pure _

theorem mixins_within : Within R (c.mixins env hops) := by
  refine .bind (mixinAt_within he hops c _) fun _ =>
    .bind (mixinAt_within he hops c _) fun _ => ?_
  dsimp only
  split
  · exact .bind (readList_within he hops c _) fun _ => .pure _
  · exact .bind (.pure _) fun _ => .pure _

theorem flatten_within : Within R (c.flatten env hops) :=
  .bind (mixins_within he hops c) fun _ => .pure _

theorem parent?_within : Within R (c.parent? env hops) := by
  unfold parent?
  split
  · refine .bind (readNode_within he hops c _) fun p => ?_
    cases p with
    | some p => exact .bind (flatten_within he hops p) fun _ => .pure _
    | none => exact .bind (.report _ _ _ _) fun _ => .pure _
  · exact .pure _

theorem chain_within (n : Nat) (seen : List Configuration) (node : Configuration) :
    Within R (chain env hops n seen node) := by
  induction n generalizing seen node with
  | zero => exact .exhausted
  | succ n ih =>
      unfold chain
      split
      · exact .bind (.report _ _ _ _) fun _ => .pure _
      · refine .bind (parent?_within he hops node) fun p => ?_
        cases p with
        | none => exact .pure _
        | some p => exact ih _ p

theorem normalize_within (n : Nat) : Within R (c.normalize env hops n) := by
  unfold normalize
  split
  · exact .bind (flatten_within he hops c) fun flat =>
      .bind (chain_within he hops n [] flat) fun _ => .pure _
  · exact flatten_within he hops c

end

end Configuration

theorem Value.atPath_within (he : env.Within R) (hops : Nat) (v : Value)
    (path : String) : Within R (v.atPath env hops path) :=
  Configuration.follow_within (Configuration.resolveText_within he hops) v path

end ObjectGraph
