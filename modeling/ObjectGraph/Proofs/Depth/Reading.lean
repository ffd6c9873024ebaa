import ObjectGraph.Configuration.Merge
import ObjectGraph.Proofs.Run

/-!
# `Proofs.Depth.Reading` — reading with more references to the root left

Only so many references to the root are followed inside each other; how many are left is handed on from a reading
to the readings inside it. With more of them left a reading does exactly what it does with fewer, as long as the
one with fewer comes to no reference that it cannot follow any more, which it reports. This is said of two runs by
`Run.Agrees`; the lemmas follow the definitions, one per function.

Contents:
* `tooDeepMessage`, `Run.Agrees` and its rules;
* `Surroundings.Agrees`; `Handler`: `dereferenceText_agrees` and what it is made of;
* `Configuration`: `resolveText_agrees`, `readAs_agrees`, the typed readings, `normalize_agrees`;
* `Value.atPath_agrees`.
-/

namespace ObjectGraph

/-- What is reported of a reference to the root that is not followed because too many are being followed. -/
def tooDeepMessage : String := "reference chain too deep; treating as absent"

namespace Run

variable {α β ι : Type} {x y : Run α}

/-- The second run does what the first does, unless the first reports a reference that it does not follow. Events
are only added. -/
def Agrees (x y : Run α) : Prop :=
  ∀ s, ∃ new, (x.run s).2.events = new ++ s.events ∧
    ((∀ e ∈ new, e.message ≠ some tooDeepMessage) → y.run s = x.run s)

namespace Agrees

/-- A run that reports nothing agrees with itself. -/
theorem of_events (h : ∀ s, (x.run s).2.events = s.events) : Agrees x x :=
  fun s => ⟨[], h s, fun _ => rfl⟩

theorem pure (a : α) : Agrees (Pure.pure a) (Pure.pure a) := of_events fun _ => rfl

theorem exhausted : Agrees (exhausted : Run α) exhausted := of_events fun _ => rfl

theorem heap : Agrees heap heap := of_events fun _ => rfl

theorem build : Agrees build build := of_events fun _ => rfl

theorem act (a : Act) : Agrees (act a) (act a) := of_events fun _ => rfl

theorem allocate (c : Component) : Agrees (allocate c) (allocate c) := of_events fun _ => rfl

theorem finish (o : ObjectId) : Agrees (finish o) (finish o) := of_events fun _ => rfl

theorem setProperty (o : ObjectId) (name : String) (v : Value) :
    Agrees (setProperty o name v) (setProperty o name v) := of_events fun _ => rfl

theorem openFile (host : Host) (path : String) : Agrees (openFile host path) (openFile host path) :=
  of_events fun _ => rfl

theorem report (l : Log.Level) (target message : String) (fields : List (String × Log.Field)) :
    Agrees (report l target message fields) (report l target message fields) :=
  fun _ => ⟨[⟨l, target, some message, fields⟩], rfl, fun _ => rfl⟩

/-- A run that reports a reference it does not follow agrees with any other. -/
theorem tooDeep (l : Log.Level) (target : String) (fields : List (String × Log.Field)) (a : α) (y : Run α) :
    Agrees (do Run.report l target tooDeepMessage fields; return a) y := by
  intro s
  refine ⟨[⟨l, target, some tooDeepMessage, fields⟩], rfl, ?_⟩
  intro none
  exact absurd rfl (none _ List.mem_cons_self)

/-- Rows of runs agree if their parts do. -/
theorem bind {f g : α → Run β} (hx : Agrees x y) (hf : ∀ a, Agrees (f a) (g a)) :
    Agrees (x >>= f) (y >>= g) := by
  intro s
  obtain ⟨new, events, same⟩ := hx s
  rcases hrun : x.run s with ⟨_ | a, t⟩ <;> rw [hrun] at events same
  · refine ⟨new, by rw [run_bind, hrun]; exact events, ?_⟩
    intro none
    rw [run_bind, run_bind, hrun, same none]
  · obtain ⟨more, further, alike⟩ := hf a t
    refine ⟨more ++ new, ?_, fun none => ?_⟩
    · rw [run_bind, hrun, List.append_assoc, ← events]
      exact further
    · rw [run_bind, run_bind, hrun, same fun e he => none e (List.mem_append_right _ he)]
      exact alike fun e he => none e (List.mem_append_left _ he)

end Agrees

/-- Both ways of going on are missing, or they agree. -/
inductive Alike : Option (ι → Run α) → Option (ι → Run α) → Prop where
  | none : Alike none none
  | some {f g : ι → Run α} (h : ∀ i, Agrees (f i) (g i)) : Alike (some f) (some g)

end Run

open Run (Agrees Alike)

/-- The container's schemes do the same with more references left. -/
def Surroundings.Agrees (env : Surroundings) : Prop :=
  ∀ p {few many : Nat}, few ≤ many → ∀ u params, Run.Agrees (env.portal p few u params) (env.portal p many u params)

variable {env : Surroundings} {few many : Nat}

/-! ## Dereferencing -/

namespace Handler

theorem applyFormat_agrees (host : Host) (handler : Handler) (v : Value) (u : Uri) :
    Agrees (applyFormat host handler v u) (applyFormat host handler v u) := by
  unfold applyFormat
  cases u.format with
  | none => exact .pure _
  | some name =>
      dsimp only
      cases handler.formats.lookup name with
      | none => exact .pure _
      | some f => exact .bind .heap fun _ => .pure _

theorem resolveScheme_agrees (he : env.Agrees) (le : few ≤ many) (u : Uri) (params : Params) (s : Scheme) :
    Agrees (resolveScheme env few u params s) (resolveScheme env many u params s) := by
  cases s with
  | files directory =>
      refine .bind (.openFile _ _) ?_
      intro bytes
      cases bytes with
      | error e => exact .pure _
      | ok bytes => exact .pure _
  | container portal => exact he portal le u params
  | _ => exact .pure _

theorem dereferenceIn_agrees (he : env.Agrees) (handler : Handler) (le : few ≤ many) (s : Scheme) (u : Uri)
    (params : Params) :
    Agrees (dereferenceIn env handler few s u params) (dereferenceIn env handler many s u params) := by
  refine .bind (.report _ _ _ _) fun _ => .bind (resolveScheme_agrees he le _ params s) ?_
  intro outcome
  match outcome with
  | .error e => exact .pure _
  | .ok none => exact .pure _
  | .ok (some v) => exact applyFormat_agrees _ _ _ _

theorem dereferenceAlias_agrees (env : Surroundings) (handler : Handler) {follow follow' : Option (Uri → Run Outcome)}
    (hf : Alike follow follow') (u : Uri) :
    Agrees (dereferenceAlias env handler follow u) (dereferenceAlias env handler follow' u) := by
  unfold dereferenceAlias
  cases hf with
  | none => exact .pure _
  | some h =>
      cases handler.aliases.lookup u.name with
      | none => exact .pure _
      | some text =>
          dsimp only
          cases Uri.parse text with
          | error e => exact .pure _
          | ok meant =>
              refine .bind (h meant) ?_
              intro outcome
              match outcome with
              | .error e => exact .pure _
              | .ok none => exact .pure _
              | .ok (some v) => exact applyFormat_agrees _ _ _ _

theorem keepParameter_agrees (whole : Uri) (name : String) (rest : Params) (outcome : Outcome) :
    Agrees (keepParameter whole name rest outcome) (keepParameter whole name rest outcome) := by
  match outcome with
  | .ok (some v) => exact .pure _
  | .ok none => exact .bind (.report _ _ _ _) fun _ => .pure _
  | .error e => exact .bind (.report _ _ _ _) fun _ => .pure _

mutual

theorem dereferenceWith_agrees (he : env.Agrees) (handler : Handler) (le : few ≤ many)
    {follow follow' : Option (Uri → Run Outcome)} (hf : Alike follow follow') (u : Uri) :
    Agrees (dereferenceWith env handler few follow u) (dereferenceWith env handler many follow' u) := by
  match u with
  | .mk scheme name fragment parameters format =>
      rw [dereferenceWith, dereferenceWith]
      by_cases aliased : (Uri.mk scheme name fragment parameters format).isAlias = true
      · rw [if_pos aliased, if_pos aliased]
        exact dereferenceAlias_agrees env handler hf _
      · rw [if_neg aliased, if_neg aliased]
        cases handler.schemes.lookup scheme with
        | none => exact .pure _
        | some s =>
            exact .bind (dereferenceParameters_agrees he handler le hf _ [] parameters)
              fun params => dereferenceIn_agrees he handler le s _ params

theorem dereferenceParameters_agrees (he : env.Agrees) (handler : Handler) (le : few ≤ many)
    {follow follow' : Option (Uri → Run Outcome)} (hf : Alike follow follow') (whole : Uri) (done : Params)
    (parameters : List (String × Uri)) :
    Agrees (dereferenceParameters env handler few follow whole done parameters)
      (dereferenceParameters env handler many follow' whole done parameters) := by
  match parameters with
  | [] => exact .pure _
  | (name, u) :: rest =>
      have next := fun done => dereferenceParameters_agrees he handler le hf whole done rest
      rw [dereferenceParameters, dereferenceParameters]
      cases plainText? u with
      | some text => exact .bind (.pure _) next
      | none =>
          exact .bind (dereferenceWith_agrees he handler le hf u) fun outcome =>
            .bind (keepParameter_agrees whole name done outcome) next

end

theorem dereference_agrees (he : env.Agrees) (handler : Handler) (le : few ≤ many) (aliases : Nat) (u : Uri) :
    Agrees (dereference env handler few aliases u) (dereference env handler many aliases u) := by
  induction aliases generalizing u with
  | zero => exact dereferenceWith_agrees he handler le .none u
  | succ aliases ih => exact dereferenceWith_agrees he handler le (.some ih) u

theorem dereferenceText_agrees (he : env.Agrees) (handler : Handler) (le : few ≤ many) (text : String) :
    Agrees (dereferenceText env handler few text) (dereferenceText env handler many text) := by
  unfold dereferenceText
  cases Uri.parse text with
  | error e => exact .bind (.report _ _ _ _) fun _ => .pure _
  | ok u =>
      refine .bind (dereference_agrees he handler le aliasLimit u) ?_
      intro outcome
      cases outcome with
      | error e => exact .bind (.report _ _ _ _) fun _ => .pure _
      | ok v => exact .pure _

end Handler

/-! ## Walking and resolving -/

namespace Configuration

/-- Two ways to resolve texts agree. -/
def Resolver.Agrees (r r' : Resolver) : Prop := ∀ c s, Run.Agrees (r c s) (r' c s)

variable {r r' : Resolver}

theorem arrive_agrees (hr : r.Agrees r') (cursor : Cursor) : Agrees (arrive r cursor) (arrive r' cursor) := by
  cases cursor with
  | value v => exact .pure _
  | raw c j =>
      cases j with
      | string s => exact hr c s
      | _ => exact .pure _

theorem settle_agrees (hr : r.Agrees r') (cursor : Cursor) : Agrees (settle r cursor) (settle r' cursor) := by
  cases cursor with
  | value v => exact .pure _
  | raw c j =>
      cases j with
      | string s => exact .bind (hr c s) fun _ => .pure _
      | _ => exact .pure _

theorem walk_agrees (hr : r.Agrees r') (segs : List String) (cursor : Cursor) :
    Agrees (walk r segs cursor) (walk r' segs cursor) := by
  induction segs generalizing cursor with
  | nil => exact arrive_agrees hr cursor
  | cons segment rest ih =>
      refine .bind (settle_agrees hr cursor) ?_
      intro settled
      cases settled with
      | none => exact .pure _
      | some settled =>
          refine .bind .heap ?_
          intro heap
          match step heap segment rest settled with
          | none => exact .pure _
          | some (.stop v) => exact .pure _
          | some (.go next) => exact ih next

theorem follow_agrees (hr : r.Agrees r') (v : Value) (path : String) :
    Agrees (follow r v path) (follow r' v path) := walk_agrees hr _ _

/-- Where the first way cannot go back to the root any more, the second may. -/
def Backs (back back' : Option Resolver) : Prop :=
  ∀ read ∈ back, ∃ read', back' = some read' ∧ read.Agrees read'

theorem followRoot_agrees {back back' : Option Resolver} (hb : Backs back back') (c : Configuration)
    (path literal : String) : Agrees (followRoot back c path literal) (followRoot back' c path literal) := by
  cases back with
  | none => exact .tooDeep _ _ _ _ _
  | some read =>
      obtain ⟨read', rfl, hr⟩ := hb read rfl
      refine .bind (hr c.root path) ?_
      intro v
      cases v with
      | some v => exact .pure _
      | none =>
          dsimp only
          cases c.strict with
          | true => exact .bind (.report _ _ _ _) fun _ => .pure _
          | false => exact .bind (.report _ _ _ _) fun _ => .pure _

theorem reportUnbound_agrees (names : List String) : Agrees (reportUnbound names) (reportUnbound names) := by
  induction names with
  | nil => exact .pure _
  | cons name names ih => exact .bind (.report _ _ _ _) fun _ => ih

theorem replaceText_agrees (he : env.Agrees) {back back' : Option Resolver} (hb : Backs back back')
    (le : few ≤ many) (c : Configuration) (supplied : String) (n : Nat) (current : String) :
    Agrees (replaceText env back few c supplied n current) (replaceText env back' many c supplied n current) := by
  induction n generalizing current with
  | zero => exact .bind (.report _ _ _ _) fun _ => .pure _
  | succ n ih =>
      rw [replaceText, replaceText]
      split
      · split
        · exact ih _
        · exact .pure _
        · exact .bind (.report _ _ _ _) fun _ => .pure _
      · exact .bind .heap fun _ => .bind (reportUnbound_agrees _) fun _ => ih _
      · exact Handler.dereferenceText_agrees he c.handler le _
      · exact followRoot_agrees hb c _ _
      · exact .pure _
      · exact .pure _

/-- Texts are resolved to the same with more references to the root left. -/
theorem resolveText_agrees (he : env.Agrees) (le : few ≤ many) :
    (resolveText env few).Agrees (resolveText env many) := by
  induction few generalizing many with
  | zero =>
      intro c s
      have nowhere : ∀ back', Backs none back' := fun back' read hm => absurd hm (by simp)
      cases many with
      | zero => exact replaceText_agrees he (nowhere _) le c s _ s
      | succ many => exact replaceText_agrees he (nowhere _) le c s _ s
  | succ few ih =>
      obtain ⟨many, rfl⟩ := Nat.exists_eq_add_one_of_ne_zero (Nat.ne_zero_of_lt le)
      intro c s
      refine replaceText_agrees he ?_ le c s _ s
      rintro _ ⟨⟩
      exact ⟨_, rfl, fun root path => follow_agrees (ih (Nat.le_of_succ_le_succ le)) _ path⟩

/-! ## Reading -/

section

variable (he : env.Agrees) (le : few ≤ many) (c : Configuration)

include he le

theorem valueAt_agrees (path : String) : Agrees (c.valueAt env few path) (c.valueAt env many path) :=
  follow_agrees (resolveText_agrees he le) _ path

theorem readAs_agrees (path : String) (r : Representation) :
    Agrees (c.readAs env few path r) (c.readAs env many path r) := by
  refine .bind (valueAt_agrees he le c path) ?_
  intro v
  cases v with
  | none => exact .pure _
  | some v => exact .bind .heap fun _ => .pure _

theorem readString_agrees (path : String) : Agrees (c.readString env few path) (c.readString env many path) :=
  .bind (readAs_agrees he le c path .string) fun _ => .pure _

theorem readNode_agrees (path : String) : Agrees (c.readNode env few path) (c.readNode env many path) := by
  refine .bind (readAs_agrees he le c path .configuration) ?_
  intro v
  split
  · exact .pure _
  · exact .pure _

theorem readNodes_agrees (keys : List String) :
    Agrees (c.readNodes env few keys) (c.readNodes env many keys) := by
  induction keys with
  | nil => exact .pure _
  | cons key keys ih => exact .bind (readNode_agrees he le c key) fun _ => .bind ih fun _ => .pure _

theorem readList_agrees (path : String) : Agrees (c.readList env few path) (c.readList env many path) := by
  refine .bind (readNode_agrees he le c path) ?_
  intro node
  cases node with
  | none => exact .pure _
  | some d =>
      dsimp only
      cases d.isList with
      | true => exact readNodes_agrees he le d _
      | false => exact .pure _

/-! ## Merging -/

theorem mixinAt_agrees (key : String) : Agrees (c.mixinAt env few key) (c.mixinAt env many key) := by
  unfold mixinAt
  cases c.has key with
  | true =>
      refine .bind (readNode_agrees he le c key) ?_
      intro upper
      cases upper with
      | some upper => exact .pure _
      | none => exact .bind (.report _ _ _ _) fun _ => .pure _
  | false => exact .pure _

theorem mixins_agrees : Agrees (c.mixins env few) (c.mixins env many) := by
  refine .bind (mixinAt_agrees he le c _) fun _ => .bind (mixinAt_agrees he le c _) ?_
  intro _
  cases c.has mixinsKey with
  | true => exact .bind (readList_agrees he le c _) fun _ => .pure _
  | false => exact .bind (.pure _) fun _ => .pure _

theorem flatten_agrees : Agrees (c.flatten env few) (c.flatten env many) :=
  .bind (mixins_agrees he le c) fun _ => .pure _

theorem parent?_agrees : Agrees (c.parent? env few) (c.parent? env many) := by
  unfold parent?
  cases c.has extendsKey with
  | true =>
      refine .bind (readNode_agrees he le c _) ?_
      intro p
      cases p with
      | some p => exact .bind (flatten_agrees he le p) fun _ => .pure _
      | none => exact .bind (.report _ _ _ _) fun _ => .pure _
  | false => exact .pure _

theorem chain_agrees (n : Nat) (seen : List Configuration) (node : Configuration) :
    Agrees (chain env few n seen node) (chain env many n seen node) := by
  induction n generalizing seen node with
  | zero => exact .exhausted
  | succ n ih =>
      rw [chain, chain]
      cases seen.any (·.equals node) with
      | true => exact .bind (.report _ _ _ _) fun _ => .pure _
      | false =>
          refine .bind (parent?_agrees he le node) ?_
          intro p
          cases p with
          | none => exact .pure _
          | some p => exact ih _ p

theorem normalize_agrees (n : Nat) : Agrees (c.normalize env few n) (c.normalize env many n) := by
  unfold normalize
  cases c.data.isObject with
  | true =>
      exact .bind (flatten_agrees he le c) fun flat => .bind (chain_agrees he le n [] flat) fun _ => .pure _
  | false => exact flatten_agrees he le c

end

end Configuration

theorem Value.atPath_agrees (he : env.Agrees) (le : few ≤ many) (v : Value) (path : String) :
    Agrees (v.atPath env few path) (v.atPath env many path) :=
  Configuration.follow_agrees (Configuration.resolveText_agrees he le) v path

end ObjectGraph
