import ObjectGraph.Proofs.Canonical
import ObjectGraph.Proofs.Settled
import ObjectGraph.Proofs.Untouched
import ObjectGraph.Proofs.Wired.Evaluation

/-!
# `Proofs.Early` — references that are read early

A reference to a name may have a path to follow into the value and a format to apply to what is there. Both
are read at the moment at which the reference is. While the name is building, a placeholder stands for its
value: it takes the path, which is followed when the name is built, but a format makes nothing of it. And
the value of a name that is built may be a component some of whose properties are still to be assigned: a
path to one of those leads to nothing.

So a property with such a reference stays as it is, and nothing waits to set it later (`configureKey_early`). Nobody
comes back to it either, so that it is not set in the finished graph (`pass_early`), although the name is built in the
end and has a value at the path. In another order the property gets that value (`lacks_final_value`).

Contents:
* `Uri.toName`, `Handler.ConvertsOnly`, `format_pending`;
* `dereferenceUri_building`, `dereferenceUri_unset`;
* `Projects`, `Configuration.RefersAt`; `configureKey_building`, `configureKey_unset`;
* `Container.configureKey_early`;
* `Visits`, `VisitsEarly`, `ReadsEarlyAmong`; `pass_early`;
* `lacks_final_value`, for two graphs.
-/

namespace ObjectGraph

open Run (After Quiet)

open Run (Yields)

/-! ## Formats -/

/-- The URI of a name, with a path to follow and a format to apply. -/
def Uri.toName (n : String) (path format : Option String) : Uri := .mk "named" n path [] format

namespace Handler

/-- The formats of a handler convert, in the standard way, to representations that are no mere copies. -/
structure ConvertsOnly (handler : Handler) : Prop where
  converter : handler.converter = .standard
  formats : ∀ name f, handler.formats.lookup name = some f →
    f = .data ∨ ∃ r, r ≠ .default ∧ f = .representation r

/-- Nothing is made of a placeholder by a format. -/
theorem format_pending {handler : Handler} (hc : handler.ConvertsOnly) {name : String} {f : Format}
    (hf : handler.formats.lookup name = some f) (host : Host) (heap : Heap) (p : Pending) :
    handler.format host heap (.pending p) f = none := by
  rcases hc.formats name f hf with rfl | ⟨r, hr, rfl⟩
  · show handler.converter.convert host heap (.pending p) .data = none
    rw [hc.converter]
    rfl
  · by_cases hconf : r = .configuration
    · subst hconf
      rfl
    · have converts : handler.format host heap (.pending p) (.representation r)
          = handler.converter.convert host heap (.pending p) r := by
        cases r <;> first | rfl | exact absurd rfl hconf
      rw [converts, hc.converter]
      cases r <;> first | rfl | exact absurd rfl hconf | exact absurd rfl hr

/-- The container's schemes add no formats. -/
theorem ConvertsOnly.withContainer {handler : Handler} (h : handler.ConvertsOnly) :
    handler.withContainer.ConvertsOnly :=
  ⟨h.converter, h.formats⟩

/-- The standard handler converts only. -/
theorem convertsOnly_standard : Handler.standard.ConvertsOnly where
  converter := rfl
  formats name f hf := by
    have all : ∀ e ∈ Handler.standard.formats, e.2 = .data ∨ ∃ r ∈ Representation.all, r ≠ .default ∧
        e.2 = .representation r := by
      decide +kernel
    obtain h | ⟨r, -, hr⟩ := all _ (Table.mem_of_lookup hf)
    · exact .inl h
    · exact .inr ⟨r, hr⟩

end Handler

/-! ## Paths -/

/-- The placeholder for a name takes a path. -/
theorem Value.atPath_make (env : Surroundings) (hops : Nat) (n path : String) :
    (Value.pending (.make n none)).atPath env hops path = pure (some (.pending (.make n (some path)))) := by
  rw [Value.atPath_pending]
  by_cases h : path = ""
  · rw [if_pos h, h]
    rfl
  · rw [if_neg h]
    rfl

/-- The property of a component is what it is now. -/
theorem Value.atPath_object (env : Surroundings) (hops : Nat) (o : ObjectId) {path : String} (hp : IsName path)
    (s : Session) : Yields ((Value.object o).atPath env hops path) s (s.heap.get? o path) := by
  have step : ∀ heap : Heap, Configuration.stepValue heap (.object o) path []
      = (heap.get? o path).map fun w => .go (.value w) := by
    intro heap
    exact if_neg fun h => hp.1 h.1
  rw [Value.atPath, Configuration.follow_cons (Configuration.segments_of_isName hp)]
  refine (Yields.heap s).bind fun t ht => ?_
  rw [step]
  cases s.heap.get? o path with
  | none => exact .pure none t
  | some v => exact .pure (some v) t

namespace Container

variable {k : Container} {m : Machine} {hops : Nat} {n : String} {path format : Option String} {s : Session}

/-! ## References -/

/-- The container has a placeholder for a name that is building. -/
theorem tryGetNamed_building {ws : List Waiter} (hb : s.build.stateOf? n = some (.building ws)) :
    Yields (k.tryGetNamed m hops n) s (.ok (some (.pending (.make n none)))) := by
  refine (Yields.build s).bind fun t ht => ?_
  rw [hb]
  exact (Yields.report _ _ _ _ t).bind fun u _ => .pure _ u

/-- The container has the value of a name that is built. -/
theorem tryGetNamed_built {v : Value} (hb : s.build.stateOf? n = some (.built v)) :
    Yields (k.tryGetNamed m hops n) s (.ok (some v)) := by
  refine (Yields.build s).bind fun t ht => ?_
  rw [hb]
  exact .pure _ t

/-- The placeholder for a name that is building takes the path of the reference. -/
theorem portal_building {ws : List Waiter} (hb : s.build.stateOf? n = some (.building ws)) :
    Yields (k.portal m .named hops (.toName n path format) []) s (.ok (some (.pending (.make n path)))) := by
  refine (tryGetNamed_building hb).bind fun t _ => ?_
  have projects : k.project m hops (.toName n path format) (some (.pending (.make n none)))
      = pure (some (.pending (.make n path))) := by
    cases path with
    | none => rfl
    | some p => exact Value.atPath_make (k.surroundings m) hops n p
  show Yields (k.project m hops (.toName n path format) (some (.pending (.make n none))) >>= fun v =>
    (pure (.ok v) : Run Outcome)) t _
  rw [projects]
  exact .pure _ t

/-- What the property of a component is now is what a reference to it gives. -/
theorem portal_built {o : ObjectId} (hb : s.build.stateOf? n = some (.built (.object o))) {p : String}
    (hp : IsName p) :
    Yields (k.portal m .named hops (.toName n (some p) format) []) s (.ok (s.heap.get? o p)) := by
  refine (tryGetNamed_built hb).bind fun t ht => ?_
  rw [← ht.heap]
  exact (Value.atPath_object (k.surroundings m) hops o hp t).bind fun u _ => .pure _ u

end Container

namespace Handler

variable {env : Surroundings} {handler : Handler} {hops : Nat} {n : String} {path format : Option String}
variable {s : Session}

/-- What a reference leads to: what the container has, with the format applied; a failure counts as nothing. -/
theorem dereferenceUri_toName (hs : handler.schemes.lookup "named" = some (.container .named)) {v : Option Value}
    {o : Outcome} (hv : ∀ t, Quiet s t → Yields (env.portal .named hops (.toName n path format) []) t (.ok v))
    (hn : v = none → o = .ok none)
    (hx : ∀ x, v = some x → ∀ t, Quiet s t → Yields (applyFormat env.host handler
      (handler.attach (.container .named) (.toName n path format) x) (.toName n path format)) t o) :
    Yields (handler.dereferenceUri env hops (.toName n path format)) s o.toOption.join := by
  have other : (Uri.mk "named" n path [] format).isAlias = false := rfl
  have tried : tryDereference env handler hops (.toName n path format)
      = dereferenceIn env handler hops (.container .named) (.toName n path format) [] := by
    unfold tryDereference aliasLimit dereference Uri.toName
    rw [dereferenceWith, other, hs]
    rfl
  have read : Yields (tryDereference env handler hops (.toName n path format)) s o := by
    rw [tried]
    refine (Yields.report _ _ _ _ s).bind fun t ht => (hv t ht).bind fun u hu => ?_
    cases v with
    | none =>
        rw [hn rfl]
        exact .pure _ u
    | some x => exact hx x rfl u (ht.trans hu)
  refine read.bind fun t _ => ?_
  cases o with
  | ok v => exact .pure v t
  | error e => exact (Yields.report _ _ _ _ t).bind fun u _ => .pure none u

/-- A format fails on a placeholder, or makes nothing of it. -/
theorem applyFormat_pending (hc : handler.ConvertsOnly) (host : Host) (n : String) (path : Option String)
    (name : String) (p : Pending) :
    ∃ o : Outcome, o.toOption.join = none ∧
      ∀ t, Yields (applyFormat host handler (.pending p) (.toName n path (some name))) t o := by
  cases hf : handler.formats.lookup name with
  | none =>
      refine ⟨.error (.unknownFormat name), rfl, fun t => ?_⟩
      simp only [applyFormat, Uri.toName, Uri.format, hf]
      exact .pure _ t
  | some f =>
      refine ⟨.ok none, rfl, fun t => ?_⟩
      simp only [applyFormat, Uri.toName, Uri.format, hf]
      refine (Yields.heap t).bind fun u _ => ?_
      rw [format_pending hc hf]
      exact .pure _ u

/-- While its name is building, a reference leads to a placeholder, or to nothing if it has a format. -/
theorem dereferenceUri_building {k : Container} {m m' : Machine} (hm : m'.portal = k.portal m)
    (hs : handler.schemes.lookup "named" = some (.container .named)) (hc : handler.ConvertsOnly)
    {ws : List Waiter} (hb : s.build.stateOf? n = some (.building ws)) :
    Yields (handler.dereferenceUri (k.surroundings m') hops (.toName n path format)) s
      (if format.isNone then some (.pending (.make n path)) else none) := by
  have portal : ∀ t, Quiet s t → Yields ((k.surroundings m').portal .named hops (.toName n path format) []) t
      (.ok (some (.pending (.make n path)))) := by
    intro t ht
    show Yields (m'.portal .named hops (.toName n path format) []) t _
    rw [hm]
    exact Container.portal_building (by rw [ht.build]; exact hb)
  cases format with
  | none =>
      refine dereferenceUri_toName (o := .ok (some (.pending (.make n path)))) hs portal (by simp) ?_
      rintro x ⟨⟩ t -
      exact .pure _ t
  | some name =>
      obtain ⟨o, ho, applied⟩ := applyFormat_pending hc k.host n path name (.make n path)
      have leads := dereferenceUri_toName (s := s) (o := o) hs portal (by simp) fun x hx t _ => by
        obtain rfl := Option.some.inj hx
        exact applied t
      rwa [ho] at leads

/-- A reference to a property that a component does not have yet leads to nothing. -/
theorem dereferenceUri_unset {k : Container} {m m' : Machine} (hm : m'.portal = k.portal m)
    (hs : handler.schemes.lookup "named" = some (.container .named)) {o : ObjectId}
    (hb : s.build.stateOf? n = some (.built (.object o))) {p : String} (hp : IsName p)
    (unset : s.heap.get? o p = none) :
    Yields (handler.dereferenceUri (k.surroundings m') hops (.toName n (some p) format)) s none := by
  refine dereferenceUri_toName (o := .ok none) (v := none) hs (fun t ht => ?_) (fun _ => rfl) (by simp)
  show Yields (m'.portal .named hops (.toName n (some p) format) []) t _
  rw [hm, ← unset, ← ht.heap]
  exact Container.portal_built (by rw [ht.build]; exact hb) hp

end Handler

/-! ## Properties -/

/-- A text that refers to a name, with a path to follow and a format to apply. -/
def Projects (text n : String) (path format : Option String) : Prop :=
  ∃ rest, text.toList = '@' :: rest ∧ Uri.parse (String.ofList rest) = .ok (.toName n path format)

/-- The usual way to write such a reference: names and paths are encoded. -/
theorem projects_canonical (n : String) (path : Option String) {format : Option String}
    (hf : ∀ f ∈ format, Uri.IsToken Uri.isWord f) :
    Projects (String.ofList ('@' :: (Uri.toName n path format).write)) n path format := by
  have formed : (Uri.toName n path format).WellFormed :=
    .mk Uri.isScheme_named List.Pairwise.nil (by simp) (by simp) hf
  exact ⟨_, String.toList_ofList, Uri.parse_canonical formed⟩

/-- The text at a key of a node refers to a name, with a path to follow and a format to apply. -/
structure Configuration.RefersAt (node : Configuration) (key n : String) (path format : Option String) : Prop where
  scheme : node.handler.schemes.lookup "named" = some (.container .named)
  converts : node.handler.ConvertsOnly
  isName : IsName key
  text : ∃ text, node.data.child? key = some (.string text) ∧ Projects text n path format

namespace Container

variable {k : Container} {m m' : Machine} {hops : Nat} {n text : String} {path format : Option String}
variable {node : Configuration} {s : Session}

/-- A reference is resolved to what its URI leads to. -/
theorem resolveText_projects (ht : Projects text n path format) {v : Option Value}
    (hv : ∀ hops, Yields (node.handler.dereferenceUri (k.surroundings m') hops (.toName n path format)) s v) :
    Yields (Configuration.resolveText (k.surroundings m') hops node text) s v := by
  obtain ⟨rest, hrest, hparse⟩ := ht
  have resolved : ∀ back hops', Yields (Configuration.replaceText (k.surroundings m') back hops' node text
      Configuration.depthLimit text) s v := by
    intro back hops'
    unfold Configuration.depthLimit Configuration.replaceText
    rw [hrest]
    show Yields (node.handler.dereferenceText (k.surroundings m') hops' (String.ofList rest)) s v
    unfold Handler.dereferenceText
    rw [hparse]
    exact hv hops'
  cases hops with
  | zero => exact resolved none 0
  | succ hops => exact resolved _ (hops + 1)

/-- The value for a property with a reference that leads to nothing, or to a placeholder. -/
theorem buildValue_projects {key : String} (hk : IsName key) (hj : node.data.child? key = some (.string text))
    (ht : Projects text n path format) (type : PropertyType) (existing : Option Value) (context : String)
    {v : Option Value}
    (hv : ∀ hops, Yields (node.handler.dereferenceUri (k.surroundings m') hops (.toName n path format)) s v)
    (hw : ∀ w, v = some w → ∃ p, w = .pending p) :
    Yields (k.buildValue m' hops node key type existing context) s (.ok v) := by
  rw [buildValue_of_not_container hk hj rfl]
  refine (resolveText_projects ht hv).bind fun t _ => ?_
  cases v with
  | none => exact .pure _ t
  | some w =>
      obtain ⟨p, rfl⟩ := hw w rfl
      exact .pure _ t

/-- A property with a reference that leads to nothing stays as it is. -/
theorem configureKey_dropped {key : String} (refers : node.RefersAt key n path format)
    (hv : ∀ hops, Yields (node.handler.dereferenceUri (k.surroundings m') hops (.toName n path format)) s none)
    (i : Nat) (o : ObjectId) (context : String) : Yields (k.configureKey m' hops i o node context key) s () := by
  obtain ⟨text, hj, ht⟩ := refers.text
  refine ⟨?_⟩
  unfold configureKey
  rw [Run.after_bind, Run.after_heap]
  split
  · exact ⟨⟨rfl, rfl, rfl⟩, rfl⟩
  · rw [Run.after_bind]
    refine (buildValue_projects refers.isName hj ht _ _ _ hv (by simp)).leads.mono (fun r t h => ?_) fun _ => id
    obtain ⟨quiet, rfl⟩ := h
    exact ⟨⟨quiet.heap, quiet.build, quiet.acts⟩, rfl⟩

/-- While the name is building, nothing is done for a reference with a format. -/
theorem configureKey_building (hm : m'.portal = k.portal m) {key : String} (refers : node.RefersAt key n path format)
    (formats : format.isSome) {ws : List Waiter} (hb : s.build.stateOf? n = some (.building ws)) (i : Nat)
    (o : ObjectId) (context : String) : Yields (k.configureKey m' hops i o node context key) s () := by
  obtain ⟨name, rfl⟩ := Option.isSome_iff_exists.mp formats
  refine configureKey_dropped refers (fun hops => ?_) i o context
  exact Handler.dereferenceUri_building hm refers.scheme refers.converts hb

/-- Nothing is done for a reference to a property that a component does not have yet. -/
theorem configureKey_unset (hm : m'.portal = k.portal m) {key l : String}
    (refers : node.RefersAt key n (some l) format) (hl : IsName l) {q : ObjectId}
    (hb : s.build.stateOf? n = some (.built (.object q))) (unset : s.heap.get? q l = none) (i : Nat) (o : ObjectId)
    (context : String) : Yields (k.configureKey m' hops i o node context key) s () :=
  configureKey_dropped refers (fun _ => Handler.dereferenceUri_unset hm refers.scheme hb hl unset) i o context

/-- A placeholder for a name that is building is parked for a property, and waits for the name. -/
theorem injectAt_building {ws : List Waiter} (hb : s.build.stateOf? n = some (.building ws)) (i : Nat)
    (o : ObjectId) (p : Property) (handler : Handler) :
    After (k.injectAt m' hops i o p (.pending (.make n path)) handler) s (fun _ t => t.heap = s.heap ∧
      t.build = (s.build.apply (.park ⟨i, p, .pending (.make n path), 1, handler⟩)).apply
        (.await n ⟨.property s.build.deferred.length, [], (Pending.make n path).path⟩)) fun _ => False := by
  let leaves : List (List Place × Pending) := [([], .make n path)]
  have parked : (Value.pending (.make n path)).placeholders = leaves := rfl
  have building : (s.build.apply (.park ⟨i, p, .pending (.make n path), leaves.length, handler⟩)).stateOf?
      (Pending.make n path).name = some (.building ws) := hb
  unfold injectAt
  rw [parked]
  simp only [leaves, waitOnAll, waitOn, Run.after_bind, Run.after_heap, Run.after_report, Run.after_build,
    Run.after_act]
  rw [building]
  exact ⟨rfl, rfl⟩

/-- What a property is set to is what is built for it, if that can be read off. -/
theorem configureKey_after {key : String} {o : ObjectId} {p : Property}
    (hp : s.heap.property? o (propertyName key) = some p) (any : p.type = .any) (i : Nat) (context : String)
    {v : Option Value}
    (hv : ∀ existing context, Yields (k.buildValue m' hops node key .any existing context) s (.ok v))
    {done : Unit → Session → Prop} (none : v = none → ∀ t, Quiet s t → done () t)
    (some : ∀ w, v = some w → ∀ t, Quiet s t →
      After (k.injectAt m' hops i o p w node.handler) t done fun _ => False) :
    After (k.configureKey m' hops i o node context key) s done fun _ => False := by
  unfold configureKey
  rw [Run.after_bind, Run.after_heap, hp]
  dsimp only
  rw [Run.after_bind, any]
  refine (hv _ _).leads.mono (fun r t hr => ?_) fun _ => id
  obtain ⟨hq, rfl⟩ := hr
  cases v with
  | none => exact none rfl _ ⟨hq.heap, hq.build, hq.acts⟩
  | some w => exact some w rfl t hq

/-- What becomes of a property with a reference that is read early. If the name is building and the reference
has a format, or if the name is built and its component does not have the property yet, then nothing happens:
the property is not set, and nothing waits to set it. Only the reference without a format to a name that is
building is parked: it waits for the name, with its path. -/
theorem configureKey_early (hm : m'.portal = k.portal m)
    (hs : node.handler.schemes.lookup "named" = some (.container .named)) (hc : node.handler.ConvertsOnly)
    {key : String} (hk : IsName key) (hj : node.data.child? key = some (.string text))
    (ht : Projects text n path format) {o : ObjectId} {p : Property}
    (hp : s.heap.property? o (propertyName key) = some p) (any : p.type = .any) (i : Nat) (context : String) :
    (∀ ws, s.build.stateOf? n = some (.building ws) → format.isSome →
      Yields (k.configureKey m' hops i o node context key) s ()) ∧
    (∀ q l, s.build.stateOf? n = some (.built (.object q)) → path = some l → IsName l → s.heap.get? q l = none →
      Yields (k.configureKey m' hops i o node context key) s ()) ∧
    ∀ ws, s.build.stateOf? n = some (.building ws) → format = none →
      After (k.configureKey m' hops i o node context key) s (fun _ t => t.heap = s.heap ∧
        t.build = (s.build.apply (.park ⟨i, p, .pending (.make n path), 1, node.handler⟩)).apply
          (.await n ⟨.property s.build.deferred.length, [], (Pending.make n path).path⟩)) fun _ => False := by
  have refers : node.RefersAt key n path format := ⟨hs, hc, hk, text, hj, ht⟩
  refine ⟨fun ws hb hf => configureKey_building hm refers hf hb i o context, fun q l hb hl hname unset => ?_,
    fun ws hb hf => ?_⟩
  · subst hl
    exact configureKey_unset hm refers hname hb unset i o context
  · subst hf
    have built : ∀ existing context, Yields (k.buildValue m' hops node key .any existing context) s
        (.ok (some (.pending (.make n path)))) := by
      refine fun existing context => buildValue_projects hk hj ht _ existing context (fun hops => ?_) ?_
      · exact Handler.dereferenceUri_building hm hs hc hb
      · rintro w ⟨⟩
        exact ⟨_, rfl⟩
    refine configureKey_after hp any i context built (by simp) ?_
    rintro w ⟨⟩ t hq
    have building : t.build.stateOf? n = some (.building ws) := by rw [hq.build]; exact hb
    rw [← hq.heap, ← hq.build]
    exact injectAt_building building i o p node.handler

/-- A property `text` of a component `b`, with a reference to a property of `a` as text. -/
def earlyNode : Configuration :=
  .make (.object [("text", .string "@named:a#label|string")]) Handler.standard.withContainer

/-- A session in which `a` is building and there is a record to configure. -/
def earlySession : Session :=
  { Session.start with heap := [.fresh .record []], build := { Build.start [] with names := [("a", .building [])] } }

theorem refersAt_earlyNode : earlyNode.RefersAt "text" "a" (some "label") (some "string") where
  scheme := by decide +kernel
  converts := Handler.convertsOnly_standard.withContainer
  isName := by decide +kernel
  text := by
    have word : ∀ f ∈ some "string", Uri.IsToken Uri.isWord f := by
      rintro f ⟨⟩
      exact ⟨by decide, List.all_eq_true.mp (by decide)⟩
    have written := projects_canonical "a" (some "label") word
    have text : String.ofList ('@' :: (Uri.toName "a" (some "label") (some "string")).write)
        = "@named:a#label|string" := by decide +kernel
    rw [text] at written
    exact ⟨_, rfl, written⟩

/-- While `a` is building, the text of its label is not had, and not waited for. -/
theorem configureKey_early_label :
    Yields (ofRecords.configureKey (ofRecords.machine 1) 0 0 0 earlyNode "b" "text") earlySession () := by
  obtain ⟨scheme, converts, name, text, child, refers⟩ := refersAt_earlyNode
  have property : earlySession.heap.property? 0 (propertyName "text") = some ⟨"text", .any⟩ := rfl
  have portal : (ofRecords.machine 1).portal = ofRecords.portal (ofRecords.machine 0) := rfl
  have building : earlySession.build.stateOf? "a" = some (.building []) := rfl
  have early :=
    @configureKey_early _ _ _ 0 _ _ _ _ _ _ portal scheme converts _ name child refers _ _ property rfl 0 "b"
  exact early.1 [] building rfl

/-! ## Passes -/

/-- From `u` to `v` a property of a tracked component is visited: it is reached, and configured from a key of a node
that spells it. -/
def Visits (k : Container) (i : Nat) (q : String) (node : Configuration) (key : String) (u v : Session) : Prop :=
  ∃ steps hops o context w, propertyName key = q ∧ v = w.acted (.visit i q) ∧
    k.configureKey (k.machine (steps + 1)) hops i o node context key (u.acted (.reach i q)) = some ((), w)

/-- From `u` to `v` a property is visited that has a reference, and this is read early. -/
inductive VisitsEarly (k : Container) (i : Nat) (q : String) (u v : Session) : Prop
  /-- The name is building, and the reference has a format. -/
  | formatted {node : Configuration} {key n : String} {path format : Option String} {ws : List Waiter}
      (visits : k.Visits i q node key u v) (refers : node.RefersAt key n path format) (formats : format.isSome)
      (building : u.build.stateOf? n = some (.building ws))
  /-- The name is built, and its component does not have the property yet. -/
  | unset {node : Configuration} {key n l : String} {format : Option String} {p : ObjectId}
      (visits : k.Visits i q node key u v) (refers : node.RefersAt key n (some l) format) (name : IsName l)
      (built : u.build.stateOf? n = some (.built (.object p))) (unset : u.heap.get? p l = none)

/-- What is done for nothing leaves no acts. -/
theorem Visits.acts {i : Nat} {q key : String} {u v : Session} (h : k.Visits i q node key u v)
    (dropped : ∀ steps hops o context,
      Yields (k.configureKey (k.machine (steps + 1)) hops i o node context key) (u.acted (.reach i q)) ()) :
    v.passActs = .visit i q :: .reach i q :: u.passActs := by
  obtain ⟨steps, hops, o, context, w, -, rfl, ended⟩ := h
  obtain ⟨quiet, -⟩ := (dropped steps hops o context).leads.of_ended ended
  have acts : (w.acted (.visit i q)).acts = .visit i q :: (u.acted (.reach i q)).acts := congrArg _ quiet.acts
  rw [Session.passActs_act acts (by simp), u.passActs_acted (by simp)]

/-- A property whose reference is read early has been visited as soon as it is reached. -/
theorem VisitsEarly.acts {i : Nat} {q : String} {u v : Session} (h : k.VisitsEarly i q u v) :
    v.passActs = .visit i q :: .reach i q :: u.passActs := by
  cases h with
  | @formatted _ _ n _ _ ws visits refers formats building =>
      have there : (u.acted (.reach i q)).build.stateOf? n = some (.building ws) := building
      exact visits.acts fun _ _ o context => configureKey_building rfl refers formats there i o context
  | @unset _ _ n l _ p visits refers name built unset =>
      have there : (u.acted (.reach i q)).build.stateOf? n = some (.built (.object p)) := built
      have lacks : (u.acted (.reach i q)).heap.get? p l = none := unset
      exact visits.acts fun _ _ o context => configureKey_unset rfl refers name there lacks i o context

/-- Within a pass that has made some acts, a property with a reference is visited that is read early: from the moment
at which the property has been reached, after the `earlier` acts. -/
def ReadsEarlyAmong (k : Container) (start : Ledger) (acts earlier : List Act) (i : Nat) (q : String) : Prop :=
  ∃ u v : Session, u.passActs = earlier ∧ u.build = (start.replay earlier).build ∧ v.passActs <:+ acts ∧
    k.VisitsEarly i q u v

/-- What is read early is lost. Let a container construct records only, let a pass run, and let a component be new in
it. If a property of the component has a reference that is read early whenever the property is reached, then the
property is not set in the finished graph, whatever the name has there in the end. -/
theorem pass_early (hk : k.types.RecordsOnly) {steps : Nat} {root : Configuration} {s t : Session}
    {r : Option (Except BuildError Registry)} (run : (k.pass steps root).run s = (r, t)) {o : ObjectId} {q : String}
    (new : s.heap.length ≤ o)
    (early : ∀ i earlier, .reach i q :: earlier <:+ t.passActs → t.build.trackedOnes[i]? = some o →
      k.ReadsEarlyAmong (.start s.build root) t.passActs earlier i q) :
    t.heap.get? o q = none := by
  refine pass_untouched hk run new fun i next earlier moment hi => ?_
  obtain ⟨u, v, rfl, -, hv, visits⟩ := early i earlier ((List.suffix_cons _ _).trans moment) hi
  rw [visits.acts] at hv
  have same := (List.suffix_of_suffix_length_le moment hv (by simp)).eq_of_length (by simp)
  exact (List.cons.inj same).1

/-- A record refers to another, and that takes the label of the first as text. -/
def labelled : Configuration :=
  .make (.object
    [("a", .object [("-class", .string "record"), ("label", .string "hi"), ("peer", .string "@named:b")]),
     ("b", .object [("-class", .string "record"), ("text", .string "@named:a#label|string")])]) .standard

/-- The root of this graph, as a pass takes it. -/
def labelledRoot : Configuration := labelled.withHandler Handler.standard.withContainer

/-- The property that an act says is reached. -/
def reached? : Act → Option String
  | .reach _ q => some q
  | _ => none

/-- Whenever a property of this name is reached, the next thing is that it has been visited, and a name is building. -/
def readsEarly (start : Ledger) (q n : String) (acts : List Act) : Bool :=
  (acts.head?.bind reached?).isNone && acts.tails.all fun
    | next :: .reach i r :: earlier => r != q || match next, (start.replay earlier).build.stateOf? n with
      | .visit j m, some (.building _) => j == i && m == q
      | _, _ => false
    | _ => true

/-- At each such moment the check tells what comes next and what is building. -/
theorem of_readsEarly {start : Ledger} {q n : String} {acts : List Act} (h : readsEarly start q n acts = true) {i : Nat}
    {earlier : List Act} (moment : .reach i q :: earlier <:+ acts) :
    .visit i q :: .reach i q :: earlier <:+ acts ∧
      ∃ ws, (start.replay earlier).build.stateOf? n = some (.building ws) := by
  obtain ⟨first, rest⟩ := Bool.and_eq_true_iff.mp h
  obtain ⟨later, rfl⟩ := moment
  rcases List.eq_nil_or_concat later with rfl | ⟨newer, next, rfl⟩
  · exact absurd first (by simp [reached?])
  · have there : next :: .reach i q :: earlier <:+ newer.concat next ++ .reach i q :: earlier := ⟨newer, by simp⟩
    have check := List.all_eq_true.mp rest _ ((List.mem_tails _ _).mpr there)
    simp only [bne_self_eq_false, Bool.false_or] at check
    split at check
    next j m ws building =>
      obtain ⟨rfl, rfl⟩ : j = i ∧ m = q := by simpa using check
      exact ⟨there, ws, building⟩
    · exact absurd check Bool.false_ne_true

/-- In the graph of two records the text of the second is reached and not set: its reference is read early. -/
theorem pass_early_labelled :
    ∃ registry t, ofRecords.pass 20 labelledRoot .start = some (.ok registry, t) ∧
      (∃ i, .reach i "text" ∈ t.passActs) ∧ t.heap.get? 1 "text" = none := by
  have ends : Run.succeeds (ofRecords.pass 20 labelledRoot) .start
      (fun _ t => readsEarly (.start (Build.start []) labelledRoot) "text" "a" t.passActs &&
        t.passActs.any (reached? · == some "text")) = true := by
    decide +kernel
  obtain ⟨registry, t, ended, check⟩ := Run.of_succeeds ends
  obtain ⟨reads, reached⟩ := Bool.and_eq_true_iff.mp check
  have run := Run.ended_iff.mp ended
  refine ⟨registry, t, ended, ?_, ?_⟩
  · obtain ⟨a, ha, reach⟩ := List.any_eq_true.mp reached
    cases a with
    | reach i r =>
        obtain rfl : r = "text" := by simpa [reached?] using reach
        exact ⟨i, ha⟩
    | _ => exact absurd reach (by simp [reached?])
  · refine pass_early TypeRegistry.recordsOnly_builtins run (Nat.zero_le _) fun i earlier moment _ => ?_
    obtain ⟨visit, ws, building⟩ := of_readsEarly reads moment
    let u : Session :=
      { Session.start with
        build := ((Ledger.start (Build.start []) labelledRoot).replay earlier).build
        acts := earlier }
    have acts : u.passActs = earlier := Session.passActs_of_suffix ((List.suffix_cons _ _).trans moment)
    have there : (u.acted (.reach i "text")).build.stateOf? "a" = some (.building ws) := building
    have dropped : Yields (ofRecords.configureKey (ofRecords.machine 1) 0 i 0 earlyNode "b" "text")
        (u.acted (.reach i "text")) () := configureKey_building rfl refersAt_earlyNode rfl there i 0 "b"
    obtain ⟨⟨⟩, w, visited, -⟩ := dropped.leads.ends fun _ => id
    have name : propertyName "text" = "text" := by decide +kernel
    have visits : ofRecords.Visits i "text" earlyNode "text" u (w.acted (.visit i "text")) :=
      ⟨0, 0, 0, "b", w, name, rfl, visited⟩
    have early : ofRecords.VisitsEarly i "text" u (w.acted (.visit i "text")) :=
      .formatted visits refersAt_earlyNode rfl building
    refine ⟨u, _, acts, rfl, ?_, early⟩
    rw [early.acts, acts]
    exact visit

/-! ### Graphs that lack a value -/

/-- A record refers to two others; the one refers back to it, and the other to what the one refers to. -/
def looped : Configuration :=
  .make (.object
    [("a", .object [("-class", .string "record"), ("x", .string "@named:b"), ("z", .string "@named:c")]),
     ("b", .object [("-class", .string "record"), ("y", .string "@named:a")]),
     ("c", .object [("-class", .string "record"), ("v", .string "@named:b#y")])]) .standard

/-- The property of a named component in the graph that a pass leaves, if the pass succeeds. -/
def propertyAfter? (c : Configuration) (priority : List String) (name key : String) : Option (Option Value) :=
  match (ofRecords.resolve 20 c).run (session priority) with
  | (some (.ok registry), t) =>
      match registry.get? name with
      | some (.object o) => some (t.heap.get? o key)
      | _ => none
  | _ => none

/-- What a property holds, if that is known to be a text, a component or nothing. -/
theorem held_cases {held : Option (Option Value)} :
    (∀ s, (held.any fun v => v.any fun v => v.string? == some s) = true → held = some (some (.string s))) ∧
      ((held.any fun v => v.any fun v => v.object?.isSome) = true → ∃ o, held = some (some (.object o))) ∧
      ((held.any fun v => v.isNone) = true → held = some none) := by
  rcases held with _ | _ | v
  · simp
  · simp
  · cases v <;> simp [Value.string?, Value.object?]

/-- The graphs lack a value that their names have in the end. The label of `a` is a text, and `b` refers to `a`;
but nothing is taken from there. If the name that takes it is built first, the value is there. -/
theorem lacks_final_value :
    propertyAfter? labelled [] "a" "label" = some (some (.string "hi")) ∧
      propertyAfter? labelled [] "b" "text" = some none ∧
      propertyAfter? labelled ["b"] "b" "text" = some (some (.string "hi")) ∧
      (∃ a, propertyAfter? looped [] "b" "y" = some (some (.object a))) ∧
      propertyAfter? looped [] "c" "v" = some none ∧
      ∃ a, propertyAfter? looped ["c"] "c" "v" = some (some (.object a)) := by
  refine ⟨held_cases.1 _ ?_, held_cases.2.2 ?_, held_cases.1 _ ?_, held_cases.2.1 ?_, held_cases.2.2 ?_,
    held_cases.2.1 ?_⟩
  all_goals decide +kernel

end Container

end ObjectGraph
