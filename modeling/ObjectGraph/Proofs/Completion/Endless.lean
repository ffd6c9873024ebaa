import ObjectGraph.Proofs.Completion.Building
import ObjectGraph.Proofs.Waiting.Pass
import ObjectGraph.Proofs.Wired.Evaluation

/-!
# `Proofs.Completion.Endless` — an empty key

The path of an empty key leads from a node to the node itself. So a map with an empty key is built from itself:
building it has no end, and neither has a pass over a root that comes to such a map. However many steps there
are, they are used up.

Contents:
* `Run.Endless`, with the two laws of rows;
* `holds_empty`, `opens_empty`, `eq_of_nests`: what is built from an empty key;
* `SelfNested`; `buildNode_endless`, `buildNamed_endless`, `pass_endless`,
  `resolve_endless`.
-/

namespace ObjectGraph

open Run (After)
open Container (andClassKey classKey typeKey factoryKey hintKeys entryKeys isDirective)

/-! ## Runs that do not end -/

namespace Run

variable {α β : Type} {x : Run α}

/-- Wherever the run starts, it does not end. -/
def Endless (x : Run α) : Prop := ∀ s, After x s (fun _ _ => False) fun _ => True

theorem Endless.exhausted : Endless (exhausted : Run α) := fun _ => trivial

/-- A row does not end if its first run does not. -/
theorem Endless.bind (hx : Endless x) (f : α → Run β) : Endless (x >>= f) := by
  intro s
  rw [after_bind]
  exact (hx s).mono (fun _ _ => False.elim) fun _ => id

/-- Nor does it if its second run does not. -/
theorem Endless.of_rest (x : Run α) {f : α → Run β} (hf : ∀ a, Endless (f a)) : Endless (x >>= f) := by
  intro s
  rw [after_bind]
  exact .of_forall x s (fun a t => hf a t) fun _ => trivial

end Run

open Run (Endless)

/-! ## What is read at an empty key -/

namespace Configuration

variable {c d : Configuration}

theorem raw?_empty (c : Configuration) : c.raw? "" = some c.data := by
  have none : (segments "").filter (fun segment => segment ≠ "") = [] := by decide
  show c.data.follow? ((segments "").filter fun segment => segment ≠ "") = _
  rw [none, Json.follow?]

theorem follow_empty (resolve : Resolver) (v : Value) : follow resolve v "" = pure (some v) := by
  have single : segments "" = [""] := by decide
  have stays : ∀ heap, stepValue heap v "" [] = some (.stop v) := fun heap => if_pos ⟨rfl, rfl⟩
  rw [follow_cons single, funext fun heap => congrArg _ (stays heap)]
  rfl

/-- A node holds itself there. -/
theorem holds_empty (c : Configuration) : c.Holds "" (some (.configuration c)) := by
  intro s
  rw [follow_empty]
  rfl

/-- What is built from an empty key is the node itself. -/
theorem opens_empty (h : c.Opens "" d) : d = c := by
  obtain ⟨v, holds, opened⟩ := h
  obtain rfl : v = .configuration c := Option.some.inj (holds.unique (holds_empty c))
  split at opened
  · exact (Option.some.inj opened).symm
  · exact (Value.configuration.inj opened).symm

/-- So no other node is inside a node that has no other entries. -/
theorem eq_of_nests (single : entryKeys c = [""]) (h : Relation.ReflTransGen Nests c d) : d = c := by
  induction h with
  | refl => rfl
  | tail _ nested ih =>
      subst ih
      obtain ⟨key, hk, opened⟩ := nested
      rw [single] at hk
      obtain rfl := List.mem_singleton.mp hk
      exact opens_empty opened

theorem readNode_empty (env : Surroundings) (hops : Nat) (c : Configuration) :
    c.readNode env hops "" = pure (some c) := by
  unfold readNode readAs valueAt
  rw [follow_empty]
  rfl

end Configuration

namespace Container

variable {k : Container} {m : Machine} {hops : Nat} {c root : Configuration} {name : String}

theorem buildValue_empty (h : c.data.isContainer = true) (type : PropertyType) (existing : Option Value)
    (context : String) :
    k.buildValue m hops c "" type existing context = m.buildNode hops c type existing context := by
  unfold buildValue
  rw [Configuration.raw?_empty, if_pos (by exact h), Configuration.readNode_empty]
  rfl

/-! ## Maps with an empty key -/

/-- The entries of a map have no end if one of them has none. -/
theorem buildEntries_endless {key : String} (hk : isDirective key = false) {keys : List String} (there : key ∈ keys)
    (h : ∀ context, Endless (k.buildEntry m hops c key context)) (context : String) (done : List (String × Value)) :
    Endless (k.buildEntries m hops c context done keys) := by
  induction keys generalizing done with
  | nil => exact absurd there List.not_mem_nil
  | cons first keys ih =>
      unfold buildEntries
      rcases List.mem_cons.mp there with rfl | later
      · rw [hk, if_neg Bool.false_ne_true]
        exact (h _).bind _
      · split
        · exact ih later done
        · refine .of_rest _ fun v => ?_
          cases v with
          | some v => exact ih later _
          | none => exact ih later done

/-- The node is a map with an empty key, and says nothing about merging and building. -/
structure SelfNested (c : Configuration) : Prop where
  map : ∃ members, c.data = .object members
  empty : "" ∈ c.keys
  unmerged : c.Unmerged
  unhinted : ∀ key ∈ hintKeys, c.data.child? key = none

/-- Without other entries, it refers to nothing. -/
theorem SelfNested.referenceless (h : SelfNested c) (single : entryKeys c = [""]) : c.Referenceless where
  unmerged := h.unmerged
  own := h.unhinted factoryKey (by decide)
  reads key hk := by
    rcases List.mem_append.mp hk with hint | entry
    · refine ⟨none, (Configuration.holds_iff (isName_of_hint hint)).mpr ?_⟩
      rw [Configuration.entry?, h.unhinted key hint]
    · rw [single] at entry
      obtain rfl := List.mem_singleton.mp entry
      exact ⟨_, c.holds_empty⟩

/-- Reading what a node says about building it, when it says nothing. -/
theorem readString_unhinted (h : ∀ key ∈ hintKeys, c.data.child? key = none) (env : Surroundings) (hops : Nat)
    {key : String} (hk : key ∈ hintKeys) : c.readString env hops key = pure none :=
  Configuration.readString_of_child?_eq_none env hops (isName_of_hint hk) (h key hk)

theorem classHint_unhinted (h : ∀ key ∈ hintKeys, c.data.child? key = none) (context : String) :
    k.classHint m hops c context = pure (.ok none) := by
  unfold classHint
  dsimp only
  rw [readString_unhinted h _ hops (show andClassKey ∈ hintKeys by decide), pure_bind]
  dsimp only
  rw [readString_unhinted h _ hops (show classKey ∈ hintKeys by decide), pure_bind]
  dsimp only
  rw [readString_unhinted h _ hops (show typeKey ∈ hintKeys by decide)]
  rfl

/-- Building such a map has no end. -/
theorem SelfNested.buildNode_endless (h : SelfNested c) (hc : c.Grounded) (k : Container) (n hops : Nat)
    (context : String) : Endless ((k.machine n).buildNode hops c .any none context) := by
  induction n generalizing context with
  | zero => exact .exhausted
  | succ n ih =>
      obtain ⟨members, hdata⟩ := h.map
      -- the entry under the empty key is the map again
      have entry : ∀ context, Endless (k.buildEntry (k.machine n) hops c "" context) := by
        intro context
        unfold buildEntry
        rw [buildValue_empty (by rw [hdata]; rfl)]
        exact (ih context).bind _
      have collection : Endless (k.buildCollection (k.machine n) hops c context) := by
        unfold buildCollection
        rw [if_neg (by rw [Configuration.isList, hdata]; exact Bool.false_ne_true)]
        exact (buildEntries_endless (by decide) h.empty entry context []).bind _
      show Endless (k.buildNode (k.machine n) hops c .any none context)
      intro s
      unfold buildNode
      rw [Run.after_bind]
      refine (normalize_stays hc h.unmerged _ hops _ s).mono (fun d t ⟨same, _⟩ => ?_) fun _ _ => trivial
      subst same
      rw [if_neg PropertyType.noConfusion, readString_unhinted h.unhinted _ hops (by decide), pure_bind]
      dsimp only
      rw [classHint_unhinted h.unhinted, pure_bind]
      exact collection.bind _ t

/-! ## Passes -/

/-- Nor has building a name with such a map for an entry. -/
theorem buildNamed_endless (hc : root.Grounded) (hk : IsName name) {j : Json} (hj : root.data.child? name = some j)
    (nested : SelfNested (root.child j)) (k : Container) (n hops : Nat) :
    Endless (k.buildNamed (k.machine n) hops root name) := by
  have proper : j.Proper := hc.data.piece (Json.mem_pieces_of_child? hj)
  have container : j.isContainer = true := by
    obtain ⟨members, hdata⟩ := nested.map
    cases j with
    | object members => rfl
    | array items => rfl
    | _ => exact absurd hdata Json.noConfusion
  unfold buildNamed
  refine .of_rest _ fun _ => .of_rest _ fun _ => ?_
  rw [buildValue_container hk hj container]
  exact (nested.buildNode_endless (hc.child proper) k n hops name).bind _

/-- A pass does not end if the first of its names has such a map for an entry. -/
theorem pass_endless (k : Container) (hc : root.Grounded) (hk : IsName name) {j : Json}
    (hj : root.data.child? name = some j) (nested : SelfNested (root.child j)) {s : Session} {names : List String}
    (first : buildOrder s.build.priority root = name :: names) (steps : Nat) :
    After (k.pass steps root) s (fun _ _ => False) fun _ => True := by
  have there : root.has name = true := by
    rw [Configuration.has_of_isName hk, hj]
    rfl
  have all : After (k.buildAll (k.machine steps) Configuration.depthLimit (buildOrder s.build.priority root))
      (started s root) (fun _ _ => False) fun _ => True := by
    -- nothing has been built yet
    have unbuilt : (started s root).build.stateOf? name = none := rfl
    have given : (started s root).build.root = some root := rfl
    rw [first]
    unfold buildAll tryGetNamed
    rw [Run.after_bind, Run.after_bind, Run.after_build, unbuilt, given]
    dsimp only
    rw [if_pos there]
    exact (buildNamed_endless hc hk hj nested k steps _ _).mono (fun _ _ => False.elim) fun _ => id
  exact (pass_of_buildAll all).mono (fun _ _ h => h.1) fun _ => id

/-- Then the configuration is not resolved. -/
theorem resolve_endless (k : Container) (hc : c.Grounded) (unmerged : c.Unmerged) (map : c.data.isObject = true)
    (hk : IsName name) {j : Json} (hj : c.data.child? name = some j)
    (nested : SelfNested ((c.withHandler c.handler.withContainer).child j)) {s : Session} {names : List String}
    (first : buildOrder s.build.priority (c.withHandler c.handler.withContainer) = name :: names) (steps : Nat) :
    After (k.resolve steps c) s (fun _ _ => False) fun _ => True := by
  have grounded := hc.withHandler c.handler.withContainer
  unfold resolve
  rw [map, if_neg (by decide), Run.after_bind]
  refine (normalize_stays grounded unmerged _ _ steps s).mono (fun d t ⟨same, stays⟩ => ?_) fun _ _ => trivial
  subst same stays
  exact pass_endless k grounded hk hj nested first steps

end Container

end ObjectGraph
