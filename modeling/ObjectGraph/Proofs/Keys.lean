import ObjectGraph.Configuration.Read

/-!
# `Proofs.Keys` — what is read at a key

A key that is not empty and has no dot is a path of its own. Reading a node at such a key leads to what stands
under the key in the node's data: a list or a map becomes a child, and a text that begins with no prefix stands
for itself.

Contents:
* `Unprefixed`, `IsName`, how to decide them;
* `segments_of_isName`, `raw?_of_isName`, `has_of_isName`; `keys_of_object`;
* `onward`, `follow_cons`, `step_of_isName`, `valueAt_of_isName`;
* `readNode_of_child?`, `readString_of_child?`, `resolveText_eq`, `replaceText_of_unprefixed`,
  `resolveText_of_unprefixed`;
* `Value.atPath_pending`.
-/

namespace ObjectGraph

/-- A text that stands for itself. -/
def Unprefixed (s : String) : Prop := ∀ c ∈ s.toList.head?, c ∉ ['$', '?', '@', '#', '\x60']

/-- A name, or a key, that a path consists of. -/
def IsName (n : String) : Prop := n ≠ "" ∧ '.' ∉ n.toList

instance (s : String) : Decidable (Unprefixed s) :=
  Option.decidableForallMem s.toList.head?

instance (n : String) : Decidable (IsName n) := inferInstanceAs (Decidable (n ≠ "" ∧ '.' ∉ n.toList))

namespace Configuration

variable {c : Configuration} {key : String}

theorem segments_of_isName (hk : IsName key) : segments key = [key] := by
  unfold segments Text.splitText
  rw [Text.split_of_not_mem hk.2]
  exact congrArg (fun k => [k]) String.ofList_toList

theorem raw?_of_isName (hk : IsName key) (c : Configuration) : c.raw? key = c.data.child? key := by
  have name : (segments key).filter (fun segment => segment ≠ "") = [key] := by
    rw [segments_of_isName hk]
    exact List.filter_cons_of_pos (by simpa using hk.1)
  show c.data.follow? ((segments key).filter fun segment => segment ≠ "") = c.data.child? key
  rw [name, Json.follow?]
  cases c.data.child? key <;> rfl

theorem has_of_isName (hk : IsName key) (c : Configuration) : c.has key = (c.data.child? key).isSome := by
  rw [has, raw?_of_isName hk]

/-- The keys of a map are those of its members. -/
theorem keys_of_object {members : List (String × Json)} (hdata : c.data = .object members) :
    c.keys = Table.keys members := by
  unfold keys
  rw [hdata]
  rfl

/-- What a walk does after a step. -/
def onward (resolve : Resolver) (rest : List String) : Option Move → Run (Option Value)
  | none => pure none
  | some (.stop v) => pure (some v)
  | some (.go next) => walk resolve rest next

theorem follow_cons {resolve : Resolver} {v : Value} {path segment : String} {rest : List String}
    (hs : segments path = segment :: rest) :
    follow resolve v path = Run.heap >>= fun heap => onward resolve rest (stepValue heap v segment rest) := by
  unfold follow
  rw [hs]
  rfl

/-- A step along a key leads to what stands there. -/
theorem step_of_isName (hk : IsName key) (c : Configuration) (heap : Heap) :
    stepValue heap (.configuration c) key [] = (c.data.child? key).map fun j => .go (.raw c j) := by
  have named : ¬ (key = "" ∧ ([] : List String) = []) := fun h => hk.1 h.1
  show (if key = "" ∧ ([] : List String) = [] then _ else stepRaw c c.data key) = _
  rw [if_neg named]
  rfl

/-- The value of a key is what stands there, resolved; none if nothing does. -/
theorem valueAt_of_isName (env : Surroundings) (hops : Nat) (hk : IsName key) (c : Configuration) :
    c.valueAt env hops key = (c.data.child? key).elim (pure none) (resolveJson (resolveText env hops) c) := by
  rw [valueAt, follow_cons (segments_of_isName hk), funext fun heap => congrArg _ (step_of_isName hk c heap)]
  cases c.data.child? key <;> rfl

/-- A list or a map at a key is a child of the node. -/
theorem readNode_of_child? (env : Surroundings) (hops : Nat) (hk : IsName key) {j : Json}
    (hj : c.data.child? key = some j) (hc : j.isContainer = true) :
    c.readNode env hops key = pure (some (c.child j)) := by
  unfold readNode readAs
  rw [valueAt_of_isName env hops hk, hj]
  cases j with
  | object members => rfl
  | array items => rfl
  | _ => exact absurd hc Bool.false_ne_true

theorem readString_of_child?_eq_none (env : Surroundings) (hops : Nat) (hk : IsName key)
    (hj : c.data.child? key = none) : c.readString env hops key = pure none := by
  unfold readString readAs
  rw [valueAt_of_isName env hops hk, hj]
  rfl

/-- The standard reading of a text as a text, whatever the host converts. -/
def ReadsTexts (host : Host) (handler : Handler) : Prop :=
  ∀ heap s, handler.converter.convert host heap (.string s) .string = some (.string s)

/-- A text is resolved by as many replacements as there may be. -/
theorem resolveText_eq (env : Surroundings) (hops : Nat) (c : Configuration) (s : String) :
    ∃ back, resolveText env hops c s = replaceText env back hops c s depthLimit s := by
  cases hops with
  | zero => exact ⟨none, rfl⟩
  | succ hops => exact ⟨_, rfl⟩

theorem replaceText_of_unprefixed (env : Surroundings) (back : Option Resolver) (hops : Nat) (c : Configuration)
    (supplied : String) {s : String} (hs : Unprefixed s) (k : Nat) :
    replaceText env back hops c supplied (k + 1) s = pure (some (.string s)) := by
  rw [replaceText]
  rcases hl : s.toList with _ | ⟨a, rest⟩
  · rfl
  · have ha := hs a (by rw [hl]; rfl)
    simp only [List.mem_cons, List.not_mem_nil, or_false, not_or] at ha
    split
    all_goals simp_all

theorem resolveText_of_unprefixed (env : Surroundings) (hops : Nat) (c : Configuration) {s : String}
    (hs : Unprefixed s) : resolveText env hops c s = pure (some (.string s)) := by
  obtain ⟨back, resolved⟩ := resolveText_eq env hops c s
  rw [resolved]
  exact replaceText_of_unprefixed env back hops c s hs 31

theorem readString_of_child? {env : Surroundings} (hr : ReadsTexts env.host c.handler) (hops : Nat)
    (hk : IsName key) {s : String} (hj : c.data.child? key = some (.string s)) (hs : Unprefixed s) :
    c.readString env hops key = pure (some s) := by
  have same : ∀ heap, c.represent env.host heap (.string s) .string = some (.string s) :=
    fun heap => hr heap s
  unfold readString readAs
  rw [valueAt_of_isName env hops hk, hj]
  show (resolveText env hops c s >>= _) >>= _ = _
  rw [resolveText_of_unprefixed env hops c hs]
  show (Run.heap >>= fun heap => pure (c.represent env.host heap (.string s) .string)) >>=
    (fun v : Option Value => (pure (v.bind Value.string?) : Run (Option String))) = pure (some s)
  simp only [same]
  rfl

end Configuration

/-- A placeholder takes the path that is followed from it, unless that is empty. -/
theorem Value.atPath_pending (env : Surroundings) (hops : Nat) (p : Pending) (path : String) :
    (Value.pending p).atPath env hops path
      = pure (some (.pending (if path = "" then p else p.project path))) := by
  obtain ⟨segment, rest, hs⟩ := List.exists_cons_of_ne_nil (Configuration.segments_ne_nil path)
  have joined : Text.joinText '.' (segment :: rest) = path := hs ▸ Configuration.joinText_segments path
  have stop : ∀ heap, Configuration.stepValue heap (.pending p) segment rest
      = some (.stop (.pending (if path = "" then p else p.project path))) := by
    intro heap
    unfold Configuration.stepValue
    split
    next hempty =>
      obtain ⟨rfl, rfl⟩ := hempty
      obtain rfl : "" = path := joined
      rfl
    next goes =>
      have nonempty : path ≠ "" := by
        rintro rfl
        obtain ⟨rfl, rfl⟩ := List.cons.inj (hs.symm.trans (by decide +kernel : Configuration.segments "" = [""]))
        exact goes ⟨rfl, rfl⟩
      rw [joined, if_neg nonempty]
  rw [Value.atPath, Configuration.follow_cons hs, funext fun heap => congrArg _ (stop heap)]
  rfl

end ObjectGraph
