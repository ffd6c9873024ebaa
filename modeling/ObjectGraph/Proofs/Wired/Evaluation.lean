import ObjectGraph.Proofs.Normal.Stable
import ObjectGraph.Proofs.Run
import ObjectGraph.Proofs.Wired.Plain

/-!
# `Proofs.Wired.Evaluation` — what reading plain data gives

Reading plain data is evaluated here once and for all. A node of plain data is normalized already
(`normalize_eq`), and the value of a key is what stands there: a list or a map is
built as a node, a scalar is its own value, and a reference is what the container has for its name.

Contents:
* `Json.Plain.unmerged`, `normalize_eq`, `normalize_after`;
* `readString_hint`, `hintOf_cases`, `classHint_eq`, `componentFor_unknown`, `componentFor_record`;
* `dereferenceText_after`;
* `buildValue_container`, `buildValue_scalar`, `buildValue_reference`.
-/

namespace ObjectGraph

open Container (andClassKey classKey typeKey factoryKey)
open Run (After Quiet)

/-! ## Normalizing -/

namespace Json.Plain

variable {types : TypeRegistry} {members : List (String × Json)} {j : Json}

theorem unmerged (h : Plain types (.object members)) {c : Configuration} (hd : c.data = .object members) :
    c.Unmerged := by
  intro key hk
  have star : ∀ k ∈ Configuration.directiveKeys, k.toList.head? = some '*' := by decide
  rw [hd]
  exact h.lookup_eq_none fun hp => (hp.undirected '*' (star key hk)).1 rfl

/-- No hint but a class stands in plain data. -/
theorem child?_hint (h : Plain types j) (hj : j.isContainer = true) {key : String}
    (hk : key = andClassKey ∨ key = typeKey ∨ key = factoryKey) : j.child? key = none := by
  cases j with
  | object members =>
      refine h.lookup_eq_none fun hp => ?_
      obtain ⟨hand, htype, hfactory⟩ := hp.unhinted
      rcases hk with rfl | rfl | rfl
      · exact hand rfl
      · exact htype rfl
      · exact hfactory rfl
  | array items =>
      have position : Json.index? key = none := by
        rcases hk with rfl | rfl | rfl
        · decide +kernel
        · decide +kernel
        · decide +kernel
      show (Json.index? key).bind _ = none
      rw [position]
      rfl
  | _ => exact absurd hj Bool.false_ne_true

/-- A node of plain lists and maps is normalized already. -/
theorem normalize_eq (h : Plain types j) (hj : j.isContainer = true) {c : Configuration} (hd : c.data = j)
    (env : Surroundings) (hops n : Nat) : c.normalize env hops (n + 1) = pure c := by
  cases j with
  | object members => exact Configuration.normalize_object env hops n hd h.nodup (h.unmerged hd)
  | array items => exact Configuration.normalize_array env hops (n + 1) hd
  | _ => exact absurd hj Bool.false_ne_true

/-- Normalizing a node of plain lists and maps takes a step at most, and changes nothing. -/
theorem normalize_after (h : Plain types j) (hj : j.isContainer = true) {c : Configuration} (hd : c.data = j)
    (env : Surroundings) (hops n : Nat) (s : Session) :
    After (c.normalize env hops n) s (fun c' t => c' = c ∧ t = s) fun _ => n = 0 := by
  cases n with
  | succ n =>
      rw [h.normalize_eq hj hd]
      exact ⟨rfl, rfl⟩
  | zero =>
      cases j with
      | object members =>
          unfold Configuration.normalize
          rw [hd, Configuration.flatten_of_unmerged env hops (h.unmerged hd)]
          exact rfl
      | array items =>
          rw [Configuration.normalize_array env hops 0 hd]
          exact ⟨rfl, rfl⟩
      | _ => exact absurd hj Bool.false_ne_true

end Json.Plain

/-! ## Hints -/

namespace Container

variable {k : Container} {m : Machine} {c : Configuration} {j : Json}

/-- A hint that plain data does not have is not read. -/
theorem readString_hint (h : Json.Plain k.types j) (hj : j.isContainer = true) (hd : c.data = j) (hops : Nat)
    {key : String} (hk : key = andClassKey ∨ key = typeKey ∨ key = factoryKey) :
    c.readString (k.surroundings m) hops key = pure none := by
  have name : IsName key := by
    rcases hk with rfl | rfl | rfl
    · exact ⟨by decide, by decide⟩
    · exact ⟨by decide, by decide⟩
    · exact ⟨by decide, by decide⟩
  refine Configuration.readString_of_child?_eq_none _ hops name ?_
  rw [hd]
  exact h.child?_hint hj hk

/-- The class that data names, if it is a map. -/
def hintOf : Json → Option String
  | .object ms => Json.classOf? ms
  | _ => none

/-- Plain data says what it is made as in a text that stands for itself, or not at all. -/
theorem hintOf_cases (h : Json.Plain k.types j) (hj : j.isContainer = true) :
    (j.child? classKey = none ∧ hintOf j = none) ∨
      ∃ text, j.child? classKey = some (.string text) ∧ Unprefixed text ∧ hintOf j = some text := by
  cases j with
  | object ms =>
      cases hl : ms.lookup classKey with
      | none =>
          have hint : hintOf (.object ms) = none := by simp only [hintOf, Json.classOf?, hl]
          exact .inl ⟨hl, hint⟩
      | some v =>
          obtain ⟨text, rfl, unprefixed, -⟩ : ∃ c, v = .string c ∧ Unprefixed c ∧ k.types.PlainClass c := by
            cases h with
            | object nodup keys hint entries => exact hint v (Table.mem_of_lookup hl)
          have hint : hintOf (.object ms) = some text := by simp only [hintOf, Json.classOf?, hl]
          exact .inr ⟨text, hl, unprefixed, hint⟩
  | array items =>
      have position : Json.index? classKey = none := by decide +kernel
      have absent : (Json.array items).child? classKey = none := by
        unfold Json.child?
        rw [position]
        rfl
      exact .inl ⟨absent, rfl⟩
  | _ => exact absurd hj Bool.false_ne_true

/-- The hint of plain data is the class it names. -/
theorem classHint_eq (h : Json.Plain k.types j) (hj : j.isContainer = true) (hd : c.data = j)
    (hr : Configuration.ReadsTexts k.host c.handler) (hops : Nat) (context : String) :
    k.classHint m hops c context = pure (.ok (hintOf j)) := by
  have name : IsName classKey := ⟨by decide, by decide⟩
  unfold classHint
  dsimp only
  rw [readString_hint h hj hd hops (.inl rfl)]
  show (c.readString (k.surroundings m) hops classKey >>= _) = _
  subst hd
  obtain ⟨absent, hint⟩ | ⟨text, found, unprefixed, hint⟩ := hintOf_cases h hj
  · rw [Configuration.readString_of_child?_eq_none _ hops name absent, hint]
    show (c.readString (k.surroundings m) hops typeKey >>= _) = _
    rw [readString_hint h hj rfl hops (.inr (.inl rfl))]
    rfl
  · rw [Configuration.readString_of_child? hr hops name found unprefixed, hint]
    rfl

/-- Nothing is made for a map of an unknown class. -/
theorem componentFor_unknown {name : String} (hn : k.types.constructor? name = none) (context : String) :
    k.componentFor .any none context (some name) = pure (.error (.unknownType name context)) := by
  unfold componentFor construct
  dsimp only
  rw [hn]
  rfl

/-- A new record is made for a map of a class of records. -/
theorem componentFor_record {name : String} (hn : k.types.constructor? name = some .record) (context : String)
    (s : Session) {done : Except BuildError (Option ObjectId) → Session → Prop} {cut : Session → Prop}
    (h : done (.ok (some s.heap.length)) { s with heap := s.heap ++ [.fresh .record []] }) :
    After (k.componentFor .any none context (some name)) s done cut := by
  unfold componentFor construct
  dsimp only
  rw [hn]
  exact h

end Container

/-! ## References -/

namespace Handler

variable {env : Surroundings} {handler : Handler} {hops : Nat} {n : String}

theorem dereference_named (hs : handler.schemes.lookup "named" = some (.container .named)) :
    dereference env handler hops aliasLimit (.simple "named" n)
      = dereferenceIn env handler hops (.container .named) (.simple "named" n) [] := by
  have other : (Uri.mk "named" n none [] none).isAlias = false := rfl
  unfold aliasLimit dereference Uri.simple
  rw [dereferenceWith, other, hs]
  rfl

/-- A reference to a name leads to what the container has for it. -/
theorem dereferenceText_after (hs : handler.schemes.lookup "named" = some (.container .named)) {text : String}
    (ht : Uri.parse text = .ok (.simple "named" n)) {s : Session} {P : Option Value → Session → Prop}
    {cut : Session → Prop} (hq : ∀ v t u, Quiet t u → P v t → P v u)
    (h : ∀ t, Quiet s t → After (env.portal .named hops (.simple "named" n) []) t
      (fun o u => (∀ r, o ≠ .ok (some (.resource r))) ∧ P o.toOption.join u) cut) :
    After (dereferenceText env handler hops text) s P cut := by
  unfold dereferenceText
  rw [ht]
  show After (dereferenceUri env handler hops (.simple "named" n)) s P cut
  unfold dereferenceUri tryDereference
  rw [dereference_named hs]
  unfold dereferenceIn
  rw [Run.after_bind, Run.after_bind, Run.after_report, Run.after_bind]
  refine After.mono (h _ ?quiet) (fun o u ho => ?_) fun _ => id
  case quiet => exact ⟨rfl, rfl, rfl⟩
  obtain ⟨hr, hp⟩ := ho
  rcases o with e | _ | v
  · show After (Run.report _ _ _ _ >>= fun _ => pure none) u P cut
    rw [Run.after_bind, Run.after_report, Run.after_pure]
    refine hq none u _ ?_ hp
    exact ⟨rfl, rfl, rfl⟩
  · exact hp
  · have attached : handler.attach (.container .named) (.simple "named" n) v = v := by
      cases v with
      | resource r => exact absurd rfl (hr r)
      | _ => rfl
    show P (some (handler.attach (.container .named) (.simple "named" n) v)) u
    rw [attached]
    exact hp

end Handler

/-! ## Values -/

namespace Container

variable {k : Container} {m : Machine} {hops : Nat} {node : Configuration} {key : String} {j : Json}

/-- A list or a map at a key is built as a node. -/
theorem buildValue_container (hk : IsName key) (hj : node.data.child? key = some j)
    (hc : j.isContainer = true) (type : PropertyType) (existing : Option Value) (context : String) :
    k.buildValue m hops node key type existing context
      = m.buildNode hops (node.child j) type existing context := by
  have raw : (node.raw? key).any Json.isContainer = true := by
    rw [Configuration.raw?_of_isName hk, hj]
    exact hc
  unfold buildValue
  rw [raw, if_pos rfl, Configuration.readNode_of_child? _ hops hk hj hc]
  rfl

theorem buildValue_of_not_container (hk : IsName key) (hj : node.data.child? key = some j)
    (hc : j.isContainer = false) (type : PropertyType) (existing : Option Value) (context : String) :
    k.buildValue m hops node key type existing context
      = (Configuration.resolveJson (Configuration.resolveText (k.surroundings m) hops) node j >>= fun v =>
        match v with
        | none => pure (.ok none)
        | some (.configuration node) => m.buildNode hops node type existing context
        | some (.resource r) =>
            match if buildsObjects type then r.toConfiguration? else none with
            | some node => m.buildNode hops node type existing context
            | none => pure (.ok (some (.resource r)))
        | some v => pure (.ok (some v))) := by
  have raw : (node.raw? key).any Json.isContainer = false := by
    rw [Configuration.raw?_of_isName hk, hj]
    exact hc
  unfold buildValue
  rewrite [raw, if_neg Bool.false_ne_true, Configuration.valueAt_of_isName _ hops hk, hj]
  rfl

/-- A scalar is its own value. -/
theorem buildValue_scalar (hk : IsName key) (hj : node.data.child? key = some j)
    (hc : j.isContainer = false) (hs : ∀ s, j = .string s → Unprefixed s) (existing : Option Value)
    (context : String) :
    k.buildValue m hops node key .any existing context = pure (.ok (some (Value.ofJson j))) := by
  rw [buildValue_of_not_container hk hj hc]
  cases j with
  | string s =>
      show (Configuration.resolveText (k.surroundings m) hops node s >>= _) = _
      rw [Configuration.resolveText_of_unprefixed _ hops node (hs s rfl)]
      rfl
  | object members => exact absurd hc (by simp [Json.isContainer, Json.isObject])
  | array items => exact absurd hc (by simp [Json.isContainer, Json.isObject, Json.isArray])
  | _ => rfl

/-- A reference to a name builds what the container has for it. -/
theorem buildValue_reference (hs : node.handler.schemes.lookup "named" = some (.container .named))
    (hk : IsName key) {text n : String} (hj : node.data.child? key = some (.string text))
    (ht : Refers text n) (existing : Option Value) (context : String) {s : Session}
    {P : Option Value → Session → Prop} {cut : Session → Prop} (hq : ∀ v t u, Quiet t u → P v t → P v u)
    (h : ∀ t hops', Quiet s t → After (m.portal .named hops' (.simple "named" n) []) t
      (fun o u => (∀ r, o ≠ .ok (some (.resource r))) ∧ (∀ c, o ≠ .ok (some (.configuration c))) ∧
        P o.toOption.join u) cut) :
    After (k.buildValue m hops node key .any existing context) s (fun r t => P r.toOption.join t) cut := by
  obtain ⟨-, rest, hrest, hparse⟩ := ht
  rw [buildValue_of_not_container hk hj rfl, Run.after_bind]
  have resolved : ∀ back hops', Configuration.replaceText (k.surroundings m) back hops' node text
      Configuration.depthLimit text
        = node.handler.dereferenceText (k.surroundings m) hops' (String.ofList rest) := by
    intro back hops'
    unfold Configuration.depthLimit Configuration.replaceText
    rw [hrest]
    rfl
  have read : ∀ hops', After (node.handler.dereferenceText (k.surroundings m) hops' (String.ofList rest)) s
      (fun v t => (∀ r, v ≠ some (.resource r)) ∧ (∀ c, v ≠ some (.configuration c)) ∧ P v t) cut := by
    intro hops'
    refine Handler.dereferenceText_after hs hparse ?_ fun t ht => ?_
    · intro v t u hu hv
      exact ⟨hv.1, hv.2.1, hq v t u hu hv.2.2⟩
    · refine (h t hops' ht).mono (fun o u ho => ?_) fun _ => id
      obtain ⟨hr, hc, hp⟩ := ho
      have given : ∀ v, o ≠ .ok (some v) → o.toOption.join ≠ some v := by
        rintro v ho he
        rcases o with e | v'
        · exact absurd he (by simp [Except.toOption])
        · exact ho (congrArg Except.ok he)
      exact ⟨hr, fun r => given _ (hr r), fun c => given _ (hc c), hp⟩
  have done : After (Configuration.resolveText (k.surroundings m) hops node text) s
      (fun v t => (∀ r, v ≠ some (.resource r)) ∧ (∀ c, v ≠ some (.configuration c)) ∧ P v t) cut := by
    cases hops with
    | zero =>
        unfold Configuration.resolveText
        rw [resolved]
        exact read 0
    | succ hops =>
        unfold Configuration.resolveText
        rw [resolved]
        exact read (hops + 1)
  refine done.mono (fun v t hv => ?_) fun _ => id
  obtain ⟨hr, hc, hp⟩ := hv
  cases v with
  | none => exact hp
  | some v =>
      cases v with
      | configuration c => exact absurd rfl (hc c)
      | resource r => exact absurd rfl (hr r)
      | _ => exact hp

end Container

end ObjectGraph
