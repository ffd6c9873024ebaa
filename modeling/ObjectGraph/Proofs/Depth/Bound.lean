import ObjectGraph.Proofs.Keys
import ObjectGraph.Proofs.Normal.Inside

/-!
# `Proofs.Depth.Bound` — how long a chain may be

A parameter may be bound to the name of another, and so on, until one is bound to a text that stands for itself.
Likewise a key of a root may hold a reference to another key of the root, and so on. Both kinds of chain are
followed up to a bound, which is the same number for both. But what is left after as many replacements as there may
be is not looked at any more, so the longest chain of parameters that leads to its text is shorter by one than
the bound, while the longest chain of references is as long as the bound.

Contents:
* `unsettled`, `Rungs`, a chain of parameters, with `replaceText_rungs`, `replaceText_exhausts`, `readAs_rungs`;
* `settled`, `Stairs`, a chain of references, with `valueAt_stair`, `valueAt_stairs`, `valueAt_stairs_ends`;
* `readAs_climbs`; `ladder` and `staircase`, chains of any length; `readAs_climbs_ladder`, `not_readAs_climbs_alike`.
-/

namespace ObjectGraph.Configuration

variable {env : Surroundings} {c : Configuration} {p a : Nat → String} {n : Nat} {t : String} {j : Json}

/-- Reading without a representation gives the value as it is. -/
theorem readAs_default (env : Surroundings) (hops : Nat) (c : Configuration) (path : String) :
    c.readAs env hops path .default = c.valueAt env hops path := by
  unfold readAs
  conv_rhs => rw [← bind_pure (c.valueAt env hops path)]
  refine bind_congr fun found => ?_
  cases found <;> rfl

/-! ## Chains of parameters -/

/-- What comes of a text for which no replacement is left: nothing. -/
def unsettled (supplied : String) : Run (Option Value) := do
  Run.report .warn target "prefix resolution did not settle; treating as absent" [("value", .text supplied)]
  return none

/-- Parameters, of which each is bound to the next, and the last to a text that stands for itself. -/
structure Rungs (c : Configuration) (p : Nat → String) (n : Nat) (t : String) : Prop where
  parameter : ∀ i, 1 ≤ i → i ≤ n → (p i).toList.head? = some '$'
  next : ∀ i, 1 ≤ i → i < n → c.context.lookup (p i) = some (.string (p (i + 1)))
  last : c.context.lookup (p n) = some (.string t)
  plain : Unprefixed t

variable {back : Option Resolver} {hops : Nat} {supplied : String}

/-- A parameter that is bound to a text is replaced by it. -/
theorem replaceText_parameter {s next : String} (hs : s.toList.head? = some '$')
    (bound : c.context.lookup s = some (.string next)) (k : Nat) :
    replaceText env back hops c supplied (k + 1) s = replaceText env back hops c supplied k next := by
  obtain ⟨rest, hl⟩ := List.head?_eq_some_iff.mp hs
  rw [replaceText, hl]
  simp only [bound]

/-- As many replacements as there are parameters lead from the first to the text. -/
theorem replaceText_rungs (h : Rungs c p n t) (back : Option Resolver) (hops : Nat) (supplied : String) (k : Nat)
    (positive : 1 ≤ n) :
    replaceText env back hops c supplied (n + k) (p 1) = replaceText env back hops c supplied k t := by
  have rest : ∀ d i, 1 ≤ i → i + d = n →
      replaceText env back hops c supplied (d + 1 + k) (p i) = replaceText env back hops c supplied k t := by
    intro d
    induction d with
    | zero =>
        intro i first hi
        obtain rfl : i = n := hi
        rw [Nat.zero_add, Nat.add_comm 1 k]
        exact replaceText_parameter (h.parameter i first (Nat.le_refl i)) h.last k
    | succ d ih =>
        intro i first hi
        have below : i < n := by omega
        rw [Nat.add_right_comm (d + 1) 1 k,
          replaceText_parameter (h.parameter i first (Nat.le_of_lt below)) (h.next i first below)]
        exact ih (i + 1) (by omega) (by omega)
  obtain ⟨d, rfl⟩ := Nat.exists_eq_add_of_le' positive
  exact rest d 1 (Nat.le_refl 1) (Nat.add_comm 1 d)

/-- Nothing comes of the first parameter if there are no more replacements than parameters. -/
theorem replaceText_exhausts (h : Rungs c p n t) (back : Option Resolver) (hops : Nat) (supplied : String) {k : Nat}
    (few : k ≤ n) : replaceText env back hops c supplied k (p 1) = unsettled supplied := by
  have rest : ∀ k i, 1 ≤ i → i + k ≤ n + 1 → replaceText env back hops c supplied k (p i) = unsettled supplied := by
    intro k
    induction k with
    | zero =>
        intro i _ _
        rfl
    | succ k ih =>
        intro i first hi
        have prefixed := h.parameter i first (by omega)
        by_cases below : i < n
        · rw [replaceText_parameter prefixed (h.next i first below)]
          exact ih (i + 1) (by omega) (by omega)
        · obtain rfl : i = n := by omega
          obtain rfl : k = 0 := by omega
          rw [replaceText_parameter prefixed h.last]
          rfl
  exact rest k 1 (Nat.le_refl 1) (by omega)

/-- What is read at a key that holds the first parameter of a chain. -/
theorem readAs_rungs (env : Surroundings) {key : String} (hk : IsName key)
    (held : c.data.child? key = some (.string (p 1))) (h : Rungs c p n t) (positive : 1 ≤ n) (hops : Nat) :
    c.readAs env hops key .default = if n < depthLimit then pure (some (.string t)) else unsettled (p 1) := by
  obtain ⟨back, resolved⟩ := resolveText_eq env hops c (p 1)
  rw [readAs_default, valueAt_of_isName env hops hk, held]
  show resolveText env hops c (p 1) = _
  rw [resolved]
  split
  next shorter =>
    obtain ⟨k, enough⟩ := Nat.exists_eq_add_of_lt shorter
    rw [enough, Nat.add_assoc, replaceText_rungs h back hops (p 1) (k + 1) positive,
      replaceText_of_unprefixed env back hops c (p 1) h.plain]
  next longer => exact replaceText_exhausts h back hops (p 1) (Nat.le_of_not_lt longer)

/-! ## Chains of references -/

/-- Data that is no reference, as a value of a node. -/
def settled (c : Configuration) : Json → Value
  | .object members => .configuration (c.child (.object members))
  | .array items => .configuration (c.child (.array items))
  | j => .ofJson j

/-- Keys of a root, of which each holds a reference to the next, and the last something that is no reference. -/
structure Stairs (c : Configuration) (a : Nat → String) (n : Nat) (j : Json) : Prop where
  isRoot : c.isRoot = true
  name : ∀ i ≤ n, IsName (a i)
  next : ∀ i < n, c.data.child? (a i) = some (.string ("#" ++ a (i + 1)))
  last : c.data.child? (a n) = some j
  plain : ∀ s, j = .string s → Unprefixed s

theorem resolveJson_settled (env : Surroundings) (hops : Nat) (c : Configuration)
    (plain : ∀ s, j = .string s → Unprefixed s) :
    resolveJson (resolveText env hops) c j = pure (some (c.settled j)) := by
  cases j with
  | string s => exact resolveText_of_unprefixed env hops c (plain s rfl)
  | _ => rfl

/-- A text that refers to the root is what is read there, if a reference may be followed. -/
theorem resolveText_reference (env : Surroundings) (c : Configuration) (path : String) :
    (∀ hops, resolveText env (hops + 1) c ("#" ++ path)
      = followRoot (some fun root path => root.valueAt env hops path) c path ("#" ++ path)) ∧
    resolveText env 0 c ("#" ++ path) = followRoot none c path ("#" ++ path) := by
  have cut : ("#" ++ path).toList = '#' :: path.toList := String.toList_append
  have first : ∀ back hops k, replaceText env back hops c ("#" ++ path) (k + 1) ("#" ++ path)
      = followRoot back c path ("#" ++ path) := by
    intro back hops k
    rw [replaceText, cut]
    show followRoot back c (String.ofList path.toList) _ = _
    rw [String.ofList_toList]
  exact ⟨fun hops => first _ _ _, first _ _ _⟩

/-- Every key of a chain but the last refers to the next. -/
theorem valueAt_stair (h : Stairs c a n j) (env : Surroundings) (hops : Nat) {i : Nat} (below : i < n) :
    c.valueAt env hops (a i) = resolveText env hops c ("#" ++ a (i + 1)) := by
  rw [valueAt_of_isName env hops (h.name i (Nat.le_of_lt below)), h.next i below]
  rfl

/-- A chain leads to what its last key holds if enough references may be followed. -/
theorem valueAt_stairs (h : Stairs c a n j) {d i hops : Nat} (hi : i + d = n) (enough : d ≤ hops) :
    c.valueAt env hops (a i) = pure (some (c.settled j)) := by
  induction d generalizing i hops with
  | zero =>
      obtain rfl : i = n := hi
      rw [valueAt_of_isName env hops (h.name i (Nat.le_refl i)), h.last]
      exact resolveJson_settled env hops c h.plain
  | succ d ih =>
      obtain ⟨hops, rfl⟩ := Nat.exists_eq_add_of_le' (Nat.le_trans (Nat.succ_pos d) enough)
      have above := @ih (i + 1) hops (by omega) (by omega)
      rw [valueAt_stair h env _ (by omega), (resolveText_reference env c (a (i + 1))).1 hops, followRoot,
        Realm.root_of_isRoot h.isRoot, above]
      rfl

/-- A chain leads nowhere if fewer references may be followed than it has, and the root is strict. -/
theorem valueAt_stairs_ends (env : Surroundings) (h : Stairs c a n j) (strict : c.strict = true) {i hops : Nat}
    (few : i + hops < n) :
    Run.Ends (c.valueAt env hops (a i)) (· = none) := by
  induction hops generalizing i with
  | zero =>
      have below : i < n := few
      rw [valueAt_stair h env 0 below, (resolveText_reference env c (a (i + 1))).2]
      exact (Run.Ends.report _ _ _ _).bind fun _ _ => .pure rfl
  | succ hops ih =>
      have above := @ih (i + 1) (by omega)
      rw [valueAt_stair h env _ (by omega), (resolveText_reference env c (a (i + 1))).1 hops, followRoot,
        Realm.root_of_isRoot h.isRoot]
      refine above.bind ?_
      rintro _ rfl
      show Run.Ends (if c.strict = true then _ else _) _
      rw [if_pos strict]
      exact (Run.Ends.report _ _ _ _).bind fun _ _ => .pure rfl

/-- How far both kinds of chain are followed. From the first of `n` parameters as many replacements lead to the
text that the last is bound to; reading a key that holds the first gives that text if `n` is less than the bound,
and nothing if it is not. A chain of `n` references leads to what its last key holds if `n` is at most the bound,
and a longer one leads nowhere if the root is strict. -/
theorem readAs_climbs (env : Surroundings) :
    (∀ (c : Configuration) (key : String) (p : Nat → String) (n : Nat) (t : String), IsName key →
        c.data.child? key = some (.string (p 1)) → 1 ≤ n → Rungs c p n t →
      (∀ back hops supplied k,
        replaceText env back hops c supplied (n + k) (p 1) = replaceText env back hops c supplied k t) ∧
      c.readAs env depthLimit key .default
        = if n < depthLimit then pure (some (.string t)) else unsettled (p 1)) ∧
    ∀ (c : Configuration) (a : Nat → String) (n : Nat) (j : Json), Stairs c a n j →
      (n ≤ depthLimit → c.readAs env depthLimit (a 0) .default = pure (some (c.settled j))) ∧
      (depthLimit < n → c.strict = true → ∀ s, ∃ t, c.readAs env depthLimit (a 0) .default s = some (none, t)) := by
  constructor
  · intro c key p n t hk held positive h
    refine ⟨?_, readAs_rungs env hk held h positive depthLimit⟩
    intro back hops supplied k
    exact replaceText_rungs h back hops supplied k positive
  · intro c a n j h
    rw [readAs_default]
    refine ⟨fun enough => valueAt_stairs h (Nat.zero_add n) enough, ?_⟩
    intro few strict s
    have nowhere := @valueAt_stairs_ends c a n j env h strict 0 depthLimit (by omega)
    obtain ⟨_, t, ended, rfl⟩ := (nowhere s).ends fun _ => id
    exact ⟨t, ended⟩

/-! ### Chains of any length -/

/-- A letter and as many more as are asked for. -/
def rung (first : Char) (i : Nat) : String := String.ofList (first :: List.replicate i 'a')

theorem rung_injective {first : Char} {i k : Nat} (h : rung first i = rung first k) : i = k := by
  have same := congrArg String.toList h
  rw [rung, rung, String.toList_ofList, String.toList_ofList, List.cons.injEq] at same
  simpa using congrArg List.length same.2

theorem nodup_rungs {α : Type} (first : Char) (f : Nat → α) (n : Nat) :
    (Table.keys ((List.range n).map fun i => (rung first i, f i))).Nodup := by
  rw [Table.keys, List.map_map]
  exact List.nodup_range.map fun _ _ => rung_injective

theorem lookup_rungs {α : Type} (first : Char) (f : Nat → α) {n i : Nat} (hi : i < n) :
    ((List.range n).map fun i => (rung first i, f i)).lookup (rung first i) = some (f i) :=
  Table.lookup_of_mem (nodup_rungs first f n) (List.mem_map.mpr ⟨i, List.mem_range.mpr hi, rfl⟩)

/-- A root with a chain of `n` parameters. -/
def ladder (n : Nat) : Configuration :=
  .make (.object (("v", .string (rung '$' 1)) :: (List.range (n + 1)).map fun i =>
    (rung '$' i, .string (if i < n then rung '$' (i + 1) else "t")))) .empty

/-- A strict root with a chain of `n` references. -/
def staircase (n : Nat) : Configuration :=
  (Configuration.make (.object ((List.range (n + 1)).map fun i =>
    (rung 'a' i, if i < n then .string ("#" ++ rung 'a' (i + 1)) else .bool true))) .empty).withStrict true

/-- The parameters of the root are the chain. -/
theorem splitParameters_ladder (n : Nat) : splitParameters (.object (("v", .string (rung '$' 1)) ::
      (List.range (n + 1)).map fun i => (rung '$' i, .string (if i < n then rung '$' (i + 1) else "t"))))
    = (.object [("v", .string (rung '$' 1))],
      (List.range (n + 1)).map fun i => (rung '$' i, .string (if i < n then rung '$' (i + 1) else "t"))) := by
  have parameter : ∀ i, isParameter (rung '$' i) = true := by
    intro i
    rw [isParameter, rung, String.toList_ofList]
    rfl
  have other : isParameter "v" = false := by decide
  simp [splitParameters, splitMembers, List.partition_eq_filter_filter, List.filter_map, Function.comp_def,
    parameter, other, Value.ofJson]

theorem child?_ladder (n : Nat) : (ladder n).data.child? "v" = some (.string (rung '$' 1)) := by
  unfold ladder make
  rw [splitParameters_ladder]
  rfl

theorem lookup_ladder {n i : Nat} (hi : i ≤ n) :
    (ladder n).context.lookup (rung '$' i) = some (.string (if i < n then rung '$' (i + 1) else "t")) := by
  unfold ladder make
  rw [splitParameters_ladder]
  show (Table.insertAll [] _).lookup _ = _
  rw [Table.lookup_insertAll, List.lookup_nil, Option.or_none, Table.lookup_reverse (nodup_rungs _ _ _)]
  exact lookup_rungs _ _ (Nat.lt_succ_of_le hi)

theorem rungs_ladder (n : Nat) : Rungs (ladder n) (rung '$') n "t" where
  parameter i _ _ := by rw [rung, String.toList_ofList]; rfl
  next i _ below := by rw [lookup_ladder (Nat.le_of_lt below), if_pos below]
  last := by rw [lookup_ladder (Nat.le_refl n), if_neg (Nat.lt_irrefl n)]
  plain := by decide

theorem child?_staircase {n i : Nat} (hi : i ≤ n) : (staircase n).data.child? (rung 'a' i)
    = some (if i < n then .string ("#" ++ rung 'a' (i + 1)) else .bool true) := by
  have other : ∀ i, isParameter (rung 'a' i) = false := by
    intro i
    rw [isParameter, rung, String.toList_ofList]
    rfl
  have whole : (staircase n).data = .object ((List.range (n + 1)).map fun i =>
      (rung 'a' i, if i < n then .string ("#" ++ rung 'a' (i + 1)) else .bool true)) := by
    simp [staircase, withStrict, make, splitParameters, splitMembers, List.partition_eq_filter_filter,
      List.filter_map, Function.comp_def, other]
  rw [whole]
  exact lookup_rungs _ _ (Nat.lt_succ_of_le hi)

theorem stairs_staircase (n : Nat) : Stairs (staircase n) (rung 'a') n (.bool true) where
  isRoot := rfl
  name i _ := by
    constructor
    · intro empty
      simpa [rung] using congrArg String.toList empty
    · simp [rung]
  next i below := by rw [child?_staircase (Nat.le_of_lt below), if_pos below]
  last := by rw [child?_staircase (Nat.le_refl n), if_neg (Nat.lt_irrefl n)]
  plain s h := by cases h

theorem readAs_climbs_ladder :
    (IsName "v" ∧ (ladder 31).data.child? "v" = some (.string (rung '$' 1)) ∧ Rungs (ladder 31) (rung '$') 31 "t" ∧
      (∀ back hops supplied k, replaceText (.ofHost .bare) back hops (ladder 31) supplied (31 + k) (rung '$' 1)
        = replaceText (.ofHost .bare) back hops (ladder 31) supplied k "t") ∧
      (ladder 31).readAs (.ofHost .bare) depthLimit "v" .default = pure (some (.string "t"))) ∧
    (Rungs (ladder 32) (rung '$') 32 "t" ∧
      (ladder 32).readAs (.ofHost .bare) depthLimit "v" .default = unsettled (rung '$' 1)) ∧
    (Stairs (staircase 32) (rung 'a') 32 (.bool true) ∧
      (staircase 32).readAs (.ofHost .bare) depthLimit (rung 'a' 0) .default = pure (some (.bool true))) ∧
    (Stairs (staircase 33) (rung 'a') 33 (.bool true) ∧
      ∀ s, ∃ t, (staircase 33).readAs (.ofHost .bare) depthLimit (rung 'a' 0) .default s = some (none, t)) := by
  have name : IsName "v" := by decide
  obtain ⟨parameters, references⟩ := readAs_climbs (.ofHost .bare)
  obtain ⟨replaced, short⟩ := parameters (ladder 31) "v" _ 31 "t" name (child?_ladder 31) (by decide) (rungs_ladder 31)
  obtain ⟨-, long⟩ := parameters (ladder 32) "v" _ 32 "t" name (child?_ladder 32) (by decide) (rungs_ladder 32)
  exact ⟨⟨name, child?_ladder 31, rungs_ladder 31, replaced, short⟩, ⟨rungs_ladder 32, long⟩,
    ⟨stairs_staircase 32, (references _ _ _ _ (stairs_staircase 32)).1 (by decide)⟩,
    ⟨stairs_staircase 33, (references _ _ _ _ (stairs_staircase 33)).2 (by decide) rfl⟩⟩

/-- The bound is not the same for both kinds of chain: as many parameters as a chain may have references lead to
nothing. -/
theorem not_readAs_climbs_alike :
    ¬ ∀ (env : Surroundings) (c : Configuration) (key : String) (p : Nat → String) (n : Nat) (t : String),
      IsName key → c.data.child? key = some (.string (p 1)) → 1 ≤ n → Rungs c p n t → n ≤ depthLimit →
      ∃ s, c.readAs env depthLimit key .default Session.start = some (some (.string t), s) := by
  intro alike
  have name : IsName "v" := by decide
  have nothing := readAs_rungs (.ofHost .bare) name (child?_ladder 32) (rungs_ladder 32) (by decide) depthLimit
  obtain ⟨s, found⟩ := alike (.ofHost .bare) (ladder 32) "v" _ 32 "t" name (child?_ladder 32) (by decide)
    (rungs_ladder 32) (by decide)
  rw [nothing, if_neg (by decide)] at found
  have lost : ((unsettled (rung '$' 1)).run Session.start).1 = some none := rfl
  rw [Run.ended_iff.mp found] at lost
  exact absurd lost (by simp)

end ObjectGraph.Configuration
