import Mathlib.Tactic.IntervalCases
import ObjectGraph.Proofs.Reading

/-!
# `Proofs.Aliases` — what a chain of aliases stands for

An alias may be followed only so often, and the aliases in the parameters of a URI are counted together with
those that led to the URI. So every URI comes to an end, in whatever circle its aliases and parameters lead
(`dereference_rowwise`, by induction on what may still be followed and on the URI). A chain that is short enough
gives what is at its end, seen through the formats of its aliases; one that is too long fails where the last
alias has been followed. What is at the end of a chain is what it is without the chain, as long as its own
parameters need no more aliases than are left (`Settles`).

Contents:
* `Means`, `following`, `formatted`: an alias, and one step of a chain;
* `dereference_chain`, `dereference_beyond`;
* `Settles`, `dereference_of_settles`;
* `dereference_of_failed_parameter`; `alias_resolution`, `not_tryDereference_chain`.
-/

namespace ObjectGraph.Handler

variable {env : Surroundings} {handler : Handler} {hops k : Nat} {u v w : Uri}

/-! ## One alias -/

/-- The URI is an alias that stands for another URI. -/
def Means (handler : Handler) (v u : Uri) : Prop :=
  v.isAlias = true ∧ ∃ text, handler.aliases.lookup v.name = some text ∧ Uri.parse text = .ok u

/-- How an alias is followed when so many more may be. -/
def following (env : Surroundings) (handler : Handler) (hops : Nat) : Nat → Option (Uri → Run Outcome)
  | 0 => none
  | aliases + 1 => some (dereference env handler hops aliases)

/-- What an alias makes of what it stands for: its format is applied to a value. -/
def formatted (host : Host) (handler : Handler) (v : Uri) : Outcome → Run Outcome
  | .ok (some value) => applyFormat host handler value v
  | outcome => pure outcome

theorem dereference_eq (env : Surroundings) (handler : Handler) (hops k : Nat) (u : Uri) :
    dereference env handler hops k u = dereferenceWith env handler hops (following env handler hops k) u := by
  cases k <;> rfl

/-- An alias is seen by itself, whatever else its URI has. -/
theorem dereference_of_isAlias (hv : v.isAlias = true) :
    dereference env handler hops k v = dereferenceAlias env handler (following env handler hops k) v := by
  rw [dereference_eq]
  cases v with
  | mk scheme name fragment parameters format =>
      rw [dereferenceWith]
      exact if_pos hv

theorem dereference_of_means (h : handler.Means v u) :
    dereference env handler hops (k + 1) v
      = dereference env handler hops k u >>= formatted env.host handler v := by
  obtain ⟨hv, text, bound, parsed⟩ := h
  rw [dereference_of_isAlias hv, following]
  unfold dereferenceAlias
  rw [bound]
  dsimp only
  rw [parsed]
  refine congrArg (dereference env handler hops k u >>= ·) (funext fun outcome => ?_)
  match outcome with
  | .error _ => rfl
  | .ok none => rfl
  | .ok (some _) => rfl

theorem dereference_zero_of_isAlias (hv : v.isAlias = true) :
    dereference env handler hops 0 v = pure (.error (.unknownAlias v.name)) := by
  rw [dereference_of_isAlias hv]
  rfl

/-! ## Chains of aliases -/

/-- A chain that is short enough gives what is at its end, in the formats of its aliases from the last to the
first. -/
theorem dereference_chain {rest : List Uri} (chain : (v :: rest ++ [u]).IsChain handler.Means) (k : Nat) :
    dereference env handler hops (k + (v :: rest).length) v
      = dereference env handler hops k u >>= fun outcome =>
        (v :: rest).foldrM (formatted env.host handler) outcome := by
  induction rest generalizing v with
  | nil =>
      have last : handler.Means v u := (List.isChain_cons_cons.mp chain).1
      simpa using dereference_of_means last
  | cons w rest ih =>
      obtain ⟨first, chain⟩ := List.isChain_cons_cons.mp chain
      show dereference env handler hops (k + (w :: rest).length + 1) v = _
      rw [dereference_of_means first, ih chain, bind_assoc]
      simp only [List.foldrM_cons]

/-- A chain that is too long fails at the alias that may not be followed any more. -/
theorem dereference_beyond {rest : List Uri} (chain : (v :: rest ++ [u]).IsChain handler.Means)
    (long : k < (v :: rest).length) :
    dereference env handler hops k v = pure (.error (.unknownAlias (v :: rest)[k].name)) := by
  induction k generalizing v rest with
  | zero =>
      have first : v.isAlias = true := by
        cases rest with
        | nil => exact (List.isChain_cons_cons.mp chain).1.1
        | cons w rest => exact (List.isChain_cons_cons.mp chain).1.1
      exact dereference_zero_of_isAlias first
  | succ k ih =>
      cases rest with
      | nil => exact absurd long (by simp)
      | cons w rest =>
          obtain ⟨first, chain⟩ := List.isChain_cons_cons.mp chain
          rw [dereference_of_means first, ih chain (Nat.lt_of_succ_lt_succ long)]
          rfl

/-! ## How many aliases a URI needs -/

/-- Dereferencing the URI follows no more than so many aliases in a row, neither itself nor for its
parameters. -/
inductive Settles (handler : Handler) : Nat → Uri → Prop
  | unknown {k : Nat} {v : Uri} : v.isAlias = true → handler.aliases.lookup v.name = none → Settles handler k v
  | malformed {k : Nat} {v : Uri} {text : String} {e : Uri.SyntaxError} : v.isAlias = true →
      handler.aliases.lookup v.name = some text → Uri.parse text = .error e → Settles handler (k + 1) v
  | means {k : Nat} {v u : Uri} : handler.Means v u → Settles handler k u → Settles handler (k + 1) v
  | parameters {k : Nat} {u : Uri} : u.isAlias = false → (∀ p ∈ u.parameters, Settles handler k p.2) →
      Settles handler k u

/-- Parameters are what they are if each is dereferenced alike. -/
theorem dereferenceParameters_congr {follow follow' : Option (Uri → Run Outcome)} {parameters : List (String × Uri)}
    (same : ∀ p ∈ parameters,
      dereferenceWith env handler hops follow p.2 = dereferenceWith env handler hops follow' p.2)
    (whole : Uri) (done : Params) :
    dereferenceParameters env handler hops follow whole done parameters
      = dereferenceParameters env handler hops follow' whole done parameters := by
  induction parameters generalizing done with
  | nil => rfl
  | cons p parameters ih =>
      obtain ⟨name, u⟩ := p
      have next := ih fun p hp => same p (List.mem_cons_of_mem _ hp)
      unfold dereferenceParameters
      rw [same (name, u) List.mem_cons_self]
      simp only [next]

/-- More aliases than the URI needs make no difference. -/
theorem dereference_of_settles {k m : Nat} (h : handler.Settles k u) (le : k ≤ m) :
    dereference env handler hops m u = dereference env handler hops k u := by
  induction h generalizing m with
  | @unknown k v hv free =>
      rw [dereference_of_isAlias hv, dereference_of_isAlias hv]
      unfold dereferenceAlias
      rw [free]
      simp
  | @malformed k v text e hv bound bad =>
      obtain ⟨m, rfl⟩ := Nat.exists_eq_succ_of_ne_zero (Nat.ne_of_gt (Nat.lt_of_lt_of_le k.succ_pos le))
      rw [dereference_of_isAlias hv, dereference_of_isAlias hv]
      unfold dereferenceAlias following
      rw [bound]
      dsimp only
      rw [bad]
  | @means k v u means _ ih =>
      obtain ⟨m, rfl⟩ := Nat.exists_eq_succ_of_ne_zero (Nat.ne_of_gt (Nat.lt_of_lt_of_le k.succ_pos le))
      rw [dereference_of_means means, dereference_of_means means, ih (Nat.le_of_succ_le_succ le)]
  | @parameters k u plain _ ih =>
      rw [dereference_eq, dereference_eq]
      cases u with
      | mk scheme name fragment parameters format =>
          have same (p) (hp : p ∈ parameters) := ih p hp le
          simp only [dereference_eq] at same
          unfold dereferenceWith
          dsimp only
          simp only [plain, dereferenceParameters_congr same, Bool.false_eq_true, if_false]

/-! ## Parameters that fail -/

/-- A URI of a scheme is dereferenced with the values of its parameters. -/
theorem dereference_of_scheme {s : Scheme} (hw : w.isAlias = false) (hs : handler.schemes.lookup w.scheme = some s) :
    dereference env handler hops k w = (do
      let params ← dereferenceParameters env handler hops (following env handler hops k) w [] w.parameters
      dereferenceIn env handler hops s w params) := by
  rw [dereference_eq]
  cases w with
  | mk scheme name fragment parameters format =>
      rw [dereferenceWith]
      dsimp only [Uri.scheme] at hs ⊢
      rw [hw, hs]
      rfl

theorem dereferenceParameters_append (follow : Option (Uri → Run Outcome)) (whole : Uri) (done : Params)
    (before after : List (String × Uri)) :
    dereferenceParameters env handler hops follow whole done (before ++ after) = (do
      let mid ← dereferenceParameters env handler hops follow whole done before
      dereferenceParameters env handler hops follow whole mid after) := by
  induction before generalizing done with
  | nil => rfl
  | cons p before ih =>
      obtain ⟨name, u⟩ := p
      rw [List.cons_append, dereferenceParameters, dereferenceParameters]
      cases plainText? u with
      | some text =>
          dsimp only
          rw [pure_bind, pure_bind, ih]
      | none =>
          dsimp only
          simp only [ih, bind_assoc]

/-- An alias is no literal text. -/
theorem plainText?_of_isAlias (hv : v.isAlias = true) : plainText? v = none := by
  have scheme : v.scheme = Uri.aliasScheme := by simpa [Uri.isAlias] using hv
  have other : v.literalText? = none := by simp [Uri.literalText?, Uri.isLiteral, scheme]; decide
  rw [plainText?, other, ite_self]

/-- A URI goes on without a parameter whose alias fails; the failure is reported. -/
theorem dereference_of_failed_parameter {σ : Scheme} {name : String} {before after : List (String × Uri)}
    {mid : Params} {e : Error} {r s t : Session} (hw : w.isAlias = false)
    (hσ : handler.schemes.lookup w.scheme = some σ) (hp : w.parameters = before ++ (name, v) :: after)
    (hv : v.isAlias = true)
    (first : dereferenceParameters env handler hops (following env handler hops k) w [] before r = some (mid, s))
    (failed : dereference env handler hops k v s = some (.error e, t)) :
    (dereference env handler hops k w).run r
      = (do
          Run.report .warn target "parameter failed"
            [("uri", .shown w.canonical), ("param", .shown name), ("error", .shown e.message)]
          let params ← dereferenceParameters env handler hops (following env handler hops k) w mid after
          dereferenceIn env handler hops σ w params).run t := by
  rw [dereference_of_scheme hw hσ, hp, dereferenceParameters_append, bind_assoc, Run.run_bind,
    Run.ended_iff.mp first]
  dsimp only
  rw [dereferenceParameters, plainText?_of_isAlias hv]
  dsimp only
  rw [← dereference_eq, bind_assoc, Run.run_bind, Run.ended_iff.mp failed]
  rfl

/-! ## Aliases in all -/

/-- **Resolving aliases.** Every URI comes to an end if the container's schemes do, whatever stands in the table of
aliases. A chain of no more aliases than may be followed gives what is at its end, with so many aliases followed
already, in the formats of the aliases from the last to the first; and that is what is at its end by itself, if no
more aliases are needed there than are left. A longer chain fails at the first alias too many. As a parameter
of a URI, an alias that fails is left out, whatever the failure is. -/
theorem alias_resolution (env : Surroundings) (handler : Handler) (hops : Nat) :
    (env.All (fun _ x => Run.Ends x fun _ => True) →
        ∀ u, Run.Ends (tryDereference env handler hops u) fun _ => True)
      ∧ (∀ v rest u, (v :: rest ++ [u]).IsChain handler.Means → u.isAlias = false →
          ((v :: rest).length ≤ aliasLimit →
            tryDereference env handler hops v = (do
                let outcome ← dereference env handler hops (aliasLimit - (v :: rest).length) u
                (v :: rest).foldrM (formatted env.host handler) outcome)
              ∧ (handler.Settles (aliasLimit - (v :: rest).length) u →
                tryDereference env handler hops v = (do
                  let outcome ← tryDereference env handler hops u
                  (v :: rest).foldrM (formatted env.host handler) outcome)))
          ∧ ∀ long : aliasLimit < (v :: rest).length,
            tryDereference env handler hops v
              = pure (.error (.unknownAlias (v :: rest)[aliasLimit].name)))
      ∧ ∀ k w σ name v before after mid e (r s t : Session), w.isAlias = false →
          handler.schemes.lookup w.scheme = some σ → w.parameters = before ++ (name, v) :: after →
          v.isAlias = true →
          dereferenceParameters env handler hops (following env handler hops k) w [] before r = some (mid, s) →
          dereference env handler hops k v s = some (.error e, t) →
          (dereference env handler hops k w).run r
            = (do
                Run.report .warn target "parameter failed"
                  [("uri", .shown w.canonical), ("param", .shown name), ("error", .shown e.message)]
                let params ← dereferenceParameters env handler hops (following env handler hops k) w mid after
                dereferenceIn env handler hops σ w params).run t := by
  refine ⟨fun he u => dereference_rowwise Run.Ends.rowwise he handler hops aliasLimit u,
    fun v rest u chain plain => ⟨fun short => ?_, dereference_beyond chain⟩, ?_⟩
  · have through : tryDereference env handler hops v = (do
        let outcome ← dereference env handler hops (aliasLimit - (v :: rest).length) u
        (v :: rest).foldrM (formatted env.host handler) outcome) := by
      have left : aliasLimit - (v :: rest).length + (v :: rest).length = aliasLimit := Nat.sub_add_cancel short
      rw [← dereference_chain chain, left, tryDereference]
    refine ⟨through, fun settles => ?_⟩
    rw [through, tryDereference, dereference_of_settles settles (Nat.sub_le _ _)]
  · intro k w σ name v before after mid e r s t hw hσ hp hv first failed
    exact dereference_of_failed_parameter hw hσ hp hv first failed

/-! ## A ladder of aliases -/

/-- A host with a scheme that gives the values of the parameters. -/
def echoHost : Host := { Host.bare with scheme := fun _ _ params => .ok (some (.map params)) }

/-- A rung of a ladder of aliases. -/
def rung (n : Nat) : Uri := Uri.ofAlias ("a" ++ toString n)

/-- What the ladder stands on: a URI with an alias as a parameter. -/
def ground : Uri := .mk "echo" "x" none [("p", .ofAlias "b")] none

/-- The lowest rungs of the ladder, from above. -/
def rungs : Nat → List Uri
  | 0 => []
  | n + 1 => rung n :: rungs n

/-- A handler with a ladder of seventeen aliases, and one that is not on it. -/
def ladder : Handler :=
  { Handler.standard with
    schemes := [("echo", .custom 0 false), (Uri.literalScheme, .literal)]
    aliases := [("a0", "echo:x+p@~b"), ("b", "s:hi")]
      ++ (List.range 16).map fun n => ("a" ++ toString (n + 1), "~a" ++ toString n) }

theorem ladder_means {n : Nat} (h : n < 16) : ladder.Means (rung (n + 1)) (rung n) := by
  interval_cases n <;> exact ⟨rfl, _, rfl, rfl⟩

theorem rungs_chain {n : Nat} (h : n ≤ 17) : (rungs n ++ [ground]).IsChain ladder.Means := by
  induction n with
  | zero => exact .singleton _
  | succ n ih =>
      have below := ih (Nat.le_of_succ_le h)
      cases n with
      | zero => exact List.isChain_cons_cons.mpr ⟨⟨rfl, _, rfl, rfl⟩, below⟩
      | succ n =>
          exact List.isChain_cons_cons.mpr
            ⟨ladder_means (Nat.lt_of_succ_le (Nat.le_of_succ_le_succ h)), below⟩

/-- The names of the parameters that the scheme was given. -/
def givenNames (outcome : Outcome) : Option (List String) :=
  match outcome with
  | .ok (some (.map entries)) => some (Table.keys entries)
  | _ => none

/-- At the end of sixteen aliases there is none left for a parameter, so what is there is not what it is by
itself. -/
theorem not_tryDereference_chain :
    ¬ ∀ (env : Surroundings) (handler : Handler) (hops : Nat) (v : Uri) (rest : List Uri) (u : Uri),
      env.All (fun _ x => Run.Ends x fun _ => True) → (v :: rest ++ [u]).IsChain handler.Means →
      u.isAlias = false → (v :: rest).length ≤ aliasLimit →
      tryDereference env handler hops v = (do
        let outcome ← tryDereference env handler hops u
        (v :: rest).foldrM (formatted env.host handler) outcome) := by
  intro transparent
  have same := transparent (.ofHost echoHost) ladder 0 (rung 15) (rungs 15) ground
    (fun _ _ _ _ _ => trivial) (rungs_chain (show 16 ≤ 17 by decide)) rfl le_rfl
  have told := congrArg (fun x => (x.run Session.start).1.map givenNames) same
  exact absurd told (by decide +kernel)

/-- Above four rungs there are aliases left for the parameter, and above sixteen there is nothing. As a parameter,
the ladder is left out. -/
theorem alias_resolution_ladder :
    let env := Surroundings.ofHost echoHost
    let onLadder := Uri.mk "echo" "y" none [("q", rung 16)] none
    (tryDereference env ladder 0 (rung 3) = do
        let outcome ← tryDereference env ladder 0 ground
        (rungs 4).foldrM (formatted env.host ladder) outcome)
      ∧ tryDereference env ladder 0 (rung 16) = pure (.error (.unknownAlias "a0"))
      ∧ ((tryDereference env ladder 0 onLadder).run Session.start).1.map givenNames = some (some [])
      ∧ Run.Ends (tryDereference env ladder 0 onLadder) fun _ => True := by
  intro env onLadder
  obtain ⟨ends, chains, parameters⟩ := alias_resolution env ladder 0
  have bound : ladder.Means (.ofAlias "b") (.literal "hi") := ⟨rfl, _, rfl, rfl⟩
  have settles : ladder.Settles (aliasLimit - (rungs 4).length) ground := by
    refine .parameters rfl fun p hp => ?_
    obtain rfl := List.mem_singleton.mp hp
    exact .means bound (.parameters rfl (by simp [Uri.literal, Uri.simple, Uri.parameters]))
  have whole := chains (rung 16) (rungs 16) ground (rungs_chain (show 17 ≤ 17 from le_rfl)) rfl
  have fails := whole.2 (by decide)
  have without := parameters aliasLimit onLadder (.custom 0 false) "q" (rung 16) [] [] [] _ _ _ _ rfl rfl rfl rfl rfl
    (congrArg (fun x => x.ended? Session.start) fails)
  refine ⟨?_, fails, ?_, ends (fun _ _ _ _ _ => trivial) _⟩
  · exact ((chains (rung 3) (rungs 3) ground (rungs_chain (show 4 ≤ 17 by decide)) rfl).1 (by decide)).2 settles
  · rw [tryDereference, without]
    rfl

end ObjectGraph.Handler
