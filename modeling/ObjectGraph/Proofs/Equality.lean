import ObjectGraph.Proofs.Rounding
import ObjectGraph.Value

/-!
# `Proofs.Equality` — equal values

Values of raw data are equal when they have the same shape and equal numbers at the same places. So equality is
whatever equality of numbers is. That is exact between whole numbers of 64 signed bits, and compares the nearest
floating point numbers in every other case: it is reflexive and symmetric, but a number beyond the signed ones, or
one with a fraction point, may be equal to two whole numbers that are not equal. This is the only way in which
transitivity fails (`Number.Blurs`), and it cannot happen between whole numbers of up to 53 binary digits, which have
a floating point number each.

Contents:
* `Number.Blurs`, `Number.Short`; `equals_comm`, `equals_trans_or_blurs`, `not_blurs_of_short`, `equals_integer_iff`;
* `Value.Raw`, values of raw data; `Value.Blurs`, the same of values;
* `equalEntries_iff`, `equals_of_equalItems`, `equalItems_self`, `equalItems_comm`, `equalItems_or_blurs`: rows;
* `equals_of_raw`, `equals_comm_of_raw`, `equals_or_blurs`, `Blurs.not_equals`, `not_blurs_of_short`;
* `equals_laws`, `not_equals_laws`.
-/

namespace ObjectGraph

/-! ## Numbers -/

namespace Number

variable {a b c : Number}

/-- Two different whole numbers of 64 signed bits, and between them a number that is none: it is compared with both
of them in floating point. -/
def Blurs (a b c : Number) : Prop :=
  ∃ m n, a.int64? = some m ∧ b.int64? = none ∧ c.int64? = some n ∧ m ≠ n

/-- A whole number of up to 53 binary digits, or a floating point number. -/
def Short : Number → Prop
  | .integer n _ => n.natAbs ≤ Nat.pow 2 53
  | .float _ => True

instance : DecidablePred Short
  | .integer n _ => inferInstanceAs (Decidable (n.natAbs ≤ Nat.pow 2 53))
  | .float _ => .isTrue trivial

/-- Two numbers of which one is no whole number of 64 signed bits are compared in floating point. -/
theorem equals_of_none (h : a.int64? = none ∨ b.int64? = none) :
    a.equals b = a.toFloat.sameValue b.toFloat := by
  unfold equals
  split
  next ha hb => rcases h with h | h <;> simp [h] at ha hb
  next => rfl

/-- Whole numbers of 64 signed bits are compared as such. -/
theorem equals_of_some {m n : Int} (ha : a.int64? = some m) (hb : b.int64? = some n) :
    a.equals b = true ↔ m = n := by
  rw [equals, ha, hb]
  exact beq_iff_eq

theorem equals_comm (a b : Number) : a.equals b = b.equals a := by
  cases ha : a.int64? with
  | none => rw [equals_of_none (.inl ha), equals_of_none (.inr ha), Binary64.sameValue_comm]
  | some m =>
      cases hb : b.int64? with
      | none => rw [equals_of_none (.inr hb), equals_of_none (.inl hb), Binary64.sameValue_comm]
      | some n => rw [Bool.eq_iff_iff, equals_of_some ha hb, equals_of_some hb ha, eq_comm]

/-- Equality of numbers is transitive, but for different whole numbers with a number between them that is compared
with both in floating point. -/
theorem equals_trans_or_blurs (hab : a.equals b = true) (hbc : b.equals c = true) :
    a.equals c = true ∨ a.Blurs b c := by
  cases hb : b.int64? with
  | some n =>
      refine .inl ?_
      cases ha : a.int64? with
      | none =>
          -- all three in floating point, whatever `c` is
          rw [equals_of_none (.inl ha)] at hab ⊢
          cases hc : c.int64? with
          | none =>
              rw [equals_of_none (.inr hc)] at hbc
              exact Binary64.sameValue_trans hab hbc
          | some p =>
              obtain rfl := (equals_of_some hb hc).mp hbc
              obtain ⟨_, rfl, -⟩ := eq_of_int64? hb
              obtain ⟨_, rfl, -⟩ := eq_of_int64? hc
              exact hab
      | some m =>
          obtain rfl := (equals_of_some ha hb).mp hab
          obtain ⟨_, rfl, -⟩ := eq_of_int64? ha
          obtain ⟨_, rfl, -⟩ := eq_of_int64? hb
          exact hbc
  | none =>
      rw [equals_of_none (.inr hb)] at hab
      rw [equals_of_none (.inl hb)] at hbc
      have through := Binary64.sameValue_trans hab hbc
      cases ha : a.int64? with
      | none => exact .inl (by rw [equals_of_none (.inl ha), through])
      | some m =>
          cases hc : c.int64? with
          | none => exact .inl (by rw [equals_of_none (.inr hc), through])
          | some n =>
              by_cases same : m = n
              · exact .inl ((equals_of_some ha hc).mpr same)
              · exact .inr ⟨m, n, ha, hb, hc, same⟩

/-- The two whole numbers are not equal. -/
theorem Blurs.not_equals (h : a.Blurs b c) : ¬ a.equals c = true := by
  obtain ⟨m, n, ha, -, hc, other⟩ := h
  exact fun equal => other ((equals_of_some ha hc).mp equal)

/-- A whole number of a document is far from too large for a floating point number. -/
theorem log2_natAbs_le {n : Int} (range : leastInteger ≤ n ∧ n < unsignedBound) : n.natAbs.log2 ≤ 1022 := by
  have least : leastInteger = -(2 ^ 63) := rfl
  have bound : unsignedBound = 2 ^ 64 := rfl
  have digits : n.natAbs.log2 ≤ 63 := log2_le_of_lt (by omega)
  omega

/-- Whole numbers of up to 53 binary digits are not blurred. -/
theorem not_blurs_of_short (ha : a.Short) (hc : c.Short) (hab : a.equals b = true) (hbc : b.equals c = true) :
    ¬ a.Blurs b c := by
  rintro ⟨m, n, hm, hb, hn, other⟩
  rw [equals_of_none (.inr hb)] at hab
  rw [equals_of_none (.inl hb)] at hbc
  obtain ⟨rm, rfl, -⟩ := eq_of_int64? hm
  obtain ⟨rn, rfl, -⟩ := eq_of_int64? hn
  have same : nearestInt m = nearestInt n :=
    (Binary64.sameValue_ofInt_iff (log2_natAbs_le rm) (log2_natAbs_le rn)).mp (Binary64.sameValue_trans hab hbc)
  rw [nearestInt_of_le ha, nearestInt_of_le hc] at same
  exact other same

/-- Whole numbers of a document are equal if they are the same; but if one of them lies beyond 64 signed bits, it is
enough that they have the same nearest number of 53 binary digits. -/
theorem equals_integer_iff {m n : Int} (hm : leastInteger ≤ m ∧ m < unsignedBound)
    (hn : leastInteger ≤ n ∧ n < unsignedBound) :
    (integer m hm).equals (integer n hn) = true ↔
      m = n ∨ (signedBound ≤ max m n ∧ nearestInt m = nearestInt n) := by
  have float := Binary64.sameValue_ofInt_iff (log2_natAbs_le hm) (log2_natAbs_le hn)
  by_cases signed : m < signedBound ∧ n < signedBound
  · rw [equals_of_some (a := integer m hm) (b := integer n hn) (if_pos signed.1) (if_pos signed.2)]
    have : ¬ signedBound ≤ max m n := by omega
    simp [this]
  · have beyond : (integer m hm).int64? = none ∨ (integer n hn).int64? = none := by
      rcases Decidable.not_and_iff_not_or_not.mp signed with h | h
      · exact .inl (if_neg h)
      · exact .inr (if_neg h)
    have greatest : signedBound ≤ max m n := by omega
    rw [equals_of_none beyond]
    refine float.trans ⟨fun h => .inr ⟨greatest, h⟩, ?_⟩
    rintro (rfl | ⟨-, h⟩)
    · rfl
    · exact h

end Number

/-! ## Values of raw data -/

/-- A value of raw data, with numbers of a kind. -/
inductive Value.Raw (kind : Number → Prop) : Value → Prop
  | null : Raw kind .null
  | bool (b : Bool) : Raw kind (.bool b)
  | number {x : Number} (hx : kind x) : Raw kind (.number x)
  | string (s : String) : Raw kind (.string s)
  | list {items : List Value} (h : ∀ v ∈ items, Raw kind v) : Raw kind (.list items)
  | map {entries : List (String × Value)} (h : ∀ e ∈ entries, Raw kind e.2) : Raw kind (.map entries)

/-- At some place in three values there are two different whole numbers with a number between them that is compared
with both in floating point. -/
inductive Value.Blurs : Value → Value → Value → Prop
  | number {a b c : Number} (h : a.Blurs b c) : Blurs (.number a) (.number b) (.number c)
  | item {us vs ws : List Value} {i : Nat} {u v w : Value} (hu : us[i]? = some u) (hv : vs[i]? = some v)
      (hw : ws[i]? = some w) (h : Blurs u v w) : Blurs (.list us) (.list vs) (.list ws)
  | entry {us vs ws : List (String × Value)} {i : Nat} {u v w : String × Value} (hu : us[i]? = some u)
      (hv : vs[i]? = some v) (hw : ws[i]? = some w) (h : Blurs u.2 v.2 w.2) : Blurs (.map us) (.map vs) (.map ws)

namespace Value

variable {kind : Number → Prop} {u v w : Value} {us vs ws : List Value}

/-! ### Rows -/

/-- Entries are equal if their keys are the same and their values equal, in a row. -/
theorem equalEntries_iff {as bs : List (String × Value)} :
    equalEntries as bs = true ↔
      as.map Prod.fst = bs.map Prod.fst ∧ equalItems (as.map Prod.snd) (bs.map Prod.snd) = true := by
  induction as generalizing bs with
  | nil => cases bs <;> simp [equalEntries, equalItems]
  | cons a as ih =>
      cases bs with
      | nil => simp [equalEntries]
      | cons b bs =>
          simp only [equalEntries, equalItems, List.map_cons, List.cons.injEq, Bool.and_eq_true, beq_iff_eq, ih]
          tauto

/-- In equal rows there are equal values in the same positions. -/
theorem equals_of_equalItems (h : equalItems us vs = true) {i : Nat} (hu : us[i]? = some u) (hv : vs[i]? = some v) :
    u.equals v = true := by
  induction us generalizing vs i with
  | nil => exact absurd hu (by simp)
  | cons a us ih =>
      cases vs with
      | nil => exact absurd hv (by simp)
      | cons b vs =>
          obtain ⟨first, rest⟩ : a.equals b = true ∧ equalItems us vs = true := by
            simpa only [equalItems, Bool.and_eq_true] using h
          cases i with
          | zero =>
              obtain rfl := Option.some.inj hu
              obtain rfl := Option.some.inj hv
              exact first
          | succ i => exact ih rest hu hv

theorem equalItems_self (h : ∀ v ∈ us, v.equals v = true) : equalItems us us = true := by
  induction us with
  | nil => rfl
  | cons u us ih =>
      rw [equalItems, h u List.mem_cons_self, ih fun v hv => h v (List.mem_cons_of_mem _ hv)]
      rfl

theorem equalItems_comm (h : ∀ v ∈ us, ∀ w, v.equals w = w.equals v) (vs : List Value) :
    equalItems us vs = equalItems vs us := by
  induction us generalizing vs with
  | nil => cases vs <;> rfl
  | cons u us ih =>
      cases vs with
      | nil => rfl
      | cons v vs =>
          rw [equalItems, equalItems, h u List.mem_cons_self, ih fun v hv => h v (List.mem_cons_of_mem _ hv)]

/-- Rows are compared position by position, so equality of rows fails to be transitive only where that of their
values does. -/
theorem equalItems_or_blurs
    (h : ∀ u ∈ us, ∀ v w, u.equals v = true → v.equals w = true → u.equals w = true ∨ Blurs u v w)
    (huv : equalItems us vs = true) (hvw : equalItems vs ws = true) :
    equalItems us ws = true ∨
      ∃ (i : Nat) (u v w : Value), us[i]? = some u ∧ vs[i]? = some v ∧ ws[i]? = some w ∧ Blurs u v w := by
  induction us generalizing vs ws with
  | nil =>
      cases vs with
      | nil => exact .inl hvw
      | cons v vs => exact absurd huv (by simp [equalItems])
  | cons u us ih =>
      cases vs with
      | nil => exact absurd huv (by simp [equalItems])
      | cons v vs =>
          cases ws with
          | nil => exact absurd hvw (by simp [equalItems])
          | cons w ws =>
              rw [equalItems, Bool.and_eq_true] at huv hvw
              rcases h u List.mem_cons_self v w huv.1 hvw.1 with first | blurs
              · rcases ih (fun x hx => h x (List.mem_cons_of_mem _ hx)) huv.2 hvw.2 with rest | ⟨i, there⟩
                · exact .inl (by rw [equalItems, first, rest]; rfl)
                · exact .inr ⟨i + 1, there⟩
              · exact .inr ⟨0, u, v, w, rfl, rfl, rfl, blurs⟩

/-! ### Laws -/

/-- A value of raw data is equal to itself. -/
theorem equals_of_raw (h : v.Raw kind) : v.equals v = true := by
  induction h with
  | null => rfl
  | bool b => simp [equals]
  | number _ => rw [equals, Number.equals_refl]
  | string s => simp [equals]
  | list _ ih => exact equalItems_self ih
  | map _ ih =>
      refine equalEntries_iff.mpr ⟨rfl, equalItems_self fun v hv => ?_⟩
      obtain ⟨e, he, rfl⟩ := List.mem_map.mp hv
      exact ih e he

/-- It does not matter which of two values comes first. -/
theorem equals_comm_of_raw (h : v.Raw kind) (w : Value) : v.equals w = w.equals v := by
  induction h generalizing w with
  | null => cases w <;> rfl
  | bool b =>
      cases w with
      | bool c => exact Bool.beq_comm
      | _ => rfl
  | number _ =>
      cases w with
      | number y => exact Number.equals_comm _ y
      | _ => rfl
  | string s =>
      cases w with
      | string t => exact Bool.beq_comm
      | _ => rfl
  | list _ ih =>
      cases w with
      | list ws => exact equalItems_comm ih ws
      | _ => rfl
  | @map entries _ ih =>
      cases w with
      | map ws =>
          have values : ∀ v ∈ entries.map Prod.snd, ∀ w, v.equals w = w.equals v := by
            intro v hv
            obtain ⟨e, he, rfl⟩ := List.mem_map.mp hv
            exact ih e he
          show equalEntries entries ws = equalEntries ws entries
          rw [Bool.eq_iff_iff, equalEntries_iff, equalEntries_iff, equalItems_comm values, eq_comm]
      | _ => rfl

/-- Equality of values is transitive, but where numbers are blurred. -/
theorem equals_or_blurs (h : u.Raw kind) (huv : u.equals v = true) (hvw : v.equals w = true) :
    u.equals w = true ∨ Blurs u v w := by
  induction h generalizing v w with
  | null =>
      cases v with
      | null => exact .inl hvw
      | _ => exact absurd huv Bool.false_ne_true
  | bool b =>
      cases v with
      | bool c =>
          obtain rfl := beq_iff_eq.mp huv
          exact .inl hvw
      | _ => exact absurd huv Bool.false_ne_true
  | @number x _ =>
      cases v with
      | number y =>
          cases w with
          | number z => exact (Number.equals_trans_or_blurs huv hvw).imp id .number
          | _ => exact absurd hvw Bool.false_ne_true
      | _ => exact absurd huv Bool.false_ne_true
  | string s =>
      cases v with
      | string t =>
          obtain rfl := beq_iff_eq.mp huv
          exact .inl hvw
      | _ => exact absurd huv Bool.false_ne_true
  | @list us _ ih =>
      cases v with
      | list vs =>
          cases w with
          | list ws =>
              rcases equalItems_or_blurs (fun u hu v w => ih u hu) huv hvw with same | ⟨i, u, v, w, hu, hv, hw, blurs⟩
              · exact .inl same
              · exact .inr (.item hu hv hw blurs)
          | _ => exact absurd hvw Bool.false_ne_true
      | _ => exact absurd huv Bool.false_ne_true
  | @map us _ ih =>
      cases v with
      | map vs =>
          cases w with
          | map ws =>
              obtain ⟨keys, values⟩ := equalEntries_iff.mp huv
              obtain ⟨keys', values'⟩ := equalEntries_iff.mp hvw
              have each : ∀ u ∈ us.map Prod.snd, ∀ v w, u.equals v = true → v.equals w = true →
                  u.equals w = true ∨ Blurs u v w := by
                intro u hu
                obtain ⟨e, he, rfl⟩ := List.mem_map.mp hu
                exact fun v w => ih e he
              rcases equalItems_or_blurs each values values' with same | ⟨i, u, v, w, hu, hv, hw, blurs⟩
              · exact .inl (equalEntries_iff.mpr ⟨keys.trans keys', same⟩)
              · rw [List.getElem?_map, Option.map_eq_some_iff] at hu hv hw
                obtain ⟨a, ha, rfl⟩ := hu
                obtain ⟨b, hb, rfl⟩ := hv
                obtain ⟨c, hc, rfl⟩ := hw
                exact .inr (.entry ha hb hc blurs)
          | _ => exact absurd hvw Bool.false_ne_true
      | _ => exact absurd huv Bool.false_ne_true

/-- Equal entries in the same position have equal values. -/
theorem equals_of_equalEntries {as bs : List (String × Value)} (h : equalEntries as bs = true) {i : Nat}
    {a b : String × Value} (ha : as[i]? = some a) (hb : bs[i]? = some b) : a.2.equals b.2 = true := by
  refine equals_of_equalItems (equalEntries_iff.mp h).2 (i := i) ?_ ?_
  · rw [List.getElem?_map, ha, Option.map_some]
  · rw [List.getElem?_map, hb, Option.map_some]

/-- Where numbers are blurred, the outer values are not equal. -/
theorem Blurs.not_equals (h : Blurs u v w) : ¬ u.equals w = true := by
  induction h with
  | number h => exact h.not_equals
  | item hu _ hw _ ih => exact fun equal => ih (equals_of_equalItems equal hu hw)
  | entry hu _ hw _ ih => exact fun equal => ih (equals_of_equalEntries equal hu hw)

/-- Short whole numbers are not blurred, wherever they stand. -/
theorem not_blurs_of_short (hu : u.Raw Number.Short) (hw : w.Raw Number.Short) (huv : u.equals v = true)
    (hvw : v.equals w = true) : ¬ Blurs u v w := by
  intro h
  induction h with
  | number h =>
      cases hu with
      | number ha =>
          cases hw with
          | number hc => exact Number.not_blurs_of_short ha hc huv hvw h
  | item iu iv iw _ ih =>
      cases hu with
      | list hu =>
          cases hw with
          | list hw =>
              exact ih (hu _ (List.mem_of_getElem? iu)) (hw _ (List.mem_of_getElem? iw))
                (equals_of_equalItems huv iu iv) (equals_of_equalItems hvw iv iw)
  | entry iu iv iw _ ih =>
      cases hu with
      | map hu =>
          cases hw with
          | map hw =>
              exact ih (hu _ (List.mem_of_getElem? iu)) (hw _ (List.mem_of_getElem? iw))
                (equals_of_equalEntries huv iu iv) (equals_of_equalEntries hvw iv iw)

/-- Any number. -/
abbrev AnyNumber : Number → Prop := fun _ => True

/-- A value of raw data is equal to itself, and it does not matter whether it comes first. Values that are equal
to the same value are equal, unless at some place they have different whole numbers of 64 signed bits where that one
has a number that is none; if the outer values have no whole numbers of more than 53 binary digits, there are no such
places. Whole numbers are equal if they are the same; but if one of them lies beyond 64 signed bits, it is enough that
their nearest numbers of 53 binary digits are. -/
theorem equals_laws (hu : u.Raw AnyNumber) (v w : Value) :
    u.equals u = true ∧
    u.equals v = v.equals u ∧
    (u.equals v = true → v.equals w = true → (u.equals w = true ↔ ¬ Blurs u v w)) ∧
    (u.Raw Number.Short → w.Raw Number.Short → u.equals v = true → v.equals w = true → u.equals w = true) ∧
    ∀ m n hm hn, u = number (.integer m hm) → v = number (.integer n hn) →
      (u.equals v = true ↔ m = n ∨ (signedBound ≤ max m n ∧ nearestInt m = nearestInt n)) := by
  refine ⟨equals_of_raw hu, equals_comm_of_raw hu v, fun huv hvw => ?_, fun su sw huv hvw => ?_, ?_⟩
  · exact ⟨fun equal blurs => blurs.not_equals equal, fun clear => (equals_or_blurs hu huv hvw).resolve_right clear⟩
  · exact (equals_or_blurs hu huv hvw).resolve_right (not_blurs_of_short su sw huv hvw)
  · rintro m n hm hn rfl rfl
    exact Number.equals_integer_iff hm hn

/-! ### Numbers that are blurred -/

/-- The first whole number that has no floating point number of its own, but that of the number before. -/
def firstBlurred : Int := Int.pow 2 53 + 1

/-- A reading with a whole number in it. -/
def reading (n : Int) : Value := map [("at", string "noon"), ("counts", list [null, ofInt n])]

/-- The same reading with the number in floating point. -/
def approximateReading (n : Int) : Value := map [("at", string "noon"), ("counts", list [null, ofFloat (.ofInt n)])]

theorem raw_reading {kind : Number → Prop} {n : Int} (h : kind (.ofInt n)) : (reading n).Raw kind := by
  refine .map (List.forall_mem_cons.mpr ⟨.string _, List.forall_mem_singleton.mpr (.list ?_)⟩)
  exact List.forall_mem_cons.mpr ⟨.null, List.forall_mem_singleton.mpr (.number h)⟩

theorem raw_approximateReading {n : Int} : (approximateReading n).Raw AnyNumber := by
  refine .map (List.forall_mem_cons.mpr ⟨.string _, List.forall_mem_singleton.mpr (.list ?_)⟩)
  exact List.forall_mem_cons.mpr ⟨.null, List.forall_mem_singleton.mpr (.number trivial)⟩

/-- Two readings that are equal to the same approximate one: the greatest whole number that is sure to be told from
its neighbours, and the next. With the number before there is no such trouble. Two whole numbers beyond 64 signed bits
are equal. -/
theorem equals_laws_reading :
    (reading firstBlurred).equals (reading firstBlurred) = true ∧
    (reading firstBlurred).equals (approximateReading firstBlurred)
      = (approximateReading firstBlurred).equals (reading firstBlurred) ∧
    (reading (firstBlurred - 1)).equals (approximateReading firstBlurred) = true ∧
    (approximateReading firstBlurred).equals (reading firstBlurred) = true ∧
    Blurs (reading (firstBlurred - 1)) (approximateReading firstBlurred) (reading firstBlurred) ∧
    (reading (firstBlurred - 2)).equals (approximateReading (firstBlurred - 2)) = true ∧
    (reading (firstBlurred - 2)).equals (reading (firstBlurred - 2)) = true ∧
    (ofInt (unsignedBound - 1)).equals (ofInt (unsignedBound - 2)) = true := by
  have before : (reading (firstBlurred - 1)).equals (approximateReading firstBlurred) = true := by decide +kernel
  have behind : (approximateReading firstBlurred).equals (reading firstBlurred) = true := by decide +kernel
  have apart : ¬ (reading (firstBlurred - 1)).equals (reading firstBlurred) = true := by decide +kernel
  have near : (reading (firstBlurred - 2)).equals (approximateReading (firstBlurred - 2)) = true := by decide +kernel
  have near' : (approximateReading (firstBlurred - 2)).equals (reading (firstBlurred - 2)) = true := by decide +kernel
  have small : (Number.ofInt (firstBlurred - 2)).Short := by decide +kernel
  have rounded : signedBound ≤ max (unsignedBound - 1) (unsignedBound - 2) ∧
      nearestInt (unsignedBound - 1) = nearestInt (unsignedBound - 2) := by decide +kernel
  have raw (n : Int) : (reading n).Raw AnyNumber := raw_reading trivial
  obtain ⟨self, comm, -⟩ := equals_laws (raw firstBlurred) (approximateReading firstBlurred) null
  obtain ⟨-, -, blurred, -⟩ := equals_laws (raw (firstBlurred - 1)) (approximateReading firstBlurred)
    (reading firstBlurred)
  obtain ⟨-, -, -, short, -⟩ := equals_laws (raw (firstBlurred - 2)) (approximateReading (firstBlurred - 2))
    (reading (firstBlurred - 2))
  obtain ⟨-, -, -, -, whole⟩ := equals_laws (u := ofInt (unsignedBound - 1)) (.number trivial)
    (ofInt (unsignedBound - 2)) null
  refine ⟨self, comm, before, behind, ?_, near, short (raw_reading small) (raw_reading small) near near', ?_⟩
  · exact Classical.byContradiction fun clear => apart ((blurred before behind).mpr clear)
  · exact (whole _ _ (by decide) (by decide) rfl rfl).mpr (.inr rounded)

/-- Equality of values is not transitive, and the two greatest whole numbers of a document are equal. -/
theorem not_equals_laws :
    ¬ (∀ u v w : Value, u.Raw AnyNumber → v.Raw AnyNumber → w.Raw AnyNumber → u.equals v = true →
      v.equals w = true → u.equals w = true) ∧
    ¬ ∀ (m n : Int) (hm : leastInteger ≤ m ∧ m < unsignedBound) (hn : leastInteger ≤ n ∧ n < unsignedBound),
      (number (.integer m hm)).equals (number (.integer n hn)) = true ↔ m = n := by
  constructor
  · intro transitive
    have equal := transitive (reading (firstBlurred - 1)) (approximateReading firstBlurred) (reading firstBlurred)
      (raw_reading trivial) raw_approximateReading (raw_reading trivial) (by decide +kernel) (by decide +kernel)
    exact absurd equal (by decide +kernel)
  · intro precise
    have same := (precise (unsignedBound - 1) (unsignedBound - 2) (by decide) (by decide)).mp (by decide +kernel)
    exact absurd same (by decide)

end Value

end ObjectGraph
