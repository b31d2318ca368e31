import FiniteDomain.Engine.ValueSet
import FiniteDomain.Word
import Mathlib.Data.Int.Interval

/-!
# Sets of values

A value set stands for the values that it contains. In a proper one both bounds are
members, so it is never empty. The searches for the next value up or down find the
nearest member, if there is one, and a proper set stays proper when a bound moves to a
member or a value strictly between the bounds is removed.
-/

namespace FiniteDomain.Engine

/-- The first kept value is the nearest one upward. -/
theorem firstKept_spec {removed : List Int} {count : Nat} {v b : Int}
    (h : firstKept removed count v = some b) :
    v ≤ b ∧ b < v + count ∧ b ∉ removed ∧ ∀ w, v ≤ w → w < b → w ∈ removed := by
  induction count generalizing v with
  | zero => simp [firstKept] at h
  | succ count ih =>
      simp only [firstKept, List.contains_iff_mem] at h
      split at h
      · next hv =>
        obtain ⟨h1, h2, h3, h4⟩ := ih h
        refine ⟨by omega, by omega, h3, fun w hw hwb => ?_⟩
        rcases eq_or_lt_of_le hw with rfl | hlt
        · exact hv
        · exact h4 w (by omega) hwb
      · next hv =>
        obtain rfl := Option.some.inj h
        exact ⟨le_rfl, by omega, hv, fun w h1 h2 => by omega⟩

/-- Where no value is kept, all of them are removed. -/
theorem firstKept_eq_none {removed : List Int} {count : Nat} {v : Int}
    (h : firstKept removed count v = none) (w : Int) (hv : v ≤ w) (hw : w < v + count) :
    w ∈ removed := by
  induction count generalizing v with
  | zero => omega
  | succ count ih =>
      simp only [firstKept, List.contains_iff_mem] at h
      split at h
      · next hr =>
        rcases eq_or_lt_of_le hv with rfl | hlt
        · exact hr
        · exact ih h (by omega) (by omega)
      · cases h

/-- Searching downward is searching upward among the negated values. -/
theorem lastKept_eq_firstKept (removed : List Int) (count : Nat) (v : Int) :
    lastKept removed count v = (firstKept (removed.map (- ·)) count (-v)).map (- ·) := by
  induction count generalizing v with
  | zero => rfl
  | succ count ih =>
      have hmem : v ∈ removed ↔ -v ∈ removed.map (- ·) := by simp
      simp only [lastKept, firstKept, List.contains_iff_mem, hmem]
      split
      · rw [ih, show -(v - 1) = -v + 1 by omega]
      · simp

/-- The last kept value is the nearest one downward. -/
theorem lastKept_spec {removed : List Int} {count : Nat} {v b : Int}
    (h : lastKept removed count v = some b) :
    b ≤ v ∧ v < b + count ∧ b ∉ removed ∧ ∀ w, w ≤ v → b < w → w ∈ removed := by
  rw [lastKept_eq_firstKept, Option.map_eq_some_iff] at h
  obtain ⟨c, hc, rfl⟩ := h
  obtain ⟨h1, h2, h3, h4⟩ := firstKept_spec hc
  refine ⟨by omega, by omega, by simpa using h3, fun w hw hb => ?_⟩
  simpa using h4 (-w) (by omega) (by omega)

/-- Where no value is kept downward, all of them are removed. -/
theorem lastKept_eq_none {removed : List Int} {count : Nat} {v : Int}
    (h : lastKept removed count v = none) (w : Int) (hw : w ≤ v) (hv : v < w + count) :
    w ∈ removed := by
  rw [lastKept_eq_firstKept, Option.map_eq_none_iff] at h
  simpa using firstKept_eq_none h (-w) (by omega) (by omega)

namespace ValueSet

variable {d : ValueSet} {v w b : Int}

instance : Membership Int ValueSet := ⟨fun d v => d.contains v = true⟩

instance (v : Int) (d : ValueSet) : Decidable (v ∈ d) :=
  inferInstanceAs (Decidable (d.contains v = true))

theorem mem_def : v ∈ d ↔ d.contains v = true := Iff.rfl

/-- A member lies between the bounds, is an initial value, and is not removed. -/
theorem mem_iff : v ∈ d ↔
    d.lower ≤ v ∧ v ≤ d.upper ∧ (∀ values, d.initial = some values → v ∈ values) ∧
      v ∉ d.removed := by
  rw [mem_def, contains]
  cases d.initial <;> simp [and_assoc]

/-- Both bounds are 32-bit members, and the initial values are in ascending order. -/
structure Proper (d : ValueSet) : Prop where
  lower_mem : d.lower ∈ d
  upper_mem : d.upper ∈ d
  lower_fits : word32.Fits d.lower
  upper_fits : word32.Fits d.upper
  ascending : ∀ values, d.initial = some values → values.Pairwise (· < ·)

theorem Proper.lower_le_upper (hd : d.Proper) : d.lower ≤ d.upper :=
  (mem_iff.mp hd.lower_mem).2.1

theorem lower_le (h : v ∈ d) : d.lower ≤ v := (mem_iff.mp h).1

theorem le_upper (h : v ∈ d) : v ≤ d.upper := (mem_iff.mp h).2.1

theorem Proper.fits (hd : d.Proper) (h : v ∈ d) : word32.Fits v :=
  ⟨le_trans hd.lower_fits.1 (lower_le h), le_trans (le_upper h) hd.upper_fits.2⟩

/-- The values of an interval are those between its bounds. -/
@[simp] theorem mem_interval {lower upper : Int} :
    v ∈ interval lower upper ↔ lower ≤ v ∧ v ≤ upper := by
  simp [mem_iff, interval]

theorem proper_interval {lower upper : Int} (h : lower ≤ upper) (hl : word32.Fits lower)
    (hu : word32.Fits upper) : (interval lower upper).Proper where
  lower_mem := mem_interval.mpr ⟨le_rfl, h⟩
  upper_mem := mem_interval.mpr ⟨h, le_rfl⟩
  lower_fits := hl
  upper_fits := hu
  ascending := by simp [interval]

/-! ## Given values -/

theorem getLastD_mem_cons (first : Int) (rest : List Int) :
    rest.getLastD first ∈ first :: rest := by
  induction rest generalizing first with
  | nil => simp
  | cons w ws ih =>
      rw [List.getLastD_cons]
      exact List.mem_cons_of_mem _ (ih w)

/-- The last of ascending values is the largest. -/
theorem le_getLastD {first : Int} {rest : List Int} (h : (first :: rest).Pairwise (· < ·))
    (hv : v ∈ first :: rest) : v ≤ rest.getLastD first := by
  induction rest generalizing first v with
  | nil => simp_all
  | cons w ws ih =>
      obtain ⟨hfirst, hrest⟩ := List.pairwise_cons.mp h
      rw [List.getLastD_cons]
      rcases List.mem_cons.mp hv with rfl | hv
      · exact le_trans (le_of_lt (hfirst w (by simp))) (ih hrest (by simp))
      · exact ih hrest hv

/-- Ascending values spread over at least as many integers as there are values. -/
theorem length_le_of_ascending {first : Int} {rest : List Int}
    (h : (first :: rest).Pairwise (· < ·)) : (rest.length : Int) ≤ rest.getLastD first - first := by
  induction rest generalizing first with
  | nil => simp
  | cons w ws ih =>
      obtain ⟨hfirst, hrest⟩ := List.pairwise_cons.mp h
      have := ih hrest
      have := hfirst w (by simp)
      simp only [List.length_cons, List.getLastD_cons, Nat.cast_add, Nat.cast_one]
      omega

/-- Ascending values without a gap are all the integers between the ends. -/
theorem mem_of_consecutive {first : Int} {rest : List Int} (h : (first :: rest).Pairwise (· < ·))
    (hgap : rest.getLastD first - first = rest.length) (h1 : first ≤ v)
    (h2 : v ≤ rest.getLastD first) : v ∈ first :: rest := by
  induction rest generalizing first with
  | nil => simp_all; omega
  | cons w ws ih =>
      obtain ⟨hfirst, hrest⟩ := List.pairwise_cons.mp h
      have hw := hfirst w (by simp)
      have hlen := length_le_of_ascending hrest
      simp only [List.getLastD_cons, List.length_cons, Nat.cast_add, Nat.cast_one] at hgap h2
      rcases eq_or_lt_of_le h1 with rfl | hlt
      · simp
      · exact List.mem_cons_of_mem _ (ih hrest (by omega) (by omega) h2)

/-- The set of given values contains exactly these. -/
theorem mem_ofValues? {values : List Int} (h : ofValues? values = some d) :
    v ∈ d ↔ v ∈ values := by
  have hmem : v ∈ values ↔ v ∈ ascending values := mem_ascending.symm
  rw [hmem]
  have hasc := pairwise_ascending values
  simp only [ofValues?] at h
  split at h
  · cases h
  · next first rest heq =>
    rw [heq] at hasc ⊢
    have hfirst := (List.pairwise_cons.mp hasc).1
    have hle : ∀ w ∈ first :: rest, first ≤ w := by
      intro w hw
      rcases List.mem_cons.mp hw with rfl | hw
      · exact le_rfl
      · exact le_of_lt (hfirst w hw)
    split at h
    · next hgap =>
      obtain rfl := Option.some.inj h
      rw [mem_interval]
      exact ⟨fun hv => mem_of_consecutive hasc hgap hv.1 hv.2,
        fun hv => ⟨hle v hv, le_getLastD hasc hv⟩⟩
    · obtain rfl := Option.some.inj h
      simp only [mem_iff, Option.some.injEq, forall_eq', List.not_mem_nil, not_false_eq_true,
        and_true]
      exact ⟨fun hv => hv.2.2, fun hv => ⟨hle v hv, le_getLastD hasc hv, hv⟩⟩

/-- Only from no values no set can be made. -/
theorem ofValues?_eq_none_iff {values : List Int} : ofValues? values = none ↔ values = [] := by
  have hnil : ascending values = [] ↔ values = [] := by
    simp only [List.eq_nil_iff_forall_not_mem, mem_ascending]
  simp only [← hnil, ofValues?]
  split
  · simp_all
  · next heq =>
    simp only [heq, reduceCtorEq, iff_false]
    split <;> simp

/-- The set of given 32-bit values is proper. -/
theorem proper_ofValues? {values : List Int} (h : ofValues? values = some d)
    (hfits : ∀ w ∈ values, word32.Fits w) : d.Proper := by
  have hmem : ∀ w, w ∈ d ↔ w ∈ values := fun w => mem_ofValues? h
  have hasc := pairwise_ascending values
  have hends : d.lower ∈ ascending values ∧ d.upper ∈ ascending values := by
    simp only [ofValues?] at h
    split at h
    · cases h
    · next first rest heq =>
      rw [heq]
      split at h <;>
        exact Option.some.inj h ▸ ⟨List.mem_cons_self, getLastD_mem_cons first rest⟩
  rw [mem_ascending, mem_ascending] at hends
  refine ⟨(hmem _).mpr hends.1, (hmem _).mpr hends.2, hfits _ hends.1, hfits _ hends.2, ?_⟩
  simp only [ofValues?] at h
  split at h
  · cases h
  · next first rest heq =>
    rw [heq] at hasc
    split at h
    · obtain rfl := Option.some.inj h
      simp [interval]
    · obtain rfl := Option.some.inj h
      rintro values ⟨⟩
      exact hasc

/-! ## Moving the bounds -/

/-- Raising the lower bound keeps the members from there on. -/
theorem mem_withLower (hb : d.lower ≤ b) : v ∈ { d with lower := b } ↔ v ∈ d ∧ b ≤ v := by
  simp only [mem_iff]
  constructor
  · rintro ⟨h1, h2, h3, h4⟩
    exact ⟨⟨le_trans hb h1, h2, h3, h4⟩, h1⟩
  · rintro ⟨⟨-, h2, h3, h4⟩, h1⟩
    exact ⟨h1, h2, h3, h4⟩

/-- Lowering the upper bound keeps the members up to there. -/
theorem mem_withUpper (hb : b ≤ d.upper) : v ∈ { d with upper := b } ↔ v ∈ d ∧ v ≤ b := by
  simp only [mem_iff]
  constructor
  · rintro ⟨h1, h2, h3, h4⟩
    exact ⟨⟨h1, le_trans h2 hb, h3, h4⟩, h2⟩
  · rintro ⟨⟨h1, -, h3, h4⟩, h2⟩
    exact ⟨h1, h2, h3, h4⟩

/-- Removing a value keeps all other members. -/
theorem mem_withRemoved : v ∈ { d with removed := b :: d.removed } ↔ v ∈ d ∧ v ≠ b := by
  simp only [mem_iff, List.mem_cons, not_or]
  tauto

theorem Proper.withLower (hd : d.Proper) (hb : b ∈ d) : ({ d with lower := b } : ValueSet).Proper where
  lower_mem := (mem_withLower (lower_le hb)).mpr ⟨hb, le_rfl⟩
  upper_mem := (mem_withLower (lower_le hb)).mpr ⟨hd.upper_mem, le_upper (d := d) hb⟩
  lower_fits := hd.fits hb
  upper_fits := hd.upper_fits
  ascending := hd.ascending

theorem Proper.withUpper (hd : d.Proper) (hb : b ∈ d) : ({ d with upper := b } : ValueSet).Proper where
  lower_mem := (mem_withUpper (le_upper hb)).mpr ⟨hd.lower_mem, lower_le (d := d) hb⟩
  upper_mem := (mem_withUpper (le_upper hb)).mpr ⟨hb, le_rfl⟩
  lower_fits := hd.lower_fits
  upper_fits := hd.fits hb
  ascending := hd.ascending

theorem Proper.withRemoved (hd : d.Proper) (hl : b ≠ d.lower) (hu : b ≠ d.upper) :
    ({ d with removed := b :: d.removed } : ValueSet).Proper where
  lower_mem := mem_withRemoved.mpr ⟨hd.lower_mem, hl.symm⟩
  upper_mem := mem_withRemoved.mpr ⟨hd.upper_mem, hu.symm⟩
  lower_fits := hd.lower_fits
  upper_fits := hd.upper_fits
  ascending := hd.ascending

/-- In ascending values the first one with a property is the smallest. -/
theorem find?_ascending {values : List Int} {p : Int → Bool} (h : values.Pairwise (· < ·))
    (hb : values.find? p = some b) : b ∈ values ∧ p b = true ∧ ∀ w ∈ values, p w → b ≤ w := by
  obtain ⟨hp, before, after, rfl, hbefore⟩ := List.find?_eq_some_iff_append.mp hb
  refine ⟨by simp, hp, fun w hw hpw => ?_⟩
  obtain ⟨-, hafter, -⟩ := List.pairwise_append.mp h
  rcases List.mem_append.mp hw with hw | hw
  · simpa [hpw] using hbefore w hw
  · rcases List.mem_cons.mp hw with rfl | hw
    · exact le_rfl
    · exact le_of_lt ((List.pairwise_cons.mp hafter).1 w hw)

/-- In ascending values, read backward, the first one with a property is the largest. -/
theorem find?_reverse_ascending {values : List Int} {p : Int → Bool}
    (h : values.Pairwise (· < ·)) (hb : values.reverse.find? p = some b) :
    b ∈ values ∧ p b = true ∧ ∀ w ∈ values, p w → w ≤ b := by
  obtain ⟨hp, before, after, heq, hbefore⟩ := List.find?_eq_some_iff_append.mp hb
  have hdesc : (before ++ b :: after).Pairwise (fun a c => c < a) :=
    heq ▸ List.pairwise_reverse.mpr h
  have hmem : ∀ w, w ∈ values ↔ w ∈ before ++ b :: after := by
    intro w
    rw [← heq, List.mem_reverse]
  refine ⟨(hmem b).mpr (by simp), hp, fun w hw hpw => ?_⟩
  obtain ⟨-, hafter, -⟩ := List.pairwise_append.mp hdesc
  rcases List.mem_append.mp ((hmem w).mp hw) with hw | hw
  · simpa [hpw] using hbefore w hw
  · rcases List.mem_cons.mp hw with rfl | hw
    · exact le_rfl
    · exact le_of_lt ((List.pairwise_cons.mp hafter).1 w hw)

/-- The search upward finds the smallest member from the given value on. -/
theorem firstFrom_spec (hd : d.Proper) (h : d.firstFrom v = some b) :
    b ∈ d ∧ v ≤ b ∧ ∀ w ∈ d, v ≤ w → b ≤ w := by
  simp only [firstFrom] at h
  split at h
  · next hinit =>
    obtain ⟨h1, h2, h3, h4⟩ := firstKept_spec h
    refine ⟨mem_iff.mpr ⟨by omega, by omega, by simp [hinit], h3⟩, by omega, fun w hw hv => ?_⟩
    obtain ⟨hl, -, -, hr⟩ := mem_iff.mp hw
    by_contra hlt
    exact hr (h4 w (by omega) (by omega))
  · next values hinit =>
    obtain ⟨h1, h2, h3⟩ := find?_ascending (hd.ascending values hinit) h
    simp only [Bool.and_eq_true, decide_eq_true_eq, Bool.not_eq_true', List.contains_eq_mem,
      decide_eq_false_iff_not] at h2 h3
    refine ⟨mem_iff.mpr ⟨by omega, h2.1.2, by simpa [hinit] using h1, h2.2⟩, by omega,
      fun w hw hv => ?_⟩
    obtain ⟨hl, hu, hi, hr⟩ := mem_iff.mp hw
    exact h3 w (hi values hinit) ⟨⟨by omega, hu⟩, hr⟩

/-- The search upward fails only if no member is left there. -/
theorem firstFrom_eq_none (h : d.firstFrom v = none) (hw : w ∈ d) : w < v := by
  obtain ⟨hl, hu, hi, hr⟩ := mem_iff.mp hw
  by_contra hlt
  simp only [firstFrom] at h
  split at h
  · exact hr (firstKept_eq_none h w (by omega) (by omega))
  · next values hinit =>
    have := List.find?_eq_none.mp h w (hi values hinit)
    simp only [Bool.and_eq_true, decide_eq_true_eq, Bool.not_eq_true', List.contains_eq_mem,
      decide_eq_false_iff_not, not_and] at this
    exact this ⟨by omega, hu⟩ hr

/-- The search downward finds the largest member up to the given value. -/
theorem lastUntil_spec (hd : d.Proper) (h : d.lastUntil v = some b) :
    b ∈ d ∧ b ≤ v ∧ ∀ w ∈ d, w ≤ v → w ≤ b := by
  simp only [lastUntil] at h
  split at h
  · next hinit =>
    obtain ⟨h1, h2, h3, h4⟩ := lastKept_spec h
    refine ⟨mem_iff.mpr ⟨by omega, by omega, by simp [hinit], h3⟩, by omega, fun w hw hv => ?_⟩
    obtain ⟨-, hu, -, hr⟩ := mem_iff.mp hw
    by_contra hlt
    exact hr (h4 w (by omega) (by omega))
  · next values hinit =>
    obtain ⟨h1, h2, h3⟩ := find?_reverse_ascending (hd.ascending values hinit) h
    simp only [Bool.and_eq_true, decide_eq_true_eq, Bool.not_eq_true', List.contains_eq_mem,
      decide_eq_false_iff_not] at h2 h3
    refine ⟨mem_iff.mpr ⟨h2.1.1, by omega, by simpa [hinit] using h1, h2.2⟩, by omega,
      fun w hw hv => ?_⟩
    obtain ⟨hl, hu, hi, hr⟩ := mem_iff.mp hw
    exact h3 w (hi values hinit) ⟨⟨hl, by omega⟩, hr⟩

/-- The search downward fails only if no member is left there. -/
theorem lastUntil_eq_none (h : d.lastUntil v = none) (hw : w ∈ d) : v < w := by
  obtain ⟨hl, hu, hi, hr⟩ := mem_iff.mp hw
  by_contra hlt
  simp only [lastUntil] at h
  split at h
  · exact hr (lastKept_eq_none h w (by omega) (by omega))
  · next values hinit =>
    have := List.find?_eq_none.mp h w (by simpa using hi values hinit)
    simp only [Bool.and_eq_true, decide_eq_true_eq, Bool.not_eq_true', List.contains_eq_mem,
      decide_eq_false_iff_not, not_and] at this
    exact this ⟨hl, by omega⟩ hr

/-! ## How many values are left -/

/-- The integers from a value upward. -/
def upward (v : Int) : Nat ↪ Int := ⟨fun n => v + n, fun m n h => by simpa using h⟩

/-- The members as a finite set. -/
def members (d : ValueSet) : Finset Int :=
  ((Finset.range d.size).map (upward d.lower)).filter (· ∈ d)

@[simp] theorem mem_members : v ∈ d.members ↔ v ∈ d := by
  simp only [members, Finset.mem_filter, Finset.mem_map, Finset.mem_range, and_iff_right_iff_imp]
  intro h
  have hl := lower_le h
  have hu := le_upper h
  refine ⟨(v - d.lower).toNat, ?_, ?_⟩
  · simp only [size]
    omega
  · change d.lower + ((v - d.lower).toNat : Int) = v
    omega

/-- How many values a variable of this set can still lose. -/
def slack (d : ValueSet) : Nat := d.members.card - 1

theorem Proper.card_pos (hd : d.Proper) : 0 < d.members.card :=
  Finset.card_pos.mpr ⟨d.lower, mem_members.mpr hd.lower_mem⟩

/-- A proper set that is not fixed has two members at least. -/
theorem Proper.one_lt_card (hd : d.Proper) (h : d.isFixed = false) : 1 < d.members.card := by
  simp only [isFixed, beq_eq_false_iff_ne] at h
  exact Finset.one_lt_card.mpr
    ⟨d.lower, mem_members.mpr hd.lower_mem, d.upper, mem_members.mpr hd.upper_mem, h⟩

/-- A set with fewer members has less slack. -/
theorem slack_lt {d' : ValueSet} (hd' : d'.Proper) (hsub : ∀ v ∈ d', v ∈ d) (hw : w ∈ d)
    (hw' : w ∉ d') : d'.slack < d.slack := by
  have hlt : d'.members.card < d.members.card := by
    apply Finset.card_lt_card
    rw [Finset.ssubset_iff_of_subset fun v hv => mem_members.mpr (hsub v (mem_members.mp hv))]
    exact ⟨w, mem_members.mpr hw, fun h => hw' (mem_members.mp h)⟩
  have := hd'.card_pos
  simp only [slack]
  omega

theorem slack_le_size (d : ValueSet) : d.slack ≤ d.size := by
  have : d.members.card ≤ ((Finset.range d.size).map (upward d.lower)).card :=
    Finset.card_le_card (Finset.filter_subset _ _)
  rw [Finset.card_map, Finset.card_range] at this
  simp only [slack]
  omega

/-- A fixed set has the one member that is both of its bounds. -/
theorem eq_lower_of_isFixed (hf : d.isFixed = true) (hv : v ∈ d) : v = d.lower := by
  have := lower_le hv
  have := le_upper hv
  simp only [isFixed, beq_iff_eq] at hf
  omega

end ValueSet

end FiniteDomain.Engine
