import FiniteDomain.Expr.Bounds
import FiniteDomain.Proofs.Expr.Parts
import FiniteDomain.Proofs.Word
import Mathlib.Algebra.Order.Ring.Int
import Mathlib.Algebra.Ring.Parity

/-!
# Bounds hold the values

A bound that is moved into the 64-bit range passes no value, since values fit into 64 bits. A
magnitude that is moved there may fall short: the smallest value has one outside the range. So a
quotient and a remainder at the very end of the range escape their bounds. Where no part of an
expression escapes, every value lies between the bounds.
-/

namespace FiniteDomain

namespace Bounds

variable {a b : Bounds} {v w x y : Int} {values : List Int}

/-- The value lies between the bounds. -/
def Holds (b : Bounds) (v : Int) : Prop := b.lower ≤ v ∧ v ≤ b.upper

theorem holds_single (v : Int) : (single v).Holds v := ⟨le_rfl, le_rfl⟩

theorem contains_iff : b.contains v = true ↔ b.Holds v := by
  simp [contains, Holds]

theorem foldl_join (values : List Int) (b : Bounds) :
    (values.foldl (fun b v => b.join (single v)) b).lower ≤ b.lower ∧
      b.upper ≤ (values.foldl (fun b v => b.join (single v)) b).upper ∧
      ∀ v ∈ values, (values.foldl (fun b v => b.join (single v)) b).Holds v := by
  induction values generalizing b with
  | nil => simp
  | cons w ws ih =>
      obtain ⟨hl, hu, hmem⟩ := ih (b.join (single w))
      have hjoin : (b.join (single w)).lower ≤ b.lower ∧ (b.join (single w)).lower ≤ w ∧
          b.upper ≤ (b.join (single w)).upper ∧ w ≤ (b.join (single w)).upper :=
        ⟨min_le_left _ _, min_le_right _ _, le_max_left _ _, le_max_right _ _⟩
      refine ⟨hl.trans hjoin.1, hjoin.2.2.1.trans hu, List.forall_mem_cons.mpr ⟨?_, hmem⟩⟩
      exact ⟨hl.trans hjoin.2.1, hjoin.2.2.2.trans hu⟩

/-- The bounds of given values hold everything between two of them. -/
theorem holds_ofValues (hl : ∃ l ∈ values, l ≤ v) (hu : ∃ u ∈ values, v ≤ u) :
    (ofValues values).Holds v := by
  obtain ⟨l, hl, hlv⟩ := hl
  obtain ⟨u, hu, hvu⟩ := hu
  have hmem := (foldl_join values empty).2.2
  exact ⟨(hmem l hl).1.trans hlv, hvu.trans (hmem u hu).2⟩

theorem holds_add (ha : a.Holds x) (hb : b.Holds y) (hfits : word64.Fits (x + y)) :
    (a.add b).Holds (x + y) :=
  ⟨Word.clamp_le_of_le hfits.1 (Int.add_le_add ha.1 hb.1),
    Word.le_clamp_of_le hfits.2 (Int.add_le_add ha.2 hb.2)⟩

theorem holds_sub (ha : a.Holds x) (hb : b.Holds y) (hfits : word64.Fits (x - y)) :
    (a.sub b).Holds (x - y) :=
  ⟨Word.clamp_le_of_le hfits.1 (Int.sub_le_sub ha.1 hb.2),
    Word.le_clamp_of_le hfits.2 (Int.sub_le_sub ha.2 hb.1)⟩

theorem holds_neg (ha : a.Holds x) (hfits : word64.Fits (-x)) : a.neg.Holds (-x) :=
  ⟨Word.clamp_le_of_le hfits.1 (Int.neg_le_neg ha.2),
    Word.le_clamp_of_le hfits.2 (Int.neg_le_neg ha.1)⟩

theorem holds_mul (ha : a.Holds x) (hb : b.Holds y) (hfits : word64.Fits (x * y)) :
    (a.mul b).Holds (x * y) := by
  have hlow : ∀ {c : Int}, c ≤ x * y → word64.clamp c ≤ x * y := Word.clamp_le_of_le hfits.1
  have hhigh : ∀ {c : Int}, x * y ≤ c → x * y ≤ word64.clamp c := Word.le_clamp_of_le hfits.2
  apply holds_ofValues
  · rcases exists_corner_le ha hb with h | h | h | h <;> exact ⟨_, by simp, hlow h⟩
  · rcases exists_le_corner ha hb with h | h | h | h <;> exact ⟨_, by simp, hhigh h⟩

theorem holds_scale (ha : a.Holds x) (hfits : word64.Fits (w * x)) :
    (a.scale w).Holds (w * x) := by
  rw [mul_comm] at hfits ⊢
  have hlow : ∀ {c : Int}, c ≤ x * w → word64.clamp c ≤ x * w := Word.clamp_le_of_le hfits.1
  have hhigh : ∀ {c : Int}, x * w ≤ c → x * w ≤ word64.clamp c := Word.le_clamp_of_le hfits.2
  have hw : w ≤ w ∧ w ≤ w := ⟨le_rfl, le_rfl⟩
  apply holds_ofValues
  · rcases exists_corner_le ha hw with h | h | h | h <;> exact ⟨_, by simp, hlow h⟩
  · rcases exists_le_corner ha hw with h | h | h | h <;> exact ⟨_, by simp, hhigh h⟩

/-- Up to the end of the range, the magnitude of the bounds is not exceeded. -/
theorem le_magnitude {n : Nat} (ha : a.Holds x) (hn : n ≤ x.natAbs)
    (hmax : (n : Int) ≤ word64.max) : (n : Int) ≤ a.magnitude := by
  obtain ⟨hl, hu⟩ := ha
  have hclamp : ∀ v : Int, n ≤ v.natAbs → (n : Int) ≤ FiniteDomain.magnitude v :=
    fun v h => Word.le_clamp_of_le hmax (Int.ofNat_le.mpr h)
  have hcases : n ≤ a.lower.natAbs ∨ n ≤ a.upper.natAbs := by omega
  rcases hcases with h | h
  · exact (hclamp _ h).trans (le_max_left _ _)
  · exact (hclamp _ h).trans (le_max_right _ _)

theorem magnitude_le (b : Bounds) : b.magnitude ≤ word64.max := by
  simp only [magnitude, FiniteDomain.magnitude, Word.clamp, word64]
  omega

theorem holds_div (ha : a.Holds x) (h : quotient? x y = some v) (hmin : v ≠ word64.min) :
    a.div.Holds v := by
  obtain ⟨hfits, hv⟩ : word64.Fits v ∧ v = x.tdiv y := by
    rw [quotient?] at h
    split at h
    · cases h
    · obtain ⟨hfits, hv⟩ := Word.fit?_eq_some_iff.mp h
      exact ⟨hv ▸ hfits, hv⟩
  have habs : v.natAbs ≤ x.natAbs := by
    rw [hv, Int.natAbs_tdiv]
    exact Nat.div_le_self _ _
  have hmax : (v.natAbs : Int) ≤ word64.max := by
    simp only [Word.Fits, word64] at hfits hmin ⊢
    omega
  have := le_magnitude ha habs hmax
  simp only [div, Holds]
  omega

theorem holds_mod (ha : a.Holds x) (hb : b.Holds y) (h : remainder? x y = some v)
    (hmax : (v.natAbs : Int) < word64.max) : (a.mod b).Holds v := by
  obtain ⟨hzero, hv⟩ : y ≠ 0 ∧ v = x.tmod y := by
    obtain ⟨q, hq, rfl⟩ := Option.map_eq_some_iff.mp h
    rw [quotient?] at hq
    split at hq
    · cases hq
    · next hzero => exact ⟨hzero, rfl⟩
  have hlt : v.natAbs < y.natAbs := by
    rw [hv, Int.natAbs_tmod]
    exact Nat.mod_lt _ (by omega)
  have hle : v.natAbs ≤ x.natAbs := by
    rw [hv, Int.natAbs_tmod]
    exact Nat.mod_le _ _
  have hsign : 0 ≤ x ∧ 0 ≤ v ∨ x ≤ 0 ∧ v ≤ 0 := by
    rcases le_total 0 x with hx | hx
    · exact .inl ⟨hx, hv ▸ Int.tmod_nonneg y hx⟩
    · refine .inr ⟨hx, ?_⟩
      have := Int.tmod_nonneg y (Int.neg_nonneg.mpr hx)
      rw [Int.neg_tmod] at this
      omega
  have hmag := le_magnitude hb (Nat.succ_le_of_lt hlt) (by omega)
  obtain ⟨hl, hu⟩ := ha
  have hclamp : word64.clamp (b.magnitude - 1) = b.magnitude - 1 := by
    have := b.magnitude_nonneg
    have := b.magnitude_le
    apply Word.clamp_of_fits
    simp only [Word.Fits, word64] at this ⊢
    omega
  simp only [mod, Holds, hclamp]
  omega

theorem holds_abs (ha : a.Holds x) (hfits : word64.Fits x.natAbs) : a.abs.Holds x.natAbs := by
  have hmag := le_magnitude ha le_rfl hfits.2
  rw [abs]
  split
  · have : (x.natAbs : Int) = x := by
      have := ha.1
      omega
    rwa [this]
  · split
    · have hx : (x.natAbs : Int) = -x := by
        have := ha.2
        omega
      rw [hx] at hfits ⊢
      exact holds_neg ha hfits
    · exact ⟨by simp, hmag⟩

/-! ### Powers -/

theorem unitPower_eq {base : Int} (h : base.natAbs ≤ 1) (n : Nat) : unitPower base n = base ^ n := by
  have hbase : base = 0 ∨ base = 1 ∨ base = -1 := by omega
  rw [unitPower]
  rcases Nat.even_or_odd n with hn | hn
  · rcases hbase with rfl | rfl | rfl
    · by_cases hzero : n = 0
      · simp [hzero]
      · simp [hzero]
    · simp
    · simp [hn.neg_one_pow, Nat.even_iff.mp hn]
  · have hzero : n ≠ 0 := by
      rintro rfl
      simp at hn
    rcases hbase with rfl | rfl | rfl <;> simp [hzero, Nat.odd_iff.mp hn, hn.neg_one_pow]

/-- The sign of a power tells to which end of the range it is moved. -/
theorem clamp_pow {base : Int} {n : Nat} (h : ¬ word64.Fits (base ^ n)) :
    word64.clamp (base ^ n) = if base < 0 ∧ n % 2 = 1 then word64.min else word64.max := by
  have hsign : if base < 0 ∧ n % 2 = 1 then base ^ n < 0 else 0 ≤ base ^ n := by
    split
    · next hodd => exact (Nat.odd_iff.mpr hodd.2).pow_neg hodd.1
    · next hodd =>
      rcases le_or_gt 0 base with hbase | hbase
      · exact pow_nonneg hbase n
      · have heven : Even n := Nat.even_iff.mpr (by omega)
        exact heven.pow_nonneg base
  have := word64.clamp_cases (base ^ n)
  simp only [Word.Fits, word64] at h this ⊢
  split at hsign
  · next hodd =>
    rw [if_pos hodd]
    omega
  · next hodd =>
    rw [if_neg hodd]
    omega

/-- A base of magnitude two or more does not fit from the exponent 64 on. -/
theorem not_fits_pow {base : Int} {n : Nat} (hbase : 2 ≤ base.natAbs) (hn : 64 ≤ n) :
    ¬ word64.Fits (base ^ n) := by
  have h : 2 ^ 64 ≤ (base ^ n).natAbs := by
    rw [Int.natAbs_pow]
    calc 2 ^ 64 ≤ 2 ^ n := Nat.pow_le_pow_right (by norm_num) hn
      _ ≤ base.natAbs ^ n := Nat.pow_le_pow_left hbase n
  simp only [Word.Fits, word64]
  omega

/-- The power is defined where it fits. -/
theorem power?_eq (base : Int) (n : Nat) : power? base n = word64.fit? (base ^ n) := by
  rw [power?]
  split
  · next h =>
    have hfits : word64.Fits (unitPower base n) := by
      have habs : (unitPower base n).natAbs ≤ 1 := by
        rw [unitPower_eq h, Int.natAbs_pow]
        exact (Nat.pow_le_pow_left h n).trans_eq (one_pow n)
      simp only [Word.Fits, word64]
      omega
    rw [← unitPower_eq h, Word.fit?, if_pos hfits]
  · next h =>
    split
    · rfl
    · next hn => rw [Word.fit?, if_neg (not_fits_pow (by omega) (by omega))]

/-- A power that is moved into the 64-bit range is the integer power, moved there. -/
theorem clampedPower_eq (base : Int) (n : Nat) : clampedPower base n = word64.clamp (base ^ n) := by
  rw [clampedPower, power?_eq]
  by_cases h : word64.Fits (base ^ n)
  · rw [Word.fit?, if_pos h, Word.clamp_of_fits h]
  · rw [Word.fit?, if_neg h, clamp_pow h]

/-- The base and the exponent are among the candidates for an extreme power. -/
def Candidate (lower upper : Int) (least most : Nat) (base : Int) (n : Nat) : Prop :=
  base ∈ [lower, upper, -1, 0, 1] ∧ lower ≤ base ∧ base ≤ upper ∧
    (n = least ∨ n = least + 1 ∨ n + 1 = most ∨ n = most) ∧ least ≤ n ∧ n ≤ most

section Extremes

variable {lower upper base : Int} {least most n : Nat}

theorem pow_le_pow_both {a b : Int} {m : Nat} (ha : 1 ≤ a) (hab : a ≤ b) (hmn : m ≤ n) :
    a ^ m ≤ b ^ n := by
  calc a ^ m ≤ b ^ m := pow_le_pow_left₀ (by omega) hab m
    _ ≤ b ^ n := pow_le_pow_right₀ (ha.trans hab) hmn

/-- An exponent of the same parity near the lower end. -/
theorem exists_parity_le (hn : least ≤ n) :
    ∃ m, (m = least ∨ m = least + 1) ∧ least ≤ m ∧ m ≤ n ∧ (Even m ↔ Even n) := by
  by_cases h : Even least ↔ Even n
  · exact ⟨least, .inl rfl, le_rfl, hn, h⟩
  · refine ⟨least + 1, .inr rfl, by omega, ?_, by rw [Nat.even_add_one]; tauto⟩
    have : least ≠ n := fun heq => h (heq ▸ Iff.rfl)
    omega

/-- An exponent of the same parity near the upper end. -/
theorem exists_le_parity (hn : n ≤ most) :
    ∃ m, (m + 1 = most ∨ m = most) ∧ n ≤ m ∧ m ≤ most ∧ (Even m ↔ Even n) := by
  by_cases h : Even most ↔ Even n
  · exact ⟨most, .inr rfl, hn, le_rfl, h⟩
  · have hne : n ≠ most := fun heq => h (heq ▸ Iff.rfl)
    obtain ⟨m, rfl⟩ : ∃ m, most = m + 1 := ⟨most - 1, by omega⟩
    refine ⟨m, .inl rfl, by omega, by omega, ?_⟩
    rw [Nat.even_add_one] at h
    tauto

/-- With base zero the ends of the exponents decide. -/
theorem candidate_zero (hb : lower ≤ 0 ∧ 0 ≤ upper) (hn : least ≤ n ∧ n ≤ most) :
    ∃ m, Candidate lower upper least most 0 m ∧ (0 : Int) ^ m = 0 ^ n := by
  by_cases hzero : n = 0
  · refine ⟨least, ⟨by simp, hb.1, hb.2, .inl rfl, le_rfl, by omega⟩, ?_⟩
    rw [hzero, show least = 0 by omega]
  · refine ⟨most, ⟨by simp, hb.1, hb.2, .inr (.inr (.inr rfl)), by omega, le_rfl⟩, ?_⟩
    rw [zero_pow hzero, zero_pow (by omega)]

/-- Some candidate is not above the power. -/
theorem exists_candidate_le (hb : lower ≤ base ∧ base ≤ upper) (hn : least ≤ n ∧ n ≤ most) :
    ∃ b m, Candidate lower upper least most b m ∧ b ^ m ≤ base ^ n := by
  obtain ⟨hl, hu⟩ := hb
  rcases lt_trichotomy base 0 with hneg | rfl | hpos
  · rcases Nat.even_or_odd n with heven | hodd
    · by_cases hupper : upper ≤ -1
      · obtain ⟨m, hm, hlm, hmn, hparity⟩ := exists_parity_le hn.1
        refine ⟨upper, m, ⟨by simp, by omega, le_rfl, by tauto, hlm, by omega⟩, ?_⟩
        rw [← (hparity.mpr heven).neg_pow, ← heven.neg_pow]
        exact pow_le_pow_both (by omega) (by omega) hmn
      · refine ⟨-1, least, ⟨by simp, by omega, by omega, .inl rfl, le_rfl, by omega⟩, ?_⟩
        calc (-1) ^ least ≤ 1 := by rcases neg_one_pow_eq_or Int least with h | h <;> simp [h]
          _ ≤ (-base) ^ n := one_le_pow₀ (by omega)
          _ = base ^ n := heven.neg_pow base
    · obtain ⟨m, hm, hnm, hmh, hparity⟩ := exists_le_parity hn.2
      refine ⟨lower, m, ⟨by simp, le_rfl, by omega, by tauto, by omega, hmh⟩, ?_⟩
      have hodd' : Odd m := by
        rw [← Nat.not_even_iff_odd] at hodd ⊢
        tauto
      have := pow_le_pow_both (a := -base) (b := -lower) (by omega) (by omega) hnm
      rw [hodd.neg_pow, hodd'.neg_pow] at this
      omega
  · obtain ⟨m, hm, heq⟩ := candidate_zero ⟨hl, hu⟩ hn
    exact ⟨0, m, hm, heq.le⟩
  · by_cases hlower : 1 ≤ lower
    · refine ⟨lower, least, ⟨by simp, le_rfl, by omega, .inl rfl, le_rfl, by omega⟩, ?_⟩
      exact pow_le_pow_both hlower hl hn.1
    · refine ⟨1, least, ⟨by simp, by omega, by omega, .inl rfl, le_rfl, by omega⟩, ?_⟩
      rw [one_pow]
      exact one_le_pow₀ (by omega)

/-- Some candidate is not below the power. -/
theorem exists_le_candidate (hb : lower ≤ base ∧ base ≤ upper) (hn : least ≤ n ∧ n ≤ most) :
    ∃ b m, Candidate lower upper least most b m ∧ base ^ n ≤ b ^ m := by
  obtain ⟨hl, hu⟩ := hb
  rcases lt_trichotomy base 0 with hneg | rfl | hpos
  · rcases Nat.even_or_odd n with heven | hodd
    · obtain ⟨m, hm, hnm, hmh, hparity⟩ := exists_le_parity hn.2
      refine ⟨lower, m, ⟨by simp, le_rfl, by omega, by tauto, by omega, hmh⟩, ?_⟩
      rw [← (hparity.mpr heven).neg_pow, ← heven.neg_pow]
      exact pow_le_pow_both (by omega) (by omega) hnm
    · by_cases hupper : upper ≤ -1
      · obtain ⟨m, hm, hlm, hmn, hparity⟩ := exists_parity_le hn.1
        refine ⟨upper, m, ⟨by simp, by omega, le_rfl, by tauto, hlm, by omega⟩, ?_⟩
        have hodd' : Odd m := by
          rw [← Nat.not_even_iff_odd] at hodd ⊢
          tauto
        have := pow_le_pow_both (a := -upper) (b := -base) (by omega) (by omega) hmn
        rw [hodd.neg_pow, hodd'.neg_pow] at this
        omega
      · refine ⟨-1, least, ⟨by simp, by omega, by omega, .inl rfl, le_rfl, by omega⟩, ?_⟩
        have hone : 1 ≤ (-base) ^ n := one_le_pow₀ (by omega)
        rw [hodd.neg_pow] at hone
        rcases neg_one_pow_eq_or Int least with h | h <;> rw [h] <;> omega
  · obtain ⟨m, hm, heq⟩ := candidate_zero ⟨hl, hu⟩ hn
    exact ⟨0, m, hm, heq.ge⟩
  · refine ⟨upper, most, ⟨by simp, by omega, le_rfl, .inr (.inr (.inr rfl)), by omega, le_rfl⟩, ?_⟩
    exact pow_le_pow_both (by omega) hu hn.2

end Extremes

theorem holds_pow (ha : a.Holds x) (hb : b.Holds y) (h : Operator.pow.apply x y = some v) :
    (a.pow b).Holds v := by
  obtain ⟨⟨hy, hymax⟩, hv⟩ : (0 ≤ y ∧ y ≤ maxExponent) ∧ power? x y.toNat = some v := by
    rw [Operator.apply] at h
    split at h
    · next hy => exact ⟨hy, h⟩
    · cases h
  rw [power?_eq, Word.fit?_eq_some_iff] at hv
  obtain ⟨hfits, rfl⟩ := hv
  obtain ⟨least, hleast⟩ := Int.eq_ofNat_of_zero_le (le_max_right b.lower 0)
  obtain ⟨most, hmost⟩ := Int.eq_ofNat_of_zero_le
    (le_min (le_max_right b.upper 0) (by decide : 0 ≤ maxExponent))
  have hn : least ≤ y.toNat ∧ y.toNat ≤ most := by
    have hl := hb.1
    have hu := hb.2
    omega
  simp only [pow, hleast, hmost]
  rw [if_neg (by omega)]
  have hmem : ∀ base n, Candidate a.lower a.upper least most base n →
      word64.clamp (base ^ n) ∈
        (([a.lower, a.upper, -1, 0, 1].filter a.contains).flatMap fun b =>
          ([(least : Int), least + 1, most - 1, most].filter
            (Bounds.mk least most).contains).map fun n => clampedPower b n.toNat) := by
    rintro base n ⟨hbase, hl, hu, hcases, hln, hnm⟩
    refine List.mem_flatMap.mpr ⟨base, List.mem_filter.mpr ⟨hbase, contains_iff.mpr ⟨hl, hu⟩⟩, ?_⟩
    refine List.mem_map.mpr ⟨n, List.mem_filter.mpr ⟨?_, ?_⟩, ?_⟩
    · simp only [List.mem_cons, List.not_mem_nil, or_false]
      omega
    · rw [contains_iff]
      exact ⟨by simpa using hln, by simpa using hnm⟩
    · rw [Int.toNat_natCast, clampedPower_eq]
  apply holds_ofValues
  · obtain ⟨base, n, hcandidate, hle⟩ := exists_candidate_le ha hn
    exact ⟨_, hmem base n hcandidate, Word.clamp_le_of_le hfits.1 hle⟩
  · obtain ⟨base, n, hcandidate, hle⟩ := exists_le_candidate ha hn
    exact ⟨_, hmem base n hcandidate, Word.le_clamp_of_le hfits.2 hle⟩

end Bounds

namespace Domain

/-- The values of a domain lie between its ends. -/
theorem bounds_of_contains {d : Domain} {v : Int} (h : d.contains v = true) :
    d.lower ≤ v ∧ v ≤ d.upper := by
  cases d with
  | interval lower upper ordered fits =>
      simp only [contains, Bool.and_eq_true, decide_eq_true_eq] at h
      exact h
  | values members nonempty ascending fits =>
      have hv : v ∈ members := by simpa [contains] using h
      have hsorted : members.Pairwise (· ≤ ·) := ascending.imp fun h => h.le
      simp only [lower, upper]
      constructor
      · cases members with
        | nil => contradiction
        | cons w ws =>
            rcases List.mem_cons.mp hv with rfl | hv
            · exact le_rfl
            · exact (List.pairwise_cons.mp hsorted).1 v hv
      · rw [← List.dropLast_append_getLast nonempty] at hv hsorted
        rcases List.mem_append.mp hv with hv | hv
        · exact (List.pairwise_append.mp hsorted).2.2 v hv _ (by simp)
        · exact (List.mem_singleton.mp hv).le

theorem fits_of_contains {d : Domain} {v : Int} (h : d.contains v = true) : word32.Fits v := by
  cases d with
  | interval lower upper ordered fits =>
      obtain ⟨hl, hu⟩ := bounds_of_contains h
      exact ⟨fits.1.1.trans hl, hu.trans fits.2.2⟩
  | values members nonempty ascending fits => exact fits v (by simpa [contains] using h)

theorem contains_lower (d : Domain) : d.contains d.lower = true := by
  cases d with
  | interval lower upper ordered fits =>
      exact Bool.and_eq_true_iff.mpr ⟨decide_eq_true le_rfl, decide_eq_true ordered⟩
  | values members nonempty ascending fits => simp [contains, Domain.lower]

theorem contains_upper (d : Domain) : d.contains d.upper = true := by
  cases d with
  | interval lower upper ordered fits =>
      exact Bool.and_eq_true_iff.mpr ⟨decide_eq_true ordered, decide_eq_true le_rfl⟩
  | values members nonempty ascending fits => simp [contains, Domain.upper]

end Domain

/-- As far as the variables have values, these belong to their domains. -/
def Inside (σ : Assignment) (xs : List Variable) : Prop :=
  ∀ x ∈ xs, ∀ v, σ x.id = some v → x.domain.contains v = true

/-- The variables have values of their domains. -/
def Assignment.Assigns (σ : Assignment) (xs : List Variable) : Prop :=
  ∀ x ∈ xs, ∃ v, σ x.id = some v ∧ x.domain.contains v = true

theorem Assignment.Assigns.inside {σ : Assignment} {xs : List Variable} (h : σ.Assigns xs) :
    Inside σ xs := by
  intro x hx v hv
  obtain ⟨w, hw, hcontains⟩ := h x hx
  obtain rfl := Option.some.inj (hv.symm.trans hw)
  exact hcontains

theorem Atom.holds_bounds {σ : Assignment} {a : Atom} {v : Int} (hσ : Inside σ a.vars)
    (h : a.evaluate σ = .ok v) : a.bounds.Holds v := by
  cases a with
  | int x =>
      exact Domain.bounds_of_contains (hσ (.int x) (by simp [vars]) v (orUndefined_eq_ok_iff.mp h))
  | literal l =>
      simp only [evaluate, Literal.evaluate, bind_eq_ok_iff, orUndefined_eq_ok_iff] at h
      obtain ⟨x, hx, h⟩ := h
      have hdomain := Domain.bounds_of_contains (hσ (.bool l.var) (by simp [vars]) x hx)
      have hx' : 0 ≤ x ∧ x ≤ 1 := hdomain
      simp only [bounds, Bounds.Holds]
      split at h
      · cases h
        exact hx'
      · split at h
        · cases h
          omega
        · cases h
  | constant value =>
      cases h
      exact Bounds.holds_single _
  | bool value =>
      cases h
      exact Bounds.holds_single _

namespace Expr

variable {σ : Assignment} {e : Expr} {v : Int}

theorem holds_boundsOfSum {terms : List Expr} {total : Bounds} {t : Int} {vs : List Int}
    (ht : total.Holds t) (hvs : List.Forall₂ (fun e v => e.bounds.Holds v) terms vs)
    (h : addAll t vs = some v) : (boundsOfSum total terms).Holds v := by
  induction hvs generalizing total t with
  | nil =>
      obtain rfl := Option.some.inj h
      exact ht
  | cons hv _ ih =>
      obtain ⟨hfits, h⟩ := addAll_cons_eq_some_iff.mp h
      exact ih (Bounds.holds_add ht hv hfits) h

theorem holds_boundsOfWeighted {terms : List Expr} {weights : List Int} {total : Bounds} {t : Int}
    {vs : List Int} (ht : total.Holds t)
    (hvs : List.Forall₂ (fun e v => e.bounds.Holds v) (terms.take weights.length) vs)
    (hproducts : ∀ p ∈ List.zipWith (· * ·) weights vs, word64.Fits p)
    (h : addAll t (List.zipWith (· * ·) weights vs) = some v) :
    (boundsOfWeighted total weights terms).Holds v := by
  induction terms generalizing total t weights vs with
  | nil =>
      rw [List.take_nil, List.forall₂_nil_left_iff] at hvs
      subst hvs
      rw [List.zipWith_nil_right] at h
      obtain rfl := Option.some.inj h
      exact ht
  | cons e es ih =>
      cases weights with
      | nil =>
          obtain rfl := Option.some.inj h
          exact ht
      | cons w ws =>
          rw [List.length_cons, List.take_succ_cons, List.forall₂_cons_left_iff] at hvs
          obtain ⟨x, vs, hx, hvs, rfl⟩ := hvs
          rw [List.zipWith_cons_cons] at hproducts h
          obtain ⟨hproduct, hproducts⟩ := List.forall_mem_cons.mp hproducts
          obtain ⟨hfits, h⟩ := addAll_cons_eq_some_iff.mp h
          exact ih (Bounds.holds_add ht (Bounds.holds_scale hx hproduct) hfits) hvs hproducts h

theorem holds_join_left {a b : Bounds} (h : a.Holds v) : (a.join b).Holds v :=
  ⟨(min_le_left _ _).trans h.1, h.2.trans (le_max_left _ _)⟩

theorem holds_join_right {a b : Bounds} (h : b.Holds v) : (a.join b).Holds v :=
  ⟨(min_le_right _ _).trans h.1, h.2.trans (le_max_right _ _)⟩

theorem holds_boundsOfAny {es : List Expr} {joined : Bounds}
    (h : joined.Holds v ∨ ∃ e ∈ es, e.bounds.Holds v) : (boundsOfAny joined es).Holds v := by
  induction es generalizing joined with
  | nil => simpa [boundsOfAny] using h
  | cons e es ih =>
      apply ih
      rcases h with h | ⟨e', he', h⟩
      · exact .inl (holds_join_left h)
      · rcases List.mem_cons.mp he' with rfl | he'
        · exact .inl (holds_join_right h)
        · exact .inr ⟨e', he', h⟩

/-- The value has a magnitude that the bounds of the operation do not take into account. -/
def Escapes (σ : Assignment) : Expr → Prop
  | e@(binary .div _ _) => e.evaluate σ = .ok word64.min
  | e@(binary .mod _ _) => ∃ v, e.evaluate σ = .ok v ∧ word64.max ≤ (v.natAbs : Int)
  | _ => False

theorem not_escapes_of_fits (h : ∀ v, e.evaluate σ = .ok v → word32.Fits v) : ¬ e.Escapes σ := by
  unfold Escapes
  split
  · intro hv
    exact absurd (h _ hv) (by decide)
  · rintro ⟨v, hv, hmax⟩
    have := h v hv
    simp only [Word.Fits, word32, word64] at this hmax
    omega
  · exact id

theorem not_escapes_of_isAtom (h : e.isAtom = true) : ¬ e.Escapes σ := by
  obtain ⟨a, rfl⟩ := isAtom_iff.mp h
  exact id

/-- Every value of an expression lies between its bounds, unless some part of it escapes. -/
theorem holds_bounds (hσ : Inside σ e.occurrences) (hno : e.Everywhere fun o => ¬ o.Escapes σ)
    (h : e.evaluate σ = .ok v) : e.bounds.Holds v := by
  induction e using Expr.induction generalizing v with
  | atom a => exact Atom.holds_bounds hσ h
  | sum terms ih =>
      obtain ⟨vs, hvs, hadd⟩ := evaluateSum_iff.mp h
      refine holds_boundsOfSum (Bounds.holds_single 0) (forall₂_imp_of_mem hvs ?_) hadd
      intro e he w hw
      exact ih e he (fun x hx => hσ x (mem_occurrencesIn.mpr ⟨e, he, hx⟩)) (hno.operand he) hw
  | weightedSum weights terms ih =>
      obtain ⟨vs, hvs, hproducts, hadd⟩ := evaluateWeighted_iff.mp h
      refine holds_boundsOfWeighted (Bounds.holds_single 0) (forall₂_imp_of_mem hvs ?_) hproducts hadd
      intro e he w hw
      have he' := List.mem_of_mem_take he
      exact ih e he' (fun x hx => hσ x (mem_occurrencesIn.mpr ⟨e, he', hx⟩)) (hno.operand he') hw
  | binary op a b iha ihb =>
      obtain ⟨x, y, hx, hy, hv⟩ := evaluate_binary_iff.mp h
      have ha := iha (fun x hx => hσ x (List.mem_append_left _ hx))
        (hno.operand (by simp [operands])) hx
      have hb := ihb (fun x hx => hσ x (List.mem_append_right _ hx))
        (hno.operand (by simp [operands])) hy
      cases op with
      | sub =>
          obtain ⟨hfits, rfl⟩ := Word.fit?_eq_some_iff.mp hv
          exact Bounds.holds_sub ha hb hfits
      | mul =>
          obtain ⟨hfits, rfl⟩ := Word.fit?_eq_some_iff.mp hv
          exact Bounds.holds_mul ha hb hfits
      | div => exact Bounds.holds_div ha hv fun hmin => hno.1 (h.trans (congrArg _ hmin))
      | mod => exact Bounds.holds_mod ha hb hv (Int.not_le.mp fun hmax => hno.1 ⟨v, h, hmax⟩)
      | pow => exact Bounds.holds_pow ha hb hv
  | unary op a ih =>
      obtain ⟨x, hx, hv⟩ := evaluate_unary_iff.mp h
      have ha := ih hσ (hno.operand (by simp [operands])) hx
      cases op with
      | abs =>
          obtain ⟨hfits, rfl⟩ := Word.fit?_eq_some_iff.mp hv
          exact Bounds.holds_abs ha hfits
      | neg =>
          obtain ⟨hfits, rfl⟩ := Word.fit?_eq_some_iff.mp hv
          exact Bounds.holds_neg ha hfits
  | element array index iharray _ =>
      obtain ⟨i, e, -, he, hv⟩ := evaluate_element_iff.mp h
      have hmem := List.mem_of_getElem? he
      have hholds := iharray e hmem
        (fun x hx => hσ x (List.mem_append_left _ (mem_occurrencesIn.mpr ⟨e, hmem, hx⟩)))
        (hno.operand (List.mem_append_left _ hmem)) hv
      cases array with
      | nil => cases he
      | cons first rest =>
          apply holds_boundsOfAny
          rcases List.mem_cons.mp hmem with rfl | hmem
          · exact .inl (holds_join_right hholds)
          · exact .inr ⟨e, hmem, hholds⟩

end Expr

end FiniteDomain
