import FiniteDomain.Engine.Meaning
import FiniteDomain.Proofs.Engine.Narrowing
import Mathlib.Algebra.Order.BigOperators.Group.List
import Mathlib.Algebra.Order.Ring.Abs
import Mathlib.Tactic.Ring

/-!
# Linear equalities

A term has a magnitude, the largest absolute value that it can take. As long as the
magnitudes add up to less than `2 ^ 126`, no sum reaches the ends of the 128-bit range, so
the sums are exact and the bounds derived from them lose no valuation. Larger terms may be
rejected as an overflow. With all views fixed the two sums coincide, and the rule compares
them with the right side whatever their magnitude.
-/

namespace FiniteDomain.Engine

open Narrowing

namespace Linear

variable {s t : Store} {needed : Valuation → Prop} {small : Prop} {a : Valuation}
  {terms : List Term} {term : Term} {rhs c q x : Int}

/-! ## Division -/

theorem le_floorDiv_of_pos (hc : 0 < c) : q ≤ floorDiv x c ↔ q * c ≤ x := by
  rw [floorDiv, Int.fdiv_eq_ediv_of_nonneg _ hc.le]
  exact Int.le_ediv_iff_mul_le hc

theorem le_floorDiv_of_neg (hc : c < 0) : q ≤ floorDiv x c ↔ x ≤ q * c := by
  have h : floorDiv x c = floorDiv (-x) (-c) := (Int.neg_fdiv_neg x c).symm
  rw [h, le_floorDiv_of_pos (by omega), mul_neg, neg_le_neg_iff]

theorem ceilDiv_le_of_pos (hc : 0 < c) : ceilDiv x c ≤ q ↔ x ≤ q * c := by
  have h : ceilDiv x c = -floorDiv (-x) c := rfl
  rw [h, neg_le, le_floorDiv_of_pos hc, neg_mul, neg_le_neg_iff]

theorem ceilDiv_le_of_neg (hc : c < 0) : ceilDiv x c ≤ q ↔ q * c ≤ x := by
  have h : ceilDiv x c = -floorDiv (-x) c := rfl
  rw [h, neg_le, le_floorDiv_of_neg hc, neg_mul, neg_le_neg_iff]

/-- Dividing does not increase the magnitude. -/
theorem abs_floorDiv_le (hc : c ≠ 0) : |floorDiv x c| ≤ |x| := by
  have hx := neg_abs_le x
  have hx' := le_abs_self x
  rw [abs_le]
  rcases lt_or_gt_of_ne hc with hc | hc
  · refine ⟨(le_floorDiv_of_neg hc).mpr (by nlinarith [abs_nonneg x]), ?_⟩
    by_contra hlt
    have := (le_floorDiv_of_neg (q := |x| + 1) (x := x) hc).mp (by omega)
    nlinarith [abs_nonneg x]
  · refine ⟨(le_floorDiv_of_pos hc).mpr (by nlinarith [abs_nonneg x]), ?_⟩
    by_contra hlt
    have := (le_floorDiv_of_pos (q := |x| + 1) (x := x) hc).mp (by omega)
    nlinarith [abs_nonneg x]

theorem abs_ceilDiv_le (hc : c ≠ 0) : |ceilDiv x c| ≤ |x| := by
  have h : |ceilDiv x c| = |floorDiv (-x) c| := abs_neg _
  rw [h, ← abs_neg x]
  exact abs_floorDiv_le hc

/-! ## Magnitudes -/

/-- The value of a term. -/
def value (a : Valuation) (t : Term) : Int := t.1 * t.2.eval a

theorem sum_eq (a : Valuation) (terms : List Term) : sum a terms = (terms.map (value a)).sum := by
  induction terms with
  | nil => rfl
  | cons t ts ih => rw [sum, ih, List.map_cons, List.sum_cons, value]

/-- The largest absolute value that the term can take. -/
def magnitude (s : Store) (t : Term) : Int :=
  |t.1| * max |s.lowerBound t.2| |s.upperBound t.2|

/-- The terms are not zero, and their magnitudes leave the 128-bit sums exact. -/
structure Small (s : Store) (terms : List Term) (rhs : Int) : Prop where
  rhs_fits : word64.Fits rhs
  ne_zero : ∀ t ∈ terms, t.1 ≠ 0
  magnitudes : (terms.map (magnitude s)).sum < 2 ^ 126

theorem abs_value_le (hs : s.Proper) (hv : term.2.Exact s) (ha : s.Admits a) :
    |value a term| ≤ magnitude s term := by
  rw [value, abs_mul]
  exact mul_le_mul_of_nonneg_left (abs_le_max_abs_abs (Store.lowerBound_le_eval hs hv ha)
    (Store.eval_le_upperBound hs hv ha)) (abs_nonneg _)

theorem magnitude_le (hs : s.Proper) (ht : t.Proper) (hv : term.2.Exact s) (hts : t ≤ s) :
    magnitude t term ≤ magnitude s term := by
  obtain ⟨b, hb, hbl⟩ := Store.exists_eval_eq_lowerBound ht (hv.mono hts)
  obtain ⟨b', hb', hbu⟩ := Store.exists_eval_eq_upperBound ht (hv.mono hts)
  have habs : ∀ b, t.Admits b →
      |term.2.eval b| ≤ max |s.lowerBound term.2| |s.upperBound term.2| := fun b hb =>
    abs_le_max_abs_abs (Store.lowerBound_le_eval hs hv (Store.admits_of_le hts hb))
      (Store.eval_le_upperBound hs hv (Store.admits_of_le hts hb))
  refine mul_le_mul_of_nonneg_left (max_le ?_ ?_) (abs_nonneg _)
  · exact hbl ▸ habs b hb
  · exact hbu ▸ habs b' hb'

/-- Terms stay small when values are lost. -/
theorem Small.mono (h : Small s terms rhs) (hs : s.Proper) (ht : t.Proper)
    (hterms : ∀ t ∈ terms, t.2.Exact s) (hts : t ≤ s) : Small t terms rhs where
  rhs_fits := h.rhs_fits
  ne_zero := h.ne_zero
  magnitudes := lt_of_le_of_lt
    (List.sum_le_sum fun u hu => magnitude_le hs ht (hterms u hu) hts) h.magnitudes

/-- Further variables do not matter. -/
theorem small_extend_iff (hterms : ∀ t ∈ terms, t.2.Exact s) (hst : s.Extends t) :
    Small t terms rhs ↔ Small s terms rhs := by
  have heq : terms.map (magnitude t) = terms.map (magnitude s) := List.map_congr_left fun u hu => by
    rw [magnitude, magnitude, Store.lowerBound_extend (hterms u hu) hst,
      Store.upperBound_extend (hterms u hu) hst]
  exact ⟨fun h => ⟨h.rhs_fits, h.ne_zero, heq ▸ h.magnitudes⟩,
    fun h => ⟨h.rhs_fits, h.ne_zero, heq.symm ▸ h.magnitudes⟩⟩

theorem Small.of_sets (h : Small s terms rhs) (hst : t.sets = s.sets) : Small t terms rhs := by
  refine ⟨h.rhs_fits, h.ne_zero, ?_⟩
  have heq : magnitude t = magnitude s := by
    funext ⟨c, v⟩
    cases v <;> simp only [magnitude, Store.lowerBound, Store.upperBound, Store.set, hst]
  exact heq ▸ h.magnitudes

/-- Bounds enclose the needed values of a term, and do not exceed its magnitude. -/
structure Encloses (s : Store) (needed : Valuation → Prop) (t : Term) (b : Int × Int) : Prop where
  lower : ∀ a, needed a → b.1 ≤ value a t
  upper : ∀ a, needed a → value a t ≤ b.2
  abs_lower : |b.1| ≤ magnitude s t
  abs_upper : |b.2| ≤ magnitude s t

theorem encloses_termBounds (hs : s.Proper) (hv : term.2.Exact s) (ht : Spares s needed t) :
    Encloses s needed term (termBounds t term) := by
  have hpt := ht.narrows.proper hs
  have hvt := hv.mono ht.narrows.le
  -- both bounds of the narrowed store are values that the original store knows
  obtain ⟨b, hb, hbl⟩ := Store.exists_eval_eq_lowerBound hpt hvt
  obtain ⟨b', hb', hbu⟩ := Store.exists_eval_eq_upperBound hpt hvt
  have h1 := abs_value_le hs hv (ht.narrows.admits hb)
  have h2 := abs_value_le hs hv (ht.narrows.admits hb')
  rw [value, hbl] at h1
  rw [value, hbu] at h2
  have hbounds : ∀ a, needed a → t.lowerBound term.2 ≤ term.2.eval a ∧
      term.2.eval a ≤ t.upperBound term.2 := fun a ha =>
    ⟨Store.lowerBound_le_eval hpt hvt (ht.admits a ha),
      Store.eval_le_upperBound hpt hvt (ht.admits a ha)⟩
  refine ⟨fun a ha => ?_, fun a ha => ?_, ?_, ?_⟩
  · obtain ⟨hl, hu⟩ := hbounds a ha
    rcases le_total 0 term.1 with hc | hc
    · exact (min_le_left _ _).trans (mul_le_mul_of_nonneg_left hl hc)
    · exact (min_le_right _ _).trans (mul_le_mul_of_nonpos_left hu hc)
  · obtain ⟨hl, hu⟩ := hbounds a ha
    rcases le_total 0 term.1 with hc | hc
    · exact (mul_le_mul_of_nonneg_left hu hc).trans (le_max_right _ _)
    · exact (mul_le_mul_of_nonpos_left hl hc).trans (le_max_left _ _)
  · rcases min_choice (term.1 * t.lowerBound term.2) (term.1 * t.upperBound term.2) with h | h
    · simpa only [termBounds, h] using h1
    · simpa only [termBounds, h] using h2
  · rcases max_choice (term.1 * t.lowerBound term.2) (term.1 * t.upperBound term.2) with h | h
    · simpa only [termBounds, h] using h1
    · simpa only [termBounds, h] using h2

/-- A single term contributes no more to the difference of two sums than all terms do. -/
theorem sub_le_sum_sub {f g : Term → Int} (h : ∀ t ∈ terms, f t ≤ g t) (ht : term ∈ terms) :
    g term - f term ≤ (terms.map g).sum - (terms.map f).sum := by
  induction terms with
  | nil => cases ht
  | cons t ts ih =>
      have htail : (ts.map f).sum ≤ (ts.map g).sum :=
        List.sum_le_sum fun u hu => h u (List.mem_cons_of_mem t hu)
      have hhead := h t (by simp)
      simp only [List.map_cons, List.sum_cons]
      rcases List.mem_cons.mp ht with rfl | ht
      · omega
      · have := ih (fun u hu => h u (List.mem_cons_of_mem t hu)) ht
        omega

theorem sum_neg (f : Term → Int) (terms : List Term) :
    (terms.map fun t => -f t).sum = -(terms.map f).sum := by
  induction terms with
  | nil => rfl
  | cons t ts ih =>
      simp only [List.map_cons, List.sum_cons, ih]
      ring

/-- What all other terms add up to is bounded by their magnitudes. -/
theorem abs_sum_sub_le {f m : Term → Int} (h : ∀ t ∈ terms, |f t| ≤ m t) (ht : term ∈ terms) :
    |(terms.map f).sum - f term| ≤ (terms.map m).sum := by
  have hupper := sub_le_sum_sub (fun t ht => (abs_le.mp (h t ht)).2) ht
  have hlower := sub_le_sum_sub (f := fun t => -m t) (fun t ht => (abs_le.mp (h t ht)).1) ht
  have hm := (abs_nonneg _).trans (h term ht)
  rw [sum_neg] at hlower
  rw [abs_le]
  omega

/-- The sums of small terms are exact. -/
theorem foldl_sumBounds {f : Term → Int × Int} {m : Term → Int} {sums : Int × Int}
    (h : ∀ t ∈ terms, |(f t).1| ≤ m t ∧ |(f t).2| ≤ m t)
    (h1 : |sums.1| + (terms.map m).sum < 2 ^ 126) (h2 : |sums.2| + (terms.map m).sum < 2 ^ 126) :
    (terms.map f).foldl
        (fun sums b => (word128.clamp (sums.1 + b.1), word128.clamp (sums.2 + b.2))) sums =
      (sums.1 + (terms.map fun t => (f t).1).sum, sums.2 + (terms.map fun t => (f t).2).sum) := by
  induction terms generalizing sums with
  | nil => simp
  | cons t ts ih =>
      simp only [List.map_cons, List.foldl_cons, List.sum_cons] at h1 h2 ⊢
      have hts : ∀ u ∈ ts, |(f u).1| ≤ m u ∧ |(f u).2| ≤ m u :=
        fun u hu => h u (List.mem_cons_of_mem t hu)
      have hnonneg : 0 ≤ (ts.map m).sum := List.sum_nonneg fun v hv => by
        obtain ⟨u, hu, rfl⟩ := List.mem_map.mp hv
        exact (abs_nonneg _).trans (hts u hu).1
      obtain ⟨ht1, ht2⟩ := h t (by simp)
      have hb1 := abs_add_le sums.1 (f t).1
      have hb2 := abs_add_le sums.2 (f t).2
      have hfits : ∀ v : Int, |v| < 2 ^ 126 → word128.clamp v = v := fun v hv => by
        rw [abs_lt] at hv
        exact Word.clamp_of_fits (by simp only [Word.Fits, word128]; omega)
      rw [hfits _ (by omega), hfits _ (by omega), ih hts (by simp only; omega)
        (by simp only; omega)]
      simp only [add_assoc]

theorem sumBounds_eq {f : Term → Int × Int} {m : Term → Int}
    (h : ∀ t ∈ terms, |(f t).1| ≤ m t ∧ |(f t).2| ≤ m t) (hm : (terms.map m).sum < 2 ^ 126) :
    sumBounds (terms.map f) =
      ((terms.map fun t => (f t).1).sum, (terms.map fun t => (f t).2).sum) := by
  rw [sumBounds, foldl_sumBounds h (by simpa using hm) (by simpa using hm)]
  simp

/-! ## Narrowing by a linear equality -/

theorem prunes_exact (h : small → word128.Fits x) :
    Prunes s needed small (exact x) fun y => y = x := by
  rw [exact]
  split
  · exact .pure rfl
  · next hx => exact .throw fun _ _ hsmall => hx (h hsmall)

/-- A view lies between two quotients. -/
theorem prunes_between {v : View} {low high : Int} (hs : s.Proper) (hv : v.Exact s)
    (hneeded : ∀ a, needed a → s.Admits a) (hne : small → c ≠ 0)
    (hlow : small → |low| < 2 ^ 127) (hhigh : small → |high| < 2 ^ 127)
    (hlower : ∀ a, needed a → ceilDiv low c ≤ v.eval a)
    (hupper : ∀ a, needed a → v.eval a ≤ floorDiv high c) :
    Prunes s needed small (do
      v.atLeast (word64.clamp (← exact (ceilDiv low c)))
      v.atMost (word64.clamp (← exact (floorDiv high c)))) fun _ => True := by
  have hfits : ∀ y : Int, |y| < 2 ^ 127 → word128.Fits y := fun y hy => by
    simp only [abs_lt, Word.Fits, word128] at hy ⊢
    omega
  refine (prunes_exact fun hsm =>
    hfits _ ((abs_ceilDiv_le (hne hsm)).trans_lt (hlow hsm))).bind ?_
  rintro _ rfl
  refine (prunes_atLeast hs hv.created fun a ha => ?_).bind fun _ _ => ?_
  · exact Word.clamp_le_of_le (hv.fits_eval (hneeded a ha)).1 (hlower a ha)
  refine (prunes_exact fun hsm =>
    hfits _ ((abs_floorDiv_le (hne hsm)).trans_lt (hhigh hsm))).bind ?_
  rintro _ rfl
  exact prunes_atMost hs hv.created fun a ha =>
    Word.le_clamp_of_le (hv.fits_eval (hneeded a ha)).2 (hupper a ha)

/-- The share of a term lies between what the extremes of the others leave for it. -/
theorem prunes_narrowTerm {minSum maxSum : Int} {b : Int × Int} (hs : s.Proper)
    (hv : term.2.Exact s) (hneeded : ∀ a, needed a → s.Admits a) (hrhs : small → word64.Fits rhs)
    (hne : small → term.1 ≠ 0) (hmax : small → |maxSum - b.2| < 2 ^ 126)
    (hmin : small → |minSum - b.1| < 2 ^ 126) (hsmall : ∀ a, needed a → small)
    (hlower : ∀ a, needed a → rhs - (maxSum - b.2) ≤ value a term)
    (hupper : ∀ a, needed a → value a term ≤ rhs - (minSum - b.1)) :
    Prunes s needed small (narrowTerm rhs minSum maxSum term b) fun _ => True := by
  have hfits : small → ∀ d : Int, |d| < 2 ^ 126 →
      word128.Fits d ∧ |rhs - d| < 2 ^ 127 ∧ word128.Fits (rhs - d) := fun hsm d hd => by
    have hr := hrhs hsm
    simp only [abs_lt, Word.Fits, word64, word128] at hr hd ⊢
    omega
  refine (prunes_exact fun hsm => (hfits hsm _ (hmax hsm)).1).bind ?_
  rintro _ rfl
  refine (prunes_exact fun hsm => (hfits hsm _ (hmax hsm)).2.2).bind ?_
  rintro _ rfl
  refine (prunes_exact fun hsm => (hfits hsm _ (hmin hsm)).1).bind ?_
  rintro _ rfl
  refine (prunes_exact fun hsm => (hfits hsm _ (hmin hsm)).2.2).bind ?_
  rintro _ rfl
  have hcommute : ∀ a, value a term = term.2.eval a * term.1 := fun a => mul_comm _ _
  by_cases hpos : 0 < term.1
  · simp only [hpos, if_true]
    exact prunes_between hs hv hneeded hne (fun hsm => (hfits hsm _ (hmax hsm)).2.1)
      (fun hsm => (hfits hsm _ (hmin hsm)).2.1)
      (fun a ha => (ceilDiv_le_of_pos hpos).mpr (hcommute a ▸ hlower a ha))
      fun a ha => (le_floorDiv_of_pos hpos).mpr (hcommute a ▸ hupper a ha)
  · have hneg : ∀ a, needed a → term.1 < 0 := fun a ha =>
      lt_of_le_of_ne (not_lt.mp hpos) (hne (hsmall a ha))
    simp only [hpos, if_false]
    exact prunes_between hs hv hneeded hne (fun hsm => (hfits hsm _ (hmin hsm)).2.1)
      (fun hsm => (hfits hsm _ (hmax hsm)).2.1)
      (fun a ha => (ceilDiv_le_of_neg (hneg a ha)).mpr (hcommute a ▸ hupper a ha))
      fun a ha => (le_floorDiv_of_neg (hneg a ha)).mpr (hcommute a ▸ hlower a ha)

theorem mem_zip_map {f : Term → Int × Int} {b : Int × Int}
    (h : (term, b) ∈ terms.zip (terms.map f)) : term ∈ terms ∧ b = f term := by
  induction terms with
  | nil => cases h
  | cons t ts ih =>
      rcases List.mem_cons.mp h with heq | h
      · obtain ⟨rfl, rfl⟩ := Prod.mk.inj heq
        exact ⟨by simp, rfl⟩
      · exact ⟨List.mem_cons_of_mem t (ih h).1, (ih h).2⟩

theorem prunes_narrowTerms {f : Term → Int × Int} {minSum maxSum : Int} (hs : s.Proper)
    (hterms : ∀ t ∈ terms, t.2.Exact s) (hf : ∀ t ∈ terms, Encloses s needed t (f t))
    (hsums : Small s terms rhs →
      minSum = (terms.map fun t => (f t).1).sum ∧ maxSum = (terms.map fun t => (f t).2).sum)
    (hneeded : ∀ a, needed a → s.Admits a ∧ Small s terms rhs ∧ sum a terms = rhs) :
    Prunes s needed (Small s terms rhs)
      ((terms.zip (terms.map f)).forM fun (t, b) => narrowTerm rhs minSum maxSum t b)
      fun _ => True := by
  refine Obeys.weaken (Obeys.forM (p := fun _ => True) ?_) fun _ _ => trivial
  rintro ⟨t, b⟩ htb
  obtain ⟨ht, rfl⟩ := mem_zip_map htb
  refine prunes_narrowTerm hs (hterms t ht) (fun a ha => (hneeded a ha).1)
    (fun hsm => hsm.rhs_fits) (fun hsm => hsm.ne_zero t ht) (fun hsm => ?_) (fun hsm => ?_)
    (fun a ha => (hneeded a ha).2.1) (fun a ha => ?_) fun a ha => ?_
  · rw [(hsums hsm).2]
    exact (abs_sum_sub_le (fun u hu => (hf u hu).abs_upper) ht).trans_lt hsm.magnitudes
  · rw [(hsums hsm).1]
    exact (abs_sum_sub_le (fun u hu => (hf u hu).abs_lower) ht).trans_lt hsm.magnitudes
  · obtain ⟨-, hsm, hsum⟩ := hneeded a ha
    have := sub_le_sum_sub (fun u hu => (hf u hu).upper a ha) ht
    rw [sum_eq] at hsum
    rw [(hsums hsm).2]
    omega
  · obtain ⟨-, hsm, hsum⟩ := hneeded a ha
    have := sub_le_sum_sub (fun u hu => (hf u hu).lower a ha) ht
    rw [sum_eq] at hsum
    rw [(hsums hsm).1]
    omega

/-- The sums of the bounds enclose the sum of the terms. -/
theorem sums_enclose {f : Term → Int × Int} (hf : ∀ t ∈ terms, Encloses s needed t (f t))
    (ha : needed a) (hm : (terms.map (magnitude s)).sum < 2 ^ 126) :
    (sumBounds (terms.map f)).1 ≤ sum a terms ∧ sum a terms ≤ (sumBounds (terms.map f)).2 := by
  rw [sumBounds_eq (fun t ht => ⟨(hf t ht).abs_lower, (hf t ht).abs_upper⟩) hm, sum_eq]
  exact ⟨List.sum_le_sum fun t ht => (hf t ht).lower a ha,
    List.sum_le_sum fun t ht => (hf t ht).upper a ha⟩

theorem prunes (hs : s.Proper) (hterms : ∀ t ∈ terms, t.2.Exact s)
    (hneeded : ∀ a, needed a → s.Admits a ∧ Small s terms rhs ∧ sum a terms = rhs) :
    Prunes s needed (Small s terms rhs) (propagate terms rhs) fun _ => True := by
  refine Obeys.bind (p := fun bounds =>
    ∃ f : Term → Int × Int, bounds = terms.map f ∧ ∀ t ∈ terms, Encloses s needed t (f t))
    (.ask fun t ht => ⟨termBounds t, rfl, fun u hu => encloses_termBounds hs (hterms u hu) ht⟩) ?_
  rintro _ ⟨f, rfl, hf⟩
  have hsums : Small s terms rhs → sumBounds (terms.map f) =
      ((terms.map fun t => (f t).1).sum, (terms.map fun t => (f t).2).sum) := fun hsm =>
    sumBounds_eq (fun t ht => ⟨(hf t ht).abs_lower, (hf t ht).abs_upper⟩) hsm.magnitudes
  have henclose : ∀ a, needed a → (sumBounds (terms.map f)).1 ≤ rhs ∧
      rhs ≤ (sumBounds (terms.map f)).2 := fun a ha => by
    obtain ⟨-, hsm, rfl⟩ := hneeded a ha
    exact sums_enclose hf ha hsm.magnitudes
  generalize sumBounds (terms.map f) = sums at hsums henclose ⊢
  obtain ⟨minSum, maxSum⟩ := sums
  refine Obeys.guarded (p := False) (fun hout => prunes_conflict fun a ha => ?_) fun _ => ?_
  · have := henclose a ha
    simp only at this
    omega
  · exact prunes_narrowTerms hs hterms hf (fun hsm => Prod.mk.inj (hsums hsm)) hneeded

theorem tests (hs : s.Proper) (hterms : ∀ t ∈ terms, t.2.Exact s) :
    Tests s (ask (isViolated terms rhs)) fun a => Small s terms rhs ∧ sum a terms = rhs := by
  refine .ask fun h a ha => ?_
  rintro ⟨hsm, rfl⟩
  have hf : ∀ t ∈ terms, Encloses s s.Admits t (termBounds s t) := fun t ht =>
    encloses_termBounds hs (hterms t ht) ⟨.refl, fun _ hb => hb⟩
  have := sums_enclose hf ha hsm.magnitudes
  simp only [isViolated, Bool.or_eq_true, decide_eq_true_eq] at h
  omega

/-- All bounds are read before the first narrowing. -/
theorem propagate_apply (terms : List Term) (rhs : Int) (s : Store) :
    propagate terms rhs s =
      if rhs < (sumBounds (terms.map (termBounds s))).1 ∨
          (sumBounds (terms.map (termBounds s))).2 < rhs then .error .conflict s
      else (terms.forM fun t => narrowTerm rhs (sumBounds (terms.map (termBounds s))).1
        (sumBounds (terms.map (termBounds s))).2 t (termBounds s t)) s := by
  have hopen : propagate terms rhs s =
      (if rhs < (sumBounds (terms.map (termBounds s))).1 ∨
          (sumBounds (terms.map (termBounds s))).2 < rhs then (throw .conflict : Narrowing Unit)
      else (terms.zip (terms.map (termBounds s))).forM fun (t, b) => narrowTerm rhs
        (sumBounds (terms.map (termBounds s))).1 (sumBounds (terms.map (termBounds s))).2 t b) s := rfl
  rw [hopen, ← List.map_prod_left_eq_zip]
  split
  · rfl
  · rw [List.forM_eq_forM, List.forM_map, List.forM_eq_forM]

/-! ## Checking a linear equality -/

/-- The sum of the terms, each partial sum moved into the 128-bit range. -/
def clampedSum (a : Valuation) (terms : List Term) : Int :=
  terms.foldl (fun sum t => word128.clamp (sum + value a t)) 0

theorem sumBounds_of_fixed (values : List Term) (a : Valuation) (sum : Int) :
    (values.map fun t => (value a t, value a t)).foldl
        (fun sums b => (word128.clamp (sums.1 + b.1), word128.clamp (sums.2 + b.2))) (sum, sum) =
      (values.foldl (fun sum t => word128.clamp (sum + value a t)) sum,
        values.foldl (fun sum t => word128.clamp (sum + value a t)) sum) := by
  induction values generalizing sum with
  | nil => rfl
  | cons t ts ih => exact ih (word128.clamp (sum + value a t))

theorem checks_exact (x : Int) : Checks s (exact x) fun _ => True := by
  rw [exact]
  split
  · exact .pure trivial
  · exact .throw fun _ _ => trivial

theorem checks_narrowTerm {minSum maxSum : Int} {b : Int × Int} (hs : s.Proper)
    (hv : FixedTo s a term.2) :
    Checks s (narrowTerm rhs minSum maxSum term b) fun _ => True := by
  refine (checks_exact _).bind fun _ _ => (checks_exact _).bind fun lower _ => ?_
  refine (checks_exact _).bind fun _ _ => (checks_exact _).bind fun upper _ => ?_
  refine (checks_exact _).bind fun _ _ => (checks_atLeast hs hv.pinned _).bind fun _ _ => ?_
  exact (checks_exact _).bind fun _ _ => (checks_atMost hs hv.pinned _).weaken fun _ _ => trivial

theorem checks (hs : s.Proper) (hterms : ∀ t ∈ terms, FixedTo s a t.2) :
    Checks s (propagate terms rhs) fun _ => clampedSum a terms = rhs := by
  refine Obeys.bind (p := fun bounds => bounds = terms.map fun t => (value a t, value a t))
    (.ask fun t ht => List.map_congr_left fun u hu => ?_) ?_
  · simp [termBounds, value, (hterms u hu).lowerBound_eq hs ht, (hterms u hu).upperBound_eq hs ht]
  rintro _ rfl
  have hsum : sumBounds (terms.map fun t => (value a t, value a t)) =
      (clampedSum a terms, clampedSum a terms) := sumBounds_of_fixed terms a 0
  simp only [hsum]
  refine Obeys.guarded (p := False) (fun _ => checks_conflict) fun hin => ?_
  have heq : clampedSum a terms = rhs := by
    by_contra hne
    exact hin (by omega)
  refine Obeys.weaken (Obeys.forM (p := fun _ => True) ?_) fun _ _ => heq
  rintro ⟨t, b⟩ htb
  exact checks_narrowTerm hs (hterms t (mem_zip_map htb).1)

/-- The sum of small terms is not moved. -/
theorem clampedSum_eq (hs : s.Proper) (hterms : ∀ t ∈ terms, t.2.Exact s) (ha : s.Admits a)
    (hm : (terms.map (magnitude s)).sum < 2 ^ 126) : clampedSum a terms = sum a terms := by
  have habs : ∀ t ∈ terms, |value a t| ≤ magnitude s t := fun t ht =>
    abs_value_le hs (hterms t ht) ha
  have hexact := sumBounds_eq (f := fun t => (value a t, value a t))
    (fun t ht => ⟨habs t ht, habs t ht⟩) hm
  rw [sumBounds, sumBounds_of_fixed] at hexact
  rw [sum_eq]
  exact congrArg Prod.fst hexact

end Linear

end FiniteDomain.Engine
