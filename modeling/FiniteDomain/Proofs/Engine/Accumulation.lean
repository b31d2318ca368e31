import FiniteDomain.Proofs.Engine.Propagators
import Mathlib.Data.List.Zip

/-!
# Linear equalities over fixed views

With all views fixed, a linear equality compares its right side with the sum of its terms as it
is accumulated: each partial sum that leaves the 128-bit range is moved to the nearer end of it,
and the terms that follow start from there. Nothing overflows, since the right side is equal to
that sum by the time the terms are narrowed. So the verdict is the one over the integers unless a
partial sum leaves the range, for which there have to be at least two terms of extreme magnitude
and a third one that leads back.

A view whose own value was moved into the 64-bit range is told to have that value, but cannot be
narrowed to it.
-/

namespace FiniteDomain.Engine

open Narrowing

variable {s t : Store} {v : View} {x : Int}

/-! ## Fixed views -/

namespace Store

theorem value?_eq_some : s.value? v = some x ↔ s.isFixed v = true ∧ s.lowerBound v = x := by
  simp only [value?, Option.ite_none_right_eq_some, Option.some.injEq]

theorem upperBound_eq_of_isFixed (h : s.isFixed v = true) : s.upperBound v = s.lowerBound v := by
  cases v with
  | constant c => rfl
  | affine y negated offset =>
      have h : (s.set y).lower = (s.set y).upper := beq_iff_eq.mp h
      simp only [upperBound, lowerBound, h]

/-- Narrowing an exact view to its bounds changes nothing. -/
theorem fix_of_exact (hs : s.Proper) (hv : v.Exact s) (hx : s.value? v = some x) :
    v.fix x s = .ok () s := by
  have hvalue := (value?_eq_some_iff hs hv).mp hx
  cases v with
  | constant c =>
      obtain rfl : c = x := hvalue _ (admits_least hs)
      simp [View.fix, View.atLeast, View.atMost, bind_apply, pure, EStateM.pure]
  | affine y negated offset =>
      have hd := hs y hv.1
      have hlower := hvalue _ (admits_update_least hs hd.lower_mem)
      have hupper := hvalue _ (admits_update_least hs hd.upper_mem)
      rw [View.eval_affine, Function.update_self] at hlower hupper
      -- the variable already lies within the limits that are computed for it
      have hl := (View.unmap_eq_iff (x := y) (hd.fits hd.lower_mem)).mpr hlower
      have hu := (View.unmap_eq_iff (x := y) (hd.fits hd.upper_mem)).mpr hupper
      cases negated <;>
        simp [View.fix, View.atLeast, View.atMost, bind_apply, tightenLower, tightenUpper, hl, ← hu]

/-- A fixed view is exact if its one value does not leave the range. -/
theorem exact_of_isFixed {a : Valuation} (hv : v.Created s) (hfixed : s.isFixed v = true)
    (ha : s.Admits a) (hfits : word64.Fits (v.eval a)) : v.Exact s := by
  cases v with
  | constant c => exact hfits
  | affine y negated offset =>
      refine ⟨hv y rfl, fun w hw => ?_⟩
      rw [ValueSet.eq_lower_of_isFixed hfixed hw,
        ← ValueSet.eq_lower_of_isFixed hfixed (ha y (hv y rfl))]
      exact hfits

/-- A fixed view can be narrowed to the value that it is told to have if it has that value. -/
theorem fix_cases (hs : s.Proper) (hv : v.Created s) (hx : s.value? v = some x)
    (hfits : word64.Fits x) :
    v.Exact s ∧ v.fix x s = .ok () s ∨ ¬ v.Exact s ∧ ∃ t, v.fix x s = .error .conflict t := by
  by_cases hexact : v.Exact s
  · exact .inl ⟨hexact, fix_of_exact hs hexact hx⟩
  refine .inr ⟨hexact, ?_⟩
  have hkept := restricts_fix hs hv x
  match hrun : v.fix x s, hkept with
  | .error .conflict t, _ => exact ⟨t, rfl⟩
  | .ok _ t, ⟨hst, hadmits⟩ =>
    obtain ⟨ha, heval⟩ := (hadmits _).mp (admits_least (hst.proper hs))
    exact absurd (exact_of_isFixed hv (value?_eq_some.mp hx).1 ha (heval.symm ▸ hfits)) hexact

end Store

/-- Visits that either change nothing or end in a conflict all succeed, or one of them ends in a
conflict. -/
theorem forM_cases {γ : Type} {elements : List γ} {visit : γ → Narrowing Unit} {p : γ → Prop}
    (h : ∀ c ∈ elements, p c ∧ visit c s = .ok () s ∨ ¬ p c ∧ ∃ t, visit c s = .error .conflict t) :
    (∀ c ∈ elements, p c) ∧ elements.forM visit s = .ok () s ∨
      ¬ (∀ c ∈ elements, p c) ∧ ∃ t, elements.forM visit s = .error .conflict t := by
  induction elements with
  | nil => exact .inl ⟨by simp, rfl⟩
  | cons c cs ih =>
      simp only [List.forall_mem_cons] at h ⊢
      have hcons : (c :: cs).forM visit s = (visit c >>= fun _ => cs.forM visit) s := rfl
      rw [hcons, bind_apply]
      rcases h.1 with ⟨hok, hrun⟩ | ⟨hnot, t, hrun⟩
      · rw [hrun]
        rcases ih h.2 with ⟨hall, hrest⟩ | ⟨hnot, hrest⟩
        · exact .inl ⟨⟨hok, hall⟩, hrest⟩
        · exact .inr ⟨fun hall => hnot hall.2, hrest⟩
      · rw [hrun]
        exact .inr ⟨fun hall => hnot hall.1, t, rfl⟩

namespace Linear

variable {terms : List Term} {c rhs : Int} {xs coefficients values : List Int} {views : List View}

/-! ## The sum as it is accumulated -/

/-- The sum of the numbers, each partial sum moved into the 128-bit range. -/
def accumulate (xs : List Int) : Int := xs.foldl (fun sum x => word128.clamp (sum + x)) 0

/-- As long as no partial sum leaves the range, nothing is moved. -/
theorem foldl_clamp_eq (start : Int) (h : ∀ n, word128.Fits (start + (xs.take n).sum)) :
    xs.foldl (fun sum x => word128.clamp (sum + x)) start = start + xs.sum := by
  induction xs generalizing start with
  | nil => simp
  | cons x xs ih =>
      have hfirst : word128.Fits (start + x) := by simpa using h 1
      rw [List.foldl_cons, Word.clamp_of_fits hfirst, ih _ fun n => ?_, List.sum_cons, add_assoc]
      simpa [add_assoc] using h (n + 1)

theorem accumulate_eq_sum (h : ∀ n, word128.Fits (xs.take n).sum) : accumulate xs = xs.sum := by
  rw [accumulate, foldl_clamp_eq 0 (by simpa using h), zero_add]

/-- Terms with coefficient zero do not move the sum. -/
theorem accumulate_filter {f : Term → Int} (hf : ∀ t : Term, t.1 = 0 → f t = 0)
    (terms : List Term) :
    accumulate ((terms.filter (·.1 != 0)).map f) = accumulate (terms.map f) := by
  have hfrom : ∀ start, word128.Fits start →
      ((terms.filter (·.1 != 0)).map f).foldl (fun sum x => word128.clamp (sum + x)) start =
        (terms.map f).foldl (fun sum x => word128.clamp (sum + x)) start := by
    induction terms with
    | nil => exact fun _ _ => rfl
    | cons t ts ih =>
        intro start hstart
        by_cases ht : t.1 = 0
        · simpa [ht, hf t ht, Word.clamp_of_fits hstart] using ih start hstart
        · simpa [ht] using ih _ (Word.fits_clamp (by decide) _)
  exact hfrom 0 (by decide)

/-! ## The verdict on fixed views -/

/-- The term with the value that its view is told to have. -/
def told (s : Store) (t : Term) : Int := t.1 * s.lowerBound t.2

theorem termBounds_of_isFixed {t : Term} (h : s.isFixed t.2 = true) :
    termBounds s t = (told s t, told s t) := by
  rw [termBounds, told, s.upperBound_eq_of_isFixed h, min_self, max_self]

/-- Both sums are the accumulated one. -/
theorem sumBounds_of_isFixed (h : ∀ t ∈ terms, s.isFixed t.2 = true) :
    sumBounds (terms.map (termBounds s)) =
      (accumulate (terms.map (told s)), accumulate (terms.map (told s))) := by
  have hboth : ∀ (ys : List Int) (start : Int), (ys.map fun y => (y, y)).foldl
      (fun sums b => (word128.clamp (sums.1 + b.1), word128.clamp (sums.2 + b.2))) (start, start) =
      (ys.foldl (fun sum x => word128.clamp (sum + x)) start,
        ys.foldl (fun sum x => word128.clamp (sum + x)) start) := by
    intro ys
    induction ys with
    | nil => exact fun _ => rfl
    | cons y ys ih => exact fun start => ih _
  have hmap : terms.map (termBounds s) = (terms.map (told s)).map fun y => (y, y) := by
    rw [List.map_map]
    exact List.map_congr_left fun t ht => termBounds_of_isFixed (h t ht)
  rw [sumBounds, hmap, hboth, accumulate]

theorem exact_of_fits {y : Int} (h : word128.Fits y) : exact y = pure y := if_pos h

/-- If the sums agree with the right side, a term is narrowed to its value. -/
theorem narrowTerm_of_sum_eq (hc : c ≠ 0) (hcfits : word64.Fits c) (hxfits : word64.Fits x)
    (hrhs : word64.Fits rhs) :
    narrowTerm rhs rhs rhs (c, v) (c * x, c * x) = v.fix x := by
  have hproduct : |c * x| ≤ 2 ^ 126 := by
    simp only [Word.Fits, word64] at hcfits hxfits
    rw [abs_mul]
    calc |c| * |x| ≤ 2 ^ 63 * 2 ^ 63 := mul_le_mul (abs_le.mpr (by omega))
          (abs_le.mpr (by omega)) (abs_nonneg x) (by decide)
      _ = 2 ^ 126 := by norm_num
  have hfits : word128.Fits (rhs - c * x) ∧ word128.Fits (c * x) := by
    rw [abs_le] at hproduct
    simp only [Word.Fits, word64, word128] at hrhs ⊢
    omega
  have hquotient : ceilDiv (c * x) c = x ∧ floorDiv (c * x) c = x := by
    have hfloor : ∀ y : Int, Int.fdiv (c * y) c = y := fun y => Int.mul_fdiv_cancel_left y hc
    exact ⟨by rw [ceilDiv, ← mul_neg, hfloor, neg_neg], hfloor x⟩
  have hxfits' : word128.Fits x := by
    simp only [Word.Fits, word64, word128] at hxfits ⊢
    omega
  simp only [narrowTerm, exact_of_fits hfits.1, exact_of_fits hfits.2, pure_bind, sub_sub_cancel,
    ite_self, hquotient, exact_of_fits hxfits', Word.clamp_of_fits hxfits, View.fix]

/-- On fixed views a linear equality is enforced if the accumulated sum is the right side and no
view of it left the range; else it ends in a conflict. -/
theorem propagate_cases (hs : s.Proper) (hviews : ∀ t ∈ terms, t.2.Created s)
    (hfixed : ∀ t ∈ terms, s.isFixed t.2 = true) (hne : ∀ t ∈ terms, t.1 ≠ 0)
    (hcoefficients : ∀ t ∈ terms, word64.Fits t.1)
    (hvalues : ∀ t ∈ terms, word64.Fits (s.lowerBound t.2)) (hrhs : word64.Fits rhs) :
    (accumulate (terms.map (told s)) = rhs ∧ ∀ t ∈ terms, t.2.Exact s) ∧
        propagate terms rhs s = .ok () s ∨
      ¬ (accumulate (terms.map (told s)) = rhs ∧ ∀ t ∈ terms, t.2.Exact s) ∧
        ∃ t, propagate terms rhs s = .error .conflict t := by
  rw [propagate_apply, sumBounds_of_isFixed hfixed]
  by_cases hsum : accumulate (terms.map (told s)) = rhs
  · rw [hsum, if_neg (by omega)]
    simp only [true_and]
    refine forM_cases fun t ht => ?_
    rw [termBounds_of_isFixed (hfixed t ht), told,
      narrowTerm_of_sum_eq (hne t ht) (hcoefficients t ht) (hvalues t ht) hrhs]
    exact Store.fix_cases hs (hviews t ht) (Store.value?_eq_some.mpr ⟨hfixed t ht, rfl⟩) (hvalues t ht)
  · rw [if_pos (by omega)]
    exact .inr ⟨fun h => hsum h.1, s, rfl⟩

theorem isViolated_of_isFixed (hfixed : ∀ t ∈ terms, s.isFixed t.2 = true) :
    isViolated terms rhs s = decide (accumulate (terms.map (told s)) ≠ rhs) := by
  rw [isViolated, sumBounds_of_isFixed hfixed]
  simp only [← Bool.decide_or, decide_eq_decide]
  omega

/-! ## The verdict on lists -/

/-- What the terms of a list are told is what the values say. -/
theorem map_told_zip (hfixed : views.map s.value? = values.map some) (coefficients : List Int) :
    (coefficients.zip views).map (told s) = List.zipWith (· * ·) coefficients values := by
  have hbounds : values = views.map s.lowerBound := by
    apply List.map_injective_iff.mpr (Option.some_injective Int)
    rw [← hfixed, List.map_map]
    refine List.map_congr_left fun v hv => ?_
    have hsome : s.value? v ∈ values.map some := hfixed ▸ List.mem_map_of_mem hv
    obtain ⟨x, -, hx⟩ := List.mem_map.mp hsome
    rw [← hx, Function.comp_apply, (Store.value?_eq_some.mp hx.symm).2]
  rw [hbounds, List.zip, List.map_zipWith, List.zipWith_map_right]
  rfl

/-- Over fixed views a linear equality never overflows, and it is decided by the accumulated sum:
propagating succeeds if that is the right side and no view with a coefficient left the range, and
the test finds it violated if that is not the right side. Unless a partial sum leaves the 128-bit
range, the accumulated sum is the one over the integers. -/
theorem fixed_sums_decide (hs : s.Proper) (hviews : ∀ v ∈ views, v.Created s)
    (hcoefficients : ∀ c ∈ coefficients, word64.Fits c) (hvalues : ∀ x ∈ values, word64.Fits x)
    (hrhs : word64.Fits rhs) (hfixed : views.map s.value? = values.map some) :
    (∀ t, (Rule.ofTerms (coefficients.zip views) rhs).propagate s ≠ .error .overflow t) ∧
      ((∃ t, (Rule.ofTerms (coefficients.zip views) rhs).propagate s = .ok () t) ↔
        accumulate (List.zipWith (· * ·) coefficients values) = rhs ∧
          ∀ t ∈ coefficients.zip views, t.1 ≠ 0 → t.2.Exact s) ∧
      (Rule.ofTerms (coefficients.zip views) rhs).isViolated s =
        .ok (decide (accumulate (List.zipWith (· * ·) coefficients values) ≠ rhs)) s ∧
      ((∀ n, word128.Fits ((List.zipWith (· * ·) coefficients values).take n).sum) →
        accumulate (List.zipWith (· * ·) coefficients values) =
          (List.zipWith (· * ·) coefficients values).sum) := by
  have hmem : ∀ t ∈ (coefficients.zip views).filter (·.1 != 0),
      t.1 ∈ coefficients ∧ t.2 ∈ views ∧ t.1 ≠ 0 := fun t ht => by
    obtain ⟨ht, hne⟩ := List.mem_filter.mp ht
    exact ⟨(List.of_mem_zip ht).1, (List.of_mem_zip ht).2, by simpa using hne⟩
  have hvalue : ∀ v ∈ views, s.isFixed v = true ∧ word64.Fits (s.lowerBound v) := fun v hv => by
    have hsome : s.value? v ∈ values.map some := hfixed ▸ List.mem_map_of_mem hv
    obtain ⟨x, hx, heq⟩ := List.mem_map.mp hsome
    obtain ⟨hfix, rfl⟩ := Store.value?_eq_some.mp heq.symm
    exact ⟨hfix, hvalues _ hx⟩
  have hsum : accumulate (((coefficients.zip views).filter (·.1 != 0)).map (told s)) =
      accumulate (List.zipWith (· * ·) coefficients values) := by
    rw [accumulate_filter fun t ht => by simp [told, ht], map_told_zip hfixed]
  have hexact : (∀ t ∈ (coefficients.zip views).filter (·.1 != 0), t.2.Exact s) ↔
      ∀ t ∈ coefficients.zip views, t.1 ≠ 0 → t.2.Exact s := by
    simp only [List.mem_filter, bne_iff_ne, and_imp]
  have hcases := propagate_cases hs (fun t ht => hviews _ (hmem t ht).2.1)
    (fun t ht => (hvalue _ (hmem t ht).2.1).1) (fun t ht => (hmem t ht).2.2)
    (fun t ht => hcoefficients _ (hmem t ht).1) (fun t ht => (hvalue _ (hmem t ht).2.1).2) hrhs
  rw [hsum, hexact] at hcases
  refine ⟨fun t hrun => ?_, ?_, ?_, accumulate_eq_sum⟩
  · have hrun : propagate ((coefficients.zip views).filter (·.1 != 0)) rhs s = .error .overflow t := hrun
    simp [hrun] at hcases
  · change (∃ t, propagate ((coefficients.zip views).filter (·.1 != 0)) rhs s = .ok () t) ↔ _
    rcases hcases with ⟨hok, hrun⟩ | ⟨hnot, t, hrun⟩
    · exact ⟨fun _ => hok, fun _ => ⟨s, hrun⟩⟩
    · exact ⟨fun ⟨_, hok⟩ => (by rw [hrun] at hok; cases hok), fun hok => absurd hok hnot⟩
  · change EStateM.Result.ok (isViolated ((coefficients.zip views).filter (·.1 != 0)) rhs s) s = _
    rw [isViolated_of_isFixed fun t ht => (hvalue _ (hmem t ht).2.1).1, hsum]

/-- Six products of the least number: two of them leave the range upward, two lead far back, and
the last two lead to zero over the integers. -/
def extremeTerms : List Term :=
  ([word64.min, word64.min, word64.max, word64.max, 1, 1] : List Int).map fun x =>
    (word64.min, .constant x)

/-- The accumulated sum of the extreme terms is less than their sum, which is zero. So a right side
of -1 is accepted and not found violated, and the true right side is refused. -/
theorem extreme_sum_misjudged : (extremeTerms.map (told {})).sum = 0 ∧
    (Rule.ofTerms extremeTerms (-1)).propagate {} = .ok () {} ∧
    (Rule.ofTerms extremeTerms (-1)).isViolated {} = .ok false {} ∧
    (Rule.ofTerms extremeTerms 0).propagate {} = .error .conflict {} ∧
    (Rule.ofTerms extremeTerms 0).isViolated {} = .ok true {} := by
  refine ⟨by decide, rfl, rfl, rfl, rfl⟩

/-- The largest number, five less a variable, and the least number. -/
def extremeViews : List View := [.constant word64.max, .affine 0 true 5, .constant word64.min]

/-- The number 2. -/
def settledNumber : Store where
  sets := #[.interval 2 2]

/-- Two products of extreme size make up for each other, and the equality is accepted. -/
theorem fixed_sums_decide_extremeViews :
    (List.zipWith (· * ·) [word64.max, 1, word64.max] [word64.max, 3, word64.min]).sum =
        3 - word64.max ∧
      ∃ t, (Rule.ofTerms ([word64.max, 1, word64.max].zip extremeViews) (3 - word64.max)).propagate
        settledNumber = .ok () t := by
  have hs : settledNumber.Proper := Store.proper_of_intervals [(2, 2)] (by decide)
  have hexact : ∀ v ∈ extremeViews, v.Exact settledNumber := by
    intro v hv
    simp only [extremeViews, List.mem_cons, List.not_mem_nil, or_false] at hv
    rcases hv with rfl | rfl | rfl
    · exact ⟨by decide, by decide⟩
    · refine ⟨by decide, fun w hw => ?_⟩
      have hw : 2 ≤ w ∧ w ≤ 2 := ValueSet.mem_interval.mp hw
      simp only [View.raw_affine, if_true, Word.Fits, word64]
      omega
    · exact ⟨by decide, by decide⟩
  have hcoefficients : ∀ c ∈ [word64.max, 1, word64.max], word64.Fits c := by decide
  have hvalues : ∀ x ∈ [word64.max, 3, word64.min], word64.Fits x := by decide
  have hrhs : word64.Fits (3 - word64.max) := by decide
  obtain ⟨-, hiff, -, -⟩ := fixed_sums_decide hs (fun v hv => (hexact v hv).created) hcoefficients
    hvalues hrhs rfl
  exact ⟨by decide, hiff.mpr ⟨by decide, fun t ht _ => hexact _ (List.of_mem_zip ht).2⟩⟩

end Linear

end FiniteDomain.Engine
