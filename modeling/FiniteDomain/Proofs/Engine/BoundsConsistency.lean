import FiniteDomain.Proofs.Engine.Losses
import Mathlib.Algebra.Order.Field.Basic
import Mathlib.Algebra.Order.Field.Rat

/-!
# Linear equalities are bounds consistent

When a linear equality has nothing left to lose, every bound of every view is supported: the
other terms can make up for its share, if their views may take any rational value between their
own bounds. Integers and holes in the value sets are not looked at, so there need not be a
solution.

A propagation that leaves the store as it was has left it so at each step, so each step can be
read off that one store. What is kept there are all valuations, among them those that give a
view one of its bounds.
-/

namespace FiniteDomain.Engine

open Narrowing

variable {s t : Store} {v : View}

/-! ## Actions that leave the store as it is -/

namespace Narrowing

variable {α β : Type} {p : α → Prop} {q : β → Prop}

/-- If two actions together leave the store as it is, each of them does. -/
theorem unchanged_bind {first : Narrowing α} {next : α → Narrowing β} {b : β}
    (hfirst : Loses s False first p) (hnext : ∀ t, s.Narrows t → ∀ a, p a → Loses t False (next a) q)
    (h : (first >>= next) s = .ok b s) : ∃ a, p a ∧ first s = .ok a s ∧ next a s = .ok b s := by
  rw [bind_apply] at h
  have hfirst := hfirst s .refl
  cases hrun : first s with
  | error f t =>
      rw [hrun] at h
      cases h
  | ok a t =>
      rw [hrun] at h hfirst
      have hrest := hnext t hfirst.1 a hfirst.2 t .refl
      simp only at h
      rw [h] at hrest
      obtain rfl := hfirst.1.antisymm hrest.1
      exact ⟨a, hfirst.2, rfl, h⟩

/-- If the visits of a list together leave the store as it is, each of them does. -/
theorem unchanged_forM {γ : Type} {elements : List γ} {visit : γ → Narrowing Unit}
    (hvisit : ∀ c ∈ elements, ∀ t, s.Narrows t → Loses t False (visit c) fun _ => True)
    (h : elements.forM visit s = .ok () s) : ∀ c ∈ elements, visit c s = .ok () s := by
  induction elements with
  | nil => simp
  | cons c cs ih =>
      have htail : ∀ d ∈ cs, ∀ t, s.Narrows t → Loses t False (visit d) fun _ => True :=
        fun d hd => hvisit d (List.mem_cons_of_mem c hd)
      obtain ⟨_, -, hhead, hrest⟩ := unchanged_bind (hvisit c (by simp) s .refl)
        (fun t ht _ _ => .forM fun d hd => htail d hd t ht) h
      exact List.forall_mem_cons.mpr ⟨hhead, ih htail hrest⟩

section

variable {a : Valuation} {bound : Int} (hs : s.Proper) (hv : v.Created s) (ha : s.Admits a)
include hs hv ha

theorem le_eval_of_unchanged (h : v.atLeast bound s = .ok () s) : bound ≤ v.eval a := by
  have hkept := Store.restricts_atLeast hs hv bound
  rw [h] at hkept
  exact ((hkept.2 a).mp ha).2

theorem eval_le_of_unchanged (h : v.atMost bound s = .ok () s) : v.eval a ≤ bound := by
  have hkept := Store.restricts_atMost hs hv bound
  rw [h] at hkept
  exact ((hkept.2 a).mp ha).2

end

end Narrowing

/-! ## Views inside the range -/

namespace View

/-- The view is created, and none of its values reaches an end of the 64-bit range. -/
structure Inside (s : Store) (v : View) : Prop where
  created : v.Created s
  inside : ∀ a, s.Admits a → word64.min < v.eval a ∧ v.eval a < word64.max

theorem Inside.exact (h : v.Inside s) (hs : s.Proper) : v.Exact s := by
  cases v with
  | constant c =>
      have hc := h.inside _ (s.admits_least hs)
      exact ⟨hc.1.le, hc.2.le⟩
  | affine x negated offset =>
      refine ⟨h.created x rfl, fun w hw => ?_⟩
      have hw := h.inside _ (s.admits_update_least hs hw)
      rw [eval_affine, Function.update_self] at hw
      exact ⟨hw.1.le, hw.2.le⟩

/-- The bounds of a view do not reach an end of the range either. -/
theorem Inside.bounds (h : v.Inside s) (hs : s.Proper) :
    word64.min < s.lowerBound v ∧ s.lowerBound v ≤ s.upperBound v ∧
      s.upperBound v < word64.max := by
  obtain ⟨a, ha, heq⟩ := s.exists_eval_eq_lowerBound hs (h.exact hs)
  obtain ⟨b, hb, heq'⟩ := s.exists_eval_eq_upperBound hs (h.exact hs)
  refine ⟨heq ▸ (h.inside a ha).1, ?_, heq' ▸ (h.inside b hb).2⟩
  exact heq ▸ s.eval_le_upperBound hs (h.exact hs) ha

end View

namespace Linear

variable {terms before after : List Term} {term : Term} {rhs c b minSum maxSum : Int}

/-! ## What a term that is not narrowed says -/

theorem exact_bind_eq_ok {β : Type} {f : Int → Narrowing β} {x : Int} {r : β}
    (h : (exact x >>= f) s = .ok r t) : f x s = .ok r t := by
  rw [bind_apply, exact] at h
  by_cases hx : word128.Fits x
  · rwa [if_pos hx] at h
  · rw [if_neg hx] at h
    cases h

/-- Views that two limits do not narrow lie between them. -/
theorem eval_of_unchanged_limits {low high : Int} {a : Valuation} (hs : s.Proper)
    (hv : term.2.Created s) (ha : s.Admits a)
    (h : (do
      term.2.atLeast (word64.clamp (← exact (ceilDiv low term.1)))
      term.2.atMost (word64.clamp (← exact (floorDiv high term.1)))) s = .ok () s) :
    word64.clamp (ceilDiv low term.1) ≤ term.2.eval a ∧
      term.2.eval a ≤ word64.clamp (floorDiv high term.1) := by
  have hnext : ∀ t, s.Narrows t → ∀ _ : Unit, True → Loses t False (do
      term.2.atMost (word64.clamp (← exact (floorDiv high term.1)))) fun _ => True :=
    fun t ht _ _ => (loses_exact False.elim).bind fun _ _ =>
      loses_atMost (ht.proper hs) (hv.mono ht.numVariables_eq.ge) _
  obtain ⟨_, -, hleast, hmost⟩ :=
    unchanged_bind (loses_atLeast hs hv _) hnext (exact_bind_eq_ok h)
  have hmost := exact_bind_eq_ok (f := fun limit => term.2.atMost (word64.clamp limit)) hmost
  exact ⟨le_eval_of_unchanged hs hv ha hleast, eval_le_of_unchanged hs hv ha hmost⟩

/-- A view of which the equality narrows no term has values inside the range for which the others
can make up. -/
theorem value_of_unchanged {bounds : Int × Int} {a : Valuation} (hs : s.Proper)
    (hv : term.2.Inside s) (ha : s.Admits a) (hne : term.1 ≠ 0)
    (h : narrowTerm rhs minSum maxSum term bounds s = .ok () s) :
    minSum - bounds.1 ≤ rhs - value a term ∧ rhs - value a term ≤ maxSum - bounds.2 := by
  have hin := hv.inside a ha
  have hvalue : value a term = term.2.eval a * term.1 := mul_comm _ _
  have h := exact_bind_eq_ok (exact_bind_eq_ok (exact_bind_eq_ok (exact_bind_eq_ok h)))
  -- strictly inside the range, moving a limit into the range has no effect
  have hends : ∀ low high : Int, (do
      term.2.atLeast (word64.clamp (← exact (ceilDiv low term.1)))
      term.2.atMost (word64.clamp (← exact (floorDiv high term.1)))) s = .ok () s →
      ceilDiv low term.1 ≤ term.2.eval a ∧ term.2.eval a ≤ floorDiv high term.1 :=
    fun low high h => by
      obtain ⟨hleast, hmost⟩ := eval_of_unchanged_limits hs hv.created ha h
      exact ⟨(Word.clamp_le_iff hin.1.le hin.2).mp hleast, (Word.le_clamp_iff hin.1 hin.2.le).mp hmost⟩
  by_cases hpos : 0 < term.1
  · simp only [hpos, if_true] at h
    obtain ⟨hleast, hmost⟩ := hends _ _ h
    rw [ceilDiv_le_of_pos hpos] at hleast
    rw [le_floorDiv_of_pos hpos] at hmost
    omega
  · have hneg : term.1 < 0 := lt_of_le_of_ne (not_lt.mp hpos) hne
    simp only [hpos, if_false] at h
    obtain ⟨hleast, hmost⟩ := hends _ _ h
    rw [ceilDiv_le_of_neg hneg] at hleast
    rw [le_floorDiv_of_neg hneg] at hmost
    omega

/-- If the equality changes nothing, it narrows no term. -/
theorem narrowTerm_of_unchanged (hs : s.Proper) (hterms : ∀ t ∈ terms, t.2.Created s)
    (h : propagate terms rhs s = .ok () s) (ht : term ∈ terms) :
    narrowTerm rhs (sumBounds (terms.map (termBounds s))).1 (sumBounds (terms.map (termBounds s))).2
      term (termBounds s term) s = .ok () s := by
  rw [propagate_apply] at h
  split at h
  · cases h
  next hin =>
  obtain ⟨hle, hge⟩ := not_or.mp hin
  refine unchanged_forM (fun u hu t hst => ?_) h term ht
  exact loses_narrowTerm (hst.proper hs) ((hterms u hu).mono hst.numVariables_eq.ge) False.elim
    False.elim False.elim False.elim (not_lt.mp hle) (not_lt.mp hge)

/-! ## The sums of the extremes -/

/-- Terms with coefficient zero add nothing. -/
theorem sum_map_filter {f : Term → Int} (hf : ∀ t : Term, t.1 = 0 → f t = 0) (terms : List Term) :
    ((terms.filter (·.1 != 0)).map f).sum = (terms.map f).sum := by
  induction terms with
  | nil => rfl
  | cons t ts ih =>
      by_cases ht : t.1 = 0
      · simp [ht, ih, hf t ht]
      · simp [ht, ih]

theorem sum_map_append_cons (f : Term → Int) (before after : List Term) (term : Term) :
    ((before ++ term :: after).map f).sum = ((before ++ after).map f).sum + f term := by
  simp only [List.map_append, List.map_cons, List.sum_append, List.sum_cons]
  ring

/-- The sums of all terms, less one, are those of the others. -/
theorem sumBounds_sub (hs : s.Proper) (hterms : ∀ t ∈ terms, t.2.Exact s)
    (hmagnitudes : (terms.map (magnitude s)).sum < 2 ^ 126)
    (hsplit : terms = before ++ term :: after) :
    (sumBounds ((terms.filter (·.1 != 0)).map (termBounds s))).1 - (termBounds s term).1 =
        ((before ++ after).map fun t => (termBounds s t).1).sum ∧
      (sumBounds ((terms.filter (·.1 != 0)).map (termBounds s))).2 - (termBounds s term).2 =
        ((before ++ after).map fun t => (termBounds s t).2).sum := by
  have hencloses : ∀ t ∈ terms.filter (·.1 != 0), Encloses s s.Admits t (termBounds s t) :=
    fun t ht => encloses_termBounds hs (hterms t (List.mem_of_mem_filter ht)) ⟨.refl, fun _ => id⟩
  have hfiltered : ((terms.filter (·.1 != 0)).map (magnitude s)).sum < 2 ^ 126 := by
    rwa [sum_map_filter fun t ht => by simp [magnitude, ht]]
  rw [sumBounds_eq (fun t ht => ⟨(hencloses t ht).abs_lower, (hencloses t ht).abs_upper⟩) hfiltered]
  rw [sum_map_filter fun t ht => by simp [termBounds, ht],
    sum_map_filter fun t ht => by simp [termBounds, ht]]
  subst hsplit
  rw [sum_map_append_cons, sum_map_append_cons, add_sub_cancel_right, add_sub_cancel_right]
  exact ⟨rfl, rfl⟩

/-! ## Rational support -/

/-- The value of a view that lies the given share of the way from the end where its term is
smallest to the end where it is largest. -/
def partway (s : Store) (share : ℚ) (t : Term) : ℚ :=
  if 0 ≤ t.1 then s.lowerBound t.2 + share * (s.upperBound t.2 - s.lowerBound t.2)
  else s.upperBound t.2 - share * (s.upperBound t.2 - s.lowerBound t.2)

/-- A view is partway between its bounds. -/
theorem partway_mem {share : ℚ} (hle : s.lowerBound term.2 ≤ s.upperBound term.2)
    (h0 : 0 ≤ share) (h1 : share ≤ 1) :
    s.lowerBound term.2 ≤ partway s share term ∧ partway s share term ≤ s.upperBound term.2 := by
  have hle : (s.lowerBound term.2 : ℚ) ≤ s.upperBound term.2 := by exact_mod_cast hle
  have hshare := mul_nonneg h0 (sub_nonneg.mpr hle)
  have hrest := mul_nonneg (sub_nonneg.mpr h1) (sub_nonneg.mpr hle)
  rw [sub_mul, one_mul] at hrest
  rw [partway]
  split <;> constructor <;> linarith

/-- A term is as far on its way as its view. -/
theorem mul_partway (share : ℚ) (hle : s.lowerBound term.2 ≤ s.upperBound term.2) :
    term.1 * partway s share term =
      (termBounds s term).1 + share * ((termBounds s term).2 - (termBounds s term).1) := by
  rcases le_or_gt 0 term.1 with hc | hc
  · have hbounds := mul_le_mul_of_nonneg_left hle hc
    rw [partway, if_pos hc, termBounds, min_eq_left hbounds, max_eq_right hbounds]
    push_cast
    ring
  · have hbounds := mul_le_mul_of_nonpos_left hle hc.le
    rw [partway, if_neg (not_le.mpr hc), termBounds, min_eq_right hbounds, max_eq_left hbounds]
    push_cast
    ring

theorem sum_mul_partway (share : ℚ)
    (hle : ∀ t ∈ terms, s.lowerBound t.2 ≤ s.upperBound t.2) :
    (terms.map fun t => t.1 * partway s share t).sum =
      (terms.map fun t => (termBounds s t).1).sum + share *
        ((terms.map fun t => (termBounds s t).2).sum - (terms.map fun t => (termBounds s t).1).sum) := by
  induction terms with
  | nil => simp
  | cons t ts ih =>
      simp only [List.forall_mem_cons] at hle
      simp only [List.map_cons, List.sum_cons, ih hle.2, mul_partway share hle.1]
      push_cast
      ring

/-- A number between two others lies some share of the way between them. -/
theorem exists_share {l u d : Int} (hl : l ≤ d) (hu : d ≤ u) :
    ∃ share : ℚ, 0 ≤ share ∧ share ≤ 1 ∧ l + share * (u - l) = d := by
  rcases (hl.trans hu).eq_or_lt with rfl | hlt
  · obtain rfl := le_antisymm hl hu
    exact ⟨0, le_rfl, zero_le_one, by simp⟩
  · have hwidth : (0 : ℚ) < u - l := by exact_mod_cast sub_pos.mpr hlt
    have hpart : (0 : ℚ) ≤ d - l := by exact_mod_cast sub_nonneg.mpr hl
    refine ⟨(d - l) / (u - l), div_nonneg hpart hwidth.le, ?_, ?_⟩
    · rw [div_le_one hwidth]
      exact_mod_cast sub_le_sub_right hu l
    · rw [div_mul_cancel₀ _ hwidth.ne']
      ring

/-- Terms reach every number between their smallest and their largest sum at rational values of
their views. -/
theorem exists_rational_values {d : Int} (hle : ∀ t ∈ terms, s.lowerBound t.2 ≤ s.upperBound t.2)
    (hl : (terms.map fun t => (termBounds s t).1).sum ≤ d)
    (hu : d ≤ (terms.map fun t => (termBounds s t).2).sum) :
    ∃ q : Term → ℚ, (∀ t ∈ terms, s.lowerBound t.2 ≤ q t ∧ q t ≤ s.upperBound t.2) ∧
      (terms.map fun t => t.1 * q t).sum = d := by
  obtain ⟨share, h0, h1, heq⟩ := exists_share hl hu
  exact ⟨partway s share, fun t ht => partway_mem (hle t ht) h0 h1,
    (sum_mul_partway share hle).trans heq⟩

/-! ## Bounds consistency -/

/-- If a linear equality changes nothing, each bound of each view leaves for the other terms what
they can add up to, and does add up to at rational values of their views. -/
theorem bounds_supported (hs : s.Proper) (hinside : ∀ t ∈ terms, t.2.Inside s)
    (hmagnitudes : (terms.map (magnitude s)).sum < 2 ^ 126)
    (hok : (Rule.ofTerms terms rhs).propagate s = .ok () t) (hsame : ∀ x, t.set x = s.set x)
    (hsplit : terms = before ++ (c, v) :: after) (hc : c ≠ 0)
    (hb : b = s.lowerBound v ∨ b = s.upperBound v) :
    ((before ++ after).map fun t => (termBounds s t).1).sum ≤ rhs - c * b ∧
      rhs - c * b ≤ ((before ++ after).map fun t => (termBounds s t).2).sum ∧
      ∃ q : Term → ℚ,
        (∀ t ∈ before ++ after, s.lowerBound t.2 ≤ q t ∧ q t ≤ s.upperBound t.2) ∧
        c * b + ((before ++ after).map fun t => t.1 * q t).sum = rhs := by
  have hexact : ∀ t ∈ terms, t.2.Exact s := fun t ht => (hinside t ht).exact hs
  have hmem : (c, v) ∈ terms := by simp [hsplit]
  -- the store that is left is the one before
  have hcreated : ∀ t ∈ terms.filter (·.1 != 0), t.2.Created s := fun t ht =>
    (hinside t (List.mem_of_mem_filter ht)).created
  have hok : propagate (terms.filter (·.1 != 0)) rhs s = .ok () t := hok
  have hloses : Loses s _ (propagate (terms.filter (·.1 != 0)) rhs) fun _ => True :=
    Linear.loses hs hcreated
  have hloses := hloses s .refl
  rw [hok] at hloses
  obtain rfl := hloses.1.eq_of_sets hsame
  have hterm := narrowTerm_of_unchanged hs hcreated hok
    (List.mem_filter.mpr ⟨hmem, by simpa using hc⟩)
  -- one of the valuations that are kept gives the view the bound
  obtain ⟨a, ha, heq⟩ : ∃ a, t.Admits a ∧ v.eval a = b := by
    rcases hb with rfl | rfl
    · exact t.exists_eval_eq_lowerBound hs (hexact _ hmem)
    · exact t.exists_eval_eq_upperBound hs (hexact _ hmem)
  obtain ⟨hleast, hmost⟩ := value_of_unchanged hs (hinside _ hmem) ha hc hterm
  obtain ⟨hmin, hmax⟩ := sumBounds_sub hs hexact hmagnitudes hsplit
  rw [value, heq, hmin] at hleast
  rw [value, heq, hmax] at hmost
  have hothers : ∀ t' ∈ before ++ after, t.lowerBound t'.2 ≤ t.upperBound t'.2 := fun t' ht' =>
    ((hinside t' (by rw [hsplit]; simp at ht' ⊢; tauto)).bounds hs).2.1
  obtain ⟨q, hq, hsum⟩ := exists_rational_values hothers hleast hmost
  refine ⟨hleast, hmost, q, hq, ?_⟩
  rw [hsum]
  push_cast
  ring

/-- Two times a number less three times another one, and nothing of it, is to be 12. -/
def balancedTerms : List Term := [(2, .ofVar 0), (0, .ofVar 0), (-3, .affine 1 true 0)]

/-- Numbers up to 3, and from 2 to 4. -/
def balancedStore : Store where
  sets := #[.interval 0 3, .interval 2 4]

/-- The upper bound of the first number leaves 6 for the second one, which can make up for it. -/
theorem bounds_supported_balancedTerms :
    (Rule.ofTerms balancedTerms 12).propagate balancedStore = .ok () balancedStore ∧
      ∃ q : Term → ℚ, (2 : ℚ) * 3 + (([(0, View.ofVar 0), (-3, .affine 1 true 0)] : List Term).map
        fun t => t.1 * q t).sum = 12 := by
  have hs : balancedStore.Proper := Store.proper_of_intervals [(0, 3), (2, 4)] (by decide)
  have hok : (Rule.ofTerms balancedTerms 12).propagate balancedStore = .ok () balancedStore := rfl
  have hinside : ∀ t ∈ balancedTerms, t.2.Inside balancedStore := by
    have h0 : ∀ a, balancedStore.Admits a → 0 ≤ a 0 ∧ a 0 ≤ 3 := fun a ha =>
      ValueSet.mem_interval.mp (ha 0 (by decide))
    have h1 : ∀ a, balancedStore.Admits a → 2 ≤ a 1 ∧ a 1 ≤ 4 := fun a ha =>
      ValueSet.mem_interval.mp (ha 1 (by decide))
    intro t ht
    simp only [balancedTerms, List.mem_cons, List.not_mem_nil, or_false] at ht
    rcases ht with rfl | rfl | rfl
    all_goals
      refine ⟨fun x hx => by cases hx; decide, fun a ha => ?_⟩
      have := h0 a ha
      have := h1 a ha
      simp [View.raw_affine, word64]
      omega
  have hsplit : balancedTerms = [] ++ (2, .ofVar 0) :: [(0, .ofVar 0), (-3, .affine 1 true 0)] := rfl
  have hbound : (3 : Int) = balancedStore.lowerBound (.ofVar 0) ∨
      3 = balancedStore.upperBound (.ofVar 0) := .inr rfl
  obtain ⟨-, -, q, -, hsum⟩ := bounds_supported hs hinside (by decide) hok (fun _ => rfl) hsplit
    (by decide) hbound
  exact ⟨hok, q, by simpa using hsum⟩

end Linear

end FiniteDomain.Engine
