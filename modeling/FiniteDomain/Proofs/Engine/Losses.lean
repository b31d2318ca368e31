import FiniteDomain.Proofs.Engine.Footprint

/-!
# What a propagator may lose

Whatever values its views take, a propagator changes a store by losses alone, so going back to
a checkpoint takes back all that it did. Nothing is said here about solutions, and views may
leave the 64-bit range; they only have to read variables of the store.

Sums are accumulated in 128 bits, where they stick to the ends of the range. No intermediate
result of a linear equality overflows as long as the magnitudes of the coefficients add up to
little less than `2 ^ 94`, as those of fewer than `2 ^ 31` terms do: the two sums then differ by
less than `2 ^ 126`, and the right side lies between them.
-/

namespace FiniteDomain.Engine

open Narrowing

namespace Narrowing

variable {α β : Type} {s : Store} {brief : Prop} {v : View}

/-- What may be left when an action fails: a conflict loses values, and there is no overflow
if the action is brief. -/
def Stopped (s : Store) (brief : Prop) : Failure → Store → Prop
  | .conflict, t => s.Narrows t
  | .overflow, _ => ¬ brief

/-- Below the given store the action changes the store by losses alone. -/
abbrev Loses (s : Store) (brief : Prop) (action : Narrowing α) (result : α → Prop) : Prop :=
  Obeys s.Narrows (Stopped s brief) action result

theorem loses_ask (f : Store → α) : Loses s brief (ask f) fun _ => True :=
  .ask fun _ _ => trivial

theorem loses_conflict {p : α → Prop} : Loses s brief (throw .conflict : Narrowing α) p :=
  .throw fun _ ht => ht

/-- Narrowing a single variable loses values of that variable at most. -/
theorem loses_of_narrowed {action : Narrowing Unit} {x : VarIndex} {p : Int → Prop}
    (h : ∀ t, s.Narrows t → t.Narrowed x p (action t)) : Loses s brief action fun _ => True := by
  intro t ht
  match action t, h t ht with
  | _, .same _ => exact ⟨ht, trivial⟩
  | _, .less _ _ hloss _ => exact ⟨ht.lose hloss, trivial⟩
  | _, .conflict _ => exact ht

section

variable (hs : s.Proper)
include hs

theorem loses_tightenLower {x : VarIndex} (hx : x < s.numVariables) (bound : Int) :
    Loses s brief (Store.tightenLower x bound) fun _ => True :=
  loses_of_narrowed fun t ht =>
    t.narrowed_tightenLower (ht.proper hs) (ht.numVariables_eq.symm ▸ hx) bound

theorem loses_tightenUpper {x : VarIndex} (hx : x < s.numVariables) (bound : Int) :
    Loses s brief (Store.tightenUpper x bound) fun _ => True :=
  loses_of_narrowed fun t ht =>
    t.narrowed_tightenUpper (ht.proper hs) (ht.numVariables_eq.symm ▸ hx) bound

theorem loses_removeValue {x : VarIndex} (hx : x < s.numVariables) (value : Int) :
    Loses s brief (Store.removeValue x value) fun _ => True :=
  loses_of_narrowed fun t ht =>
    t.narrowed_removeValue (ht.proper hs) (ht.numVariables_eq.symm ▸ hx) value

/-- An action that is confined to created variables loses values at most. -/
theorem Confined.loses {among : VarIndex → Prop} {action : Narrowing α}
    (h : Confined among (¬ brief) action) (hamong : ∀ x, among x → x < s.numVariables) :
    Loses s brief action fun _ => True := by
  induction h with
  | pure a => exact .pure trivial
  | conflict => exact loses_conflict
  | overflow hrisky => exact .throw fun _ _ => hrisky
  | ask _ _ ih => exact fun t ht => ih t t ht
  | bind _ _ ih ih' => exact ih.bind fun a _ => ih' a
  | tightenLower bound hx => exact loses_tightenLower hs (hamong _ hx) bound
  | tightenUpper bound hx => exact loses_tightenUpper hs (hamong _ hx) bound
  | removeValue value hx => exact loses_removeValue hs (hamong _ hx) value

variable (hv : v.Created s)
include hv

theorem loses_atLeast (bound : Int) : Loses s brief (v.atLeast bound) fun _ => True :=
  (confined_atLeast hv bound).loses hs fun _ => id

theorem loses_atMost (bound : Int) : Loses s brief (v.atMost bound) fun _ => True :=
  (confined_atMost hv bound).loses hs fun _ => id

theorem loses_remove (value : Int) : Loses s brief (v.remove value) fun _ => True :=
  (confined_remove hv value).loses hs fun _ => id

theorem loses_fix (value : Int) : Loses s brief (v.fix value) fun _ => True :=
  (confined_fix hv value).loses hs fun _ => id

end

/-- A test that leaves every store below the given one as it is. -/
def Still (s : Store) (test : Narrowing Bool) : Prop :=
  ∀ t, s.Narrows t → ∃ b, test t = .ok b t

/-- Trying an action that does not overflow takes back what it lost. -/
theorem still_wouldFail {action : Narrowing Unit} (hs : s.Proper)
    (h : ∀ t : Store, t.numVariables = s.numVariables → t.Proper →
      Loses t True action fun _ => True) : Still s (wouldFail action) := by
  intro t ht
  have h := h (trial t) ht.numVariables_eq (proper_trial (ht.proper hs)) (trial t) .refl
  rw [wouldFail_eq]
  match action (trial t), h with
  | .ok _ u, h => exact ⟨false, by simp [restored_of_narrows h.1]⟩
  | .error .conflict u, h => exact ⟨true, by simp [restored_of_narrows h]⟩
  | .error .overflow u, h => exact absurd trivial h

end Narrowing

variable {s t : Store} {brief : Prop} {v : View}

/-! ## Linear equalities -/

namespace Linear

variable {terms : List Term} {term : Term} {rhs minSum maxSum : Int} {b : Int × Int}

/-- Numbers have 64 bits, no term is zero, and there are fewer than `2 ^ 31` of them. -/
structure Brief (terms : List Term) (rhs : Int) : Prop where
  rhs_fits : word64.Fits rhs
  length_lt : terms.length < 2 ^ 31
  coefficient_fits : ∀ t ∈ terms, word64.Fits t.1
  constant_fits : ∀ t ∈ terms, ∀ c, t.2 = .constant c → word64.Fits c
  ne_zero : ∀ t ∈ terms, t.1 ≠ 0

/-- Numbers have 64 bits, no term is zero, and the coefficients are not too large together. -/
structure Bounded (terms : List Term) (rhs : Int) : Prop where
  rhs_fits : word64.Fits rhs
  coefficients_le : (terms.map fun t => |t.1|).sum ≤ 2 ^ 94 - 2 ^ 62
  coefficient_fits : ∀ t ∈ terms, word64.Fits t.1
  constant_fits : ∀ t ∈ terms, ∀ c, t.2 = .constant c → word64.Fits c
  ne_zero : ∀ t ∈ terms, t.1 ≠ 0

theorem abs_le_of_fits {x : Int} (hx : word64.Fits x) : |x| ≤ 2 ^ 63 := by
  simp only [Word.Fits, word64] at hx
  rw [abs_le]
  omega

/-- The coefficients of 64 bits of so many terms add up to so much. -/
theorem sum_abs_le (hfits : ∀ t ∈ terms, word64.Fits t.1) :
    (terms.map fun t => |t.1|).sum ≤ terms.length * 2 ^ 63 := by
  have hsum := List.sum_le_card_nsmul (terms.map fun t => |t.1|) (2 ^ 63)
    (List.forall_mem_map.mpr fun t ht => abs_le_of_fits (hfits t ht))
  simpa using hsum

theorem Brief.bounded (h : Brief terms rhs) : Bounded terms rhs where
  rhs_fits := h.rhs_fits
  coefficients_le := by
    have hsum := sum_abs_le h.coefficient_fits
    have hlength := h.length_lt
    omega
  coefficient_fits := h.coefficient_fits
  constant_fits := h.constant_fits
  ne_zero := h.ne_zero

/-- Moving two values into the range of a word brings them no further apart. -/
theorem clamp_sub_clamp_le {l u : Int} (h : l ≤ u) :
    word128.clamp l ≤ word128.clamp u ∧ word128.clamp u - word128.clamp l ≤ u - l := by
  have hl := word128.clamp_cases l
  have hu := word128.clamp_cases u
  simp only [word128] at hl hu ⊢
  omega

/-- The bounds of a view have 64 bits, and are at most `2 ^ 32` apart. -/
theorem view_bounds (hs : s.Proper) (hv : v.Created s)
    (hc : ∀ c, v = .constant c → word64.Fits c) :
    word64.Fits (s.lowerBound v) ∧ word64.Fits (s.upperBound v) ∧
      s.lowerBound v ≤ s.upperBound v ∧ s.upperBound v - s.lowerBound v ≤ 2 ^ 32 := by
  cases v with
  | constant c => exact ⟨hc c rfl, hc c rfl, le_rfl, by simp [Store.lowerBound, Store.upperBound]⟩
  | affine x negated offset =>
      have hd := hs x (hv x rfl)
      have hle := ValueSet.lower_le hd.upper_mem
      have hl := hd.fits hd.lower_mem
      have hu := hd.fits hd.upper_mem
      simp only [Word.Fits, word32] at hl hu
      simp only [Store.lowerBound, Store.upperBound, View.map]
      refine ⟨Word.fits_clamp (by decide) _, Word.fits_clamp (by decide) _, ?_, ?_⟩
      · exact Word.clamp_mono (by decide) (by cases negated <;> simp <;> omega)
      · cases negated <;> simp only [Word.clamp, word64, Bool.false_eq_true, if_true, if_false] <;>
          omega

/-- How far the bounds of a term may lie from zero, and from each other. -/
structure Near (coefficient : Int) (b : Int × Int) : Prop where
  le : b.1 ≤ b.2
  spread : b.2 - b.1 ≤ |coefficient| * 2 ^ 32
  lower : |b.1| ≤ 2 ^ 126
  upper : |b.2| ≤ 2 ^ 126

theorem near_termBounds (hs : s.Proper) (hv : term.2.Created s) (hcoef : word64.Fits term.1)
    (hc : ∀ c, term.2 = .constant c → word64.Fits c) : Near term.1 (termBounds s term) := by
  obtain ⟨hl, hu, hle, hspread⟩ := view_bounds hs hv hc
  have hproduct : ∀ x, word64.Fits x → |term.1 * x| ≤ 2 ^ 126 := fun x hx => by
    rw [abs_mul]
    calc |term.1| * |x| ≤ 2 ^ 63 * 2 ^ 63 :=
          mul_le_mul (abs_le_of_fits hcoef) (abs_le_of_fits hx) (abs_nonneg x) (by decide)
      _ = 2 ^ 126 := by norm_num
  have hdistance : |term.1 * s.upperBound term.2 - term.1 * s.lowerBound term.2| ≤
      |term.1| * 2 ^ 32 := by
    rw [← mul_sub, abs_mul, abs_of_nonneg (sub_nonneg.mpr hle)]
    exact mul_le_mul_of_nonneg_left hspread (abs_nonneg _)
  have hlower := hproduct _ hl
  have hupper := hproduct _ hu
  simp only [abs_le] at hlower hupper hdistance
  simp only [termBounds]
  constructor
  · omega
  · omega
  · rw [abs_le]
    simp only
    omega
  · rw [abs_le]
    simp only
    omega

/-- The two sums differ by no more than their summands do. -/
theorem sumBounds_spread {f : Term → Int × Int} (h : ∀ t ∈ terms, Near t.1 (f t)) :
    (sumBounds (terms.map f)).2 - (sumBounds (terms.map f)).1 ≤
      (terms.map fun t => |t.1|).sum * 2 ^ 32 := by
  have hgo : ∀ sums : Int × Int, sums.1 ≤ sums.2 →
      let total := (terms.map f).foldl
        (fun sums b => (word128.clamp (sums.1 + b.1), word128.clamp (sums.2 + b.2))) sums
      total.2 - total.1 ≤ sums.2 - sums.1 + (terms.map fun t => |t.1|).sum * 2 ^ 32 := by
    induction terms with
    | nil => exact fun sums _ => by simp
    | cons t ts ih =>
        intro sums hsums
        simp only [List.forall_mem_cons] at h
        obtain ⟨hle, hspread, -, -⟩ := h.1
        obtain ⟨hclamp, hclamp'⟩ := clamp_sub_clamp_le (l := sums.1 + (f t).1)
          (u := sums.2 + (f t).2) (by omega)
        have ih := ih h.2 (word128.clamp (sums.1 + (f t).1), word128.clamp (sums.2 + (f t).2)) hclamp
        simp only [List.map_cons, List.foldl_cons, List.sum_cons] at ih ⊢
        omega
  simpa [sumBounds] using hgo (0, 0) le_rfl

theorem loses_exact {x : Int} (h : brief → word128.Fits x) :
    Loses s brief (exact x) fun y => y = x := by
  rw [exact]
  split
  · exact .pure rfl
  · next hx => exact .throw fun _ _ hsmall => hx (h hsmall)

theorem loses_narrowTerm (hs : s.Proper) (hv : term.2.Created s) (hne : brief → term.1 ≠ 0)
    (hrhs : brief → word64.Fits rhs) (hb : brief → Near term.1 b)
    (hsums : brief → maxSum - minSum ≤ 2 ^ 126 - 2 ^ 94) (hle : minSum ≤ rhs) (hge : rhs ≤ maxSum) :
    Loses s brief (narrowTerm rhs minSum maxSum term b) fun _ => True := by
  have hfits : brief → word128.Fits (maxSum - b.2) ∧ word128.Fits (minSum - b.1) ∧
      |rhs - (maxSum - b.2)| < 2 ^ 127 ∧ |rhs - (minSum - b.1)| < 2 ^ 127 := fun h => by
    obtain ⟨-, -, hlower, hupper⟩ := hb h
    have hrhs := hrhs h
    have hsums := hsums h
    simp only [abs_le, abs_lt, Word.Fits, word64, word128] at hrhs hlower hupper ⊢
    omega
  have hword : ∀ y : Int, |y| < 2 ^ 127 → word128.Fits y := fun y hy => by
    simp only [abs_lt, Word.Fits, word128] at hy ⊢
    omega
  refine (loses_exact fun h => (hfits h).1).bind ?_
  rintro _ rfl
  refine (loses_exact fun h => hword _ (hfits h).2.2.1).bind ?_
  rintro _ rfl
  refine (loses_exact fun h => (hfits h).2.1).bind ?_
  rintro _ rfl
  refine (loses_exact fun h => hword _ (hfits h).2.2.2).bind ?_
  rintro _ rfl
  have hends : ∀ low high : Int, (brief → |low| < 2 ^ 127) → (brief → |high| < 2 ^ 127) →
      Loses s brief (do
        term.2.atLeast (word64.clamp (← exact (ceilDiv low term.1)))
        term.2.atMost (word64.clamp (← exact (floorDiv high term.1)))) fun _ => True := by
    intro low high hlow hhigh
    refine (loses_exact fun h => hword _ ((abs_ceilDiv_le (hne h)).trans_lt (hlow h))).bind ?_
    refine fun _ _ => (loses_atLeast hs hv _).bind fun _ _ => ?_
    refine (loses_exact fun h => hword _ ((abs_floorDiv_le (hne h)).trans_lt (hhigh h))).bind ?_
    exact fun _ _ => loses_atMost hs hv _
  by_cases hpos : 0 < term.1
  · simp only [hpos, if_true]
    exact hends _ _ (fun h => (hfits h).2.2.1) fun h => (hfits h).2.2.2
  · simp only [hpos, if_false]
    exact hends _ _ (fun h => (hfits h).2.2.2) fun h => (hfits h).2.2.1

theorem loses (hs : s.Proper) (hterms : ∀ t ∈ terms, t.2.Created s) :
    Loses s (Bounded terms rhs) (propagate terms rhs) fun _ => True := by
  refine Obeys.bind (p := fun bounds => ∃ f : Term → Int × Int, bounds = terms.map f ∧
      (Bounded terms rhs → ∀ t ∈ terms, Near t.1 (f t)))
    (.ask fun u hu => ⟨termBounds u, rfl, fun h t ht => ?_⟩) ?_
  · exact near_termBounds (hu.proper hs) ((hterms t ht).mono hu.numVariables_eq.ge)
      (h.coefficient_fits t ht) (h.constant_fits t ht)
  rintro _ ⟨f, rfl, hnear⟩
  have hsums : Bounded terms rhs →
      (sumBounds (terms.map f)).2 - (sumBounds (terms.map f)).1 ≤ 2 ^ 126 - 2 ^ 94 := fun h => by
    have hspread := sumBounds_spread (hnear h)
    have hle := h.coefficients_le
    omega
  simp only
  split
  · exact loses_conflict
  next hrange =>
    refine Obeys.weaken (Obeys.forM (p := fun _ => True) ?_) fun _ _ => trivial
    rintro ⟨t, b⟩ htb
    obtain ⟨ht, rfl⟩ := mem_zip_map htb
    exact loses_narrowTerm hs (hterms t ht) (fun h => h.ne_zero t ht) (fun h => h.rhs_fits)
      (fun h => hnear h t ht) hsums (by omega) (by omega)

end Linear

/-! ## Propagators -/

/-- The rule is not a linear equality with too many terms. -/
def Rule.Brief : Rule → Prop
  | .linear terms rhs => Linear.Brief terms rhs
  | _ => True

/-- The rule is not a linear equality with too large coefficients. -/
def Rule.Bounded : Rule → Prop
  | .linear terms rhs => Linear.Bounded terms rhs
  | _ => True

theorem Rule.Brief.bounded {r : Rule} (h : r.Brief) : r.Bounded := by
  cases r with
  | linear terms rhs => exact Linear.Brief.bounded h
  | _ => trivial

/-- A rule loses values at most, and overflows only if it is not bounded. -/
theorem Rule.loses {r : Rule} (hs : s.Proper) (hr : ∀ v ∈ r.views, v.Created s) :
    Loses s r.Bounded r.propagate fun _ => True := by
  by_cases hlinear : ∃ terms rhs, r = .linear terms rhs
  · obtain ⟨terms, rhs, rfl⟩ := hlinear
    exact Linear.loses hs fun u hu => hr u.2 (List.mem_map_of_mem hu)
  · simp only [not_exists] at hlinear
    have hconfined : Confined (· < s.numVariables) (¬ r.Bounded) r.propagate :=
      Rule.confined hr fun terms rhs heq => absurd heq (hlinear terms rhs)
    exact hconfined.loses hs fun _ => id

/-- Testing a rule leaves the store as it is. -/
theorem Rule.still_isViolated {r : Rule} (hs : s.Proper) (hr : ∀ v ∈ r.views, v.Created s) :
    Still s r.isViolated := by
  have htrial : (∀ terms rhs, r ≠ .linear terms rhs) → Still s (wouldFail r.propagate) :=
    fun hlinear => still_wouldFail hs fun t ht hpt =>
      (Rule.confined hr fun terms rhs heq => absurd heq (hlinear terms rhs)).loses hpt
        fun _ hx => ht ▸ hx
  cases r with
  | parity literals => exact htrial nofun
  | equal v w => exact htrial nofun
  | absolute v w => exact htrial nofun
  | operation operator v w result => exact htrial nofun
  | _ => exact fun t _ => ⟨_, rfl⟩

namespace Propagator

/-- All views of the propagator are constants or read variables of the store. -/
def Created (s : Store) (p : Propagator) : Prop := ∀ v ∈ p.views, v.Created s

/-- The rule is not a linear equality with too large coefficients. -/
def Bounded (p : Propagator) : Prop := p.rule.Bounded

theorem Created.mono {p : Propagator} (h : p.Created s) (hst : s.numVariables ≤ t.numVariables) :
    p.Created t :=
  fun v hv => (h v hv).mono hst

/-- A propagator loses values at most, and overflows only if it is not bounded. -/
theorem loses {p : Propagator} (hs : s.Proper) (hp : p.Created s) :
    Loses s p.Bounded p.propagate fun _ => True := by
  have hrule : ∀ v ∈ p.rule.views, v.Created s := fun v hv =>
    hp v (List.mem_append.mpr (.inl hv))
  rw [propagate]
  cases hcond : p.condition with
  | none => exact Rule.loses hs hrule
  | some condition =>
      refine (loses_ask _).bind fun isFalse _ => ?_
      split
      · exact .pure trivial
      refine (loses_ask _).bind fun isTrue _ => ?_
      split
      · exact Rule.loses hs hrule
      refine Obeys.bind (p := fun _ => True) (fun t ht => ?_) fun violated _ => ?_
      · obtain ⟨b, hb⟩ := Rule.still_isViolated hs hrule t ht
        rw [hb]
        exact ⟨ht, trivial⟩
      split
      · exact loses_fix hs (hp condition (by simp [views, hcond])) 0
      · exact .pure trivial

end Propagator

end FiniteDomain.Engine
