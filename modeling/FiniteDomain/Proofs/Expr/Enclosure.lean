import FiniteDomain.Proofs.Expr.Bounds

/-!
# Bounds in 64 bits

The bounds of an expression are computed once more here, with every step of the arithmetic
spelled out: a result that may be moved into the 64-bit range goes through a parameter, and all
others have to fit. Moving never fails, and neither do the steps that have to fit, so the bounds
are there for every expression. They enclose the values of an expression and of all its parts
exactly where no part escapes.
-/

namespace FiniteDomain

namespace Bounds

section Narrowing

variable (narrow : Int → Option Int)

/-- The bounds of the given values, each of them narrowed. -/
def ofValuesWith (values : List Int) : Option Bounds := ofValues <$> values.mapM narrow

/-- The larger magnitude of the two bounds, both narrowed. -/
def magnitudeWith (b : Bounds) : Option Int :=
  return max (← narrow b.lower.natAbs) (← narrow b.upper.natAbs)

def addWith (a b : Bounds) : Option Bounds :=
  return ⟨← narrow (a.lower + b.lower), ← narrow (a.upper + b.upper)⟩

def subWith (a b : Bounds) : Option Bounds :=
  return ⟨← narrow (a.lower - b.upper), ← narrow (a.upper - b.lower)⟩

def negWith (a : Bounds) : Option Bounds := return ⟨← narrow (-a.upper), ← narrow (-a.lower)⟩

def scaleWith (a : Bounds) (weight : Int) : Option Bounds :=
  ofValuesWith narrow [a.lower * weight, a.upper * weight]

def mulWith (a b : Bounds) : Option Bounds :=
  ofValuesWith narrow
    [a.lower * b.lower, a.lower * b.upper, a.upper * b.lower, a.upper * b.upper]

/-- The negated magnitude has to fit. -/
def divWith (a : Bounds) : Option Bounds := do
  let magnitude ← a.magnitudeWith narrow
  return ⟨← word64.fit? (-magnitude), magnitude⟩

/-- The negated divisor has to fit. -/
def modWith (a b : Bounds) : Option Bounds := do
  let divisor := max (← narrow ((← b.magnitudeWith narrow) - 1)) 0
  return ⟨max (min a.lower 0) (← word64.fit? (-divisor)), min (max a.upper 0) divisor⟩

def absWith (a : Bounds) : Option Bounds :=
  if 0 ≤ a.lower then some a
  else if a.upper ≤ 0 then a.negWith narrow
  else return ⟨0, ← a.magnitudeWith narrow⟩

/-- An exponent that a power accepts. -/
def exponent? (n : Int) : Option Nat :=
  if 0 ≤ n ∧ n ≤ maxExponent then some n.toNat else none

/-- The exponents next to the ends have to fit, and all that are tried have to be accepted. -/
def powWith (base exponent : Bounds) : Option Bounds := do
  let exponents : Bounds :=
    ⟨max exponent.lower 0, min (max exponent.upper 0) maxExponent⟩
  if exponents.upper < exponents.lower then return single 0
  let bases := [base.lower, base.upper, -1, 0, 1].filter base.contains
  let candidates := [exponents.lower, ← word64.fit? (exponents.lower + 1),
    ← word64.fit? (exponents.upper - 1), exponents.upper]
  let powers ← (candidates.filter exponents.contains).mapM exponent?
  ofValuesWith narrow (bases.flatMap fun b => powers.map fun n => b ^ n)

end Narrowing

end Bounds

namespace Expr

section Narrowing

variable (narrow : Int → Option Int)

mutual

/-- The bounds of an expression, computed with the given way to narrow a result. -/
def boundsWith : Expr → Option Bounds
  | atom a => some a.bounds
  | sum terms => boundsOfSumWith (.single 0) terms
  | weightedSum weights terms => boundsOfWeightedWith (.single 0) weights terms
  | binary .sub a b => do (← a.boundsWith).subWith narrow (← b.boundsWith)
  | binary .mul a b => do (← a.boundsWith).mulWith narrow (← b.boundsWith)
  | binary .div a _ => do (← a.boundsWith).divWith narrow
  | binary .mod a b => do (← a.boundsWith).modWith narrow (← b.boundsWith)
  | binary .pow a b => do (← a.boundsWith).powWith narrow (← b.boundsWith)
  | unary .abs a => do (← a.boundsWith).absWith narrow
  | unary .neg a => do (← a.boundsWith).negWith narrow
  | element [] _ => some (.single 0)
  | element (e :: es) _ => do boundsOfAnyWith (Bounds.empty.join (← e.boundsWith)) es

/-- Adds the bounds of the terms to a total. -/
def boundsOfSumWith (total : Bounds) : List Expr → Option Bounds
  | [] => some total
  | e :: es => do boundsOfSumWith (← total.addWith narrow (← e.boundsWith)) es

/-- Adds the weighted bounds of the terms to a total, as far as there are weights. -/
def boundsOfWeightedWith (total : Bounds) (weights : List Int) : List Expr → Option Bounds
  | [] => some total
  | e :: es =>
    match weights with
    | [] => some total
    | w :: ws => do
      let scaled ← (← e.boundsWith).scaleWith narrow w
      boundsOfWeightedWith (← total.addWith narrow scaled) ws es

/-- Joins the bounds of the items. -/
def boundsOfAnyWith (joined : Bounds) : List Expr → Option Bounds
  | [] => some joined
  | e :: es => do boundsOfAnyWith (joined.join (← e.boundsWith)) es

end

end Narrowing

end Expr

/-- A result is moved to the nearer end of the 64-bit range. -/
def saturating (v : Int) : Option Int := some (word64.clamp v)

namespace Bounds

variable {a b : Bounds} {v w : Int} {values : List Int}

theorem fit?_of_fits (h : word64.Fits v) : word64.fit? v = some v :=
  Word.fit?_eq_some_iff.mpr ⟨h, rfl⟩

theorem ofValuesWith_saturating (values : List Int) :
    ofValuesWith saturating values = some (ofValues (values.map word64.clamp)) := by
  have h : values.mapM saturating = some (values.map word64.clamp) :=
    mapM_eq_some_map fun _ _ => rfl
  rw [ofValuesWith, h]
  rfl

/-- A value that is not larger than a magnitude has a negation that fits. -/
theorem fits_neg (h : 0 ≤ v ∧ v ≤ word64.max) : word64.Fits (-v) := by
  simp only [Word.Fits, word64] at h ⊢
  omega

theorem divisor_lt (b : Bounds) : max (word64.clamp (b.magnitude - 1)) 0 < word64.max := by
  have hmax := b.magnitude_le
  simp only [Word.clamp, word64] at hmax ⊢
  omega

theorem divWith_saturating (a : Bounds) : a.divWith saturating = some a.div := by
  have h : a.magnitudeWith saturating = some a.magnitude := rfl
  rw [divWith, h, Option.bind_eq_bind, Option.bind_some,
    fit?_of_fits (fits_neg ⟨a.magnitude_nonneg, a.magnitude_le⟩)]
  rfl

theorem modWith_saturating (a b : Bounds) : a.modWith saturating b = some (a.mod b) := by
  have h : b.magnitudeWith saturating = some b.magnitude := rfl
  have hfits : word64.Fits (-max (word64.clamp (b.magnitude - 1)) 0) :=
    fits_neg ⟨le_max_right _ _, b.divisor_lt.le⟩
  simp only [modWith, h, saturating, Option.bind_eq_bind, Option.bind_some, fit?_of_fits hfits]
  rfl

theorem absWith_saturating (a : Bounds) : a.absWith saturating = some a.abs := by
  rw [absWith, abs]
  split
  · rfl
  · split <;> rfl

theorem powWith_saturating (a b : Bounds) : a.powWith saturating b = some (a.pow b) := by
  simp only [powWith, pow]
  split
  · rfl
  · next hexp =>
    generalize hl : max b.lower 0 = lower at *
    generalize hu : min (max b.upper 0) maxExponent = upper at *
    have hrange : 0 ≤ lower ∧ lower ≤ upper ∧ upper ≤ maxExponent := by omega
    have hnext : word64.Fits (lower + 1) ∧ word64.Fits (upper - 1) := by
      simp only [Word.Fits, word64, maxExponent] at hrange ⊢
      omega
    have haccepted : ∀ n ∈ [lower, lower + 1, upper - 1, upper].filter
        (Bounds.mk lower upper).contains, exponent? n = some n.toNat := by
      intro n hn
      have hn : lower ≤ n ∧ n ≤ upper := contains_iff.mp (List.mem_filter.mp hn).2
      exact if_pos ⟨hrange.1.trans hn.1, hn.2.trans hrange.2.2⟩
    simp only [fit?_of_fits hnext.1, fit?_of_fits hnext.2, mapM_eq_some_map haccepted,
      ofValuesWith_saturating, Option.bind_eq_bind, Option.bind_some, List.map_flatMap,
      List.map_map, Function.comp_def, ← clampedPower_eq]

/-! ### Bounds that fit -/

/-- Both bounds fit into 64 bits. -/
def Fits (b : Bounds) : Prop := word64.Fits b.lower ∧ word64.Fits b.upper

instance (b : Bounds) : Decidable b.Fits := inferInstanceAs (Decidable (_ ∧ _))

theorem fits_clamp (v : Int) : word64.Fits (word64.clamp v) := Word.fits_clamp (by decide) v

theorem fits_empty : empty.Fits := by decide

theorem fits_join (ha : a.Fits) (hb : b.Fits) : (a.join b).Fits := by
  simp only [Fits, Word.Fits, join] at ha hb ⊢
  omega

theorem fits_ofValues (h : ∀ v ∈ values, word64.Fits v) : (ofValues values).Fits := by
  have hfold : ∀ b : Bounds, b.Fits →
      (values.foldl (fun b v => b.join (single v)) b).Fits := by
    induction values with
    | nil => exact fun b hb => hb
    | cons v vs ih =>
        obtain ⟨hv, hvs⟩ := List.forall_mem_cons.mp h
        exact fun b hb => ih hvs _ (fits_join hb ⟨hv, hv⟩)
  exact hfold empty fits_empty

theorem fits_magnitude (b : Bounds) : word64.Fits b.magnitude ∧ word64.Fits (-b.magnitude) := by
  have hmax := b.magnitude_le
  have hmin := b.magnitude_nonneg
  refine ⟨?_, fits_neg ⟨hmin, hmax⟩⟩
  simp only [Word.Fits, word64] at hmax ⊢
  omega

theorem fits_mod (a b : Bounds) : (a.mod b).Fits := by
  have hlt := b.divisor_lt
  simp only [mod, Fits, Word.Fits, word64] at hlt ⊢
  omega

theorem fits_abs (ha : a.Fits) : a.abs.Fits := by
  rw [abs]
  split
  · exact ha
  · split
    · exact ⟨fits_clamp _, fits_clamp _⟩
    · exact ⟨(by decide : word64.Fits 0), a.fits_magnitude.1⟩

theorem fits_pow (a b : Bounds) : (a.pow b).Fits := by
  simp only [pow]
  split
  · exact (by decide : (single 0).Fits)
  · refine fits_ofValues fun v hv => ?_
    obtain ⟨base, -, hv⟩ := List.mem_flatMap.mp hv
    obtain ⟨n, -, rfl⟩ := List.mem_map.mp hv
    rw [clampedPower_eq]
    exact fits_clamp _

end Bounds

namespace Expr

variable {σ : Assignment} {e : Expr}

/-! ## Every step succeeds -/

theorem boundsOfSumWith_saturating {terms : List Expr} (total : Bounds)
    (h : ∀ e ∈ terms, e.boundsWith saturating = some e.bounds) :
    boundsOfSumWith saturating total terms = some (boundsOfSum total terms) := by
  induction terms generalizing total with
  | nil => rfl
  | cons e es ih =>
      obtain ⟨he, hes⟩ := List.forall_mem_cons.mp h
      rw [boundsOfSumWith, he, boundsOfSum, ← ih _ hes]
      rfl

theorem boundsOfWeightedWith_saturating {terms : List Expr} (total : Bounds) (weights : List Int)
    (h : ∀ e ∈ terms, e.boundsWith saturating = some e.bounds) :
    boundsOfWeightedWith saturating total weights terms =
      some (boundsOfWeighted total weights terms) := by
  induction terms generalizing total weights with
  | nil => rfl
  | cons e es ih =>
      obtain ⟨he, hes⟩ := List.forall_mem_cons.mp h
      cases weights with
      | nil => rfl
      | cons w ws =>
          rw [boundsOfWeightedWith, he, boundsOfWeighted, ← ih _ _ hes]
          rfl

theorem boundsOfAnyWith_saturating {es : List Expr} (joined : Bounds)
    (h : ∀ e ∈ es, e.boundsWith saturating = some e.bounds) :
    boundsOfAnyWith saturating joined es = some (boundsOfAny joined es) := by
  induction es generalizing joined with
  | nil => rfl
  | cons e es ih =>
      obtain ⟨he, hes⟩ := List.forall_mem_cons.mp h
      rw [boundsOfAnyWith, he, boundsOfAny, ← ih _ hes]
      rfl

/-- Saturating arithmetic arrives at the bounds, and no step that has to fit fails. -/
theorem boundsWith_saturating (e : Expr) : e.boundsWith saturating = some e.bounds := by
  induction e using Expr.induction with
  | atom a => rfl
  | sum terms ih => exact boundsOfSumWith_saturating _ ih
  | weightedSum weights terms ih => exact boundsOfWeightedWith_saturating _ weights ih
  | binary op a b iha ihb =>
      cases op <;> simp only [boundsWith, bounds, iha, ihb, Option.bind_eq_bind, Option.bind_some]
      · rfl
      · exact Bounds.ofValuesWith_saturating _
      · exact a.bounds.divWith_saturating
      · exact a.bounds.modWith_saturating b.bounds
      · exact a.bounds.powWith_saturating b.bounds
  | unary op a ih =>
      cases op <;> simp only [boundsWith, bounds, ih, Option.bind_eq_bind, Option.bind_some]
      · exact a.bounds.absWith_saturating
      · rfl
  | element array index iharray _ =>
      cases array with
      | nil => rfl
      | cons e es =>
          obtain ⟨he, hes⟩ := List.forall_mem_cons.mp iharray
          rw [boundsWith, he]
          exact boundsOfAnyWith_saturating _ hes

/-! ## The bounds fit -/

/-- A constant fits into 64 bits. -/
def IsWord : Expr → Prop
  | atom (.constant value) => word64.Fits value
  | _ => True

theorem fits_boundsOfSum (terms : List Expr) {total : Bounds} (h : total.Fits) :
    (boundsOfSum total terms).Fits := by
  induction terms generalizing total with
  | nil => exact h
  | cons e es ih => exact ih ⟨Bounds.fits_clamp _, Bounds.fits_clamp _⟩

theorem fits_boundsOfWeighted (terms : List Expr) (weights : List Int) {total : Bounds}
    (h : total.Fits) : (boundsOfWeighted total weights terms).Fits := by
  induction terms generalizing total weights with
  | nil => exact h
  | cons e es ih =>
      cases weights with
      | nil => exact h
      | cons w ws => exact ih ws ⟨Bounds.fits_clamp _, Bounds.fits_clamp _⟩

theorem fits_boundsOfAny {es : List Expr} {joined : Bounds} (h : joined.Fits)
    (hes : ∀ e ∈ es, e.bounds.Fits) : (boundsOfAny joined es).Fits := by
  induction es generalizing joined with
  | nil => exact h
  | cons e es ih =>
      obtain ⟨he, hes⟩ := List.forall_mem_cons.mp hes
      exact ih (Bounds.fits_join h he) hes

theorem fits_bounds (hwords : e.Everywhere IsWord) : e.bounds.Fits := by
  have hzero : (Bounds.single 0).Fits := by decide
  induction e using Expr.induction with
  | atom a =>
      cases a with
      | int x =>
          have hx := fun v hv => Word.fits_word64 (x.domain.fits_of_contains (v := v) hv)
          exact ⟨hx _ x.domain.contains_lower, hx _ x.domain.contains_upper⟩
      | literal l => exact (by decide : (Bounds.mk 0 1).Fits)
      | constant value => exact ⟨hwords.1, hwords.1⟩
      | bool value => cases value <;> decide
  | sum terms _ => exact fits_boundsOfSum terms hzero
  | weightedSum weights terms _ => exact fits_boundsOfWeighted terms weights hzero
  | binary op a b iha ihb =>
      cases op with
      | sub => exact ⟨Bounds.fits_clamp _, Bounds.fits_clamp _⟩
      | mul =>
          refine Bounds.fits_ofValues fun v hv => ?_
          simp only [List.mem_cons, List.not_mem_nil, or_false] at hv
          rcases hv with rfl | rfl | rfl | rfl <;> exact Bounds.fits_clamp _
      | div => exact a.bounds.fits_magnitude.symm
      | mod => exact a.bounds.fits_mod b.bounds
      | pow => exact a.bounds.fits_pow b.bounds
  | unary op a ih =>
      cases op with
      | abs => exact Bounds.fits_abs (ih (hwords.operand (by simp [operands])))
      | neg => exact ⟨Bounds.fits_clamp _, Bounds.fits_clamp _⟩
  | element array index iharray _ =>
      have hitems : ∀ e ∈ array, e.bounds.Fits := fun e he =>
        iharray e he (hwords.operand (List.mem_append_left _ he))
      cases array with
      | nil => exact hzero
      | cons e es =>
          obtain ⟨he, hes⟩ := List.forall_mem_cons.mp hitems
          exact fits_boundsOfAny (Bounds.fits_join Bounds.fits_empty he) hes

/-! ## Where the bounds enclose the values -/

/-- The bounds of a quotient are not below the negated end of the range, and those of a remainder
stop one before the end. -/
theorem not_holds_of_escapes (h : e.Escapes σ) :
    ∃ v, e.evaluate σ = .ok v ∧ ¬ e.bounds.Holds v := by
  unfold Escapes at h
  split at h
  · next a b =>
    refine ⟨word64.min, h, fun hholds => ?_⟩
    have hmax := a.bounds.magnitude_le
    have hlower : -a.bounds.magnitude ≤ word64.min := hholds.1
    simp only [word64] at hmax hlower
    omega
  · next a b =>
    obtain ⟨v, hv, hmax⟩ := h
    refine ⟨v, hv, fun hholds => ?_⟩
    have hlt := b.bounds.divisor_lt
    obtain ⟨hl, hu⟩ := hholds
    simp only [bounds, Bounds.mod] at hl hu
    omega
  · exact h.elim

/-- The bounds of an expression are computed without overflow, ordered and fit into 64 bits.
Under values of their domains for the variables, they enclose the values of the expression and
its parts if and only if no quotient is the smallest 64-bit value and no remainder is at an end
of the range. -/
theorem bounds_enclose (hwords : e.Everywhere IsWord) :
    e.boundsWith saturating = some e.bounds ∧ e.bounds.Ordered ∧ e.bounds.Fits ∧
      ∀ σ, Inside σ e.occurrences →
        ((e.Everywhere fun o => ∀ v, o.evaluate σ = .ok v → o.bounds.Holds v) ↔
          e.Everywhere fun o => ¬ o.Escapes σ) := by
  refine ⟨e.boundsWith_saturating, e.ordered_bounds, fits_bounds hwords, fun σ hσ => ⟨?_, ?_⟩⟩
  · intro hholds
    refine hholds.mono fun o ho hescapes => ?_
    obtain ⟨v, hv, hout⟩ := not_holds_of_escapes hescapes
    exact hout (ho v hv)
  · intro hno
    refine ⟨fun v hv => holds_bounds hσ hno hv, fun o ho v hv => ?_⟩
    exact holds_bounds (fun x hx => hσ x (mem_occurrences_of_part ho hx)) (hno.part ho) hv

/-- A cube, modulo 7. -/
def remainderOfCube : Expr :=
  .binary .mod
    (.binary .pow (.ofInt ⟨0, "base", .interval (-2) 3 (by decide) (by decide)⟩) (.constant 3))
    (.constant 7)

/-- The remainder is -1 for the base -2, within bounds that know the divisor. -/
theorem bounds_enclose_remainderOfCube :
    remainderOfCube.bounds = ⟨-6, 6⟩ ∧ remainderOfCube.evaluate (fun _ => some (-2)) = .ok (-1) ∧
      remainderOfCube.Everywhere fun o =>
        ∀ v, o.evaluate (fun _ => some (-2)) = .ok v → o.bounds.Holds v := by
  have hwords : remainderOfCube.Everywhere IsWord := by
    simp [remainderOfCube, Everywhere, parts, ofInt, constant, IsWord, Word.Fits, word64]
  have hinside : Inside (fun _ => some (-2)) remainderOfCube.occurrences := by
    simp only [remainderOfCube, occurrences, ofInt, constant, Atom.vars, List.append_nil]
    exact List.forall_mem_singleton.mpr fun v hv => Option.some.inj hv ▸ rfl
  have hno : remainderOfCube.Everywhere fun o => ¬ o.Escapes fun _ => some (-2) := by
    have hvalue : remainderOfCube.evaluate (fun _ => some (-2)) = .ok (-1) := rfl
    refine ⟨not_escapes_of_fits fun v hv => ?_, ?_⟩
    · obtain rfl := Except.ok.inj (hvalue.symm.trans hv)
      decide
    · simp [remainderOfCube, parts, ofInt, constant, Escapes]
  refine ⟨by decide, rfl, ?_⟩
  exact ((bounds_enclose hwords).2.2.2 _ hinside).mpr hno

/-- The smallest 64-bit value, divided by 1. -/
def smallestQuotient : Expr := .binary .div (.constant word64.min) (.constant 1)

/-- A quotient escapes its bounds. -/
theorem smallestQuotient_escapes :
    smallestQuotient.Everywhere IsWord ∧ smallestQuotient.occurrences = [] ∧
      smallestQuotient.evaluate (fun _ => none) = .ok word64.min ∧
        word64.min < smallestQuotient.bounds.lower := by
  refine ⟨?_, rfl, rfl, by decide⟩
  simp [smallestQuotient, Everywhere, parts, constant, IsWord, Word.Fits, word64]

end Expr

end FiniteDomain
