import FiniteDomain.Expr.Basic

/-!
# Bounds of an expression

An interval for the values the expression can take. A bound outside the 64-bit range is
moved to its end, since a value outside is no value. The magnitude of the smallest value is
moved as well, so it counts as one less.
-/

namespace FiniteDomain

/-- A lower and an upper bound. -/
structure Bounds where
  lower : Int
  upper : Int
  deriving DecidableEq, Repr

namespace Bounds

/-- The bounds of a single value. -/
def single (v : Int) : Bounds := ⟨v, v⟩

/-- The bounds of no value at all, from which bounds of values are joined. -/
def empty : Bounds := ⟨word64.max, word64.min⟩

/-- The smallest interval that holds both. -/
def join (a b : Bounds) : Bounds := ⟨min a.lower b.lower, max a.upper b.upper⟩

/-- The bounds of the given values. -/
def ofValues (values : List Int) : Bounds := values.foldl (fun b v => b.join (single v)) empty

/-- The larger magnitude of the two bounds. -/
def magnitude (b : Bounds) : Int :=
  max (FiniteDomain.magnitude b.lower) (FiniteDomain.magnitude b.upper)

/-- The lower bounds add up, and so do the upper bounds. -/
def add (a b : Bounds) : Bounds :=
  ⟨word64.clamp (a.lower + b.lower), word64.clamp (a.upper + b.upper)⟩

/-- The smallest difference subtracts the largest value. -/
def sub (a b : Bounds) : Bounds :=
  ⟨word64.clamp (a.lower - b.upper), word64.clamp (a.upper - b.lower)⟩

/-- Negation turns the bounds around. -/
def neg (a : Bounds) : Bounds := ⟨word64.clamp (-a.upper), word64.clamp (-a.lower)⟩

/-- A multiple takes its extremes at the bounds. -/
def scale (a : Bounds) (weight : Int) : Bounds :=
  ofValues [word64.clamp (a.lower * weight), word64.clamp (a.upper * weight)]

/-- A product takes its extremes at the corners. -/
def mul (a b : Bounds) : Bounds :=
  ofValues [word64.clamp (a.lower * b.lower), word64.clamp (a.lower * b.upper),
    word64.clamp (a.upper * b.lower), word64.clamp (a.upper * b.upper)]

/-- A quotient is not larger than the dividend. -/
def div (a : Bounds) : Bounds := ⟨-a.magnitude, a.magnitude⟩

/-- A remainder has the sign of the dividend and is smaller than the divisor. -/
def mod (a b : Bounds) : Bounds :=
  let divisor := max (word64.clamp (b.magnitude - 1)) 0
  ⟨max (min a.lower 0) (-divisor), min (max a.upper 0) divisor⟩

/-- Where the sign is known the bounds carry over; else the magnitude may be 0. -/
def abs (a : Bounds) : Bounds :=
  if 0 ≤ a.lower then a
  else if a.upper ≤ 0 then a.neg
  else ⟨0, a.magnitude⟩

/-- Whether a value lies between the bounds. -/
def contains (b : Bounds) (v : Int) : Bool := decide (b.lower ≤ v) && decide (v ≤ b.upper)

/-- A power takes its extremes at the extreme bases or at a base of -1, 0 or 1, and at
the extreme exponents of either parity. A power without an admissible exponent has no
value. -/
def pow (base exponent : Bounds) : Bounds :=
  let exponents : Bounds :=
    ⟨max exponent.lower 0, min (max exponent.upper 0) maxExponent⟩
  if exponents.upper < exponents.lower then single 0
  else
    let bases := [base.lower, base.upper, -1, 0, 1].filter base.contains
    let candidates :=
      [exponents.lower, exponents.lower + 1, exponents.upper - 1, exponents.upper]
    let powers := candidates.filter exponents.contains
    ofValues (bases.flatMap fun b => powers.map fun n => clampedPower b n.toNat)

/-- The lower bound is not above the upper. -/
def Ordered (b : Bounds) : Prop := b.lower ≤ b.upper

/-- A single value lies between itself and itself. -/
theorem ordered_single (v : Int) : (single v).Ordered := Int.le_refl v

/-- A magnitude is not negative. -/
theorem magnitude_nonneg (b : Bounds) : 0 ≤ b.magnitude := by
  simp only [magnitude, FiniteDomain.magnitude, Word.clamp, word64]
  omega

/-- Moving values into the 64-bit range keeps their order. -/
theorem clamp64_mono {a b : Int} (h : a ≤ b) : word64.clamp a ≤ word64.clamp b :=
  Word.clamp_mono (by decide) h

/-- Sums of ordered bounds are ordered. -/
theorem ordered_add {a b : Bounds} (ha : a.Ordered) (hb : b.Ordered) : (a.add b).Ordered :=
  clamp64_mono (Int.add_le_add ha hb)

/-- Differences of ordered bounds are ordered. -/
theorem ordered_sub {a b : Bounds} (ha : a.Ordered) (hb : b.Ordered) : (a.sub b).Ordered :=
  clamp64_mono (Int.sub_le_sub ha hb)

/-- Negated ordered bounds are ordered. -/
theorem ordered_neg {a : Bounds} (ha : a.Ordered) : a.neg.Ordered :=
  clamp64_mono (Int.neg_le_neg ha)

/-- Joining bounds with a value keeps every value below the lower and above the upper
bound where it was. -/
theorem ordered_join {a b : Bounds} (hb : b.Ordered) : (a.join b).Ordered :=
  Int.le_trans (Int.min_le_right ..) (Int.le_trans hb (Int.le_max_right ..))

/-- Joining values one by one keeps the bounds ordered. -/
theorem ordered_foldl_join (values : List Int) {b : Bounds} (hb : b.Ordered) :
    (values.foldl (fun b v => b.join (single v)) b).Ordered := by
  induction values generalizing b with
  | nil => exact hb
  | cons v vs ih => exact ih (ordered_join (ordered_single v))

/-- The bounds of at least one value are ordered. -/
theorem ordered_ofValues {values : List Int} (h : values ≠ []) : (ofValues values).Ordered := by
  cases values with
  | nil => contradiction
  | cons v vs => exact ordered_foldl_join vs (ordered_join (ordered_single v))

/-- The bounds of a quotient are ordered. -/
theorem ordered_div (a : Bounds) : a.div.Ordered := by
  have := a.magnitude_nonneg
  simp only [div, Ordered]
  omega

/-- The bounds of a remainder are ordered, whatever those of its operands. -/
theorem ordered_mod (a b : Bounds) : (a.mod b).Ordered := by
  simp only [mod, Ordered]
  omega

/-- The bounds of a magnitude are ordered. -/
theorem ordered_abs {a : Bounds} (ha : a.Ordered) : a.abs.Ordered := by
  simp only [abs]
  split
  · exact ha
  · split
    · exact ordered_neg ha
    · exact a.magnitude_nonneg

/-- Ordered bounds hold their lower end. -/
theorem contains_lower {b : Bounds} (hb : b.Ordered) : b.contains b.lower = true := by
  simp only [contains, Bool.and_eq_true, decide_eq_true_eq]
  exact ⟨Int.le_refl _, hb⟩

/-- The bounds of a power are ordered: the smallest base and the smallest exponent are among
the candidates. -/
theorem ordered_pow {base : Bounds} (exponent : Bounds) (h : base.Ordered) :
    (base.pow exponent).Ordered := by
  simp only [pow]
  split
  · exact ordered_single 0
  · next hexp =>
    refine ordered_ofValues fun hnil => ?_
    rw [List.flatMap_eq_nil_iff] at hnil
    have := hnil base.lower (List.mem_filter.2 ⟨by simp, contains_lower h⟩)
    rw [List.map_eq_nil_iff, List.filter_eq_nil_iff] at this
    exact this _ (List.mem_cons_self ..) (contains_lower (Int.not_lt.1 hexp))

end Bounds

/-- The bounds of an atom: those of its domain, or the value itself. -/
def Atom.bounds : Atom → Bounds
  | .int x => ⟨x.domain.lower, x.domain.upper⟩
  | .literal _ => ⟨0, 1⟩
  | .constant value => .single value
  | .bool value => .single value.toInt

namespace Expr

mutual

/-- Bounds on the values the expression can take. -/
def bounds : Expr → Bounds
  | atom a => a.bounds
  | sum terms => boundsOfSum (.single 0) terms
  | weightedSum weights terms => boundsOfWeighted (.single 0) weights terms
  | binary .sub a b => a.bounds.sub b.bounds
  | binary .mul a b => a.bounds.mul b.bounds
  | binary .div a _ => a.bounds.div
  | binary .mod a b => a.bounds.mod b.bounds
  | binary .pow a b => a.bounds.pow b.bounds
  | unary .abs a => a.bounds.abs
  | unary .neg a => a.bounds.neg
  | element [] _ => .single 0
  | element (e :: es) _ => boundsOfAny (Bounds.empty.join e.bounds) es

/-- Adds the bounds of the terms to a total. -/
def boundsOfSum (total : Bounds) : List Expr → Bounds
  | [] => total
  | e :: es => boundsOfSum (total.add e.bounds) es

/-- Adds the weighted bounds of the terms to a total, as far as there are weights. -/
def boundsOfWeighted (total : Bounds) (weights : List Int) : List Expr → Bounds
  | [] => total
  | e :: es =>
    match weights with
    | [] => total
    | w :: ws => boundsOfWeighted (total.add (e.bounds.scale w)) ws es

/-- Joins the bounds of the items. -/
def boundsOfAny (joined : Bounds) : List Expr → Bounds
  | [] => joined
  | e :: es => boundsOfAny (joined.join e.bounds) es

end

end Expr

/-- The bounds of an atom are ordered. -/
theorem Atom.ordered_bounds (a : Atom) : a.bounds.Ordered := by
  cases a with
  | int x => exact x.domain.lower_le_upper
  | literal l => exact Int.le_of_lt Int.zero_lt_one
  | constant value => exact Bounds.ordered_single value
  | bool value => exact Bounds.ordered_single value.toInt

namespace Expr

mutual

/-- The lower bound of an expression is not above its upper bound. -/
theorem ordered_bounds : (e : Expr) → e.bounds.Ordered
  | atom a => a.ordered_bounds
  | sum terms => ordered_boundsOfSum (Bounds.ordered_single 0) terms
  | weightedSum weights terms => ordered_boundsOfWeighted (Bounds.ordered_single 0) weights terms
  | binary .sub a b => Bounds.ordered_sub a.ordered_bounds b.ordered_bounds
  | binary .mul _ _ => Bounds.ordered_ofValues (by simp)
  | binary .div a _ => Bounds.ordered_div a.bounds
  | binary .mod a b => Bounds.ordered_mod a.bounds b.bounds
  | binary .pow a b => Bounds.ordered_pow b.bounds a.ordered_bounds
  | unary .abs a => Bounds.ordered_abs a.ordered_bounds
  | unary .neg a => Bounds.ordered_neg a.ordered_bounds
  | element [] _ => Bounds.ordered_single 0
  | element (e :: es) _ => ordered_boundsOfAny (Bounds.ordered_join e.ordered_bounds) es

/-- Adding the bounds of terms keeps a total ordered. -/
theorem ordered_boundsOfSum {total : Bounds} (h : total.Ordered) :
    (es : List Expr) → (boundsOfSum total es).Ordered
  | [] => h
  | e :: es => ordered_boundsOfSum (Bounds.ordered_add h e.ordered_bounds) es

/-- Adding the weighted bounds of terms keeps a total ordered. -/
theorem ordered_boundsOfWeighted {total : Bounds} (h : total.Ordered) :
    (weights : List Int) → (es : List Expr) → (boundsOfWeighted total weights es).Ordered
  | _, [] => h
  | [], _ :: _ => h
  | _ :: ws, _ :: es =>
    ordered_boundsOfWeighted (Bounds.ordered_add h (Bounds.ordered_ofValues (by simp))) ws es

/-- Joining the bounds of items keeps them ordered. -/
theorem ordered_boundsOfAny {joined : Bounds} (h : joined.Ordered) :
    (es : List Expr) → (boundsOfAny joined es).Ordered
  | [] => h
  | e :: es => ordered_boundsOfAny (Bounds.ordered_join e.ordered_bounds) es

end

end Expr

end FiniteDomain
