import FiniteDomain.Engine.Rule.Operation
import FiniteDomain.Proofs.Engine.Narrowing

/-!
# Binary operations and absolute values

The bounds of an operation lose no valuation that satisfies it, and once both operands are
fixed the result is computed.
-/

namespace FiniteDomain.Engine

open Narrowing

variable {s : Store} {needed : Valuation → Prop} {small : Prop} {a : Valuation}

namespace Operation

variable {operator : Operator} {v w result : View}

/-- The bounds that an operation carries from its operands to its result and back. -/
def bound (operator : Operator) (v w result : View) (vLower vUpper wLower wUpper : Int) :
    Narrowing Unit :=
  match operator with
  | .sum => boundSum v w result vLower vUpper wLower wUpper
  | .times => boundProduct result vLower vUpper wLower wUpper
  | .div | .mod | .pow => pure ()

/-- The result of an operation on two values. -/
def compute (operator : Operator) (result : View) (x y : Int) : Narrowing Unit :=
  match operator.apply x y with
  | some value => result.fix value
  | none => throw .conflict

theorem propagate_eq : propagate operator v w result = (do
    let vLower ← ask (·.lowerBound v)
    let vUpper ← ask (·.upperBound v)
    let wLower ← ask (·.lowerBound w)
    let wUpper ← ask (·.upperBound w)
    bound operator v w result vLower vUpper wLower wUpper
    let x ← ask (·.value? v)
    let y ← ask (·.value? w)
    match x, y with
    | some x, some y => compute operator result x y
    | _, _ => return ()) := by
  cases operator <;> rfl

section

variable (hs : s.Proper) (hv : v.Exact s) (hw : w.Exact s) (hr : result.Exact s)
  (hneeded : ∀ a, needed a → s.Admits a)
include hs hr hneeded

theorem prunes_boundProduct {vLower vUpper wLower wUpper : Int}
    (hvb : ∀ a, needed a → vLower ≤ v.eval a ∧ v.eval a ≤ vUpper)
    (hwb : ∀ a, needed a → wLower ≤ w.eval a ∧ w.eval a ≤ wUpper)
    (h : ∀ a, needed a → result.eval a = v.eval a * w.eval a) :
    Prunes s needed small (boundProduct result vLower vUpper wLower wUpper) fun _ => True := by
  refine (prunes_atLeast hs hr.created fun a ha => ?_).bind fun _ _ =>
    prunes_atMost hs hr.created fun a ha => ?_
  · have hclamp : ∀ corner, corner ≤ v.eval a * w.eval a → word64.clamp corner ≤ result.eval a :=
      fun corner hle => Word.clamp_le_of_le (hr.fits_eval (hneeded a ha)).1 (h a ha ▸ hle)
    simp only [min_le_iff]
    rcases exists_corner_le (hvb a ha) (hwb a ha) with hc | hc | hc | hc
    · exact .inl (.inl (hclamp _ hc))
    · exact .inl (.inr (hclamp _ hc))
    · exact .inr (.inl (hclamp _ hc))
    · exact .inr (.inr (hclamp _ hc))
  · have hclamp : ∀ corner, v.eval a * w.eval a ≤ corner → result.eval a ≤ word64.clamp corner :=
      fun corner hle => Word.le_clamp_of_le (hr.fits_eval (hneeded a ha)).2 (h a ha ▸ hle)
    simp only [le_max_iff]
    rcases exists_le_corner (hvb a ha) (hwb a ha) with hc | hc | hc | hc
    · exact .inl (.inl (hclamp _ hc))
    · exact .inl (.inr (hclamp _ hc))
    · exact .inr (.inl (hclamp _ hc))
    · exact .inr (.inr (hclamp _ hc))

include hv hw

theorem prunes_boundSum {vLower vUpper wLower wUpper : Int}
    (hvb : ∀ a, needed a → vLower ≤ v.eval a ∧ v.eval a ≤ vUpper)
    (hwb : ∀ a, needed a → wLower ≤ w.eval a ∧ w.eval a ≤ wUpper)
    (h : ∀ a, needed a → result.eval a = v.eval a + w.eval a) :
    Prunes s needed small (boundSum v w result vLower vUpper wLower wUpper) fun _ => True := by
  have lower_ok : ∀ {u : View} {bound : Int}, u.Exact s → (∀ a, needed a → bound ≤ u.eval a) →
      Prunes s needed small (u.atLeast (word64.clamp bound)) fun _ => True :=
    fun hu hb => prunes_atLeast hs hu.created fun a ha =>
      Word.clamp_le_of_le (hu.fits_eval (hneeded a ha)).1 (hb a ha)
  have upper_ok : ∀ {u : View} {bound : Int}, u.Exact s → (∀ a, needed a → u.eval a ≤ bound) →
      Prunes s needed small (u.atMost (word64.clamp bound)) fun _ => True :=
    fun hu hb => prunes_atMost hs hu.created fun a ha =>
      Word.le_clamp_of_le (hu.fits_eval (hneeded a ha)).2 (hb a ha)
  refine (lower_ok hr fun a ha => ?_).bind fun _ _ => ?_
  · have := h a ha; have := hvb a ha; have := hwb a ha
    omega
  refine (upper_ok hr fun a ha => ?_).bind fun _ _ => ?_
  · have := h a ha; have := hvb a ha; have := hwb a ha
    omega
  refine (prunes_lowerBound hs hr).bind fun lower hl => (prunes_upperBound hs hr).bind fun upper hu => ?_
  refine (lower_ok hv fun a ha => ?_).bind fun _ _ => (upper_ok hv fun a ha => ?_).bind fun _ _ =>
    (lower_ok hw fun a ha => ?_).bind fun _ _ => upper_ok hw fun a ha => ?_
  all_goals
    have := h a ha; have := hvb a ha; have := hwb a ha; have := hl a ha; have := hu a ha
    omega

theorem prunes_bound {vLower vUpper wLower wUpper : Int}
    (hvb : ∀ a, needed a → vLower ≤ v.eval a ∧ v.eval a ≤ vUpper)
    (hwb : ∀ a, needed a → wLower ≤ w.eval a ∧ w.eval a ≤ wUpper)
    (h : ∀ a, needed a → operator.apply (v.eval a) (w.eval a) = some (result.eval a)) :
    Prunes s needed small (bound operator v w result vLower vUpper wLower wUpper)
      fun _ => True := by
  cases operator with
  | sum =>
      exact prunes_boundSum hs hv hw hr hneeded hvb hwb fun a ha =>
        (Word.fit?_eq_some_iff.mp (h a ha)).2
  | times =>
      exact prunes_boundProduct hs hr hneeded hvb hwb fun a ha =>
        (Word.fit?_eq_some_iff.mp (h a ha)).2
  | div => exact .pure trivial
  | mod => exact .pure trivial
  | pow => exact .pure trivial

theorem prunes (h : ∀ a, needed a → operator.apply (v.eval a) (w.eval a) = some (result.eval a)) :
    Prunes s needed small (propagate operator v w result) fun _ => True := by
  rw [propagate_eq]
  refine (prunes_lowerBound hs hv).bind fun _ hvl => (prunes_upperBound hs hv).bind fun _ hvu => ?_
  refine (prunes_lowerBound hs hw).bind fun _ hwl => (prunes_upperBound hs hw).bind fun _ hwu => ?_
  refine (prunes_bound hs hv hw hr hneeded (fun a ha => ⟨hvl a ha, hvu a ha⟩)
    (fun a ha => ⟨hwl a ha, hwu a ha⟩) h).bind fun _ _ => ?_
  refine (prunes_value? hs hv).bind fun x hx => (prunes_value? hs hw).bind fun y hy => ?_
  split
  · next x y =>
    have happly : ∀ a, needed a → operator.apply x y = some (result.eval a) := fun a ha =>
      hx x rfl a ha ▸ hy y rfl a ha ▸ h a ha
    simp only [compute]
    split
    · next value hvalue =>
      exact prunes_fix hs hr.created fun a ha => Option.some.inj (hvalue ▸ happly a ha).symm
    · next hnone => exact prunes_conflict fun a ha => by simpa [hnone] using happly a ha
  · exact .pure trivial

end

theorem tests (hs : s.Proper) (hv : v.Exact s) (hw : w.Exact s) (hr : result.Exact s) :
    Tests s (wouldFail (propagate operator v w result)) fun a =>
      operator.apply (v.eval a) (w.eval a) = some (result.eval a) :=
  .wouldFail (prunes (proper_trial hs) (exact_trial hv) (exact_trial hw) (exact_trial hr)
    (fun _ ha => ha.1) fun _ ha => ha.2)

theorem checks (hs : s.Proper) (hv : FixedTo s a v) (hw : FixedTo s a w)
    (hr : FixedTo s a result) :
    Checks s (propagate operator v w result) fun _ =>
      operator.apply (v.eval a) (w.eval a) = some (result.eval a) := by
  rw [propagate_eq]
  refine Obeys.bind (checks_lowerBound hs hv) fun _ _ => ?_
  refine Obeys.bind (checks_upperBound hs hv) fun _ _ => ?_
  refine Obeys.bind (checks_lowerBound hs hw) fun _ _ => ?_
  refine Obeys.bind (checks_upperBound hs hw) fun _ _ => ?_
  have hbound : ∀ {vLower vUpper wLower wUpper : Int},
      Prunes s (fun _ => False) True (bound operator v w result vLower vUpper wLower wUpper)
        fun _ => True :=
    prunes_bound hs hv.exact hw.exact hr.exact (fun _ => False.elim) (fun _ => False.elim)
      (fun _ => False.elim) (fun _ => False.elim)
  refine hbound.checks.bind fun _ _ => ?_
  refine Obeys.bind (checks_value? hs hv) fun _ hx => ?_
  refine Obeys.bind (checks_value? hs hw) fun _ hy => ?_
  subst hx hy
  simp only [compute]
  split
  · next value hvalue =>
    exact (checks_fix hs hr.pinned value).weaken fun _ heq => hvalue ▸ heq ▸ rfl
  · exact checks_conflict

end Operation

namespace Absolute

variable {signed absolute : View}

/-- The smaller magnitude bounds the result where the sign is known. -/
def boundAbsolute (absolute : View) (lower upper : Int) : Narrowing Unit :=
  if 0 < lower then absolute.atLeast lower
  else if upper < 0 then absolute.atLeast (word64.clamp (-upper))
  else pure ()

/-- The smallest magnitude bounds the operand where the sign is known. -/
def boundSigned (signed : View) (lower upper least : Int) : Narrowing Unit :=
  if upper ≤ 0 then signed.atMost (word64.clamp (-least))
  else if 0 ≤ lower then signed.atLeast least
  else pure ()

theorem propagate_eq : propagate signed absolute = (do
    let lower ← ask (·.lowerBound signed)
    let upper ← ask (·.upperBound signed)
    absolute.atLeast 0
    absolute.atMost (max (magnitude lower) (magnitude upper))
    boundAbsolute absolute lower upper
    let least ← ask (·.lowerBound absolute)
    let most ← ask (·.upperBound absolute)
    signed.atLeast (word64.clamp (-most))
    signed.atMost most
    boundSigned signed lower upper least
    whenFixed signed fun value => absolute.fix (magnitude value)) := by
  refine bind_congr fun lower => bind_congr fun upper => bind_congr fun _ => bind_congr fun _ => ?_
  have hsigned : ∀ (least : Int) (next : Narrowing Unit),
      (if upper ≤ 0 then (do signed.atMost (word64.clamp (-least)); next)
        else if 0 ≤ lower then (do signed.atLeast least; next) else next) =
      (do boundSigned signed lower upper least; next) := by
    intro least next
    simp only [boundSigned]
    repeat' split
    all_goals simp
  have habsolute : ∀ (next : Narrowing Unit),
      (if 0 < lower then (do absolute.atLeast lower; next)
        else if upper < 0 then (do absolute.atLeast (word64.clamp (-upper)); next) else next) =
      (do boundAbsolute absolute lower upper; next) := by
    intro next
    simp only [boundAbsolute]
    repeat' split
    all_goals simp
  simp only [← hsigned, ← habsolute]
  rfl

section

variable (hs : s.Proper) (hv : signed.Exact s) (hw : absolute.Exact s)
  (hneeded : ∀ a, needed a → s.Admits a)
include hs hw hneeded

theorem prunes_boundAbsolute {lower upper : Int}
    (hb : ∀ a, needed a → lower ≤ signed.eval a ∧ signed.eval a ≤ upper)
    (h : ∀ a, needed a → absolute.eval a = (signed.eval a).natAbs) :
    Prunes s needed small (boundAbsolute absolute lower upper) fun _ => True := by
  rw [boundAbsolute]
  split
  · refine prunes_atLeast hs hw.created fun a ha => ?_
    have := h a ha
    have := hb a ha
    omega
  · split
    · refine prunes_atLeast hs hw.created fun a ha => ?_
      have := h a ha
      have := hb a ha
      exact Word.clamp_le_of_le (hw.fits_eval (hneeded a ha)).1 (by omega)
    · exact .pure trivial

omit hw in
include hv in
theorem prunes_boundSigned {lower upper least : Int}
    (hb : ∀ a, needed a → lower ≤ signed.eval a ∧ signed.eval a ≤ upper)
    (hl : ∀ a, needed a → least ≤ absolute.eval a)
    (h : ∀ a, needed a → absolute.eval a = (signed.eval a).natAbs) :
    Prunes s needed small (boundSigned signed lower upper least) fun _ => True := by
  rw [boundSigned]
  split
  · refine prunes_atMost hs hv.created fun a ha => ?_
    have := h a ha
    have := hb a ha
    have := hl a ha
    exact Word.le_clamp_of_le (hv.fits_eval (hneeded a ha)).2 (by omega)
  · split
    · refine prunes_atLeast hs hv.created fun a ha => ?_
      have := h a ha
      have := hb a ha
      have := hl a ha
      omega
    · exact .pure trivial

include hv

theorem prunes (h : ∀ a, needed a → absolute.eval a = (signed.eval a).natAbs) :
    Prunes s needed small (propagate signed absolute) fun _ => True := by
  have hfv : ∀ a, needed a → word64.Fits (signed.eval a) := fun a ha => hv.fits_eval (hneeded a ha)
  have hfw : ∀ a, needed a → word64.Fits (absolute.eval a) := fun a ha => hw.fits_eval (hneeded a ha)
  rw [propagate_eq]
  refine (prunes_lowerBound hs hv).bind fun lower hl => (prunes_upperBound hs hv).bind fun upper hu => ?_
  have hb : ∀ a, needed a → lower ≤ signed.eval a ∧ signed.eval a ≤ upper :=
    fun a ha => ⟨hl a ha, hu a ha⟩
  refine (prunes_atLeast hs hw.created fun a ha => ?_).bind fun _ _ => ?_
  · have := h a ha
    omega
  refine (prunes_atMost hs hw.created fun a ha => ?_).bind fun _ _ => ?_
  · have := h a ha
    simp only [le_max_iff, magnitude]
    rcases natAbs_le_max (hl a ha) (hu a ha) with hle | hle
    · exact .inl (Word.le_clamp_of_le (hfw a ha).2 (by omega))
    · exact .inr (Word.le_clamp_of_le (hfw a ha).2 (by omega))
  refine (prunes_boundAbsolute hs hw hneeded hb h).bind fun _ _ => ?_
  refine (prunes_lowerBound hs hw).bind fun least hleast => ?_
  refine (prunes_upperBound hs hw).bind fun most hmost => ?_
  refine (prunes_atLeast hs hv.created fun a ha => ?_).bind fun _ _ => ?_
  · have := h a ha
    have := hmost a ha
    exact Word.clamp_le_of_le (hfv a ha).1 (by omega)
  refine (prunes_atMost hs hv.created fun a ha => ?_).bind fun _ _ => ?_
  · have := h a ha
    have := hmost a ha
    omega
  refine (prunes_boundSigned hs hv hneeded hb hleast h).bind fun _ _ => ?_
  refine prunes_whenFixed hs hv fun value hvalue => prunes_fix hs hw.created fun a ha => ?_
  rw [magnitude, ← hvalue a ha, ← h a ha, Word.clamp_of_fits (hfw a ha)]

end

theorem tests (hs : s.Proper) (hv : signed.Exact s) (hw : absolute.Exact s) :
    Tests s (wouldFail (propagate signed absolute)) fun a =>
      absolute.eval a = (signed.eval a).natAbs :=
  .wouldFail (prunes (proper_trial hs) (exact_trial hv) (exact_trial hw) (fun _ ha => ha.1)
    fun _ ha => ha.2)

theorem checks (hs : s.Proper) (hv : FixedTo s a signed) (hw : FixedTo s a absolute)
    (ha : s.Admits a) :
    Checks s (propagate signed absolute) fun _ => absolute.eval a = (signed.eval a).natAbs := by
  rw [propagate_eq]
  refine Obeys.bind (checks_lowerBound hs hv) fun lower _ => ?_
  refine Obeys.bind (checks_upperBound hs hv) fun upper _ => ?_
  refine (checks_atLeast hs hw.pinned _).bind fun _ _ => (checks_atMost hs hw.pinned _).bind fun _ _ => ?_
  have hboundAbsolute : Prunes s (fun _ => False) True (boundAbsolute absolute lower upper)
      fun _ => True :=
    prunes_boundAbsolute hs hw.exact (fun _ => False.elim)
      (fun a ha => (ha.elim : lower ≤ signed.eval a ∧ signed.eval a ≤ upper)) fun _ => False.elim
  refine hboundAbsolute.checks.bind fun _ _ => ?_
  refine (checks_lowerBound hs hw).bind fun least _ => ?_
  refine (checks_upperBound hs hw).bind fun most hmost => ?_
  refine (checks_atLeast hs hv.pinned _).bind fun _ hle =>
    (checks_atMost hs hv.pinned _).bind fun _ _ => ?_
  have hboundSigned : Prunes s (fun _ => False) True (boundSigned signed lower upper least)
      fun _ => True :=
    prunes_boundSigned hs hv.exact (fun _ => False.elim) (fun _ => False.elim)
      (fun a ha => (ha.elim : least ≤ absolute.eval a)) fun _ => False.elim
  refine hboundSigned.checks.bind fun _ _ => ?_
  refine Obeys.weaken (checks_whenFixed hs hv (checks_fix hs hw.pinned _)) fun _ heq => ?_
  -- only the magnitude of the smallest value does not fit, and that value is not left
  have hfv := hv.exact.fits_eval ha
  have hends : word64.min = -word64.max - 1 := by decide
  have := word64.clamp_cases (-most)
  have := word64.clamp_cases ((signed.eval a).natAbs : Int)
  simp only [magnitude] at heq
  simp only [Word.Fits] at hfv
  subst hmost
  omega

end Absolute

end FiniteDomain.Engine
