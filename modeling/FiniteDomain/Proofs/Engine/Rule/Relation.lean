import FiniteDomain.Engine.Rule.Relation
import FiniteDomain.Proofs.Engine.Narrowing

/-!
# Rules on two views

Equality, disequality and order lose no valuation that satisfies them, and with both views
fixed they check themselves.
-/

namespace FiniteDomain.Engine

open Narrowing

variable {s : Store} {needed : Valuation → Prop} {small : Prop} {v w : View} {a : Valuation}
  {orEqual : Bool}

/-- Equality exchanges the bounds, and then the values. -/
theorem Equal.propagate_eq : Equal.propagate v w = (do
    v.atLeast (← ask (·.lowerBound w))
    v.atMost (← ask (·.upperBound w))
    w.atLeast (← ask (·.lowerBound v))
    w.atMost (← ask (·.upperBound v))
    whenFixed v w.fix
    whenFixed w v.fix) := by
  simp only [whenFixed_bind]
  iterate 8 refine bind_congr fun _ => ?_
  refine bind_congr fun value => ?_
  cases value <;> rfl

theorem NotEqual.propagate_eq : NotEqual.propagate v w = (do
    whenFixed v w.remove
    whenFixed w v.remove) := by
  rw [whenFixed_bind]
  refine bind_congr fun value => ?_
  cases value <;> rfl

section

variable (hs : s.Proper) (hv : v.Exact s) (hw : w.Exact s)
include hs hv hw

theorem Equal.prunes (h : ∀ a, needed a → v.eval a = w.eval a) :
    Prunes s needed small (Equal.propagate v w) fun _ => True := by
  rw [Equal.propagate_eq]
  refine (prunes_lowerBound hs hw).bind fun _ hl => ?_
  refine (prunes_atLeast hs hv.created fun a ha => h a ha ▸ hl a ha).bind fun _ _ => ?_
  refine (prunes_upperBound hs hw).bind fun _ hu => ?_
  refine (prunes_atMost hs hv.created fun a ha => h a ha ▸ hu a ha).bind fun _ _ => ?_
  refine (prunes_lowerBound hs hv).bind fun _ hl => ?_
  refine (prunes_atLeast hs hw.created fun a ha => h a ha ▸ hl a ha).bind fun _ _ => ?_
  refine (prunes_upperBound hs hv).bind fun _ hu => ?_
  refine (prunes_atMost hs hw.created fun a ha => h a ha ▸ hu a ha).bind fun _ _ => ?_
  refine (prunes_whenFixed hs hv fun value hvalue => ?_).bind fun _ _ => ?_
  · exact prunes_fix hs hw.created fun a ha => h a ha ▸ hvalue a ha
  refine prunes_whenFixed hs hw fun value hvalue => ?_
  exact prunes_fix hs hv.created fun a ha => h a ha ▸ hvalue a ha

theorem Equal.tests :
    Tests s (wouldFail (Equal.propagate v w)) fun a => v.eval a = w.eval a :=
  .wouldFail (Equal.prunes (proper_trial hs) (exact_trial hv) (exact_trial hw) fun _ ha => ha.2)

theorem NotEqual.prunes (h : ∀ a, needed a → v.eval a ≠ w.eval a) :
    Prunes s needed small (NotEqual.propagate v w) fun _ => True := by
  rw [NotEqual.propagate_eq]
  refine (prunes_whenFixed hs hv fun value hvalue => ?_).bind fun _ _ => ?_
  · exact prunes_remove hs hw.created fun a ha heq => h a ha (hvalue a ha ▸ heq.symm)
  refine prunes_whenFixed hs hw fun value hvalue => ?_
  exact prunes_remove hs hv.created fun a ha heq => h a ha (hvalue a ha ▸ heq)

theorem NotEqual.tests :
    Tests s (ask (NotEqual.isViolated v w)) fun a => v.eval a ≠ w.eval a := by
  refine .ask fun h a ha hne => ?_
  simp only [NotEqual.isViolated] at h
  split at h
  · next i j hi hj =>
    have hvi := (Store.value?_eq_some_iff hs hv).mp hi a ha
    have hwj := (Store.value?_eq_some_iff hs hw).mp hj a ha
    rw [beq_iff_eq] at h
    exact hne (by rw [hvi, hwj, h])
  · cases h

theorem Less.prunes (hneeded : ∀ a, needed a → s.Admits a)
    (h : ∀ a, needed a → v.eval a + Less.gap orEqual ≤ w.eval a) :
    Prunes s needed small (Less.propagate v w orEqual) fun _ => True := by
  refine (prunes_upperBound hs hw).bind fun upper hupper => ?_
  refine (prunes_atMost hs hv.created fun a ha => ?_).bind fun _ _ => ?_
  · have := h a ha
    have := hupper a ha
    exact Word.le_clamp_of_le (hv.fits_eval (hneeded a ha)).2 (by omega)
  refine (prunes_lowerBound hs hv).bind fun lower hlower => ?_
  refine prunes_atLeast hs hw.created fun a ha => ?_
  have := h a ha
  have := hlower a ha
  exact Word.clamp_le_of_le (hw.fits_eval (hneeded a ha)).1 (by omega)

theorem Less.tests :
    Tests s (ask (Less.isViolated v w orEqual)) fun a =>
      v.eval a + Less.gap orEqual ≤ w.eval a := by
  refine .ask fun h a ha hle => ?_
  have hl := Store.lowerBound_le_eval hs hv ha
  have hu := Store.eval_le_upperBound hs hw ha
  have hclamp := Word.clamp_le_of_le (u := s.lowerBound v + Less.gap orEqual)
    (hw.fits_eval ha).1 (by omega)
  have := of_decide_eq_true h
  omega

end

section

variable (hs : s.Proper) (hv : FixedTo s a v) (hw : FixedTo s a w) (ha : s.Admits a)
include hs hv hw

theorem Equal.checks : Checks s (Equal.propagate v w) fun _ => v.eval a = w.eval a := by
  rw [Equal.propagate_eq]
  refine Obeys.bind (checks_lowerBound hs hw) fun _ _ => ?_
  refine (checks_atLeast hs hv.pinned _).bind fun _ _ => ?_
  refine Obeys.bind (checks_upperBound hs hw) fun _ _ => ?_
  refine (checks_atMost hs hv.pinned _).bind fun _ _ => ?_
  refine Obeys.bind (checks_lowerBound hs hv) fun _ _ => ?_
  refine (checks_atLeast hs hw.pinned _).bind fun _ _ => ?_
  refine Obeys.bind (checks_upperBound hs hv) fun _ _ => ?_
  refine (checks_atMost hs hw.pinned _).bind fun _ _ => ?_
  refine (checks_whenFixed hs hv (checks_fix hs hw.pinned _)).bind fun _ heq => ?_
  exact (checks_whenFixed hs hw (checks_fix hs hv.pinned _)).weaken fun _ _ => heq.symm

theorem NotEqual.checks : Checks s (NotEqual.propagate v w) fun _ => v.eval a ≠ w.eval a := by
  rw [NotEqual.propagate_eq]
  refine (checks_whenFixed hs hv (checks_remove hs hw.pinned _)).bind fun _ hne => ?_
  exact (checks_whenFixed hs hw (checks_remove hs hv.pinned _)).weaken fun _ _ => hne.symm

include ha in
theorem Less.checks :
    Checks s (Less.propagate v w orEqual) fun _ => v.eval a + Less.gap orEqual ≤ w.eval a := by
  refine (checks_upperBound hs hw).bind fun _ hupper => ?_
  refine (checks_atMost hs hv.pinned _).bind fun _ h1 => ?_
  refine (checks_lowerBound hs hv).bind fun _ hlower => ?_
  refine (checks_atLeast hs hw.pinned _).weaken fun _ h2 => ?_
  -- at the ends of the range one of the two bounds is moved, but never both
  have hfv := hv.exact.fits_eval ha
  have hfw := hw.exact.fits_eval ha
  have hgap : 0 ≤ Less.gap orEqual ∧ Less.gap orEqual ≤ 1 := by
    cases orEqual <;> decide
  have hends : word64.min < word64.max := by decide
  have := word64.clamp_cases (w.eval a - Less.gap orEqual)
  have := word64.clamp_cases (v.eval a + Less.gap orEqual)
  subst hupper hlower
  simp only [Word.Fits] at hfv hfw
  omega

end

end FiniteDomain.Engine
