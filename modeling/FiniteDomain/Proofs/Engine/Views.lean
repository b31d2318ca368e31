import FiniteDomain.Proofs.Engine.Stores
import FiniteDomain.Proofs.Word

/-!
# Narrowing views

A view is exact in a store if none of the values that its variable can still take leaves the
64-bit range. The bounds of an exact view are those of its values, and narrowing it keeps
exactly the valuations that give it a suitable value. Values of variables have 32 bits, so a
bound that is moved into the 64-bit range on its way to a variable keeps its effect.
-/

namespace FiniteDomain.Engine

variable {s t u : Store} {v : View} {x : VarIndex} {a b : Valuation} {d : ValueSet} {w bound : Int}

namespace View

/-- The value of the view when its variable has the given value, over the integers. -/
def raw (v : View) (inner : Int) : Int := v.eval fun _ => inner

@[simp] theorem raw_constant (c inner : Int) : (constant c).raw inner = c := rfl

theorem raw_affine (x : VarIndex) (negated : Bool) (offset inner : Int) :
    (affine x negated offset).raw inner = if negated then offset - inner else offset + inner := rfl

@[simp] theorem eval_constant (a : Valuation) (c : Int) : (constant c).eval a = c := rfl

@[simp] theorem eval_affine (a : Valuation) (x : VarIndex) (negated : Bool) (offset : Int) :
    (affine x negated offset).eval a = (affine x negated offset).raw (a x) := rfl

@[simp] theorem eval_ofVar (a : Valuation) (x : VarIndex) : (ofVar x).eval a = a x := by
  simp [ofVar, raw_affine]

theorem map_eq_raw (h : word64.Fits (v.raw w)) : v.map w = v.raw w := by
  cases v with
  | constant c => rfl
  | affine x negated offset => exact Word.clamp_of_fits h

/-- A value that is moved into the range does not become zero. -/
theorem map_eq_zero_iff : v.map w = 0 ↔ v.raw w = 0 := by
  cases v with
  | constant c => rfl
  | affine x negated offset =>
      have hclamp := word64.clamp_cases ((affine x negated offset).raw w)
      simp only [word64] at hclamp
      change word64.clamp ((affine x negated offset).raw w) = 0 ↔ _
      simp only [word64]
      omega

/-- The variable has the value that is computed back from the value of the view. -/
theorem unmap_eq_iff {negated : Bool} {offset : Int} (h : word32.Fits w) :
    (affine x negated offset).unmap bound = w ↔ (affine x negated offset).raw w = bound := by
  simp only [Word.Fits, word32] at h
  simp only [unmap, raw_affine, Word.clamp, word64]
  cases negated <;> simp only [Bool.false_eq_true, if_true, if_false] <;> omega

theorem unmap_le_iff {offset : Int} (h : word32.Fits w) :
    (affine x false offset).unmap bound ≤ w ↔ bound ≤ (affine x false offset).raw w := by
  obtain ⟨h1, h2, -, -⟩ := Word.inside_word64 h
  simp only [unmap, raw_affine, Bool.false_eq_true, if_false, Word.clamp_le_iff h1.le h2]
  omega

theorem le_unmap_iff {offset : Int} (h : word32.Fits w) :
    w ≤ (affine x false offset).unmap bound ↔ (affine x false offset).raw w ≤ bound := by
  obtain ⟨h1, h2, -, -⟩ := Word.inside_word64 h
  simp only [unmap, raw_affine, Bool.false_eq_true, if_false, Word.le_clamp_iff h1 h2.le]
  omega

theorem unmap_negated_le_iff {offset : Int} (h : word32.Fits w) :
    (affine x true offset).unmap bound ≤ w ↔ (affine x true offset).raw w ≤ bound := by
  obtain ⟨h1, h2, h3, h4⟩ := Word.inside_word64 h
  simp only [unmap, raw_affine, if_true, Word.clamp_le_iff h1.le h2]
  have := Word.le_clamp_iff (u := bound - offset) h3 h4.le
  omega

theorem le_unmap_negated_iff {offset : Int} (h : word32.Fits w) :
    w ≤ (affine x true offset).unmap bound ↔ bound ≤ (affine x true offset).raw w := by
  obtain ⟨h1, h2, h3, h4⟩ := Word.inside_word64 h
  simp only [unmap, raw_affine, if_true, Word.le_clamp_iff h1 h2.le]
  have := Word.clamp_le_iff (u := bound - offset) h3.le h4
  omega

/-- The view reads a variable of the store, if any, and none of its values leaves the 64-bit
range. -/
def Exact (s : Store) : View → Prop
  | constant c => word64.Fits c
  | affine x negated offset =>
    x < s.numVariables ∧ ∀ w ∈ s.set x, word64.Fits ((affine x negated offset).raw w)

/-- A view stays exact when values are lost. -/
theorem Exact.mono (h : v.Exact s) (hts : t ≤ s) : v.Exact t := by
  cases v with
  | constant c => exact h
  | affine x negated offset =>
      exact ⟨Store.numVariables_eq_of_le hts ▸ h.1, fun w hw => h.2 w (Store.mem_of_le hts hw)⟩

theorem Exact.extend (h : v.Exact s) (hst : s.Extends t) : v.Exact t := by
  cases v with
  | constant c => exact h
  | affine x negated offset =>
      exact ⟨h.1.trans_le hst.numVariables_le, fun w hw => h.2 w (hst.set_eq x h.1 ▸ hw)⟩

/-- The view is a constant or reads a variable of the store. -/
def Created (s : Store) (v : View) : Prop := ∀ x, v.var? = some x → x < s.numVariables

theorem Created.mono (h : v.Created s) (hst : s.numVariables ≤ t.numVariables) : v.Created t :=
  fun x hx => (h x hx).trans_le hst

theorem Created.negate (h : v.Created s) : v.negate.Created s := by
  cases v with
  | constant c => exact h
  | affine x negated offset => exact h

theorem Created.complement (h : v.Created s) : v.complement.Created s := by
  cases v with
  | constant c => exact h
  | affine x negated offset => exact h

theorem Exact.created (h : v.Exact s) : v.Created s := by
  cases v with
  | constant c => exact fun x hx => by cases hx
  | affine y negated offset =>
      intro x hx
      obtain rfl := Option.some.inj hx
      exact h.1

theorem Exact.fits_eval (h : v.Exact s) (ha : s.Admits a) : word64.Fits (v.eval a) := by
  cases v with
  | constant c => exact h
  | affine x negated offset => exact h.2 _ (ha x h.1)

theorem exact_ofVar (hs : s.Proper) (hx : x < s.numVariables) : (ofVar x).Exact s := by
  refine ⟨hx, fun w hw => ?_⟩
  simpa [raw_affine] using Word.fits_word64 ((hs x hx).fits hw)

end View

namespace Store

/-- The valuation that gives every variable the smallest value that it can still take. -/
def least (s : Store) : Valuation := fun x => (s.set x).lower

theorem admits_least (hs : s.Proper) : s.Admits s.least := fun x hx => (hs x hx).lower_mem

/-- A value of one variable extends to a valuation that the store admits. -/
theorem admits_update_least (hs : s.Proper) (hw : w ∈ s.set x) :
    s.Admits (Function.update s.least x w) := by
  intro y hy
  by_cases h : y = x
  · subst h
    rwa [Function.update_self]
  · rw [Function.update_of_ne h]
    exact admits_least hs y hy

theorem Admits.fits (ha : s.Admits a) (hs : s.Proper) (hx : x < s.numVariables) :
    word32.Fits (a x) :=
  (hs x hx).fits (ha x hx)

/-! ## Reading a view -/

theorem lowerBound_extend (hv : v.Exact s) (hst : s.Extends t) :
    t.lowerBound v = s.lowerBound v := by
  cases v with
  | constant c => rfl
  | affine x negated offset => simp only [lowerBound, hst.set_eq x hv.1]

theorem upperBound_extend (hv : v.Exact s) (hst : s.Extends t) :
    t.upperBound v = s.upperBound v := by
  cases v with
  | constant c => rfl
  | affine x negated offset => simp only [upperBound, hst.set_eq x hv.1]

/-- The lower bound is one of the values. -/
theorem exists_eval_eq_lowerBound (hs : s.Proper) (hv : v.Exact s) :
    ∃ a, s.Admits a ∧ v.eval a = s.lowerBound v := by
  cases v with
  | constant c => exact ⟨s.least, admits_least hs, rfl⟩
  | affine x negated offset =>
      obtain ⟨hx, hfits⟩ := hv
      have hmem : (if negated then (s.set x).upper else (s.set x).lower) ∈ s.set x := by
        cases negated
        · exact (hs x hx).lower_mem
        · exact (hs x hx).upper_mem
      refine ⟨_, admits_update_least hs hmem, ?_⟩
      simp [lowerBound, View.map_eq_raw (hfits _ hmem)]

/-- No value is below the lower bound. -/
theorem lowerBound_le_eval (hs : s.Proper) (hv : v.Exact s) (ha : s.Admits a) :
    s.lowerBound v ≤ v.eval a := by
  cases v with
  | constant c => exact le_rfl
  | affine x negated offset =>
      obtain ⟨hx, hfits⟩ := hv
      have hl := ValueSet.lower_le (ha x hx)
      have hu := ValueSet.le_upper (ha x hx)
      cases negated
      · simp only [lowerBound, View.eval_affine, Bool.false_eq_true, if_false,
          View.map_eq_raw (hfits _ (hs x hx).lower_mem), View.raw_affine]
        omega
      · simp only [lowerBound, View.eval_affine, if_true,
          View.map_eq_raw (hfits _ (hs x hx).upper_mem), View.raw_affine]
        omega

/-- No value is above the upper bound. -/
theorem eval_le_upperBound (hs : s.Proper) (hv : v.Exact s) (ha : s.Admits a) :
    v.eval a ≤ s.upperBound v := by
  cases v with
  | constant c => exact le_rfl
  | affine x negated offset =>
      obtain ⟨hx, hfits⟩ := hv
      have hl := ValueSet.lower_le (ha x hx)
      have hu := ValueSet.le_upper (ha x hx)
      cases negated
      · simp only [upperBound, View.eval_affine, Bool.false_eq_true, if_false,
          View.map_eq_raw (hfits _ (hs x hx).upper_mem), View.raw_affine]
        omega
      · simp only [upperBound, View.eval_affine, if_true,
          View.map_eq_raw (hfits _ (hs x hx).lower_mem), View.raw_affine]
        omega

/-- The upper bound is one of the values. -/
theorem exists_eval_eq_upperBound (hs : s.Proper) (hv : v.Exact s) :
    ∃ a, s.Admits a ∧ v.eval a = s.upperBound v := by
  cases v with
  | constant c => exact ⟨s.least, admits_least hs, rfl⟩
  | affine x negated offset =>
      obtain ⟨hx, hfits⟩ := hv
      have hmem : (if negated then (s.set x).lower else (s.set x).upper) ∈ s.set x := by
        cases negated
        · exact (hs x hx).upper_mem
        · exact (hs x hx).lower_mem
      refine ⟨_, admits_update_least hs hmem, ?_⟩
      simp [upperBound, View.map_eq_raw (hfits _ hmem)]

/-- A view contains the values that it has under some valuation. -/
theorem contains_iff (hs : s.Proper) (hv : v.Created s) :
    s.contains v w = true ↔ ∃ a, s.Admits a ∧ v.eval a = w := by
  cases v with
  | constant c =>
      simp only [contains, beq_iff_eq, View.eval_constant, exists_and_right]
      exact ⟨fun h => ⟨⟨s.least, admits_least hs⟩, h⟩, fun h => h.2⟩
  | affine x negated offset =>
      simp only [contains, View.eval_affine]
      constructor
      · intro h
        refine ⟨_, admits_update_least hs h, ?_⟩
        rw [Function.update_self]
        exact (View.unmap_eq_iff ((hs x (hv x rfl)).fits h)).mp rfl
      · rintro ⟨a, ha, heq⟩
        rw [(View.unmap_eq_iff (ha.fits hs (hv x rfl))).mpr heq]
        exact ha x (hv x rfl)

/-- A true view is nowhere zero. -/
theorem isTrue_iff (hs : s.Proper) (hv : v.Created s) :
    s.isTrue v = true ↔ ∀ a, s.Admits a → v.eval a ≠ 0 := by
  have := contains_iff (w := 0) hs hv
  simp only [isTrue, Bool.not_eq_true', ← Bool.not_eq_true, this, not_exists, not_and, ne_eq]

/-- A view of a fixed variable has the same value everywhere, even if that leaves the range. -/
theorem eval_eq_of_isFixed (hv : v.Created s) (hfixed : s.isFixed v = true) (ha : s.Admits a)
    (hb : s.Admits b) : v.eval a = v.eval b := by
  cases v with
  | constant c => rfl
  | affine x negated offset =>
      rw [View.eval_affine, View.eval_affine, ValueSet.eq_lower_of_isFixed hfixed (ha x (hv x rfl)),
        ValueSet.eq_lower_of_isFixed hfixed (hb x (hv x rfl))]

/-- A fixed view has the same value everywhere. -/
theorem isFixed_iff (hs : s.Proper) (hv : v.Exact s) :
    s.isFixed v = true ↔ ∀ a, s.Admits a → v.eval a = s.lowerBound v := by
  cases v with
  | constant c => simp [isFixed, lowerBound, View.map]
  | affine x negated offset =>
      obtain ⟨hx, -⟩ := id hv
      simp only [isFixed]
      constructor
      · intro hf a ha
        obtain ⟨b, hb, heq⟩ := exists_eval_eq_lowerBound hs hv
        exact heq ▸ eval_eq_of_isFixed hv.created hf ha hb
      · intro h
        have hl := h _ (admits_update_least hs (hs x hx).lower_mem)
        have hu := h _ (admits_update_least hs (hs x hx).upper_mem)
        rw [← hl] at hu
        simp only [View.eval_affine, Function.update_self, View.raw_affine] at hu
        simp only [ValueSet.isFixed, beq_iff_eq]
        split at hu <;> omega

/-- A view has a value of its own if all valuations give it that value. -/
theorem value?_eq_some_iff (hs : s.Proper) (hv : v.Exact s) :
    s.value? v = some w ↔ ∀ a, s.Admits a → v.eval a = w := by
  simp only [value?, Option.ite_none_right_eq_some, Option.some.injEq, isFixed_iff hs hv]
  constructor
  · rintro ⟨h, rfl⟩
    exact h
  · intro h
    obtain ⟨a, ha, heq⟩ := exists_eval_eq_lowerBound hs hv
    have hw : s.lowerBound v = w := heq ▸ h a ha
    exact ⟨hw ▸ h, hw⟩

/-- A false view is everywhere zero. -/
theorem isFalse_iff (hs : s.Proper) (hv : v.Created s) :
    s.isFalse v = true ↔ ∀ a, s.Admits a → v.eval a = 0 := by
  cases v with
  | constant c =>
      refine Iff.trans ?_ ⟨fun h _ _ => h, fun h => h _ (admits_least hs)⟩
      simp [isFalse, value?, isFixed, lowerBound, View.map]
  | affine x negated offset =>
      have hd := hs x (hv x rfl)
      rw [isFalse, beq_iff_eq]
      simp only [value?, Option.ite_none_right_eq_some, Option.some.injEq, lowerBound,
        View.map_eq_zero_iff, View.eval_affine]
      constructor
      · rintro ⟨hfixed, hzero⟩ a ha
        have hupper := ValueSet.eq_lower_of_isFixed hfixed hd.upper_mem
        rw [ValueSet.eq_lower_of_isFixed hfixed (ha x (hv x rfl))]
        split at hzero
        · rwa [← hupper]
        · exact hzero
      · intro h
        have hlower := h _ (admits_update_least hs hd.lower_mem)
        have hupper := h _ (admits_update_least hs hd.upper_mem)
        rw [Function.update_self] at hlower hupper
        refine ⟨?_, by split <;> assumption⟩
        refine beq_iff_eq.mpr (show (s.set x).lower = (s.set x).upper from ?_)
        cases negated <;> simp only [View.raw_affine, Bool.false_eq_true, if_true, if_false]
          at hlower hupper <;> omega

/-! ## Narrowing a view -/

/-- The outcome of keeping the valuations with a property. -/
def Restricts (s : Store) (p : Valuation → Prop) : EStateM.Result Failure Store Unit → Prop
  | .ok _ t => s.Narrows t ∧ ∀ a, t.Admits a ↔ s.Admits a ∧ p a
  | .error .conflict t => s.Narrows t ∧ ∀ a, s.Admits a → ¬ p a
  | .error .overflow _ => False

theorem admits_update_iff (hloss : s.Loss x d change) :
    (s.update x d change).Admits a ↔ s.Admits a ∧ a x ∈ d := by
  constructor
  · intro h
    refine ⟨(Narrows.single hloss).admits h, ?_⟩
    have := h x (by simpa using hloss.bound)
    rwa [set_update_self hloss.bound] at this
  · rintro ⟨h, hx⟩ y hy
    rw [numVariables_update] at hy
    by_cases hyx : y = x
    · subst hyx
      rwa [set_update_self hloss.bound]
    · rw [set_update_ne hyx]
      exact h y hy

/-- Narrowing a variable restricts the valuations by the value of that variable. -/
theorem Narrowed.restricts {q : Int → Prop} {r : EStateM.Result Failure Store Unit}
    (h : s.Narrowed x q r) (hx : x < s.numVariables) : s.Restricts (fun a => q (a x)) r := by
  cases h with
  | same hq => exact ⟨.refl, fun a => ⟨fun ha => ⟨ha, hq _ (ha x hx)⟩, fun ha => ha.1⟩⟩
  | less d change hloss hd =>
      refine ⟨.single hloss, fun a => ?_⟩
      rw [admits_update_iff hloss, hd]
      exact ⟨fun ha => ⟨ha.1, ha.2.2⟩, fun ha => ⟨ha.1, ha.1 x hx, ha.2⟩⟩
  | conflict hq => exact ⟨.refl, fun a ha => hq _ (ha x hx)⟩

theorem Restricts.congr {p q : Valuation → Prop} {r : EStateM.Result Failure Store Unit}
    (h : s.Restricts p r) (hpq : ∀ a, s.Admits a → (p a ↔ q a)) : s.Restricts q r := by
  match r, h with
  | .ok _ t, h => exact ⟨h.1, fun a => (h.2 a).trans (and_congr_right (hpq a))⟩
  | .error .conflict t, h => exact ⟨h.1, fun a ha hq => h.2 a ha ((hpq a ha).mpr hq)⟩

/-- Two restrictions, one after the other. -/
theorem Restricts.seq {p q : Valuation → Prop} {first second : Narrowing Unit}
    (h1 : s.Restricts p (first s))
    (h2 : ∀ t, s.Narrows t → t.Restricts q (second t)) :
    s.Restricts (fun a => p a ∧ q a) ((do first; second) s) := by
  simp only [bind, EStateM.bind]
  split
  · next t heq =>
    rw [heq] at h1
    obtain ⟨hst, hp⟩ := h1
    have h2 := h2 t hst
    match hr : second t, h2 with
    | .ok _ u, h2 =>
      refine ⟨hst.trans h2.1, fun a => ?_⟩
      rw [h2.2, hp, and_assoc]
    | .error .conflict u, h2 =>
      exact ⟨hst.trans h2.1, fun a ha hpq => h2.2 a ((hp a).mpr ⟨ha, hpq.1⟩) hpq.2⟩
  · next f t heq =>
    rw [heq] at h1
    match f, h1 with
    | .conflict, h1 => exact ⟨h1.1, fun a ha hpq => h1.2 a ha hpq.1⟩

/-- Keeping large values keeps the valuations under which the view is large enough. -/
theorem restricts_atLeast (hs : s.Proper) (hv : v.Created s) (bound : Int) :
    s.Restricts (fun a => bound ≤ v.eval a) (v.atLeast bound s) := by
  match v, hv with
  | .constant c, hv =>
    simp only [View.atLeast, View.eval_constant]
    split
    · next h => exact ⟨.refl, fun a => by simp [h]⟩
    · next h => exact ⟨.refl, fun a _ => h⟩
  | .affine x false offset, hv =>
    refine ((narrowed_tightenLower hs (hv x rfl) _).restricts (hv x rfl)).congr fun a ha => ?_
    exact View.unmap_le_iff (ha.fits hs (hv x rfl))
  | .affine x true offset, hv =>
    refine ((narrowed_tightenUpper hs (hv x rfl) _).restricts (hv x rfl)).congr fun a ha => ?_
    exact View.le_unmap_negated_iff (ha.fits hs (hv x rfl))

/-- Keeping small values keeps the valuations under which the view is small enough. -/
theorem restricts_atMost (hs : s.Proper) (hv : v.Created s) (bound : Int) :
    s.Restricts (fun a => v.eval a ≤ bound) (v.atMost bound s) := by
  match v, hv with
  | .constant c, hv =>
    simp only [View.atMost, View.eval_constant]
    split
    · next h => exact ⟨.refl, fun a => by simp [h]⟩
    · next h => exact ⟨.refl, fun a _ => h⟩
  | .affine x false offset, hv =>
    refine ((narrowed_tightenUpper hs (hv x rfl) _).restricts (hv x rfl)).congr fun a ha => ?_
    exact View.le_unmap_iff (ha.fits hs (hv x rfl))
  | .affine x true offset, hv =>
    refine ((narrowed_tightenLower hs (hv x rfl) _).restricts (hv x rfl)).congr fun a ha => ?_
    exact View.unmap_negated_le_iff (ha.fits hs (hv x rfl))

/-- Removing a value keeps the valuations that give the view another one. -/
theorem restricts_remove (hs : s.Proper) (hv : v.Created s) (value : Int) :
    s.Restricts (fun a => v.eval a ≠ value) (v.remove value s) := by
  cases v with
  | constant c =>
      simp only [View.remove, View.eval_constant]
      split
      · next h => exact ⟨.refl, fun a _ => by simp [h]⟩
      · next h => exact ⟨.refl, fun a => by simp [h]⟩
  | affine x negated offset =>
      refine ((narrowed_removeValue hs (hv x rfl) _).restricts (hv x rfl)).congr fun a ha => ?_
      exact not_congr (eq_comm.trans (View.unmap_eq_iff (ha.fits hs (hv x rfl))))

/-- Fixing a view keeps the valuations that give it the value. -/
theorem restricts_fix (hs : s.Proper) (hv : v.Created s) (value : Int) :
    s.Restricts (fun a => v.eval a = value) (v.fix value s) := by
  have hmost : ∀ t, s.Narrows t → t.Restricts (fun a => v.eval a ≤ value) (v.atMost value t) :=
    fun t hst => restricts_atMost (hst.proper hs) (hv.mono hst.numVariables_eq.ge) value
  refine ((restricts_atLeast hs hv value).seq hmost).congr fun a _ => ?_
  omega

end Store

end FiniteDomain.Engine
