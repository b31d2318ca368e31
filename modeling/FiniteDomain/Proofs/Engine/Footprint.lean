import FiniteDomain.Proofs.Engine.Propagators

/-!
# The footprint of a rule

A rule is put together from a few kinds of steps. It reads the bounds and the values of its views,
narrows the variables below them, goes on with what it has read, and may fail. An action put
together like this is confined to the variables of these views, whatever it does with the numbers
that it reads. What follows from that alone is proved by induction over the steps, once for all rules.
-/

namespace FiniteDomain.Engine

open Narrowing

/-- All that the view reads is among the given variables. -/
def View.Among (among : VarIndex → Prop) (v : View) : Prop := ∀ x, v.var? = some x → among x

/-- The stores have the same value sets for the given variables. -/
def Store.Agree (among : VarIndex → Prop) (s t : Store) : Prop := ∀ x, among x → t.set x = s.set x

/-- The action reads and narrows the given variables only. It may overflow if it is risky. -/
inductive Narrowing.Confined (among : VarIndex → Prop) (risky : Prop) :
    ∀ {α : Type}, Narrowing α → Prop
  | pure {α : Type} (a : α) : Confined among risky (pure a)
  | conflict {α : Type} : Confined among risky (throw .conflict : Narrowing α)
  | overflow {α : Type} : risky → Confined among risky (throw .overflow : Narrowing α)
  | ask {α β : Type} {f : Store → α} {next : α → Narrowing β} :
      (∀ s t, Store.Agree among s t → f t = f s) → (∀ s, Confined among risky (next (f s))) →
      Confined among risky (do let a ← Narrowing.ask f; next a)
  | bind {α β : Type} {first : Narrowing α} {next : α → Narrowing β} :
      Confined among risky first → (∀ a, Confined among risky (next a)) →
      Confined among risky (do let a ← first; next a)
  | tightenLower {x : VarIndex} (bound : Int) : among x →
      Confined among risky (Store.tightenLower x bound)
  | tightenUpper {x : VarIndex} (bound : Int) : among x →
      Confined among risky (Store.tightenUpper x bound)
  | removeValue {x : VarIndex} (value : Int) : among x →
      Confined among risky (Store.removeValue x value)

variable {among : VarIndex → Prop} {risky : Prop} {s t : Store} {v w : View}
  {views literals : List View}

/-! ## Reading -/

namespace Store.Agree

variable (h : Agree among s t) (hv : v.Among among)
include h hv

theorem lowerBound_eq : t.lowerBound v = s.lowerBound v := by
  cases v with
  | constant c => rfl
  | affine x negated offset => simp only [lowerBound, h x (hv x rfl)]

theorem upperBound_eq : t.upperBound v = s.upperBound v := by
  cases v with
  | constant c => rfl
  | affine x negated offset => simp only [upperBound, h x (hv x rfl)]

theorem contains_eq (value : Int) : t.contains v value = s.contains v value := by
  cases v with
  | constant c => rfl
  | affine x negated offset => simp only [contains, h x (hv x rfl)]

theorem isFixed_eq : t.isFixed v = s.isFixed v := by
  cases v with
  | constant c => rfl
  | affine x negated offset => simp only [isFixed, h x (hv x rfl)]

theorem value?_eq : t.value? v = s.value? v := by
  simp only [value?, h.isFixed_eq hv, h.lowerBound_eq hv]

theorem isTrue_eq : t.isTrue v = s.isTrue v := by simp only [isTrue, h.contains_eq hv]

theorem isFalse_eq : t.isFalse v = s.isFalse v := by simp only [isFalse, h.value?_eq hv]

end Store.Agree

/-! ## Steps -/

namespace Narrowing

variable {α β : Type}

theorem Confined.forM {γ : Type} {elements : List γ} {visit : γ → Narrowing Unit}
    (h : ∀ c ∈ elements, Confined among risky (visit c)) :
    Confined among risky (elements.forM visit) := by
  induction elements with
  | nil => exact .pure ()
  | cons c cs ih =>
      exact .bind (h c (by simp)) fun _ => ih fun d hd => h d (List.mem_cons_of_mem c hd)

section

variable (hv : v.Among among)
include hv

theorem confined_atLeast (bound : Int) : Confined among risky (v.atLeast bound) := by
  cases v with
  | constant c =>
      rw [View.atLeast]
      split
      · exact .pure ()
      · exact .conflict
  | affine x negated offset =>
      rw [View.atLeast]
      split
      · exact .tightenUpper _ (hv x rfl)
      · exact .tightenLower _ (hv x rfl)

theorem confined_atMost (bound : Int) : Confined among risky (v.atMost bound) := by
  cases v with
  | constant c =>
      rw [View.atMost]
      split
      · exact .pure ()
      · exact .conflict
  | affine x negated offset =>
      rw [View.atMost]
      split
      · exact .tightenLower _ (hv x rfl)
      · exact .tightenUpper _ (hv x rfl)

theorem confined_remove (value : Int) : Confined among risky (v.remove value) := by
  cases v with
  | constant c =>
      rw [View.remove]
      split
      · exact .conflict
      · exact .pure ()
  | affine x negated offset => exact .removeValue _ (hv x rfl)

theorem confined_fix (value : Int) : Confined among risky (v.fix value) :=
  .bind (confined_atLeast hv value) fun _ => confined_atMost hv value

theorem Confined.lowerBound {next : Int → Narrowing β}
    (h : ∀ bound, Confined among risky (next bound)) :
    Confined among risky (do let bound ← Narrowing.ask (·.lowerBound v); next bound) :=
  .ask (fun _ _ hst => hst.lowerBound_eq hv) fun _ => h _

theorem Confined.upperBound {next : Int → Narrowing β}
    (h : ∀ bound, Confined among risky (next bound)) :
    Confined among risky (do let bound ← Narrowing.ask (·.upperBound v); next bound) :=
  .ask (fun _ _ hst => hst.upperBound_eq hv) fun _ => h _

theorem Confined.value? {next : Option Int → Narrowing β}
    (h : ∀ value, Confined among risky (next value)) :
    Confined among risky (do let value ← Narrowing.ask (·.value? v); next value) :=
  .ask (fun _ _ hst => hst.value?_eq hv) fun _ => h _

theorem confined_whenFixed {action : Int → Narrowing Unit}
    (h : ∀ w, Confined among risky (action w)) : Confined among risky (whenFixed v action) := by
  refine .value? hv fun value => ?_
  cases value with
  | none => exact .pure ()
  | some w => exact h w

end

end Narrowing

/-! ## Rules -/

theorem any_congr {f g : View → Bool} (h : ∀ v ∈ literals, f v = g v) :
    literals.any f = literals.any g := by
  rw [Bool.eq_iff_iff, List.any_eq_true, List.any_eq_true]
  exact exists_congr fun v => and_congr_right fun hv => by rw [h v hv]

section

variable (hl : ∀ v ∈ literals, v.Among among)
include hl

theorem Conjunction.confined : Confined among risky (Conjunction.propagate literals) :=
  .forM fun v hv => confined_remove (hl v hv) 0

theorem Disjunction.confined : Confined among risky (Disjunction.propagate literals) := by
  refine .ask (fun s t h => any_congr fun v hv => h.isTrue_eq (hl v hv)) fun _ => ?_
  split
  · exact .pure ()
  refine .ask (fun s t h => List.filter_congr fun v hv => by rw [h.isFalse_eq (hl v hv)]) fun s => ?_
  have hrest : ∀ v ∈ literals.filter (!s.isFalse ·), v.Among among :=
    fun v hv => hl v (List.mem_of_mem_filter hv)
  generalize literals.filter (!s.isFalse ·) = rest at hrest ⊢
  match rest with
  | [] => exact .conflict
  | [last] => exact confined_remove (hrest last (by simp)) 0
  | _ :: _ :: _ => exact .pure ()

theorem Parity.confined : Confined among risky (Parity.propagate literals) := by
  refine .ask (fun s t h => ?_) fun s => ?_
  · rw [List.countP_congr fun v hv => by rw [h.isTrue_eq (hl v hv)]]
  generalize (literals.countP s.isTrue % 2 == 1) = odd
  refine .ask (fun s t h => ?_) fun s => ?_
  · exact List.filter_congr fun v hv => by rw [h.isTrue_eq (hl v hv), h.isFalse_eq (hl v hv)]
  have hrest : ∀ v ∈ s.undecided literals, v.Among among :=
    fun v hv => hl v (List.mem_of_mem_filter hv)
  generalize s.undecided literals = rest at hrest ⊢
  match rest with
  | [] =>
    cases odd
    · exact .conflict
    · exact .pure ()
  | [last] =>
    have hlast := hrest last (by simp)
    cases odd
    · exact confined_remove hlast 0
    · exact confined_fix hlast 0
  | _ :: _ :: _ => exact .pure ()

end

theorem AllDifferent.confined_propagateFrom {before : List View}
    (hbefore : ∀ v ∈ before, v.Among among) (hviews : ∀ v ∈ views, v.Among among) :
    Confined among risky (AllDifferent.propagateFrom before views) := by
  induction views generalizing before with
  | nil => exact .pure ()
  | cons v after ih =>
      simp only [List.forall_mem_cons] at hviews
      rw [propagateFrom_cons]
      refine .bind (confined_whenFixed hviews.1 fun value => ?_) fun _ => ih ?_ hviews.2
      · exact .forM fun w hw =>
          confined_remove ((List.mem_append.mp hw).elim (hbefore w) (hviews.2 w)) value
      · simpa [or_imp, forall_and] using ⟨hbefore, hviews.1⟩

section

variable (hv : v.Among among) (hw : w.Among among)
include hv hw

theorem Equal.confined : Confined among risky (Equal.propagate v w) := by
  rw [Equal.propagate_eq]
  refine .lowerBound hw fun _ => .bind (confined_atLeast hv _) fun _ => ?_
  refine .upperBound hw fun _ => .bind (confined_atMost hv _) fun _ => ?_
  refine .lowerBound hv fun _ => .bind (confined_atLeast hw _) fun _ => ?_
  refine .upperBound hv fun _ => .bind (confined_atMost hw _) fun _ => ?_
  refine .bind (confined_whenFixed hv (confined_fix hw)) fun _ => ?_
  exact confined_whenFixed hw (confined_fix hv)

theorem NotEqual.confined : Confined among risky (NotEqual.propagate v w) := by
  rw [NotEqual.propagate_eq]
  refine .bind (confined_whenFixed hv (confined_remove hw)) fun _ => ?_
  exact confined_whenFixed hw (confined_remove hv)

theorem Less.confined (orEqual : Bool) : Confined among risky (Less.propagate v w orEqual) := by
  refine .upperBound hw fun _ => .bind (confined_atMost hv _) fun _ => ?_
  exact .lowerBound hv fun _ => confined_atLeast hw _

theorem Absolute.confined : Confined among risky (Absolute.propagate v w) := by
  have hboundAbsolute : ∀ lower upper, Confined among risky (boundAbsolute w lower upper) := by
    intro lower upper
    rw [boundAbsolute]
    split
    · exact confined_atLeast hw _
    · split
      · exact confined_atLeast hw _
      · exact .pure ()
  have hboundSigned : ∀ lower upper least,
      Confined among risky (boundSigned v lower upper least) := by
    intro lower upper least
    rw [boundSigned]
    split
    · exact confined_atMost hv _
    · split
      · exact confined_atLeast hv _
      · exact .pure ()
  rw [propagate_eq]
  refine .lowerBound hv fun _ => .upperBound hv fun _ => ?_
  refine .bind (confined_atLeast hw _) fun _ => .bind (confined_atMost hw _) fun _ => ?_
  refine .bind (hboundAbsolute _ _) fun _ => ?_
  refine .lowerBound hw fun _ => .upperBound hw fun _ => ?_
  refine .bind (confined_atLeast hv _) fun _ => .bind (confined_atMost hv _) fun _ => ?_
  refine .bind (hboundSigned _ _ _) fun _ => ?_
  exact confined_whenFixed hv fun _ => confined_fix hw _

theorem Operation.confined {result : View} (hr : result.Among among) (operator : Operator) :
    Confined among risky (Operation.propagate operator v w result) := by
  have hbound : ∀ vLower vUpper wLower wUpper,
      Confined among risky (bound operator v w result vLower vUpper wLower wUpper) := by
    intro vLower vUpper wLower wUpper
    cases operator with
    | sum =>
        refine .bind (confined_atLeast hr _) fun _ => .bind (confined_atMost hr _) fun _ => ?_
        refine .lowerBound hr fun _ => .upperBound hr fun _ => ?_
        refine .bind (confined_atLeast hv _) fun _ => .bind (confined_atMost hv _) fun _ => ?_
        exact .bind (confined_atLeast hw _) fun _ => confined_atMost hw _
    | times => exact .bind (confined_atLeast hr _) fun _ => confined_atMost hr _
    | div => exact .pure ()
    | mod => exact .pure ()
    | pow => exact .pure ()
  have hcompute : ∀ x y, Confined among risky (compute operator result x y) := by
    intro x y
    rw [compute]
    split
    · exact confined_fix hr _
    · exact .conflict
  rw [propagate_eq]
  refine .lowerBound hv fun _ => .upperBound hv fun _ => ?_
  refine .lowerBound hw fun _ => .upperBound hw fun _ => ?_
  refine .bind (hbound _ _ _ _) fun _ => .value? hv fun x => .value? hw fun y => ?_
  cases x with
  | none => exact .pure ()
  | some x =>
      cases y with
      | none => exact .pure ()
      | some y => exact hcompute x y

end

namespace Linear

variable {terms : List Term}

theorem map_termBounds_eq (h : Store.Agree among s t) (hterms : ∀ u ∈ terms, u.2.Among among) :
    terms.map (termBounds t) = terms.map (termBounds s) := by
  refine List.map_congr_left fun u hu => ?_
  simp only [termBounds, h.lowerBound_eq (hterms u hu), h.upperBound_eq (hterms u hu)]

theorem confined_exact (hrisky : risky) (x : Int) : Confined among risky (exact x) := by
  rw [exact]
  split
  · exact .pure x
  · exact .overflow hrisky

theorem confined_narrowTerm {term : Term} (hrisky : risky) (hv : term.2.Among among)
    (rhs minSum maxSum : Int) (b : Int × Int) :
    Confined among risky (narrowTerm rhs minSum maxSum term b) := by
  refine .bind (confined_exact hrisky _) fun _ => .bind (confined_exact hrisky _) fun _ => ?_
  refine .bind (confined_exact hrisky _) fun _ => .bind (confined_exact hrisky _) fun _ => ?_
  split
  refine .bind (confined_exact hrisky _) fun _ => .bind (confined_atLeast hv _) fun _ => ?_
  exact .bind (confined_exact hrisky _) fun _ => confined_atMost hv _

theorem confined (hrisky : risky) (hterms : ∀ u ∈ terms, u.2.Among among) (rhs : Int) :
    Confined among risky (propagate terms rhs) := by
  refine .ask (fun s t h => map_termBounds_eq h hterms) fun s => ?_
  simp only
  split
  · exact .conflict
  · exact .forM fun u hu => confined_narrowTerm hrisky (hterms _ (List.of_mem_zip hu).1) _ _ _ _

end Linear

/-- A rule is confined to the variables of its views. Only a linear equality may overflow. -/
theorem Rule.confined {r : Rule} (hr : ∀ v ∈ r.views, v.Among among)
    (hrisky : ∀ terms rhs, r = .linear terms rhs → risky) : Confined among risky r.propagate := by
  cases r with
  | conjunction literals => exact Conjunction.confined hr
  | disjunction literals => exact Disjunction.confined hr
  | parity literals => exact Parity.confined hr
  | equal v w => exact Equal.confined (hr v (by simp [views])) (hr w (by simp [views]))
  | notEqual v w => exact NotEqual.confined (hr v (by simp [views])) (hr w (by simp [views]))
  | less v w orEqual =>
      exact Less.confined (hr v (by simp [views])) (hr w (by simp [views])) orEqual
  | linear terms rhs =>
      exact Linear.confined (hrisky terms rhs rfl) (fun u hu => hr u.2 (List.mem_map_of_mem hu)) rhs
  | allDifferent views => exact AllDifferent.confined_propagateFrom (by simp) hr
  | absolute v w => exact Absolute.confined (hr v (by simp [views])) (hr w (by simp [views]))
  | operation operator v w result =>
      exact Operation.confined (hr v (by simp [views])) (hr w (by simp [views]))
        (hr result (by simp [views])) operator

/-! ## Tests -/

section

variable (h : Store.Agree among s t)
include h

theorem Conjunction.isViolated_eq (hl : ∀ v ∈ literals, v.Among among) :
    isViolated literals t = isViolated literals s :=
  any_congr fun v hv => h.isFalse_eq (hl v hv)

theorem Disjunction.isViolated_eq (hl : ∀ v ∈ literals, v.Among among) :
    isViolated literals t = isViolated literals s := by
  rw [isViolated, isViolated, Bool.eq_iff_iff, List.all_eq_true, List.all_eq_true]
  exact forall₂_congr fun v hv => by rw [h.isFalse_eq (hl v hv)]

theorem NotEqual.isViolated_eq (hv : v.Among among) (hw : w.Among among) :
    isViolated v w t = isViolated v w s := by
  simp only [isViolated, h.value?_eq hv, h.value?_eq hw]

theorem Less.isViolated_eq (hv : v.Among among) (hw : w.Among among) (orEqual : Bool) :
    isViolated v w orEqual t = isViolated v w orEqual s := by
  simp only [isViolated, h.lowerBound_eq hv, h.upperBound_eq hw]

theorem AllDifferent.isViolated_eq (hviews : ∀ v ∈ views, v.Among among) :
    isViolated views t = isViolated views s := by
  rw [isViolated, isViolated, List.filterMap_congr fun v hv => h.value?_eq (hviews v hv)]

theorem Linear.isViolated_eq {terms : List Term} (hterms : ∀ u ∈ terms, u.2.Among among)
    (rhs : Int) : isViolated terms rhs t = isViolated terms rhs s := by
  rw [isViolated, isViolated, map_termBounds_eq h hterms]

end

end FiniteDomain.Engine
