import FiniteDomain.Expr.Evaluation
import Mathlib.Algebra.Order.Ring.Int
import Mathlib.Data.List.Forall2

/-!
# When an expression has a value

Evaluation stops at the first part without a value. Seen from its result it is a relation:
an expression has a value if the parts that are looked at have values, and the operation has
one on these. So more values of variables never change a value that is there already.
-/

namespace FiniteDomain

section Results

variable {ε α β : Type}

theorem bind_eq_ok_iff {x : Except ε α} {f : α → Except ε β} {b : β} :
    x >>= f = .ok b ↔ ∃ a, x = .ok a ∧ f a = .ok b := by
  cases x with
  | ok a => simp [bind, Except.bind]
  | error e => simp [bind, Except.bind]

theorem mapM_eq_ok_iff {f : α → Except ε β} {as : List α} {bs : List β} :
    as.mapM f = .ok bs ↔ List.Forall₂ (fun a b => f a = .ok b) as bs := by
  induction as generalizing bs with
  | nil => simp [pure, Except.pure, eq_comm]
  | cons a as ih =>
      rw [List.mapM_cons, bind_eq_ok_iff, List.forall₂_cons_left_iff]
      simp only [bind_eq_ok_iff, ih, pure, Except.pure, Except.ok.injEq]
      constructor
      · rintro ⟨b, hb, bs', hbs, rfl⟩
        exact ⟨b, bs', hb, hbs, rfl⟩
      · rintro ⟨b, bs', hb, hbs, rfl⟩
        exact ⟨b, hb, bs', hbs, rfl⟩

theorem mapM_eq_some_iff {f : α → Option β} {as : List α} {bs : List β} :
    as.mapM f = some bs ↔ List.Forall₂ (fun a b => f a = some b) as bs := by
  induction as generalizing bs with
  | nil => simp [eq_comm]
  | cons a as ih =>
      simp only [List.mapM_cons, List.forall₂_cons_left_iff, Option.bind_eq_bind,
        Option.bind_eq_some_iff, ih, Option.pure_def, Option.some.injEq]
      constructor
      · rintro ⟨b, hb, bs', hbs, rfl⟩
        exact ⟨b, bs', hb, hbs, rfl⟩
      · rintro ⟨b, bs', hb, hbs, rfl⟩
        exact ⟨b, hb, bs', hbs, rfl⟩

theorem mapM_eq_some_map {f : α → Option β} {g : α → β} {as : List α}
    (h : ∀ a ∈ as, f a = some (g a)) : as.mapM f = some (as.map g) :=
  mapM_eq_some_iff.mpr (List.forall₂_map_right_iff.mpr (List.forall₂_same.mpr h))

/-- Relations between lists can be weakened at the members of the first one. -/
theorem forall₂_imp_of_mem {R S : α → β → Prop} {as : List α} {bs : List β}
    (h : List.Forall₂ R as bs) (himp : ∀ a ∈ as, ∀ b, R a b → S a b) : List.Forall₂ S as bs := by
  have hboth := (List.forall₂_and_left as bs).mpr ⟨himp, h⟩
  exact hboth.imp fun a b hab => hab.1 b hab.2

theorem exists_related {R : α → β → Prop} {as : List α} {bs : List β} (h : List.Forall₂ R as bs)
    {a : α} (ha : a ∈ as) : ∃ b ∈ bs, R a b := by
  induction h with
  | nil => cases ha
  | cons hab _ ih =>
      rcases List.mem_cons.mp ha with rfl | ha
      · exact ⟨_, List.mem_cons_self, hab⟩
      · obtain ⟨b, hb, hab⟩ := ih ha
        exact ⟨b, List.mem_cons_of_mem _ hb, hab⟩

theorem exists_related' {R : α → β → Prop} {as : List α} {bs : List β}
    (h : List.Forall₂ R as bs) {b : β} (hb : b ∈ bs) : ∃ a ∈ as, R a b :=
  exists_related h.flip hb

theorem orUndefined_eq_ok_iff {o : Option α} {a : α} : orUndefined o = .ok a ↔ o = some a := by
  cases o <;> simp [orUndefined]

theorem checked_eq_ok_iff {v r : Int} : checked v = .ok r ↔ word64.Fits v ∧ r = v := by
  rw [checked, orUndefined_eq_ok_iff, Word.fit?_eq_some_iff]

end Results

/-- A total of integers that stays inside 64 bits on the way. -/
def addAll (total : Int) : List Int → Option Int
  | [] => some total
  | v :: vs => (word64.fit? (total + v)).bind fun total => addAll total vs

theorem addAll_cons_eq_some_iff {total v r : Int} {vs : List Int} :
    addAll total (v :: vs) = some r ↔ word64.Fits (total + v) ∧ addAll (total + v) vs = some r := by
  simp only [addAll, Option.bind_eq_some_iff, Word.fit?_eq_some_iff]
  constructor
  · rintro ⟨t, ⟨hfits, rfl⟩, h⟩
    exact ⟨hfits, h⟩
  · rintro ⟨hfits, h⟩
    exact ⟨_, ⟨hfits, rfl⟩, h⟩

/-- What does not overflow is the sum. -/
theorem eq_sum_of_addAll {total r : Int} {vs : List Int} (h : addAll total vs = some r) :
    r = total + vs.sum := by
  induction vs generalizing total with
  | nil =>
      obtain rfl := Option.some.inj h
      simp
  | cons v vs ih =>
      rw [ih (addAll_cons_eq_some_iff.mp h).2, List.sum_cons, Int.add_assoc]

namespace Expr

variable {σ σ' : Assignment} {e a b : Expr} {v : Int}

/-- A property of expressions holds if it carries over from the parts to the whole. -/
theorem induction {P : Expr → Prop} (atom : ∀ a, P (.atom a))
    (sum : ∀ terms, (∀ e ∈ terms, P e) → P (.sum terms))
    (weightedSum : ∀ weights terms, (∀ e ∈ terms, P e) → P (.weightedSum weights terms))
    (binary : ∀ op a b, P a → P b → P (.binary op a b)) (unary : ∀ op a, P a → P (.unary op a))
    (element : ∀ array index, (∀ e ∈ array, P e) → P index → P (.element array index))
    (e : Expr) : P e :=
  @Expr.rec P (fun es => ∀ e ∈ es, P e) atom sum weightedSum binary unary element (by simp)
    (fun _ _ he hes => List.forall_mem_cons.mpr ⟨he, hes⟩) e

/-- The expressions have these values. -/
def Values (σ : Assignment) : List Expr → List Int → Prop :=
  List.Forall₂ fun e v => e.evaluate σ = .ok v

theorem Values.unique {es : List Expr} {vs ws : List Int} (hvs : Values σ es vs)
    (hws : Values σ es ws) : vs = ws := by
  induction hvs generalizing ws with
  | nil =>
      cases hws
      rfl
  | cons hv _ ih =>
      cases hws with
      | cons hw hws => rw [Except.ok.inj (hv.symm.trans hw), ih hws]

theorem evaluate_binary_iff {op : BinaryOp} :
    (binary op a b).evaluate σ = .ok v ↔
      ∃ x y, a.evaluate σ = .ok x ∧ b.evaluate σ = .ok y ∧ op.apply x y = some v := by
  cases op with
  | pow =>
      simp only [evaluate, bind_eq_ok_iff, BinaryOp.apply, Operator.apply]
      constructor
      · rintro ⟨y, hy, h⟩
        split at h
        · next hy' =>
          obtain ⟨x, hx, h⟩ := bind_eq_ok_iff.mp h
          exact ⟨x, y, hx, hy, by rw [if_pos hy', orUndefined_eq_ok_iff.mp h]⟩
        · cases h
      · rintro ⟨x, y, hx, hy, h⟩
        split at h
        · next hy' =>
          refine ⟨y, hy, ?_⟩
          rw [if_pos hy', bind_eq_ok_iff]
          exact ⟨x, hx, orUndefined_eq_ok_iff.mpr h⟩
        · cases h
  | _ =>
      simp only [evaluate, bind_eq_ok_iff, orUndefined_eq_ok_iff]
      constructor
      · rintro ⟨x, hx, y, hy, h⟩
        exact ⟨x, y, hx, hy, h⟩
      · rintro ⟨x, y, hx, hy, h⟩
        exact ⟨x, hx, y, hy, h⟩

theorem evaluate_unary_iff {op : UnaryOp} :
    (unary op a).evaluate σ = .ok v ↔ ∃ x, a.evaluate σ = .ok x ∧ op.apply x = some v := by
  simp only [evaluate, bind_eq_ok_iff, orUndefined_eq_ok_iff]

theorem evaluateAt_iff {array : List Expr} {i : Nat} :
    evaluateAt σ array i = .ok v ↔ ∃ e, array[i]? = some e ∧ e.evaluate σ = .ok v := by
  induction array generalizing i with
  | nil => simp [evaluateAt]
  | cons e es ih =>
      cases i with
      | zero => simp [evaluateAt]
      | succ i => simp [evaluateAt, ih]

/-- An element has the value of the item at the position that the index has as its value. -/
theorem evaluate_element_iff {array : List Expr} {index : Expr} :
    (element array index).evaluate σ = .ok v ↔
      ∃ (i : Nat) (e : Expr), index.evaluate σ = .ok (i : Int) ∧ array[i]? = some e ∧
        e.evaluate σ = .ok v := by
  simp only [evaluate, bind_eq_ok_iff]
  constructor
  · rintro ⟨i, hi, h⟩
    split at h
    · cases h
    · next hneg =>
      obtain ⟨e, he, hv⟩ := evaluateAt_iff.mp h
      refine ⟨i.toNat, e, ?_, he, hv⟩
      rw [hi, Int.toNat_of_nonneg (Int.not_lt.mp hneg)]
  · rintro ⟨i, e, hi, he, hv⟩
    refine ⟨i, hi, ?_⟩
    rw [if_neg (by omega)]
    exact evaluateAt_iff.mpr ⟨e, he, hv⟩

theorem evaluateSum_iff {total : Int} {terms : List Expr} :
    evaluateSum σ total terms = .ok v ↔ ∃ vs, Values σ terms vs ∧ addAll total vs = some v := by
  induction terms generalizing total with
  | nil => simp [evaluateSum, Values, addAll]
  | cons e es ih =>
      simp only [evaluateSum, bind_eq_ok_iff, checked_eq_ok_iff, ih, Values,
        List.forall₂_cons_left_iff]
      constructor
      · rintro ⟨x, hx, t, ⟨hfits, rfl⟩, vs, hvs, h⟩
        exact ⟨x :: vs, ⟨x, vs, hx, hvs, rfl⟩, addAll_cons_eq_some_iff.mpr ⟨hfits, h⟩⟩
      · rintro ⟨_, ⟨x, vs, hx, hvs, rfl⟩, h⟩
        obtain ⟨hfits, h⟩ := addAll_cons_eq_some_iff.mp h
        exact ⟨x, hx, _, ⟨hfits, rfl⟩, vs, hvs, h⟩

/-- Only the terms that have a weight are looked at. -/
theorem evaluateWeighted_iff {total : Int} {weights : List Int} {terms : List Expr} :
    evaluateWeighted σ total weights terms = .ok v ↔
      ∃ vs, Values σ (terms.take weights.length) vs ∧
        (∀ p ∈ List.zipWith (· * ·) weights vs, word64.Fits p) ∧
        addAll total (List.zipWith (· * ·) weights vs) = some v := by
  induction terms generalizing total weights with
  | nil => simp [evaluateWeighted, Values, addAll]
  | cons e es ih =>
      cases weights with
      | nil => simp [evaluateWeighted, Values, addAll]
      | cons w ws =>
          simp only [evaluateWeighted, bind_eq_ok_iff, checked_eq_ok_iff, ih, Values,
            List.length_cons, List.take_succ_cons, List.forall₂_cons_left_iff]
          constructor
          · rintro ⟨x, hx, _, ⟨hproduct, rfl⟩, t, ⟨hfits, rfl⟩, vs, hvs, hproducts, h⟩
            refine ⟨x :: vs, ⟨x, vs, hx, hvs, rfl⟩, ?_, ?_⟩
            · exact List.forall_mem_cons.mpr ⟨hproduct, hproducts⟩
            · exact addAll_cons_eq_some_iff.mpr ⟨hfits, h⟩
          · rintro ⟨_, ⟨x, vs, hx, hvs, rfl⟩, hproducts, h⟩
            obtain ⟨hproduct, hproducts⟩ := List.forall_mem_cons.mp hproducts
            obtain ⟨hfits, h⟩ := addAll_cons_eq_some_iff.mp h
            exact ⟨x, hx, _, ⟨hproduct, rfl⟩, _, ⟨hfits, rfl⟩, vs, hvs, hproducts, h⟩

theorem evaluateAll_iff {es : List Expr} {vs : List Int} :
    evaluateAll σ es = .ok vs ↔ Values σ es vs := mapM_eq_ok_iff

/-! ## Parts -/

mutual

/-- The expressions inside an expression, at any depth. -/
def parts : Expr → List Expr
  | atom _ => []
  | sum terms => partsIn terms
  | weightedSum _ terms => partsIn terms
  | binary _ a b => a :: a.parts ++ b :: b.parts
  | unary _ a => a :: a.parts
  | element array index => partsIn array ++ index :: index.parts

/-- The given expressions and those inside them. -/
def partsIn : List Expr → List Expr
  | [] => []
  | e :: es => e :: e.parts ++ partsIn es

end

theorem mem_partsIn {o : Expr} {es : List Expr} :
    o ∈ partsIn es ↔ ∃ e ∈ es, o = e ∨ o ∈ e.parts := by
  induction es with
  | nil => simp [partsIn]
  | cons e es ih => simp [partsIn, ih, or_assoc]

/-! ## Taking over values -/

/-- Whatever value the first expression has, the second one has it under another assignment. -/
def Traces (σ σ' : Assignment) (e e' : Expr) : Prop :=
  ∀ v, e.evaluate σ = .ok v → e'.evaluate σ' = .ok v

theorem Values.traces {es es' : List Expr} {vs : List Int} (hvs : Values σ es vs)
    (h : List.Forall₂ (Traces σ σ') es es') : Values σ' es' vs := by
  induction h generalizing vs with
  | nil =>
      cases hvs
      exact .nil
  | cons htrace _ ih =>
      cases hvs with
      | cons hv hvs => exact .cons (htrace _ hv) (ih hvs)

theorem Traces.trans {σ'' : Assignment} {e' e'' : Expr} (h : Traces σ σ' e e')
    (h' : Traces σ' σ'' e' e'') : Traces σ σ'' e e'' := fun v hv => h' v (h v hv)

theorem Traces.binary {op : BinaryOp} {a a' b b' : Expr} (ha : Traces σ σ' a a')
    (hb : Traces σ σ' b b') : Traces σ σ' (.binary op a b) (.binary op a' b') := by
  intro v h
  obtain ⟨x, y, hx, hy, hv⟩ := evaluate_binary_iff.mp h
  exact evaluate_binary_iff.mpr ⟨x, y, ha x hx, hb y hy, hv⟩

theorem Traces.unary {op : UnaryOp} {a a' : Expr} (ha : Traces σ σ' a a') :
    Traces σ σ' (.unary op a) (.unary op a') := by
  intro v h
  obtain ⟨x, hx, hv⟩ := evaluate_unary_iff.mp h
  exact evaluate_unary_iff.mpr ⟨x, ha x hx, hv⟩

theorem Traces.sum {es es' : List Expr} (h : List.Forall₂ (Traces σ σ') es es') :
    Traces σ σ' (.sum es) (.sum es') := by
  intro v hv
  obtain ⟨vs, hvs, hadd⟩ := evaluateSum_iff.mp hv
  exact evaluateSum_iff.mpr ⟨vs, hvs.traces h, hadd⟩

theorem Traces.weightedSum {weights : List Int} {es es' : List Expr}
    (h : List.Forall₂ (Traces σ σ') es es') :
    Traces σ σ' (.weightedSum weights es) (.weightedSum weights es') := by
  intro v hv
  obtain ⟨vs, hvs, hproducts, hadd⟩ := evaluateWeighted_iff.mp hv
  exact evaluateWeighted_iff.mpr ⟨vs, hvs.traces (List.forall₂_take _ h), hproducts, hadd⟩

theorem Traces.element {array array' : List Expr} {index index' : Expr}
    (harray : List.Forall₂ (Traces σ σ') array array') (hindex : Traces σ σ' index index') :
    Traces σ σ' (.element array index) (.element array' index') := by
  intro v hv
  obtain ⟨i, e, hi, he, hv⟩ := evaluate_element_iff.mp hv
  obtain ⟨hlt, rfl⟩ := List.getElem?_eq_some_iff.mp he
  have hlt' : i < array'.length := harray.length_eq ▸ hlt
  have htrace := harray.get hlt hlt'
  exact evaluate_element_iff.mpr ⟨i, array'[i], hindex _ hi, List.getElem?_eq_getElem hlt',
    htrace v hv⟩

theorem occurrencesIn_eq (es : List Expr) : occurrencesIn es = es.flatMap occurrences := by
  induction es with
  | nil => rfl
  | cons e es ih => rw [occurrencesIn, ih, List.flatMap_cons]

theorem mem_occurrencesIn {x : Variable} {es : List Expr} :
    x ∈ occurrencesIn es ↔ ∃ e ∈ es, x ∈ e.occurrences := by
  rw [occurrencesIn_eq, List.mem_flatMap]

/-- A value is kept when the variables that occur keep theirs. -/
theorem traces_self (h : ∀ x ∈ e.occurrences, ∀ v, σ x.id = some v → σ' x.id = some v) :
    Traces σ σ' e e := by
  induction e using Expr.induction with
  | atom a =>
      intro v hv
      cases a with
      | int x =>
          rw [evaluate, Atom.evaluate, orUndefined_eq_ok_iff] at hv ⊢
          exact h (.int x) (by simp [occurrences, Atom.vars]) v hv
      | literal l =>
          simp only [evaluate, Atom.evaluate, Literal.evaluate, bind_eq_ok_iff,
            orUndefined_eq_ok_iff] at hv ⊢
          obtain ⟨x, hx, hv⟩ := hv
          exact ⟨x, h (.bool l.var) (by simp [occurrences, Atom.vars]) x hx, hv⟩
      | constant value => exact hv
      | bool value => exact hv
  | sum terms ih =>
      refine Traces.sum (List.forall₂_same.mpr fun e he => ih e he fun x hx => h x ?_)
      exact mem_occurrencesIn.mpr ⟨e, he, hx⟩
  | weightedSum weights terms ih =>
      refine Traces.weightedSum (List.forall₂_same.mpr fun e he => ih e he fun x hx => h x ?_)
      exact mem_occurrencesIn.mpr ⟨e, he, hx⟩
  | binary op a b iha ihb =>
      apply Traces.binary
      · exact iha fun x hx => h x (List.mem_append_left _ hx)
      · exact ihb fun x hx => h x (List.mem_append_right _ hx)
  | unary op a ih => exact Traces.unary (ih h)
  | element array index iharray ihindex =>
      apply Traces.element
      · refine List.forall₂_same.mpr fun e he => iharray e he fun x hx => h x ?_
        exact List.mem_append_left _ (mem_occurrencesIn.mpr ⟨e, he, hx⟩)
      · exact ihindex fun x hx => h x (List.mem_append_right _ hx)

end Expr

end FiniteDomain
