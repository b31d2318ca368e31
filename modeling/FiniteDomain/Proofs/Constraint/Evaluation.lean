import FiniteDomain.Constraint.Evaluation
import FiniteDomain.Proofs.Expr.Evaluation

/-!
# When a constraint has a truth value

Like the value of an expression, the truth value of a constraint is determined by the values
of the parts that are looked at, and more values of variables do not change it.
-/

namespace FiniteDomain

variable {σ σ' : Assignment}

/-- The truth value of a constraint over expressions with the given values. -/
def Global.apply : Global → List Int → Bool
  | .allDifferent _, values => decide values.Nodup
  | .allEqual _, values => allSame values
  | .circuit _, values => isSingleCycle values fun _ => true
  | .subcircuit _, values => isSingleCycle values fun node => values.getD node 0 != node
  | .table _ rows, values => rows.any (· == values)
  | .parity _, values => isOdd (values.map (· != 0))

/-- The arguments are evaluated, and the constraint looks at nothing but their values. -/
theorem Global.evaluate_eq (g : Global) :
    g.evaluate σ = do return g.apply (← Expr.evaluateAll σ g.args) := by
  cases g with
  | parity literals =>
      have hvalues : literals.mapM (Literal.evaluate σ) =
          Expr.evaluateAll σ (literals.map .ofLiteral) := by
        rw [Expr.evaluateAll, List.mapM_map]
        rfl
      rw [evaluate, hvalues]
      rfl
  | _ => rfl

theorem Global.evaluate_iff {g : Global} {b : Bool} :
    g.evaluate σ = .ok b ↔ ∃ vs, Expr.Values σ g.args vs ∧ g.apply vs = b := by
  rw [evaluate_eq, bind_eq_ok_iff]
  simp only [Expr.evaluateAll_iff, pure, Except.pure, Except.ok.injEq]

namespace Constraint

variable {a c : Constraint} {lhs rhs : Expr} {b : Bool}

/-- A property of constraints holds if it carries over from the arguments of a connective and
from both sides of an implication. -/
theorem induction {P : Constraint → Prop} (literal : ∀ l, P (.literal l))
    (constant : ∀ value, P (.constant value))
    (connective : ∀ kind args, (∀ c ∈ args, P c) → P (.connective kind args))
    (implication : ∀ a c, P a → P c → P (.implication a c))
    (comparison : ∀ comparator lhs rhs, P (.comparison comparator lhs rhs))
    (global : ∀ g, P (.global g)) (c : Constraint) : P c :=
  @Constraint.rec P (fun cs => ∀ c ∈ cs, P c) literal constant connective implication comparison
    global (by simp) (fun _ _ hc hcs => List.forall_mem_cons.mpr ⟨hc, hcs⟩) c

/-- The constraints have these truth values. -/
def TruthValues (σ : Assignment) : List Constraint → List Bool → Prop :=
  List.Forall₂ fun c b => c.evaluate σ = .ok b

theorem evaluateAll_iff {cs : List Constraint} {bs : List Bool} :
    evaluateAll σ cs = .ok bs ↔ TruthValues σ cs bs := by
  induction cs generalizing bs with
  | nil => simp [evaluateAll, TruthValues, eq_comm]
  | cons c cs ih =>
      simp only [evaluateAll, bind_eq_ok_iff, ih, TruthValues, List.forall₂_cons_left_iff, pure,
        Except.pure, Except.ok.injEq]
      constructor
      · rintro ⟨b, hb, bs', hbs, rfl⟩
        exact ⟨b, bs', hb, hbs, rfl⟩
      · rintro ⟨b, bs', hb, hbs, rfl⟩
        exact ⟨b, hb, bs', hbs, rfl⟩

theorem evaluate_literal_iff {l : Literal} :
    (literal l).evaluate σ = .ok b ↔ ∃ v, l.evaluate σ = .ok v ∧ (v != 0) = b := by
  simp [evaluate, bind_eq_ok_iff, pure, Except.pure]

theorem evaluate_connective_iff {kind : Connective} {args : List Constraint} :
    (connective kind args).evaluate σ = .ok b ↔
      ∃ bs, TruthValues σ args bs ∧ kind.apply bs = b := by
  simp [evaluate, bind_eq_ok_iff, evaluateAll_iff, pure, Except.pure]

theorem exists_truthValues {cs : List Constraint} (h : ∀ c ∈ cs, ∃ b, c.evaluate σ = .ok b) :
    ∃ bs, TruthValues σ cs bs := by
  induction cs with
  | nil => exact ⟨[], .nil⟩
  | cons c cs ih =>
      obtain ⟨⟨b, hb⟩, h⟩ := List.forall_mem_cons.mp h
      obtain ⟨bs, hbs⟩ := ih h
      exact ⟨b :: bs, .cons hb hbs⟩

theorem evaluate_and_true_iff {cs : List Constraint} :
    (connective .and cs).evaluate σ = .ok true ↔ ∀ c ∈ cs, c.evaluate σ = .ok true := by
  simp only [evaluate_connective_iff, Connective.apply]
  constructor
  · rintro ⟨bs, hbs, hall⟩ c hc
    obtain ⟨b, hb, hcb⟩ := exists_related hbs hc
    rwa [show b = true from List.all_eq_true.mp hall b hb] at hcb
  · intro h
    obtain ⟨bs, hbs⟩ := exists_truthValues fun c hc => ⟨true, h c hc⟩
    refine ⟨bs, hbs, List.all_eq_true.mpr fun b hb => ?_⟩
    obtain ⟨c, hc, hcb⟩ := exists_related' hbs hb
    exact Except.ok.inj (hcb.symm.trans (h c hc))

theorem evaluate_and_false_iff {cs : List Constraint} :
    (connective .and cs).evaluate σ = .ok false ↔
      (∀ c ∈ cs, ∃ b, c.evaluate σ = .ok b) ∧ ∃ c ∈ cs, c.evaluate σ = .ok false := by
  simp only [evaluate_connective_iff, Connective.apply]
  constructor
  · rintro ⟨bs, hbs, hall⟩
    refine ⟨fun c hc => ?_, ?_⟩
    · obtain ⟨b, -, hb⟩ := exists_related hbs hc
      exact ⟨b, hb⟩
    · obtain ⟨b, hb, hfalse⟩ := List.all_eq_false.mp hall
      rw [Bool.not_eq_true] at hfalse
      exact exists_related' hbs (hfalse ▸ hb)
  · rintro ⟨h, c, hc, hfalse⟩
    obtain ⟨bs, hbs⟩ := exists_truthValues h
    obtain ⟨b, hb, hcb⟩ := exists_related hbs hc
    obtain rfl := Except.ok.inj (hfalse.symm.trans hcb)
    exact ⟨bs, hbs, List.all_eq_false.mpr ⟨false, hb, by simp⟩⟩

theorem evaluate_or_true_iff {cs : List Constraint} :
    (or cs).evaluate σ = .ok true ↔
      (∀ c ∈ cs, ∃ b, c.evaluate σ = .ok b) ∧ ∃ c ∈ cs, c.evaluate σ = .ok true := by
  simp only [or, evaluate_connective_iff, Connective.apply]
  constructor
  · rintro ⟨bs, hbs, hany⟩
    refine ⟨fun c hc => ?_, ?_⟩
    · obtain ⟨b, -, hb⟩ := exists_related hbs hc
      exact ⟨b, hb⟩
    · obtain ⟨b, hb, htrue⟩ := List.any_eq_true.mp hany
      obtain rfl : b = true := htrue
      exact exists_related' hbs hb
  · rintro ⟨h, c, hc, htrue⟩
    obtain ⟨bs, hbs⟩ := exists_truthValues h
    obtain ⟨b, hb, hcb⟩ := exists_related hbs hc
    obtain rfl := Except.ok.inj (htrue.symm.trans hcb)
    exact ⟨bs, hbs, List.any_eq_true.mpr ⟨true, hb, rfl⟩⟩

theorem evaluate_or_false_iff {cs : List Constraint} :
    (or cs).evaluate σ = .ok false ↔ ∀ c ∈ cs, c.evaluate σ = .ok false := by
  simp only [or, evaluate_connective_iff, Connective.apply]
  constructor
  · rintro ⟨bs, hbs, hany⟩ c hc
    obtain ⟨b, hb, hcb⟩ := exists_related hbs hc
    rwa [show b = false by simpa using List.any_eq_false.mp hany b hb] at hcb
  · intro h
    obtain ⟨bs, hbs⟩ := exists_truthValues fun c hc => ⟨false, h c hc⟩
    refine ⟨bs, hbs, List.any_eq_false.mpr fun b hb => ?_⟩
    obtain ⟨c, hc, hcb⟩ := exists_related' hbs hb
    simp [Except.ok.inj (hcb.symm.trans (h c hc))]

/-- The consequent matters only if the antecedent is true. -/
theorem evaluate_implication_iff :
    (implication a c).evaluate σ = .ok b ↔
      a.evaluate σ = .ok true ∧ c.evaluate σ = .ok b ∨ a.evaluate σ = .ok false ∧ b = true := by
  simp only [evaluate, bind_eq_ok_iff]
  constructor
  · rintro ⟨p, hp, h⟩
    cases p with
    | false =>
        cases h
        exact .inr ⟨hp, rfl⟩
    | true => exact .inl ⟨hp, h⟩
  · rintro (⟨hp, h⟩ | ⟨hp, rfl⟩)
    · exact ⟨true, hp, h⟩
    · exact ⟨false, hp, rfl⟩

theorem evaluate_comparison_iff {comparator : Comparator} :
    (comparison comparator lhs rhs).evaluate σ = .ok b ↔
      ∃ x y, lhs.evaluate σ = .ok x ∧ rhs.evaluate σ = .ok y ∧ comparator.compare x y = b := by
  simp only [evaluate, bind_eq_ok_iff, pure, Except.pure, Except.ok.injEq]
  constructor
  · rintro ⟨x, hx, y, hy, rfl⟩
    exact ⟨x, y, hx, hy, rfl⟩
  · rintro ⟨x, y, hx, hy, rfl⟩
    exact ⟨x, hx, y, hy, rfl⟩

theorem evaluate_eq_iff : (eq lhs rhs).evaluate σ = .ok b ↔
    ∃ x y, lhs.evaluate σ = .ok x ∧ rhs.evaluate σ = .ok y ∧ decide (x = y) = b :=
  evaluate_comparison_iff

/-- A comparison of expressions that take over values takes over the truth value. -/
theorem evaluate_comparison_of_traces {comparator : Comparator} {lhs' rhs' : Expr}
    (hl : Expr.Traces σ σ' lhs lhs') (hr : Expr.Traces σ σ' rhs rhs')
    (h : (comparison comparator lhs rhs).evaluate σ = .ok b) :
    (comparison comparator lhs' rhs').evaluate σ' = .ok b := by
  obtain ⟨x, y, hx, hy, hb⟩ := evaluate_comparison_iff.mp h
  exact evaluate_comparison_iff.mpr ⟨x, y, hl x hx, hr y hy, hb⟩

theorem evaluate_global_iff {g : Global} :
    (global g).evaluate σ = .ok b ↔ ∃ vs, Expr.Values σ g.args vs ∧ g.apply vs = b := by
  rw [evaluate, Global.evaluate_iff]

theorem evaluate_global_of_traces {g g' : Global} (happly : g.apply = g'.apply)
    (hargs : List.Forall₂ (Expr.Traces σ σ') g.args g'.args) (h : (global g).evaluate σ = .ok b) :
    (global g').evaluate σ' = .ok b := by
  obtain ⟨vs, hvs, hb⟩ := evaluate_global_iff.mp h
  exact evaluate_global_iff.mpr ⟨vs, hvs.traces hargs, happly ▸ hb⟩

theorem mem_occurrencesIn {x : Variable} {cs : List Constraint} :
    x ∈ occurrencesIn cs ↔ ∃ c ∈ cs, x ∈ c.occurrences := by
  induction cs with
  | nil => simp [occurrencesIn]
  | cons c cs ih => simp [occurrencesIn, ih]

/-- A truth value is kept when the variables that occur keep their values. -/
theorem evaluate_of_agree (hσ : ∀ x ∈ c.occurrences, ∀ v, σ x.id = some v → σ' x.id = some v)
    (h : c.evaluate σ = .ok b) : c.evaluate σ' = .ok b := by
  induction c using Constraint.induction generalizing b with
  | literal l =>
      obtain ⟨v, hv, hb⟩ := evaluate_literal_iff.mp h
      refine evaluate_literal_iff.mpr ⟨v, ?_, hb⟩
      have htrace : Expr.Traces σ σ' (.ofLiteral l) (.ofLiteral l) := Expr.traces_self hσ
      exact htrace v hv
  | constant value => exact h
  | connective kind args ih =>
      obtain ⟨bs, hbs, hb⟩ := evaluate_connective_iff.mp h
      refine evaluate_connective_iff.mpr ⟨bs, forall₂_imp_of_mem hbs fun c hc b => ?_, hb⟩
      exact ih c hc fun x hx => hσ x (mem_occurrencesIn.mpr ⟨c, hc, hx⟩)
  | implication a c iha ihc =>
      have ha : ∀ {b}, a.evaluate σ = .ok b → a.evaluate σ' = .ok b := fun h =>
        iha (fun x hx => hσ x (List.mem_append_left _ hx)) h
      rcases evaluate_implication_iff.mp h with ⟨hp, h⟩ | ⟨hp, hb⟩
      · refine evaluate_implication_iff.mpr (.inl ⟨ha hp, ?_⟩)
        exact ihc (fun x hx => hσ x (List.mem_append_right _ hx)) h
      · exact evaluate_implication_iff.mpr (.inr ⟨ha hp, hb⟩)
  | comparison comparator lhs rhs =>
      obtain ⟨x, y, hx, hy, hb⟩ := evaluate_comparison_iff.mp h
      refine evaluate_comparison_iff.mpr ⟨x, y, ?_, ?_, hb⟩
      · exact Expr.traces_self (fun z hz => hσ z (List.mem_append_left _ hz)) x hx
      · exact Expr.traces_self (fun z hz => hσ z (List.mem_append_right _ hz)) y hy
  | global g =>
      obtain ⟨vs, hvs, hb⟩ := evaluate_global_iff.mp h
      refine evaluate_global_iff.mpr ⟨vs, hvs.traces (List.forall₂_same.mpr fun e he => ?_), hb⟩
      exact Expr.traces_self fun x hx => hσ x (List.mem_flatMap.mpr ⟨e, he, hx⟩)

end Constraint

end FiniteDomain
