import FiniteDomain.Proofs.Collection
import FiniteDomain.Proofs.Constraint.Preservation

/-!
# What an evaluation depends on

Two assignments that give the variables of an expression the same values, or none, give the
expression the same value, or none for the same reason; and a constraint the same truth value. The
variables that are collected have all the numbers that occur, so it is enough to agree on them.
-/

namespace FiniteDomain

variable {σ σ' : Assignment}

/-- The assignments give the variables the same values, or none. -/
def Assignment.AgreeOn (σ σ' : Assignment) (xs : List Variable) : Prop :=
  ∀ x ∈ xs, σ x.id = σ' x.id

theorem Assignment.AgreeOn.subset {xs ys : List Variable} (h : σ.AgreeOn σ' ys) (hle : xs ⊆ ys) :
    σ.AgreeOn σ' xs := fun x hx => h x (hle hx)

/-- Assignments that agree on what was collected agree on all that occurs. -/
theorem Assignment.AgreeOn.of_collected {before occurring : List Variable}
    (h : σ.AgreeOn σ' (occurring.foldl (fun xs x => x.addTo xs) before)) :
    σ.AgreeOn σ' occurring := by
  intro x hx
  obtain ⟨y, hy, hid⟩ := exists_mem_foldl_addTo before hx
  rw [← hid]
  exact h y hy

/-- Equal results for all members give equal results for the list, errors included. -/
theorem mapM_congr {ε α β : Type} {f g : α → Except ε β} {as : List α} (h : ∀ a ∈ as, f a = g a) :
    as.mapM f = as.mapM g := by
  have hmap : ∀ f : α → Except ε β, as.mapM f = (as.map f).mapM id := fun f => by
    rw [List.mapM_map, Function.id_comp]
  rw [hmap, hmap, List.map_congr_left h]

/-! ## Expressions -/

theorem Literal.evaluate_congr {l : Literal} (h : σ l.var.id = σ' l.var.id) :
    l.evaluate σ = l.evaluate σ' := by
  rw [Literal.evaluate, Literal.evaluate, h]

theorem Atom.evaluate_eq_of_agreeOn {a : Atom} (h : σ.AgreeOn σ' a.vars) :
    a.evaluate σ = a.evaluate σ' := by
  cases a with
  | int x => exact congrArg orUndefined (h (.int x) (by simp [vars]))
  | literal l => exact Literal.evaluate_congr (h (.bool l.var) (by simp [vars]))
  | constant value => rfl
  | bool value => rfl

namespace Expr

variable {e a b : Expr} {terms : List Expr}

theorem evaluateSum_congr (h : ∀ e ∈ terms, e.evaluate σ = e.evaluate σ') (total : Int) :
    evaluateSum σ total terms = evaluateSum σ' total terms := by
  induction terms generalizing total with
  | nil => rfl
  | cons e es ih =>
      obtain ⟨he, hes⟩ := List.forall_mem_cons.mp h
      simp only [evaluateSum, he, ih hes]

theorem evaluateWeighted_congr (h : ∀ e ∈ terms, e.evaluate σ = e.evaluate σ') (total : Int)
    (weights : List Int) :
    evaluateWeighted σ total weights terms = evaluateWeighted σ' total weights terms := by
  induction terms generalizing total weights with
  | nil => rfl
  | cons e es ih =>
      obtain ⟨he, hes⟩ := List.forall_mem_cons.mp h
      cases weights with
      | nil => rfl
      | cons w ws => simp only [evaluateWeighted, he, ih hes]

theorem evaluateAt_congr (h : ∀ e ∈ terms, e.evaluate σ = e.evaluate σ') (i : Nat) :
    evaluateAt σ terms i = evaluateAt σ' terms i := by
  induction terms generalizing i with
  | nil => rfl
  | cons e es ih =>
      obtain ⟨he, hes⟩ := List.forall_mem_cons.mp h
      cases i with
      | zero => exact he
      | succ i => exact ih hes i

/-- A power looks at its operands in the other order. -/
theorem evaluate_binary_congr (op : BinaryOp) (ha : a.evaluate σ = a.evaluate σ')
    (hb : b.evaluate σ = b.evaluate σ') :
    (binary op a b).evaluate σ = (binary op a b).evaluate σ' := by
  cases op <;> simp only [evaluate, ha, hb]

/-- Only the values of the variables that occur matter, also for why there is no value. -/
theorem evaluate_eq_of_agreeOn (h : σ.AgreeOn σ' e.occurrences) :
    e.evaluate σ = e.evaluate σ' := by
  induction e using Expr.induction with
  | atom a => exact Atom.evaluate_eq_of_agreeOn h
  | sum terms ih =>
      rw [evaluate, evaluate]
      refine evaluateSum_congr (fun e he => ih e he fun x hx => h x ?_) 0
      exact mem_occurrencesIn.mpr ⟨e, he, hx⟩
  | weightedSum weights terms ih =>
      rw [evaluate, evaluate]
      refine evaluateWeighted_congr (fun e he => ih e he fun x hx => h x ?_) 0 weights
      exact mem_occurrencesIn.mpr ⟨e, he, hx⟩
  | binary op a b iha ihb =>
      apply evaluate_binary_congr
      · exact iha (h.subset (List.subset_append_left _ _))
      · exact ihb (h.subset (List.subset_append_right _ _))
  | unary op a ih => rw [evaluate, evaluate, ih h]
  | element array index iharray ihindex =>
      have hindex := ihindex (h.subset (List.subset_append_right _ _))
      have harray : ∀ e ∈ array, e.evaluate σ = e.evaluate σ' := by
        refine fun e he => iharray e he fun x hx => h x (List.mem_append_left _ ?_)
        exact mem_occurrencesIn.mpr ⟨e, he, hx⟩
      simp only [evaluate, hindex, evaluateAt_congr harray]

end Expr

/-! ## Constraints -/

theorem Global.evaluate_congr {g : Global} (h : ∀ e ∈ g.args, e.evaluate σ = e.evaluate σ') :
    g.evaluate σ = g.evaluate σ' := by
  rw [evaluate_eq, evaluate_eq, Expr.evaluateAll, Expr.evaluateAll, mapM_congr h]

namespace Constraint

variable {c : Constraint} {cs : List Constraint}

theorem evaluateAll_congr (h : ∀ c ∈ cs, c.evaluate σ = c.evaluate σ') :
    evaluateAll σ cs = evaluateAll σ' cs := by
  induction cs with
  | nil => rfl
  | cons c cs ih =>
      obtain ⟨hc, hcs⟩ := List.forall_mem_cons.mp h
      rw [evaluateAll, evaluateAll, hc, ih hcs]

/-- Only the values of the variables that occur matter, also for why there is no truth value. -/
theorem evaluate_eq_of_agreeOn (h : σ.AgreeOn σ' c.occurrences) :
    c.evaluate σ = c.evaluate σ' := by
  induction c using Constraint.induction with
  | literal l =>
      rw [evaluate, evaluate, Literal.evaluate_congr (h (.bool l.var) List.mem_cons_self)]
  | constant value => rfl
  | connective kind args ih =>
      have hargs : ∀ c ∈ args, c.evaluate σ = c.evaluate σ' := fun c hc =>
        ih c hc fun x hx => h x (mem_occurrencesIn.mpr ⟨c, hc, hx⟩)
      rw [evaluate, evaluate, evaluateAll_congr hargs]
  | implication a c iha ihc =>
      have ha := iha (h.subset (List.subset_append_left _ _))
      have hc := ihc (h.subset (List.subset_append_right _ _))
      rw [evaluate, evaluate, ha, hc]
  | comparison comparator lhs rhs =>
      have hlhs := Expr.evaluate_eq_of_agreeOn (h.subset (List.subset_append_left _ _))
      have hrhs := Expr.evaluate_eq_of_agreeOn (h.subset (List.subset_append_right _ _))
      rw [evaluate, evaluate, hlhs, hrhs]
  | global g =>
      refine Global.evaluate_congr fun e he => Expr.evaluate_eq_of_agreeOn fun x hx => h x ?_
      exact List.mem_flatMap.mpr ⟨e, he, hx⟩

end Constraint

/-! ## What is collected -/

/-- A function collects the variables that occur somewhere, and they determine a result. -/
structure ReadsCollected {α : Type} (occurring : List Variable)
    (collect : List Variable → List Variable) (result : Assignment → α) : Prop where
  /-- A list that is given stays as it is, and what is new is added behind it. -/
  additions : ∀ xs, ∃ added, collect xs = xs ++ added ∧ Additions xs occurring added
  /-- Assignments that agree on what was collected have the same result. -/
  determined : ∀ xs (σ σ' : Assignment), σ.AgreeOn σ' (collect xs) → result σ = result σ'

theorem ReadsCollected.of_occurring {α : Type} {occurring : List Variable} {result : Assignment → α}
    (h : ∀ σ σ' : Assignment, σ.AgreeOn σ' occurring → result σ = result σ') :
    ReadsCollected occurring (occurring.foldl fun xs x => x.addTo xs) result where
  additions := fun xs => exists_additions xs occurring
  determined := fun _ σ σ' hagree => h σ σ' hagree.of_collected

/-- Expressions and constraints are determined by the variables that are collected from them. -/
theorem evaluation_reads_collected :
    (∀ e : Expr, ReadsCollected e.occurrences e.collect fun σ => e.evaluate σ) ∧
      ∀ c : Constraint, ReadsCollected c.occurrences c.collect fun σ => c.evaluate σ := by
  constructor
  · intro e
    exact .of_occurring fun σ σ' hagree => Expr.evaluate_eq_of_agreeOn hagree
  · intro c
    exact .of_occurring fun σ σ' hagree => Constraint.evaluate_eq_of_agreeOn hagree

/-- The values of the variables with the first numbers. -/
def assigned (values : List Int) : Assignment := fun id => values[id]?

/-- If the switch is on, then the item of two digits at the position that the switch has as its
value, which is the second one, is less than twice the first one. -/
def guardedLookup : Constraint :=
  let switch : Literal := .ofVar ⟨0, "switch"⟩
  let first : Expr := .ofInt (digit 1)
  .implication (.literal switch) (.comparison .less
    (.element [first, .ofInt (digit 2)] (.ofLiteral switch)) (.weightedSum [2] [first]))

/-- A list that has the second digit keeps it in front, and the value of a variable that does not
occur makes no difference. -/
theorem evaluation_reads_collected_guardedLookup :
    (∃ added, guardedLookup.collect [.int (digit 2)] = .int (digit 2) :: added ∧
        Additions [.int (digit 2)] guardedLookup.occurrences added) ∧
      (guardedLookup.collect [.int (digit 2)]).map Variable.id = [2, 0, 1] ∧
      guardedLookup.evaluate (assigned [1, 3, 5]) = .ok true ∧
      guardedLookup.evaluate (assigned [1, 3, 5, 7]) = .ok true := by
  have hreads := evaluation_reads_collected.2 guardedLookup
  have hagree : (assigned [1, 3, 5]).AgreeOn (assigned [1, 3, 5, 7])
      (guardedLookup.collect [.int (digit 2)]) := by
    unfold Assignment.AgreeOn
    decide
  have htrue : guardedLookup.evaluate (assigned [1, 3, 5]) = .ok true := by rfl
  refine ⟨hreads.additions [.int (digit 2)], rfl, htrue, ?_⟩
  exact (hreads.determined _ _ _ hagree).symm.trans htrue

end FiniteDomain
