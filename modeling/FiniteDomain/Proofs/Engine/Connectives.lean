import FiniteDomain.Proofs.Engine.Answers

/-!
# Connectives over arbitrary integers

A conjunction, a disjunction, a parity or a condition may be posted over any views, whatever their
values and whether or not they leave the 64-bit range. Whatever was posted, the store keeps every
valuation that meets the demands if a view counts as true exactly where it is not zero, and what is
found meets them too. An implication is the exception. Its antecedent `x` is read through the view
`1 - x`, which is false only where `x` is 1; so what is found need not meet the demand of an
implication whose antecedent has a value beyond 0 and 1.
-/

namespace FiniteDomain.Engine

open Request

variable {requests : List Request} {e e' : Engine} {outcome : Statistics}
  {found : List (Array Int)} {values : Array Int} {a : Valuation} {v : View}

/-- No antecedent of an implication has a value beyond 0 and 1. -/
def BooleanAntecedents (requests : List Request) (a : Valuation) : Prop :=
  ∀ antecedent consequent condition, implication antecedent consequent condition ∈ requests →
    antecedent.eval a = 0 ∨ antecedent.eval a = 1

theorem Satisfies.enforced (h : Satisfies requests a) : Enforced requests a :=
  ⟨h.1, fun r hr => (h.2 r hr).enforces⟩

/-- What is enforced is what was demanded, but for antecedents beyond 0 and 1. -/
theorem Enforced.satisfies (h : Enforced requests a) (hante : BooleanAntecedents requests a) :
    Satisfies requests a :=
  ⟨h.1, fun r hr => (h.2 r hr).demands fun _ _ _ heq => hante _ _ _ (heq ▸ hr)⟩

namespace Answered

/-- Everything found respects what is enforced. -/
theorem enforced (h : Answered requests e e' outcome found) (hlawful : Lawful {} requests)
    (hv : values ∈ found) : Enforced requests (valuation values) :=
  (solves_iff_enforced hlawful).mp (h.tracks.solves h.small h.solved hv)

/-- What respects all that is enforced is still possible after posting. -/
theorem admits (h : Answered requests e e' outcome found) (hlawful : Lawful {} requests)
    (ha : Enforced requests a) : e.store.Admits a ∧ e.infeasible = false := by
  obtain ⟨hneeds, hfeasible⟩ := h.tracks.needs h.small ((solves_iff_enforced hlawful).mpr ha)
  exact ⟨hneeds.1, hfeasible⟩

/-- If nothing is found, there is nothing that respects what is enforced. -/
theorem not_enforced_of_nil (h : Answered requests e e' outcome []) (hlawful : Lawful {} requests) :
    ¬ Enforced requests a := by
  intro ha
  obtain ⟨ending, -, hended⟩ := h.solved.ended
  cases ending with
  | satisfied =>
      obtain ⟨-, values, hnil⟩ := hended
      cases hnil
  | exhausted =>
      obtain ⟨direction, v, old, -, hbest, -⟩ :=
        h.tracks.beaten h.small ((solves_iff_enforced hlawful).mpr ha) hended
      have hscores : scores e.objective [] = [] := by cases e.objective <;> rfl
      rw [hscores] at hbest
      cases hbest

/-- What is found last gives every view a value, and this is zero exactly where the view is, even
if it was moved into the range. -/
theorem truth_eq (h : Answered requests e e' outcome found) (hlast : found.getLast? = some values)
    (hv : v.Created (declaredStore requests)) :
    ∃ value, e'.solutionValue v = some value ∧ (value = 0 ↔ v.eval (valuation values) = 0) := by
  cases v with
  | constant c => exact ⟨c, rfl, Iff.rfl⟩
  | affine x negated offset =>
      obtain ⟨hsize, -, -⟩ := h.tracks.accepts h.solved (List.mem_of_getLast? hlast)
      have hx : x < values.size := hsize ▸ hv x rfl
      have hvalue : valuation values x = values[x] := by simp [valuation, hx]
      refine ⟨(View.affine x negated offset).map values[x], ?_, ?_⟩
      · rw [solutionValue, h.solved.solution_eq, hlast, Option.bind_some,
          Array.getElem?_eq_getElem hx, Option.map_some]
      · rw [View.map_eq_zero_iff, View.eval_affine, hvalue]

end Answered

/-- Posting connectives over arbitrary views and then solving: nothing is lost that satisfies the
requests, or that merely respects what is enforced; there is a solution unless nothing does that;
and a solution respects what is enforced, so it satisfies the requests unless an antecedent is
beyond 0 and 1. Its views are zero exactly where they are false. -/
theorem solve_reads_truth (hlawful : Lawful {} requests) :
    ∃ e e' outcome, run requests {} = .ok () e ∧ Running.solve e = .ok outcome e' ∧
      (∀ a, Satisfies requests a ∨ Enforced requests a →
        e.store.Admits a ∧ e.infeasible = false) ∧
      (e'.solution = none ↔ ¬ ∃ a, Enforced requests a) ∧
      ∀ values, e'.solution = some values →
        Enforced requests (valuation values) ∧
        (BooleanAntecedents requests (valuation values) → Satisfies requests (valuation values)) ∧
        ∀ v : View, v.Created (declaredStore requests) →
          ∃ value, e'.solutionValue v = some value ∧ (value = 0 ↔ v.eval (valuation values) = 0) := by
  obtain ⟨e, e', outcome, found, h⟩ := hlawful.exists_answered
  have hsolution : e'.solution = found.getLast? := h.solved.solution_eq
  refine ⟨e, e', outcome, h.run_eq, h.solve_eq, fun a ha => ?_, ?_, fun values hvalues => ?_⟩
  · exact h.admits hlawful (ha.elim Satisfies.enforced id)
  · rw [hsolution, List.getLast?_eq_none_iff]
    constructor
    · rintro rfl ⟨a, ha⟩
      exact h.not_enforced_of_nil hlawful ha
    · intro hnone
      refine List.eq_nil_iff_forall_not_mem.mpr fun values hv => hnone ?_
      exact ⟨_, h.enforced hlawful hv⟩
  · have hlast := hsolution.symm.trans hvalues
    have henforced := h.enforced hlawful (List.mem_of_getLast? hlast)
    exact ⟨henforced, henforced.satisfies, fun v hv => h.truth_eq hlast hv⟩

/-- A number that is 0, 2 or 5, a number up to 3 and a truth value. If the last one is true, then an
odd number of the following is true: the first number, the second one moved out of the range, and
the second one less 2. And if the first number is 1, then the second one is not 3. -/
def mixedTruth : List Request :=
  [.oneOf [0, 2, 5] "x", .interval (-3) 3 "y", .boolean "r",
    .rule (.parity [.ofVar 0, .affine 1 false word64.max, .affine 1 true 2]) (some (.ofVar 2)),
    .implication (.ofVar 0) (.affine 1 false (-3)) none, .rule (.conjunction [.ofVar 2]) none]

theorem lawful_mixedTruth : Lawful {} mixedTruth := by
  have hcreated : ∀ (s : Store) (x : VarIndex) (negated : Bool) (offset : Int),
      x < s.numVariables → (View.affine x negated offset).Created s := by
    rintro s x negated offset hx _ ⟨rfl⟩
    exact hx
  have hfits : ∀ value ∈ ([0, 2, 5] : List Int), word32.Fits value := by decide
  refine ⟨hfits, ⟨by decide, by decide⟩, trivial, ⟨fun v hv => ?_, ?_⟩, ⟨?_, ?_, by simp⟩,
    ⟨fun v hv => ?_, by simp⟩, trivial⟩
  · simp only [List.mem_cons, List.not_mem_nil, or_false] at hv
    rcases hv with rfl | rfl | rfl <;> exact hcreated _ _ _ _ (by decide)
  · rintro c ⟨rfl⟩
    exact hcreated _ _ _ _ (by decide)
  · exact hcreated _ _ _ _ (by decide)
  · exact hcreated _ _ _ _ (by decide)
  · obtain rfl := List.mem_singleton.mp hv
    exact hcreated _ _ _ _ (by decide)

/-- There is a solution, in which the condition is true. -/
theorem solve_reads_truth_mixedTruth : ∃ e e' outcome values, run mixedTruth {} = .ok () e ∧
    Running.solve e = .ok outcome e' ∧ e'.solution = some values ∧
      Enforced mixedTruth (valuation values) := by
  have hsome : ∃ a, Enforced mixedTruth a := by
    refine ⟨fun x => if x = 0 then 5 else if x = 1 then 1 else 1, fun x domain hx => ?_, by decide⟩
    match x, hx with
    | 0, rfl => decide
    | 1, rfl => decide
    | 2, rfl => decide
  obtain ⟨e, e', outcome, hrun, hsolve, -, hiff, hsolution⟩ := solve_reads_truth lawful_mixedTruth
  cases hvalues : e'.solution with
  | none => exact absurd hsome (hiff.mp hvalues)
  | some values => exact ⟨e, e', outcome, values, hrun, hsolve, hvalues, (hsolution values hvalues).1⟩

/-- The numbers 2 and 0, of which the first is to imply the second. -/
def twoImpliesZero : List Request :=
  [.interval 2 2 "a", .interval 0 0 "b", .implication (.ofVar 0) (.ofVar 1) none]

/-- The engine returns the two numbers, although nothing satisfies the requests. -/
theorem twoImpliesZero_solved : (∀ a, ¬ Satisfies twoImpliesZero a) ∧
    ∃ e e' outcome values, run twoImpliesZero {} = .ok () e ∧ Running.solve e = .ok outcome e' ∧
      e'.solution = some values ∧ valuation values 0 = 2 ∧ valuation values 1 = 0 := by
  have hdomain : ∀ a, Enforced twoImpliesZero a → a 0 = 2 ∧ a 1 = 0 := by
    rintro a ⟨hdomains, -⟩
    obtain ⟨h2, h2'⟩ : 2 ≤ a 0 ∧ a 0 ≤ 2 := hdomains 0 _ rfl
    obtain ⟨h0, h0'⟩ : 0 ≤ a 1 ∧ a 1 ≤ 0 := hdomains 1 _ rfl
    omega
  constructor
  · intro a ha
    obtain ⟨hante, hcons⟩ := hdomain a ha.enforced
    have himplies := ha.2 (.implication (.ofVar 0) (.ofVar 1) none) (by simp [twoImpliesZero])
    simp only [Demands, View.eval_ofVar] at himplies
    exact himplies (by simp) (by omega) hcons
  · have hsome : Enforced twoImpliesZero fun x => if x = 0 then 2 else 0 := by
      refine ⟨fun x domain hx => ?_, by decide⟩
      rcases x with _ | _ | x
      · obtain rfl := Option.some.inj hx
        decide
      · obtain rfl := Option.some.inj hx
        decide
      · cases hx
    have hcreated : ∀ x < 2, (View.ofVar x).Created (declaredStore twoImpliesZero) := by
      rintro x hx _ ⟨rfl⟩
      exact hx
    have hlawful : Lawful {} twoImpliesZero :=
      ⟨⟨by decide, by decide⟩, ⟨by decide, by decide⟩,
        ⟨hcreated 0 (by decide), hcreated 1 (by decide), by simp⟩, trivial⟩
    obtain ⟨e, e', outcome, found, h⟩ := hlawful.exists_answered
    cases hlast : found.getLast? with
    | none =>
        obtain rfl := List.getLast?_eq_none_iff.mp hlast
        exact absurd hsome (h.not_enforced_of_nil hlawful)
    | some values =>
        have henforced := h.enforced hlawful (List.mem_of_getLast? hlast)
        exact ⟨e, e', outcome, values, h.run_eq, h.solve_eq, h.solved.solution_eq.trans hlast,
          hdomain _ henforced⟩

end FiniteDomain.Engine
