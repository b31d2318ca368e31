import FiniteDomain.Proofs.Constraint.SingleCycle
import FiniteDomain.Proofs.Expr.Bounds
import FiniteDomain.Proofs.MiniZinc.Calls
import FiniteDomain.Proofs.MiniZinc.Rendering

/-!
# Circuits numbered from 1

MiniZinc numbers the nodes of a circuit from 1, so one is to be added to the successors if one of
them can be 0. Whether it is added depends on nothing but the smallest values of the successors
that are variables; where nothing is added, MiniZinc reads the successors as they are.
-/

namespace FiniteDomain.MiniZinc

open FiniteDomain.Expr (Values ofInt)

/-- The expression has the value under some values of the domains of its variables. -/
def CanBe (e : Expr) (v : Int) : Prop := ∃ σ : Assignment, σ.Assigns e.occurrences ∧
  e.evaluate σ = .ok v

/-- The text of the constraint has every successor with one added to it. -/
def IsShifted (names : Names) (g : Global) : Prop :=
  renderGlobal names g =
    g.name ++ "(" ++ arrayOf (g.args.map fun s => renderOperand names s ++ "+1") ++ ")"

/-- The values of the items as nodes, if node 1 is the first one. -/
def Phrase.nodesFromOne (ρ : Lexicon) (items : List (Phrase .whole)) : Option (List Int) :=
  (allOf (items.map (value ρ))).map fun ws => ws.map (· - 1)

/-- What MiniZinc says of a text: the items of a circuit are nodes, numbered from 1. -/
def Phrase.truthFromOne (ρ : Lexicon) : Phrase .whole → Option Bool
  | call .circuit items => (nodesFromOne ρ items).map fun vs => isSingleCycle vs fun _ => true
  | call .subcircuit items =>
    (nodesFromOne ρ items).map fun vs => isSingleCycle vs fun node => vs.getD node 0 != node
  | p => p.truth ρ

variable {names : Names} {g : Global} {successors : List Expr} {vs : List Int}

/-- The constraint is about one cycle: a circuit or a subcircuit. -/
inductive IsCycle : Global → List Expr → Prop where
  | circuit (successors : List Expr) : IsCycle (.circuit successors) successors
  | subcircuit (successors : List Expr) : IsCycle (.subcircuit successors) successors

namespace IsCycle

theorem args_eq (h : IsCycle g successors) : g.args = successors := by
  cases h <;> rfl

theorem writtenInGlobal_eq (h : IsCycle g successors) :
    writtenInGlobal g = writtenInAll successors := by
  cases h <;> rfl

theorem renderGlobal_eq (h : IsCycle g successors) (names : Names) :
    renderGlobal names g = g.name ++ "(" ++ arrayOf (renderSuccessors names successors) ++ ")" := by
  cases h <;> rfl

/-- A cycle visits nodes only. -/
theorem areNodes (h : IsCycle g successors) (happly : g.apply vs = true) : AreNodes vs := by
  cases h <;> exact (isSingleCycle_iff_head.mp happly).1

end IsCycle

/-! ## The text -/

theorem startsAtZero_iff {e : Expr} :
    startsAtZero e = true ↔ ∃ x : IntVar, e = ofInt x ∧ x.domain.lower = 0 := by
  constructor
  · intro h
    match e, h with
    | .atom (.int x), h => exact ⟨x, rfl, beq_iff_eq.mp h⟩
  · rintro ⟨x, rfl, hx⟩
    exact beq_iff_eq.mpr hx

theorem length_separatedByCommas (texts : List (List Char)) :
    (separatedByCommas texts).length = (texts.map List.length).sum + (texts.length - 1) := by
  induction texts with
  | nil => rfl
  | cons text texts ih =>
      cases texts with
      | nil => simp [separatedByCommas]
      | cons text' texts =>
          rw [separatedByCommas_cons_cons, List.length_append, List.length_cons, ih]
          simp only [List.map_cons, List.sum_cons, List.length_cons]
          omega

/-- An array of longer texts is longer. -/
theorem arrayOf_ne {f f' : Expr → String} (hne : successors ≠ [])
    (h : ∀ s ∈ successors, (f s).length < (f' s).length) :
    arrayOf (successors.map f) ≠ arrayOf (successors.map f') := by
  have hlength : ∀ f : Expr → String, (arrayOf (successors.map f)).length =
      (successors.map fun s => (f s).length).sum + (successors.length - 1) + 2 := by
    intro f
    rw [← String.length_toList, toList_arrayOf, List.length_cons, List.length_append,
      length_separatedByCommas]
    simp only [List.map_map, List.length_map, Function.comp_def, String.length_toList,
      List.length_cons, List.length_nil]
  have hlt : (successors.map fun s => (f s).length).sum <
      (successors.map fun s => (f' s).length).sum := by
    obtain ⟨s, hs⟩ := List.exists_mem_of_ne_nil _ hne
    exact List.sum_lt_sum _ _ (fun s hs => (h s hs).le) ⟨s, hs, h s hs⟩
  intro heq
  have heq' := congrArg String.length heq
  rw [hlength, hlength] at heq'
  omega

/-- Parentheses and one more make a text longer. -/
theorem length_renderExpr_lt (names : Names) (e : Expr) :
    (renderExpr names e).length < (renderOperand names e ++ "+1").length := by
  have hone : "+1".length = 2 := by decide
  rw [String.length_append, hone, renderOperand_eq, parenthesised]
  split
  · simp only [String.length_append]
    omega
  · omega

theorem isShifted_iff_any (h : IsCycle g successors) (hne : successors ≠ []) :
    IsShifted names g ↔ successors.any startsAtZero = true := by
  rw [IsShifted, h.renderGlobal_eq, h.args_eq, renderSuccessors, renderExprs_eq]
  split
  · next hshift => exact ⟨fun _ => hshift, fun _ => rfl⟩
  · next hshift =>
    refine ⟨fun heq => absurd ?_ (arrayOf_ne hne fun s _ => length_renderExpr_lt names s),
      fun hshift' => absurd hshift' hshift⟩
    simpa only [String.append_left_inj, String.append_right_inj] using heq

/-- One is added if and only if one of the successors is a variable whose smallest value is 0. -/
theorem isShifted_iff (h : IsCycle g successors) (hne : successors ≠ []) :
    IsShifted names g ↔ ∃ x : IntVar, ofInt x ∈ successors ∧ x.domain.lower = 0 := by
  rw [isShifted_iff_any h hne, List.any_eq_true]
  constructor
  · rintro ⟨s, hs, hzero⟩
    obtain ⟨x, rfl, hx⟩ := startsAtZero_iff.mp hzero
    exact ⟨x, hs, hx⟩
  · rintro ⟨x, hs, hx⟩
    exact ⟨_, hs, startsAtZero_iff.mpr ⟨x, rfl, hx⟩⟩

/-! ## Successors that can be node 0 -/

theorem canBe_ofInt_iff {x : IntVar} {v : Int} :
    CanBe (ofInt x) v ↔ x.domain.contains v = true := by
  have hvalue : ∀ σ : Assignment, (ofInt x).evaluate σ = .ok v ↔ σ x.id = some v := fun σ => by
    rw [ofInt, Expr.evaluate, Atom.evaluate, orUndefined_eq_ok_iff]
  have hoccurrences : (ofInt x).occurrences = [.int x] := by
    rw [ofInt, Expr.occurrences, Atom.vars]
  constructor
  · rintro ⟨σ, hσ, hv⟩
    exact hσ.inside (.int x) (by simp [hoccurrences]) v ((hvalue σ).mp hv)
  · intro hv
    refine ⟨fun _ => some v, fun y hy => ?_, (hvalue _).mpr rfl⟩
    obtain rfl : y = .int x := by simpa [hoccurrences] using hy
    exact ⟨v, rfl, hv⟩

/-- Among successors without negative values, those that can be 0 start at 0. -/
theorem isShifted_iff_canBe_zero (h : IsCycle g successors) (hne : successors ≠ [])
    (hplain : ∀ s ∈ successors, CanBe s 0 → ∃ x : IntVar, s = ofInt x ∧ 0 ≤ x.domain.lower) :
    IsShifted names g ↔ ∃ s ∈ successors, CanBe s 0 := by
  rw [isShifted_iff h hne]
  constructor
  · rintro ⟨x, hx, hlower⟩
    exact ⟨_, hx, canBe_ofInt_iff.mpr (hlower ▸ x.domain.contains_lower)⟩
  · rintro ⟨s, hs, hzero⟩
    obtain ⟨x, rfl, hlower⟩ := hplain s hs hzero
    have hle := (Domain.bounds_of_contains (canBe_ofInt_iff.mp hzero)).1
    exact ⟨x, hs, le_antisymm hle hlower⟩

/-! ## What MiniZinc reads -/

/-- The text is a call, of which MiniZinc says what the constraint says of nodes numbered from 1. -/
theorem IsCycle.exists_call (h : IsCycle g successors) {ps : List (Phrase .whole)}
    (hchars : ps.map Phrase.chars = (renderSuccessors names successors).map String.toList) :
    ∃ p : Phrase .whole, p.chars = (renderGlobal names g).toList ∧
      ∀ {ρ : Lexicon} {ws : List Int}, ps.map (Phrase.value ρ) = ws.map some →
        p.truthFromOne ρ = some (g.apply (ws.map (· - 1))) := by
  cases h with
  | circuit =>
      refine ⟨.call .circuit ps, ?_, fun {ρ ws} hws => ?_⟩
      · rw [Phrase.chars_call, hchars]
        exact (toList_call rfl _).symm
      · rw [Phrase.truthFromOne, Phrase.nodesFromOne, hws, allOf_map_some]
        rfl
  | subcircuit =>
      refine ⟨.call .subcircuit ps, ?_, fun {ρ ws} hws => ?_⟩
      · rw [Phrase.chars_call, hchars]
        exact (toList_call rfl _).symm
      · rw [Phrase.truthFromOne, Phrase.nodesFromOne, hws, allOf_map_some]
        rfl

/-- Node 0 is no node for MiniZinc. -/
theorem IsCycle.apply_sub_one (h : IsCycle g successors) (hzero : 0 ∈ vs) :
    g.apply (vs.map (· - 1)) = false := by
  refine Bool.eq_false_iff.mpr fun happly => ?_
  have hnode := (h.areNodes happly (-1) (List.mem_map.mpr ⟨0, hzero, rfl⟩)).1
  omega

theorem exists_truthFromOne (h : IsCycle g successors) {owner : List Char → Option VarId}
    (hknown : ∀ x ∈ writtenInGlobal g, Known names owner x.id) :
    ∃ p : Phrase .whole, p.chars = (renderGlobal names g).toList ∧
      ∀ σ b, (Constraint.global g).evaluate σ = .ok b →
        (successors.any startsAtZero = true → p.truthFromOne (lexicon owner σ) = some b) ∧
        (successors.any startsAtZero = false → (∃ s ∈ successors, s.evaluate σ = .ok 0) →
          p.truthFromOne (lexicon owner σ) = some false) := by
  have hwritten : ∀ e ∈ successors, ∀ x ∈ writtenIn e, Known names owner x.id := fun e he x hx =>
    hknown x (by rw [h.writtenInGlobal_eq]; exact mem_writtenInAll.mpr ⟨e, he, hx⟩)
  obtain ⟨ps, hchars, hvalues⟩ := exists_successors hwritten
  obtain ⟨p, hp, htruth⟩ := h.exists_call hchars
  refine ⟨p, hp, fun σ b hb => ?_⟩
  obtain ⟨vs, hvs, rfl⟩ := Constraint.evaluate_global_iff.mp hb
  rw [h.args_eq] at hvs
  have hread := htruth (hvalues hvs).2
  constructor
  · intro hshift
    rw [hread, if_pos hshift, List.map_map]
    simp [Function.comp_def]
  · rintro hshift ⟨s, hs, hzero⟩
    obtain ⟨i, hi, rfl⟩ := List.getElem_of_mem hs
    have hi' : i < vs.length := List.Forall₂.length_eq hvs ▸ hi
    have hvalue := List.Forall₂.get hvs hi hi'
    have hmem : vs[i] = 0 := Except.ok.inj (hvalue.symm.trans hzero)
    rw [hread, hshift, if_neg Bool.false_ne_true, h.apply_sub_one (hmem ▸ List.getElem_mem hi')]

/-- One is added to the successors of a circuit if and only if one of them is a variable whose
smallest value is 0. Where all that can be 0 are variables without negative values, this is if and
only if one of them can be 0. The text then says of nodes numbered from 1 what the circuit says of
nodes numbered from 0; where nothing is added, it is false as soon as a successor is 0. -/
theorem circuit_shifted_iff (h : IsCycle g successors) (hne : successors ≠ []) (names : Names) :
    (IsShifted names g ↔ ∃ x : IntVar, ofInt x ∈ successors ∧ x.domain.lower = 0) ∧
    ((∀ s ∈ successors, CanBe s 0 → ∃ x : IntVar, s = ofInt x ∧ 0 ≤ x.domain.lower) →
      (IsShifted names g ↔ ∃ s ∈ successors, CanBe s 0)) ∧
    ∀ owner, (∀ x ∈ writtenInGlobal g, Known names owner x.id) →
      ∃ p : Phrase .whole, p.chars = (renderGlobal names g).toList ∧
        ∀ σ b, (Constraint.global g).evaluate σ = .ok b →
          (IsShifted names g → p.truthFromOne (lexicon owner σ) = some b) ∧
          (¬ IsShifted names g → (∃ s ∈ successors, s.evaluate σ = .ok 0) →
            p.truthFromOne (lexicon owner σ) = some false) := by
  refine ⟨isShifted_iff h hne, isShifted_iff_canBe_zero h hne, fun owner hknown => ?_⟩
  rw [isShifted_iff_any h hne, Bool.not_eq_true]
  exact exists_truthFromOne h hknown

/-- The successors of two nodes. -/
def twoNodes (domain : Domain) : List Expr :=
  [ofInt ⟨0, "IV0", domain⟩, ofInt ⟨1, "IV1", domain⟩]

/-- Each node is the successor of the other one. -/
def exchanged : Assignment := fun id => if id = 0 then some 1 else some 0

/-- The names of the two variables. -/
def twoNames : Names := fun id => if id = 0 then "a" else "b"

/-- The exchange is a circuit of the nodes 0 and 1, and its text one of the nodes 1 and 2. -/
theorem circuit_shifted_iff_exchanged :
    renderGlobal twoNames (.circuit (twoNodes .boolean)) = "circuit([a+1,b+1])" ∧
      (∃ s ∈ twoNodes .boolean, CanBe s 0) ∧
        ∃ p : Phrase .whole, p.chars = "circuit([a+1,b+1])".toList ∧
          p.truthFromOne (lexicon (fun cs => if cs = ['a'] then some 0 else some 1) exchanged) =
            some true := by
  have hcycle : IsCycle (.circuit (twoNodes .boolean)) (twoNodes .boolean) := .circuit _
  obtain ⟨htext, hcan, hmeaning⟩ := circuit_shifted_iff hcycle (by simp [twoNodes]) twoNames
  have hshifted : IsShifted twoNames (.circuit (twoNodes .boolean)) :=
    htext.mpr ⟨⟨0, "IV0", .boolean⟩, List.mem_cons_self, rfl⟩
  have hrender : renderGlobal twoNames (.circuit (twoNodes .boolean)) = "circuit([a+1,b+1])" := by
    rw [hshifted]
    simp only [Global.args, twoNodes, List.map_cons, List.map_nil, renderOperand_eq, ofInt,
      renderExpr_atom]
    decide +kernel
  refine ⟨hrender, (hcan fun s hs _ => ?_).mp hshifted, ?_⟩
  · obtain ⟨x, rfl, hx⟩ : ∃ x : IntVar, s = ofInt x ∧ x.domain = .boolean := by
      rcases List.mem_pair.mp hs with rfl | rfl <;> exact ⟨_, rfl, rfl⟩
    exact ⟨x, rfl, by rw [hx]; decide⟩
  · have hknown : ∀ x ∈ writtenInGlobal (.circuit (twoNodes .boolean)), Known twoNames
        (fun cs => if cs = ['a'] then some 0 else some 1) x.id := by
      intro x hx
      simp only [writtenInGlobal, Global.args, twoNodes, ofInt, writtenInAll, writtenIn, Atom.vars,
        List.append_nil, List.cons_append, List.nil_append] at hx
      rcases List.mem_pair.mp hx with rfl | rfl <;> exact ⟨by decide +kernel, by decide +kernel⟩
    obtain ⟨p, hp, htruth⟩ := hmeaning _ hknown
    refine ⟨p, by rw [hp, hrender], (htruth exchanged true ?_).1 hshifted⟩
    rfl

/-- A domain with a value on each side of 0. -/
def signs : Domain := .interval (-1) 1 (by decide) (by decide)

/-- Where the smallest value is -1 nothing is added to the successors, although each can be 0, and
the text of a circuit is one that the circuit does not satisfy. -/
theorem negativeLower_unshifted :
    let g : Global := .circuit (twoNodes signs)
    let names := (programAfter [.post (.global g)]).names
    (∃ s ∈ twoNodes signs, CanBe s 0) ∧ (Constraint.global g).evaluate exchanged = .ok true ∧
      renderGlobal names g = "circuit([IV0,IV1])" ∧ ¬ IsShifted names g := by
  intro g names
  have hcycle : IsCycle g (twoNodes signs) := .circuit _
  have hnames : names 0 = "IV0" ∧ names 1 = "IV1" := by decide +kernel
  refine ⟨⟨_, List.mem_cons_self, canBe_ofInt_iff.mpr (by decide)⟩, rfl, ?_, fun hshifted => ?_⟩
  · simp only [g, renderGlobal, renderSuccessors, renderExprs_eq, twoNodes, ofInt, List.map_cons,
      List.map_nil, renderExpr_atom, renderAtom, hnames]
    decide +kernel
  · rw [isShifted_iff_any hcycle (List.cons_ne_nil _ _)] at hshifted
    exact absurd hshifted (by decide)

end FiniteDomain.MiniZinc
