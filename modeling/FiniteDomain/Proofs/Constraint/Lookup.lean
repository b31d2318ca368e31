import FiniteDomain.Proofs.Constraint.Definability

/-!
# Looking up an item

An element is evaluated by looking at the index and the selected item only. Its decomposition names
the index and all items, and defines each name unconditionally. So the values under which the
element has the result are kept exactly if every item, selected or not, is an atom or has a value
that its name can take.
-/

namespace FiniteDomain

open FiniteDomain.Expr (Traces ofInt)
open Constraint (eq evaluate_eq_iff)

variable {r : Registry} {σ σ' : Assignment} {τ : VarId → Int} {e index result : Expr}
  {es array : List Expr}

namespace Expr

/-- Nameable expressions are named by atoms that take over their values. -/
theorem makes_names (hknown : ∀ e ∈ es, e.KnownTo r) (hplain : ∀ e ∈ es, e.Plain .words)
    (hτ : r.Respects τ) (h : ∀ e ∈ es, e.Nameable (total τ)) :
    Makes r (atomizeAll es) fun p r' =>
      (∀ a ∈ p.1, a.isAtom = true ∧ a.KnownTo r' ∧ a.Plain .words) ∧
        ∃ τ', Fulfils r r' τ τ' p.2 ∧ List.Forall₂ (Traces (total τ) (total τ')) es p.1 := by
  induction es generalizing r τ with
  | nil => exact Makes.pure ⟨by simp, τ, Fulfils.refl hτ, .nil⟩
  | cons e es ih =>
      rw [List.forall_mem_cons] at hknown hplain h
      refine (makes_name hknown.1 hτ h.1).bind fun p r₁ hle₁ hp => ?_
      obtain ⟨a, definition⟩ := p
      obtain ⟨hatom, hknownA, hplainA, τ₁, h₁, htrace⟩ := hp
      have hkept : ∀ e ∈ es, Traces (total τ) (total τ₁) e e := fun e he =>
        (hknown.2 e he).traces h₁.agree
      refine (ih (fun e he => (hknown.2 e he).mono hle₁) hplain.2 h₁.respects fun e he =>
        (h.2 e he).of_traces (hkept e he)).bind fun q r₂ hle₂ hq => ?_
      obtain ⟨as, definitions⟩ := q
      obtain ⟨hatoms, τ₂, h₂, htraces⟩ := hq
      refine Makes.pure ⟨?_, τ₂, h₁.append h₂ hle₁ hle₂, .cons ?_ ?_⟩
      · exact List.forall_mem_cons.mpr ⟨⟨hatom, hknownA.mono hle₂, hplainA _ hplain.1⟩, hatoms⟩
      · exact htrace.trans (hknownA.traces h₂.agree)
      · exact forall₂_imp_of_mem htraces fun e he a ha => (hkept e he).trans ha

/-- An expression that is no atom is defined. -/
theorem exists_definition (he : e ∈ es) (hatom : ¬ e.isAtom) (n : VarId) :
    ∃ m, Constraint.eq e (ofInt (e.auxiliaryVar m)) ∈ (atomizeAll es n).1.2 := by
  induction es generalizing n with
  | nil => cases he
  | cons e' es ih =>
      rcases List.mem_cons.mp he with rfl | he
      · have hdefinition : (e.atomize n).1.2 = [eq e (ofInt (e.auxiliaryVar n))] := by
          rw [atomize, if_neg hatom]
          rfl
        refine ⟨n, List.mem_append_left _ ?_⟩
        exact hdefinition.symm ▸ List.mem_cons_self
      · obtain ⟨m, hm⟩ := ih he (e'.atomize n).2
        exact ⟨m, List.mem_append_right _ hm⟩

/-- A definition is true only if the name can take a value of the expression. -/
theorem nameable_of_definition {m : VarId} (hσ : σ.Covers [eq e (ofInt (e.auxiliaryVar m))])
    (h : (eq e (ofInt (e.auxiliaryVar m))).evaluate σ = .ok true) : e.Nameable σ := by
  obtain ⟨v, w, hv, hw, heq⟩ := evaluate_eq_iff.mp h
  obtain ⟨w', hw', hcontains⟩ := hσ _ List.mem_cons_self (.int (e.auxiliaryVar m))
    (List.mem_append_right _ List.mem_cons_self)
  obtain rfl : w' = w := Option.some.inj (hw'.symm.trans (orUndefined_eq_ok_iff.mp hw))
  obtain rfl : v = w' := of_decide_eq_true heq
  exact .inr ⟨v, hv, hcontains⟩

/-- Where the bounds enclose the values, it is the 32-bit values that can be named. -/
theorem nameable_iff (hσ : Inside σ e.occurrences)
    (hno : e.Everywhere fun o => ¬ o.Escapes σ) :
    e.Nameable σ ↔ e.isAtom = true ∨ ∃ v, e.evaluate σ = .ok v ∧ word32.Fits v := by
  constructor
  · exact Or.imp_right fun ⟨v, hv, hcontains⟩ => ⟨v, hv, Domain.fits_of_contains hcontains⟩
  · refine Or.imp_right fun ⟨v, hv, hfits⟩ => ⟨v, hv, ?_⟩
    obtain ⟨hl, hu⟩ := holds_bounds hσ hno hv
    exact Domain.contains_clamped hfits hl hu

end Expr

theorem ne_nil_of_lookup (h : (eq (.element array index) result).evaluate σ = .ok true) :
    array ≠ [] := by
  rintro rfl
  obtain ⟨v, w, hv, -, -⟩ := evaluate_eq_iff.mp h
  obtain ⟨i, item, -, hitem, -⟩ := Expr.evaluate_element_iff.mp hv
  cases hitem

theorem decompose_lookup (hresult : result.isAtom = true) (n : VarId) :
    (eq (.element array index) result).decompose.run n =
      (some (decomposeElement array index result n).1,
        (decomposeElement array index result n).2) := by
  obtain ⟨a, rfl⟩ := Expr.isAtom_iff.mp hresult
  rfl

/-- The index and the items are defined. -/
theorem exists_definition_of_lookup (harray : array ≠ []) (he : e ∈ index :: array)
    (hatom : ¬ e.isAtom) (result : Expr) (n : VarId) :
    ∃ m, eq e (ofInt (e.auxiliaryVar m)) ∈ (decomposeElement array index result n).1 := by
  obtain ⟨m, hm⟩ := Expr.exists_definition he hatom n
  refine ⟨m, ?_⟩
  rw [decomposeElement, if_neg (by simpa using harray)]
  exact List.mem_append_left _ (List.mem_append_left _ hm)

/-- If the index and the items are nameable, the pieces of the decomposition can be made true. -/
theorem makes_lookup (hknown : ∀ e ∈ index :: array, e.KnownTo r)
    (hplain : ∀ e ∈ index :: array, e.Plain .words) (hlength : array.length ≤ 2 ^ 63)
    (hresult : result.isAtom = true ∧ result.KnownTo r ∧ result.Plain .words)
    (hτ : r.Respects τ) (hnameable : ∀ e ∈ index :: array, e.Nameable (total τ))
    (htrue : (eq (.element array index) result).evaluate (total τ) = .ok true) :
    Makes r (decomposeElement array index result) fun pieces r' => ∃ τ', Fulfils r r' τ τ' pieces := by
  rw [List.forall_mem_cons] at hknown hplain hnameable
  rw [decomposeElement, if_neg (by simpa using ne_nil_of_lookup htrue)]
  refine (Expr.makes_name hknown.1 hτ hnameable.1).bind fun p r₁ hle₁ hp => ?_
  obtain ⟨index', definitionsI⟩ := p
  obtain ⟨hatomI, hknownI, hplainI, τ₁, h₁, htraceI⟩ := hp
  have hkept : ∀ e ∈ array, Traces (total τ) (total τ₁) e e := fun e he =>
    (hknown.2 e he).traces h₁.agree
  refine (Expr.makes_names (fun e he => (hknown.2 e he).mono hle₁) hplain.2 h₁.respects
    fun e he => (hnameable.2 e he).of_traces (hkept e he)).bind fun q r₂ hle₂ hq => ?_
  obtain ⟨items, definitionsA⟩ := q
  obtain ⟨hitems, τ₂, h₂, htraces⟩ := hq
  have hle := Registry.le_trans hle₁ hle₂
  have hnames := h₁.append h₂ hle₁ hle₂
  have hselectable : ∀ alternative ∈ itemAlternatives index' result 0 items,
      Selectable .narrow r₂ alternative :=
    reifiable_items (htraces.length_eq.symm.trans_le hlength)
      ⟨hatomI, hknownI.mono hle₂, hplainI _ hplain.1⟩ hitems
      ⟨hresult.1, hresult.2.1.mono hle, hresult.2.2⟩
  have hselect := makes_select [] (by simp) hselectable
  rw [← selectItems_eq] at hselect
  refine hselect.bind fun s r₃ hle₃ hs => ?_
  obtain ⟨constraints, selectors⟩ := s
  apply Makes.pure
  have harray : List.Forall₂ (Traces (total τ) (total τ₂)) array items :=
    forall₂_imp_of_mem htraces fun e he a ha => (hkept e he).trans ha
  have helement := Traces.element harray (htraceI.trans (hknownI.traces h₂.agree))
  have hchosen : Chosen [] (itemAlternatives index' result 0 items) τ₂ :=
    chosen_items_iff.mpr (Constraint.evaluate_comparison_of_traces helement
      (hresult.2.1.traces hnames.agree) htrue)
  obtain ⟨τ₃, h₃⟩ := hs.exists_fulfils trivial h₂.respects hchosen
  refine ⟨τ₃, ?_⟩
  simpa only [List.append_assoc, List.nil_append] using hnames.append h₃ hle hle₃

section Pieces

variable (hresult : result.isAtom = true) (hknown : (eq (.element array index) result).KnownTo r)
  (htrue : (eq (.element array index) result).evaluate σ = .ok true)

theorem part_of_lookup (he : e ∈ index :: array) : e ∈ (Expr.element array index).parts :=
  Expr.mem_parts_of_operand (by simpa [Expr.operands, or_comm] using he)

theorem mem_occurrences_of_lookup (he : e ∈ index :: array) {x : Variable}
    (hx : x ∈ e.occurrences) : x ∈ (eq (.element array index) result).occurrences :=
  List.mem_append_left _ (Expr.mem_occurrences_of_part (part_of_lookup he) hx)

include hknown htrue in
/-- Values that make the pieces true make all definitions true. -/
theorem nameable_of_pieces (hagree : ∀ id < r.next, σ' id = σ id)
    (hcovers : σ'.Covers (decomposeElement array index result r.next).1)
    (hall : ∀ p ∈ (decomposeElement array index result r.next).1, p.evaluate σ' = .ok true) :
    ∀ e ∈ index :: array, e.Nameable σ := by
  intro e he
  by_cases hatom : e.isAtom
  · exact .inl hatom
  · obtain ⟨m, hm⟩ := exists_definition_of_lookup (ne_nil_of_lookup htrue) he hatom result r.next
    have hnameable := Expr.nameable_of_definition (List.forall_mem_singleton.mpr (hcovers _ hm))
      (hall _ hm)
    refine hnameable.of_traces (Expr.traces_self fun x hx v hv => ?_)
    rwa [← hagree x.id (hknown x (mem_occurrences_of_lookup he hx)).1]

include hresult hknown htrue in
/-- Values that make the element equal the result are extended to the new variables. -/
theorem exists_pieces_of_nameable (hplain : (eq (.element array index) result).Plain .words)
    (hσ : σ.Covers [eq (.element array index) result])
    (hnameable : ∀ e ∈ index :: array, e.Nameable σ) :
    ∃ σ' : Assignment, (∀ id < r.next, σ' id = σ id) ∧
      σ'.Covers (decomposeElement array index result r.next).1 ∧
      ∀ p ∈ (decomposeElement array index result r.next).1, p.evaluate σ' = .ok true := by
  have helement : ¬ (Expr.element array index).isAtom := by simp [Expr.isAtom, Expr.asAtom?]
  obtain ⟨hknownE, hknownR⟩ := Constraint.knownTo_comparison_iff.mp hknown
  obtain ⟨hplainE, hplainR⟩ := hplain.sides (by simp [helement])
  have hcomplete := hσ.total_complete (List.forall_mem_singleton.mpr hknown) _ List.mem_cons_self
  have hkept : ∀ e ∈ index :: array, Traces σ (total (r.complete σ)) e e := fun e he =>
    Expr.traces_self fun x hx v hv => (hcomplete x (mem_occurrences_of_lookup he hx)).trans hv
  obtain ⟨r', -, -, τ', hfulfils⟩ := makes_lookup (fun e he => hknownE.part (part_of_lookup he))
    (fun e he => hplainE.part (part_of_lookup he)) (hplainE.1.trans (by decide))
    ⟨hresult, hknownR, hplainR⟩ (r.respects_complete σ)
    (fun e he => (hnameable e he).of_traces (hkept e he)) (evaluate_congr hcomplete htrue)
  refine ⟨_, fun id hid => Assignment.extended_of_lt hid, hfulfils.extended fun p hp x hx => ?_⟩
  have hx' := mem_occurrences_of_piece hknown hplain (decompose_lookup hresult r.next) hp hx
  exact hx'.symm.imp_right (hcomplete x)

end Pieces

/-- Where an element has the result, the pieces of its decomposition can be made true by values of
the new variables if and only if the index and all items, the selected one or not, are atoms or have
values that their names can take. These are the 32-bit values, unless a part of the expression
escapes its bounds. -/
theorem lookup_satisfiable_iff (hresult : result.isAtom = true)
    (hknown : (eq (.element array index) result).KnownTo r)
    (hplain : (eq (.element array index) result).Plain .words)
    (hσ : σ.Covers [eq (.element array index) result])
    (htrue : (eq (.element array index) result).evaluate σ = .ok true) :
    (∃ pieces next, (eq (.element array index) result).decompose.run r.next = (some pieces, next) ∧
      ((∃ σ' : Assignment, (∀ id < r.next, σ' id = σ id) ∧ σ'.Covers pieces ∧
          ∀ p ∈ pieces, p.evaluate σ' = .ok true) ↔
        ∀ e ∈ index :: array, e.Nameable σ)) ∧
      ∀ e ∈ index :: array, (e.Everywhere fun o => ¬ o.Escapes σ) →
        (e.Nameable σ ↔ e.isAtom = true ∨ ∃ v, e.evaluate σ = .ok v ∧ word32.Fits v) := by
  refine ⟨⟨_, _, decompose_lookup hresult r.next, ?_, ?_⟩, fun e he => ?_⟩
  · rintro ⟨σ', hagree, hcovers, hall⟩
    exact nameable_of_pieces hknown htrue hagree hcovers hall
  · exact exists_pieces_of_nameable hresult hknown htrue hplain hσ
  · have hinside := Assignment.Assigns.inside (hσ _ List.mem_cons_self)
    exact Expr.nameable_iff fun x hx => hinside x (mem_occurrences_of_lookup he hx)

/-- The square of a digit or its predecessor, as another digit says, is 9. -/
def squareOrPredecessor : Constraint :=
  .eq (.element [.binary .mul (.ofInt (digit 0)) (.ofInt (digit 0)),
    .binary .sub (.ofInt (digit 0)) (.constant 1)] (.ofInt (digit 1))) (.constant 9)

/-- Square and predecessor have names for the digit 3, and the square is selected. -/
theorem lookup_satisfiable_iff_squareOrPredecessor : ∃ (pieces : List Constraint) (next : VarId)
    (σ : Assignment), squareOrPredecessor.decompose.run 2 = (some pieces, next) ∧
      pieces.length = 7 ∧ σ 0 = some 3 ∧ σ 1 = some 0 ∧ σ.Covers pieces ∧
      ∀ p ∈ pieces, p.evaluate σ = .ok true := by
  have hvars : ∀ x ∈ squareOrPredecessor.occurrences, x = .int (digit 0) ∨ x = .int (digit 1) := by
    simp [squareOrPredecessor, Constraint.eq, Constraint.occurrences, Expr.occurrences,
      Expr.occurrencesIn, Expr.ofInt, Expr.constant, Atom.vars]
  have hknown : squareOrPredecessor.KnownTo ⟨fun id => .int (digit id), 2⟩ := by
    intro x hx
    rcases hvars x hx with rfl | rfl <;> exact ⟨by decide, rfl⟩
  have hplain : squareOrPredecessor.Plain .words := by
    simp [squareOrPredecessor, Constraint.Plain, Constraint.eq, Expr.Plain, Expr.Tame, Expr.parts,
      Expr.partsIn, Atom.Plain, Expr.ofInt, Expr.constant, Scope.Admits, Scope.limit, Word.Fits,
      word64, Expr.isAtom, Expr.asAtom?]
  let σ : Assignment := fun id => if id = 0 then some 3 else some 0
  have hσ : σ.Covers [squareOrPredecessor] := by
    refine List.forall_mem_singleton.mpr fun x hx => ?_
    rcases hvars x hx with rfl | rfl
    · exact ⟨3, rfl, rfl⟩
    · exact ⟨0, rfl, rfl⟩
  obtain ⟨⟨pieces, next, hpieces, hiff⟩, -⟩ := lookup_satisfiable_iff rfl hknown hplain hσ rfl
  obtain ⟨σ', hagree, hcovers, htrue⟩ := hiff.mpr <| by
    refine List.forall_mem_cons.mpr ⟨.inl rfl, List.forall_mem_cons.mpr ⟨.inr ⟨9, rfl, rfl⟩,
      List.forall_mem_singleton.mpr (.inr ⟨2, rfl, rfl⟩)⟩⟩
  cases hpieces
  exact ⟨_, _, σ', rfl, rfl, hagree 0 (by decide), hagree 1 (by decide), hcovers, htrue⟩

/-- The first of the number 5 and a quotient is 5. -/
def unselectedQuotient : Constraint :=
  .eq (.element [.constant 5,
    .binary .div (.constant 1) (.ofInt ⟨0, "IV0", .interval 0 0 (by decide) (by decide)⟩)]
    (.constant 0)) (.constant 5)

/-- The quotient is undefined for 0. Though it is not selected, the pieces cannot be true. -/
theorem unselectedQuotient_blocks :
    Assignment.Covers (fun _ => some 0) [unselectedQuotient] ∧
      unselectedQuotient.evaluate (fun _ => some 0) = .ok true ∧
      ∃ pieces next, unselectedQuotient.decompose.run 1 = (some pieces, next) ∧
        ∀ σ : Assignment, σ 0 = some 0 → ∃ p ∈ pieces, p.evaluate σ ≠ .ok true := by
  refine ⟨?_, rfl, _, _, rfl, fun σ hσ => ⟨_, List.mem_cons_self, fun htrue => ?_⟩⟩
  · exact List.forall_mem_singleton.mpr (List.forall_mem_singleton.mpr ⟨0, rfl, rfl⟩)
  · obtain ⟨v, w, hv, -, -⟩ := evaluate_eq_iff.mp htrue
    obtain ⟨x, y, hx, hy, hv⟩ := Expr.evaluate_binary_iff.mp hv
    obtain rfl : y = 0 := Option.some.inj ((orUndefined_eq_ok_iff.mp hy).symm.trans hσ)
    cases hv

end FiniteDomain
