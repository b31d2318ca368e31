import FiniteDomain.Proofs.Constraint.Selection

/-!
# Odd sums

That an odd number of 0-1 terms is 1 is written as a weighted sum: the terms minus twice some
number are 1. The sum stays inside 64 bits as long as the number of terms does.
-/

namespace FiniteDomain

open FiniteDomain.Expr (Values ofInt)
open Constraint (eq evaluate_eq_iff knownTo_comparison_iff)

variable {scope : Scope} {r r' : Registry} {τ τ' : VarId → Int} {terms : List Expr} {vs : List Int}

/-- Every value is 0 or 1. -/
def AreBits (vs : List Int) : Prop := ∀ v ∈ vs, v = 0 ∨ v = 1

theorem sum_bounds (h : AreBits vs) : 0 ≤ vs.sum ∧ vs.sum ≤ vs.length := by
  induction vs with
  | nil => simp
  | cons v vs ih =>
      obtain ⟨hv, hvs⟩ := List.forall_mem_cons.mp h
      have := ih hvs
      simp only [List.sum_cons, List.length_cons]
      omega

theorem isOdd_iff (h : AreBits vs) : isOdd (vs.map (· != 0)) = true ↔ vs.sum % 2 = 1 := by
  have hcount : ((vs.map (· != 0)).countP id : Int) = vs.sum := by
    induction vs with
    | nil => rfl
    | cons v vs ih =>
        obtain ⟨hv, hvs⟩ := List.forall_mem_cons.mp h
        rw [List.map_cons, List.countP_cons, List.sum_cons, Nat.cast_add, ih hvs, Int.add_comm]
        rcases hv with rfl | rfl <;> rfl
  rw [isOdd, beq_iff_eq, ← hcount]
  omega

/-- Adding bits and one more number overflows only if the result does. -/
theorem addAll_bits {total last : Int} (h : AreBits vs) (htotal : 0 ≤ total)
    (hfits : total + vs.length ≤ word64.max) (hlast : word64.Fits (total + vs.sum + last)) :
    addAll total (vs ++ [last]) = some (total + vs.sum + last) := by
  induction vs generalizing total with
  | nil =>
      simp only [List.sum_nil, Int.add_zero] at hlast ⊢
      exact addAll_cons_eq_some_iff.mpr ⟨hlast, rfl⟩
  | cons v vs ih =>
      obtain ⟨hv, hvs⟩ := List.forall_mem_cons.mp h
      simp only [List.sum_cons, List.length_cons, Nat.cast_succ] at hlast hfits ⊢
      rw [← Int.add_assoc] at hlast ⊢
      refine addAll_cons_eq_some_iff.mpr ⟨?_, ih hvs (by omega) (by omega) hlast⟩
      simp only [Word.Fits, word64] at hfits ⊢
      omega

/-- The weights of the terms, and that of the number that is doubled. -/
theorem zipWith_weights (vs : List Int) (half : Int) :
    List.zipWith (· * ·) (List.replicate vs.length 1 ++ [-2]) (vs ++ [half]) =
      vs ++ [-2 * half] := by
  induction vs with
  | nil => rfl
  | cons v vs ih =>
      rw [List.length_cons, List.replicate_succ, List.cons_append, List.cons_append,
        List.zipWith_cons_cons, ih, Int.one_mul, List.cons_append]

/-- The sum of the terms minus twice a number. -/
theorem evaluate_halved {half : IntVar} (hvs : Values (total τ) terms vs) (hbits : AreBits vs)
    (hlength : terms.length < 2 ^ 63) (hhalf : 0 ≤ τ half.id ∧ word32.Fits (τ half.id)) :
    (Expr.weightedSum (List.replicate terms.length 1 ++ [-2]) (terms ++ [ofInt half])).evaluate
      (total τ) = .ok (vs.sum - 2 * τ half.id) := by
  have hsum := sum_bounds hbits
  have hlength' := List.Forall₂.length_eq hvs
  simp only [Word.Fits, word32] at hhalf
  refine Expr.evaluateWeighted_iff.mpr ⟨vs ++ [τ half.id], ?_, ?_, ?_⟩
  · rw [List.take_of_length_le (by simp)]
    exact List.rel_append hvs (.cons rfl .nil)
  · rw [hlength', zipWith_weights]
    intro p hp
    rcases List.mem_append.mp hp with hp | hp
    · rcases hbits p hp with rfl | rfl <;> decide
    · obtain rfl := List.mem_singleton.mp hp
      simp only [Word.Fits, word64]
      omega
  · rw [hlength', zipWith_weights, addAll_bits hbits le_rfl]
    · rw [Int.zero_add, Int.neg_mul, Int.sub_eq_add_neg]
    · simp only [word64]
      omega
    · simp only [Word.Fits, word64]
      omega

/-- The terms minus twice the number are 1. -/
def parityEquation (terms : List Expr) (half : IntVar) : Constraint :=
  eq (.weightedSum (List.replicate terms.length 1 ++ [-2]) (terms ++ [ofInt half])) (.constant 1)

theorem knownTo_parityEquation {half : IntVar} (hknown : ∀ e ∈ terms, e.KnownTo r)
    (hhalf : r.Knows (.int half)) : (parityEquation terms half).KnownTo r := by
  have hsum : ¬ (Expr.weightedSum (List.replicate terms.length 1 ++ [-2])
      (terms ++ [ofInt half])).isAtom := by simp [Expr.isAtom, Expr.asAtom?]
  refine knownTo_comparison_iff.mpr ⟨(Expr.knownTo_iff_operands hsum).mpr ?_, knownTo_constant 1⟩
  exact List.forall_mem_append.mpr
    ⟨hknown, List.forall_mem_singleton.mpr (Expr.knownTo_ofInt hhalf)⟩

theorem plain_parityEquation {half : IntVar} (hplain : ∀ e ∈ terms, e.Plain scope)
    (hlength : terms.length < 2 ^ 31) : (parityEquation terms half).Plain scope := by
  refine Constraint.plain_comparison (Expr.plain_iff_operands.mpr ⟨⟨?_, ?_⟩, ?_⟩)
    (plain_constant (admits_natCast (n := 1) (by decide)))
  · intro w hw
    rcases List.mem_append.mp hw with hw | hw
    · rw [List.eq_of_mem_replicate hw]
      decide
    · rw [List.mem_singleton.mp hw]
      decide
  · simpa using (Nat.succ_le_of_lt hlength).trans scope.le_limit
  · exact List.forall_mem_append.mpr
      ⟨hplain, List.forall_mem_singleton.mpr (Expr.plain_ofInt half)⟩

theorem encodes_parityEquation {half : IntVar} (hknown : ∀ e ∈ terms, e.KnownTo r)
    (hplain : ∀ e ∈ terms, e.Plain scope) (hatom : ∀ e ∈ terms, e.isAtom = true)
    (hlength : terms.length < 2 ^ 31) (hhalf : r.Knows (.int half))
    (hrange : ∀ τ, r.Respects τ → 0 ≤ τ half.id ∧ word32.Fits (τ half.id))
    (hbits : ∀ τ, r.Respects τ → ∃ vs, Values (total τ) terms vs ∧ AreBits vs) :
    Encodes scope r r [parityEquation terms half]
      (fun τ => ∃ vs, Values (total τ) terms vs ∧ AreBits vs ∧ vs.sum - 2 * τ half.id = 1)
      fun τ => ∃ vs, Values (total τ) terms vs ∧ AreBits vs ∧ vs.sum - 2 * τ half.id = 1 := by
  have hlength' : terms.length < 2 ^ 63 := hlength.trans (by decide)
  apply (Encodes.single (knownTo_parityEquation hknown hhalf)
    (plain_parityEquation hplain hlength)).weaken
  · intro τ hτ hnot
    obtain ⟨vs, hvs, hbits⟩ := hbits τ hτ
    have hvalue := evaluate_halved hvs hbits hlength' (hrange τ hτ)
    exact ⟨vs, hvs, hbits, Constraint.not_fails_eq_iff.mp hnot _ 1 hvalue rfl⟩
  · rintro τ hτ ⟨vs, hvs, hbits, hone⟩
    have hvalue := evaluate_halved hvs hbits hlength' (hrange τ hτ)
    have hatoms : ∀ e ∈ terms ++ [ofInt half], e.isAtom = true :=
      List.forall_mem_append.mpr ⟨hatom, List.forall_mem_singleton.mpr rfl⟩
    refine Constraint.realised_eq (hone ▸ hvalue) rfl fun o ho => ?_
    have hnone : (Expr.weightedSum (List.replicate terms.length 1 ++ [-2])
        (terms ++ [ofInt half])).equated (.constant 1) = [] :=
      Expr.equated_eq_nil (List.all_eq_true.mpr hatoms) rfl
    rw [hnone] at ho
    cases ho

/-- Whether an odd number of the terms is 1. -/
theorem makes_decomposeParity (hknown : ∀ e ∈ terms, e.KnownTo r)
    (hplain : ∀ e ∈ terms, e.Plain scope) (hatom : ∀ e ∈ terms, e.isAtom = true)
    (hlength : terms.length < 2 ^ 31)
    (hbits : ∀ τ, r.Respects τ → ∃ vs, Values (total τ) terms vs ∧ AreBits vs) :
    Makes r (decomposeParity terms) fun pieces r' => Encodes scope r r' pieces
      (fun τ => ∃ vs, Values (total τ) terms vs ∧ AreBits vs ∧ vs.sum % 2 = 1)
      fun τ => ∃ vs, Values (total τ) terms vs ∧ AreBits vs ∧ vs.sum % 2 = 1 := by
  rw [decomposeParity]
  split
  · next hempty =>
    obtain rfl := List.isEmpty_iff.mp hempty
    apply Makes.pure
    refine (Encodes.single (Constraint.knownTo_constant false) trivial).weaken
      (fun τ _ h => absurd rfl h) ?_
    rintro τ - ⟨vs, hvs, -, hodd⟩
    cases hvs
    cases hodd
  refine makes_intVar.bind fun half r₁ _ hhalf => ?_
  obtain ⟨hid, hdomain, rfl⟩ := hhalf
  have hle := r.le_extend (.int half)
  have hknows := Registry.knows_extend (x := .int half) hid
  have hrange : ∀ τ, (r.extend (.int half)).Respects τ →
      0 ≤ τ half.id ∧ word32.Fits (τ half.id) := by
    intro τ hτ
    have hcontains : half.domain.contains (τ half.id) = true := hτ.contains hknows
    refine ⟨?_, Domain.fits_of_contains hcontains⟩
    rw [hdomain, Domain.clamped, Domain.contains, Bool.and_eq_true, decide_eq_true_eq] at hcontains
    exact le_trans (by decide) hcontains.1
  have hencodes := encodes_parityEquation (fun e he => (hknown e he).mono hle) hplain hatom hlength
    hknows hrange fun τ hτ => hbits τ (hτ.mono hle)
  apply Makes.pure
  refine Encodes.create (x := .int half) hid (hencodes.weaken ?_ fun τ _ h => h) ?_
  · rintro τ - ⟨vs, hvs, hbits, hone⟩
    exact ⟨vs, hvs, hbits, by omega⟩
  · -- the number that is doubled is half of the sum, rounded down
    rintro - τ hτ ⟨vs, hvs, hbits, hodd⟩
    have hsum := sum_bounds hbits
    have hlength' := List.Forall₂.length_eq hvs
    refine ⟨vs.sum / 2, ?_, fun τ' hagree hτ' => ⟨vs, ?_, hbits, ?_⟩⟩
    · rw [Variable.domain, hdomain]
      apply Domain.contains_clamped
      · simp only [Word.Fits, word32]
        omega
      · omega
      · omega
    · exact hvs.traces (List.forall₂_same.mpr fun e he => (hknown e he).traces hagree)
    · rw [show τ' half.id = vs.sum / 2 from hτ']
      omega

end FiniteDomain
