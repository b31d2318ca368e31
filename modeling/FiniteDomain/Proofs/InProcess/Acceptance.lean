import FiniteDomain.Proofs.Constraint.Preservation
import FiniteDomain.Proofs.InProcess.Derivations

/-!
# Which constraints are accepted

A backend may have been given any constraints before, whether it accepted them or not. Lowering one
more terminates, and whether it is accepted is a matter of its syntax alone: no earlier constraint
matters, and neither do domains, except where bounds of a structured side have to fit 32 bits.
-/

namespace FiniteDomain.InProcess

open Engine (Bounded)

variable {s s' : Lowering.State InProcess} {c : Constraint} {given : List Constraint}
  {objective : Expr} {direction : Direction} {options : SolveOptions}

/-- The states of a backend that was given the constraints, latest first. Sessions create variables
and note events of their own. -/
inductive Reached : List Constraint → Lowering.State InProcess → Prop
  | start (nextId : VarId) (journal : Array Event) : Reached [] { backend := {}, nextId, journal }
  | elsewhere {given : List Constraint} {s : Lowering.State InProcess} (nextId : VarId)
      (journal : Array Event) : Reached given s → Reached given { s with nextId, journal }
  | bind {given : List Constraint} {s s' : Lowering.State InProcess} {x : Variable} :
      Reached given s → Ended (bind x) s s' → Reached given s'
  | post {given : List Constraint} {s s' : Lowering.State InProcess} {c : Constraint} :
      Reached given s → Ended (post c) s s' → Reached (c :: given) s'
  | setObjective {given : List Constraint} {s s' : Lowering.State InProcess} {objective : Expr}
      {direction : Direction} : Reached given s → Ended (setObjective objective direction) s s' →
      Reached given s'
  | solve {given : List Constraint} {s s' : Lowering.State InProcess} {options : SolveOptions} :
      Reached given s → Ended (solve options) s s' → Reached given s'

theorem Leads.settles {cs : List Constraint} (h : Leads cs s s')
    (hbounded : (∀ c ∈ given, c.Moderate) → Bounded s.backend.engine) :
    Ready s' ∧ ((∀ c ∈ cs ++ given, c.Moderate) → Bounded s'.backend.engine) := by
  refine ⟨h.ready, fun hall => ?_⟩
  obtain ⟨hcs, hgiven⟩ := List.forall_mem_append.mp hall
  exact h.bounded hcs (hbounded hgiven)

/-- Between two calls a backend is ready, and its linear equalities are bounded if all constraints
that it was given are moderate. -/
theorem Reached.ready (h : Reached given s) :
    Ready s ∧ ((∀ c ∈ given, c.Moderate) → Bounded s.backend.engine) := by
  induction h with
  | start nextId journal =>
      exact ⟨⟨Engine.resting_fresh, fun id v h => by cases h⟩, fun _ p hp => by simp at hp⟩
  | elsewhere nextId journal _ ih => exact ⟨ih.1.of_backend rfl, ih.2⟩
  | bind _ h ih => exact (leads_bind ih.1 h).settles ih.2
  | post _ h ih => exact (leads_post ih.1 h).settles ih.2
  | setObjective _ h ih => exact (leads_setObjective ih.1 h).settles ih.2
  | solve _ h ih => exact (leads_solve ih.1 h).settles ih.2

/-- Lowering a constraint whose weighted sums have one weight per term terminates, with every run of
propagators that it starts, and posts the constraint if and only if its syntax is that of an accepted
one. No intermediate result overflows, if this constraint and those before are of a size that can be
counted. -/
theorem posted_iff_accepted (hs : Reached given s) (hbalanced : c.Balanced) :
    Lowers c s (post c s) ∧
      (∀ s', post c s = .ok () s' → c.Accepted) ∧
      (∀ e s', post c s = .error (.error e) s' → ¬ c.Accepted) ∧
      ((∀ d ∈ c :: given, d.Sized) →
        (c.Accepted → ∃ s', post c s = .ok () s') ∧
        (¬ c.Accepted → ∃ e s', post c s = .error (.error e) s')) := by
  obtain ⟨hready, hbounded⟩ := hs.ready
  have hlowered := lowered_post hready c
  have hok : ∀ s', post c s = .ok () s' → c.Accepted := fun s' h => by
    rw [h] at hlowered
    exact hlowered.2.1 c List.mem_cons_self
  have herror : ∀ e s', post c s = .error (.error e) s' → ¬ c.Accepted := fun e s' h haccepted => by
    rw [h] at hlowered
    exact hlowered.2 (List.forall_mem_singleton.mpr ⟨hbalanced, haccepted⟩)
  refine ⟨lowers_post hready c, hok, herror, fun hsized => ?_⟩
  obtain ⟨hc, hgiven⟩ := List.forall_mem_cons.mp hsized
  match hrun : post c s with
  | .ok _ s' => exact ⟨fun _ => ⟨s', rfl⟩, fun h => absurd (hok s' hrun) h⟩
  | .error (.error e) s' => exact ⟨fun h => absurd h (herror e s' hrun), fun _ => ⟨e, s', rfl⟩⟩
  | .error .overflow s' =>
    rw [hrun] at hlowered
    refine absurd ⟨?_, hbounded fun d hd => (hgiven d hd).moderate⟩ hlowered
    exact List.forall_mem_singleton.mpr hc.moderate

/-- The digit is at most 3. -/
def atMostThree : Constraint := .comparison .lessOrEqual (.ofInt (digit 0)) (.constant 3)

/-- One more than the digit is 4, or the digit is 0. -/
def threeOrZero : Constraint :=
  .or [.eq (.sum [.ofInt (digit 0), .constant 1]) (.constant 4), .eq (.ofInt (digit 0)) (.constant 0)]

/-- Both are accepted, one after the other. -/
theorem posted_iff_accepted_digit :
    ∃ s s', Reached [atMostThree] s ∧ post threeOrZero s = .ok () s' := by
  have hatom : ∀ {P : Expr → Prop}, P (.ofInt (digit 0)) → (Expr.ofInt (digit 0)).Everywhere P :=
    Expr.everywhere_of_isAtom rfl
  have hconstant : ∀ {P : Expr → Prop} {value}, P (.constant value) →
      (Expr.constant value).Everywhere P := Expr.everywhere_of_isAtom rfl
  have hsum : ∀ {P : Expr → Prop}, P (.sum [.ofInt (digit 0), .constant 1]) → P (.ofInt (digit 0)) →
      P (.constant 1) → (Expr.sum [.ofInt (digit 0), .constant 1]).Everywhere P := fun h hx hone =>
    Expr.everywhere_iff.mpr ⟨h, by simp [Expr.operands, hatom hx, hconstant hone]⟩
  have hfits : ∀ value ∈ [0, 1, 3, 4], word64.Fits value := by decide
  have hfirst : atMostThree.Sized := ⟨hatom trivial, hconstant (hfits 3 (by simp))⟩
  have hsecond : threeOrZero.Sized := Constraint.everywhereIn_iff.mpr <| by
    simp only [List.forall_mem_cons, List.not_mem_nil, false_implies, implies_true, and_true]
    exact ⟨⟨hsum (show 2 < 2 ^ 31 by decide) trivial (hfits 1 (by simp)), hconstant (hfits 4 (by simp))⟩,
      hatom trivial, hconstant (hfits 0 (by simp))⟩
  have hbalanced : threeOrZero.Balanced := Constraint.everywhereIn_iff.mpr <| by
    simp only [List.forall_mem_cons, List.not_mem_nil, false_implies, implies_true, and_true]
    exact ⟨⟨hsum trivial trivial trivial, hconstant trivial⟩, hatom trivial, hconstant trivial⟩
  have haccepted : threeOrZero.Accepted := Constraint.accepted_or_iff.mpr <| by
    simp only [List.forall_mem_cons, List.not_mem_nil, false_implies, implies_true, and_true]
    exact ⟨Constraint.conditional_comparison_iff.mpr (by decide), .reifiable rfl⟩
  obtain ⟨s, hs⟩ := ((posted_iff_accepted (c := atMostThree) (.start 1 #[])
    ⟨hatom trivial, hconstant trivial⟩).2.2.2 (List.forall_mem_singleton.mpr hfirst)).1
      (.comparison _ _ _)
  have hreached : Reached [atMostThree] s := .post (.start 1 #[]) (.inl ⟨(), hs⟩)
  obtain ⟨s', hs'⟩ := ((posted_iff_accepted hreached hbalanced).2.2.2
    (List.forall_mem_cons.mpr ⟨hsecond, List.forall_mem_singleton.mpr hfirst⟩)).1 haccepted
  exact ⟨s, s', hreached, hs'⟩

end FiniteDomain.InProcess
