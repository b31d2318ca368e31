import FiniteDomain.Proofs.InProcess.Lowering

/-!
# Lowering takes finitely many steps

A constraint with a propagator meets its variables and tells the engine of the propagator, which
starts the loop of propagation. Any other constraint is decomposed, and its pieces are lowered one
after the other. Here both are said without a bound, as what a terminating run leads to: no bound on
the nesting of pieces is reached, and neither is one on the runs of propagators that any of them
starts.
-/

namespace FiniteDomain.InProcess

open Engine (Propagator Running Failure Enlists)

variable {s s' : Lowering.State InProcess} {c : Constraint} {cs : List Constraint} {p : Propagator}
  {r : EStateM.Result Stop (Lowering.State InProcess) Unit}

/-! ## Telling the engine -/

/-- What lowering makes of an outcome of the engine: its journal is taken over. -/
def resumed (s : Lowering.State InProcess) :
    EStateM.Result Failure Engine Unit → EStateM.Result Stop (Lowering.State InProcess) Unit
  | .ok _ e => .ok () (taken e)
  | .error _ e => .error .overflow (taken e)
where
  taken (e : Engine) : Lowering.State InProcess :=
    { s with
      backend := { s.backend with engine := { e with journal := #[] } }
      journal := s.journal ++ e.journal.map .engine }

theorem onEngine_eq (action : Running Unit) (s : Lowering.State InProcess) :
    onEngine action s = resumed s (action { s.backend.engine with journal := #[] }) := by
  simp only [onEngine]
  cases action { s.backend.engine with journal := #[] } <;> rfl

/-- The terminating runs for a constraint with a propagator: variables are met, and then the engine is
told of the propagator, or the constraint is refused. -/
inductive Tells (s : Lowering.State InProcess) :
    EStateM.Result Stop (Lowering.State InProcess) Unit → Prop
  | told {s₁ : Lowering.State InProcess} {p : Propagator} {r : EStateM.Result Failure Engine Unit} :
      Meets [] s s₁ → Enlists p { s₁.backend.engine with journal := #[] } r → Tells s (resumed s₁ r)
  | refused {s₁ : Lowering.State InProcess} {e : LoweringError} : Meets [] s s₁ →
      Tells s (.error (.error e) s₁)

/-- Telling the engine of a propagator is a terminating run. -/
theorem tells_post (hmeets : Meets [] s s') (hp : p.Created s'.backend.engine.store) :
    Tells s (onEngine (Running.post p) s') := by
  rw [onEngine_eq]
  exact .told hmeets (Engine.enlists_post (hmeets.ready.resting.journal #[]) hp)

theorem Direct.tells (h : Direct c s r) : Tells s r := by
  cases h with
  | posted _ _ hposting =>
      obtain ⟨s₁, p, hmeets, hp, -, rfl⟩ := hposting
      exact tells_post (hmeets.subset (List.nil_subset _)) hp
  | failed _ hmeets => exact tells_post hmeets created_falsum
  | refused _ hmeets => exact .refused hmeets

/-! ## Lowering -/

mutual

/-- Lowering the constraint takes finitely many steps and ends like this. A constraint that has no
propagator is decomposed. -/
inductive Lowers : Constraint → Lowering.State InProcess →
    EStateM.Result Stop (Lowering.State InProcess) Unit → Prop
  | posted {c : Constraint} {s s' : Lowering.State InProcess} :
      postPrimitive c s = .ok true s' → Tells s (.ok () s') → Lowers c s (.ok () s')
  | stopped {c : Constraint} {s s' : Lowering.State InProcess} {stop : Stop} :
      postPrimitive c s = .error stop s' → Tells s (.error stop s') → Lowers c s (.error stop s')
  | refused {c : Constraint} {s s' : Lowering.State InProcess} {nextId : VarId} :
      postPrimitive c s = .ok false s' → c.decompose.run s'.nextId = (none, nextId) →
      Lowers c s (.error (.error (.noLowering c)) { s' with nextId })
  | decomposed {c : Constraint} {s s' : Lowering.State InProcess} {pieces : List Constraint}
      {nextId : VarId} {r : EStateM.Result Stop (Lowering.State InProcess) Unit} :
      postPrimitive c s = .ok false s' → c.decompose.run s'.nextId = (some pieces, nextId) →
      LowersAll pieces (InProcess.decomposed c pieces nextId s') r → Lowers c s r

/-- Lowering the constraints one after the other takes finitely many steps and ends like this. -/
inductive LowersAll : List Constraint → Lowering.State InProcess →
    EStateM.Result Stop (Lowering.State InProcess) Unit → Prop
  | nil {s : Lowering.State InProcess} : LowersAll [] s (.ok () s)
  | cons {c : Constraint} {cs : List Constraint} {s s' : Lowering.State InProcess}
      {r : EStateM.Result Stop (Lowering.State InProcess) Unit} :
      Lowers c s (.ok () s') → LowersAll cs s' r → LowersAll (c :: cs) s r
  | stop {c : Constraint} {cs : List Constraint} {s s' : Lowering.State InProcess} {stop : Stop} :
      Lowers c s (.error stop s') → LowersAll (c :: cs) s (.error stop s')

end

/-- Each constraint leaves a state in which the next one can be lowered. -/
theorem lowersAll_forM (h : ∀ c ∈ cs, ∀ {s}, Ready s → Lowers c s (post c s)) (hs : Ready s) :
    LowersAll cs s (cs.forM post s) := by
  induction cs generalizing s with
  | nil => exact .nil
  | cons c cs ih =>
      obtain ⟨hc, hcs⟩ := List.forall_mem_cons.mp h
      have hfirst := hc hs
      rw [forM_cons_apply]
      cases hrun : post c s with
      | ok _ s' =>
          rw [hrun] at hfirst
          exact .cons hfirst (ih hcs (leads_post hs (.inl ⟨(), hrun⟩)).ready)
      | error stop s' =>
          rw [hrun] at hfirst
          exact .stop hfirst

/-- Lowering terminates, whatever the constraint is, in any state between two calls. -/
theorem lowers_post (hs : Ready s) (c : Constraint) : Lowers c s (post c s) := by
  -- pieces are no subterms, so the induction is on the depth
  induction hdepth : c.depth using Nat.strong_induction_on generalizing c s with
  | _ depth ih =>
  subst hdepth
  cases hc : c.isComposite with
  | false =>
      have htells := (direct_postSimple hs hc).tells
      have hprimitive := postPrimitive_of_simple hc
      rw [post_of_simple hc]
      cases hrun : postSimple c s with
      | ok _ s' =>
          rw [hrun] at htells
          refine .posted ?_ htells
          rw [hprimitive, bind_ok hrun]
          rfl
      | error stop s' =>
          rw [hrun] at htells
          refine .stopped ?_ htells
          rw [hprimitive, bind_error hrun]
  | true =>
      have hrun : postPrimitive c s = .ok false s := by
        rw [postPrimitive_of_composite hc]
        rfl
      rw [post_of_composite hc, postPieces]
      rcases hpieces : c.decompose.run s.nextId with ⟨_ | pieces, nextId⟩
      · exact .refused hrun hpieces
      · have hless := depth_lt_of_decompose hc (congrArg Prod.fst hpieces)
        have hready : Ready (decomposed c pieces nextId s) := hs.of_backend rfl
        exact .decomposed hrun hpieces
          (lowersAll_forM (fun p hp _ hs => ih p.depth (hless p hp) hs p rfl) hready)

end FiniteDomain.InProcess
