import FiniteDomain.InProcess.Posting
import FiniteDomain.Proofs.Constraint.Descent

/-!
# The recursion of lowering terminates

Posting a constraint is a recursion over its pieces, which are no subterms. It is well-founded,
since pieces have a smaller depth: however deeply decompositions may be nested, as long as the
depth of the constraint is allowed the result is the same. So the bound in the definition never
shows.
-/

namespace FiniteDomain.InProcess

variable {c : Constraint} {cs : List Constraint} {e result : Expr} {n m : Nat}
  {s : Lowering.State InProcess}

/-! ## One step -/

/-- Posts a literal or a truth value. -/
def postUnit (c : Constraint) : Action Unit := do
  let v ← literalOf c
  Lowering.note (.unitPosted v c)
  postRule (.disjunction [v])

/-- Posts that no two atoms have the same value. -/
def postAllDifferent (args : List Expr) : Action Unit := do
  let views ← args.mapM viewOf
  Lowering.note (.allDifferentPosted views)
  postRule (.allDifferent views)

/-- Posts that an atom is the absolute value or the negation of another one. -/
def postUnary (op : UnaryOp) (a result : Expr) : Action Unit := do
  let v ← viewOf a
  let w ← viewOf result
  match op with
  | .abs =>
    Lowering.note (.absolutePosted v w)
    postRule (.absolute v w)
  | .neg =>
    Lowering.note (.equalPosted v.negate w)
    postRule (.equal v.negate w)

/-- Posts that an operation on atoms equals an atom. -/
def postOperator (e result : Expr) : Action Unit :=
  match e with
  | .binary .mul a b => postOperation .times a b false result
  | .binary .div a b => postOperation .div a b false result
  | .binary .mod a b => postOperation .mod a b false result
  | .binary .pow a b => postOperation .pow a b false result
  | .binary .sub a b => postOperation .sum a b true result
  | .sum [a, b] => postOperation .sum a b false result
  | .sum terms => postLinear terms (List.replicate (terms.length + 1) 1) result
  | .weightedSum weights terms => postLinear terms (weights ++ [1]) result
  | .unary op a => postUnary op a result
  | _ => return ()

/-- What posts a constraint that has a propagator. -/
def postSimple (c : Constraint) : Action Unit :=
  match c with
  | .connective kind args => postConnective kind args none
  | .implication a c => postImplication a c
  | .comparison comparator lhs rhs =>
    if lhs.isAtom && rhs.isAtom then postComparison comparator lhs rhs none
    else if lhs.isAtom then postOperator rhs lhs
    else postOperator lhs rhs
  | .global g => postAllDifferent g.args
  | c => postUnit c

theorem postFunctional_eq (he : e.isOperation = true) :
    postFunctional e result = (do postOperator e result; return true) := by
  cases e with
  | atom a => cases he
  | element array index => cases he
  | weightedSum weights terms => rfl
  | sum terms => rcases terms with _ | ⟨a, _ | ⟨b, _ | ⟨c, rest⟩⟩⟩ <;> rfl
  | binary op a b => cases op <;> rfl
  | unary op a =>
      cases op <;> simp only [postFunctional, postOperator, postUnary, bind_assoc]

/-- Nothing else has one. -/
theorem postFunctional_of_not_operation (he : e.isOperation = false) :
    postFunctional e result = pure false := by
  cases e with
  | atom a => rfl
  | element array index => rfl
  | _ => cases he

/-- An equality with a structured side is posted if a propagator computes one side. -/
theorem postPrimitive_equal {lhs rhs : Expr} (hatoms : (lhs.isAtom && rhs.isAtom) = false) :
    postPrimitive (.comparison .equal lhs rhs) =
      if lhs.isComputed rhs || rhs.isComputed lhs then (do
        postSimple (.comparison .equal lhs rhs)
        return true)
      else pure false := by
  have hside : ∀ {e result : Expr}, (do
      if result.isAtom && e.operands.all (·.isAtom) then
        return ← postFunctional e result
      return false : Action Bool) =
        if e.isComputed result then (do postOperator e result; return true) else pure false := by
    intro e result
    rw [Expr.isComputed]
    cases hoperation : e.isOperation with
    | true =>
        rw [postFunctional_eq hoperation]
        cases result.isAtom && e.operands.all (·.isAtom) <;> rfl
    | false =>
        rw [postFunctional_of_not_operation hoperation]
        cases result.isAtom && e.operands.all (·.isAtom) <;> rfl
  have hnone : ∀ {e result : Expr}, result.isAtom = false → e.isComputed result = false :=
    fun hresult => by simp [Expr.isComputed, hresult]
  have hsimple : postSimple (.comparison .equal lhs rhs) =
      if lhs.isAtom then postOperator rhs lhs else postOperator lhs rhs := if_neg (by simp [hatoms])
  rw [postPrimitive, if_neg (by simp [hatoms]), if_neg (not_not.mpr rfl), hsimple]
  cases hl : lhs.isAtom with
  | false =>
      rw [hnone hl, Bool.or_false]
      exact hside
  | true =>
      rw [hl, Bool.true_and] at hatoms
      rw [hnone hatoms, Bool.false_or]
      exact hside

/-- A constraint that is not composite has a propagator. -/
theorem postPrimitive_of_simple (hc : c.isComposite = false) :
    postPrimitive c = (do postSimple c; return true) := by
  cases c with
  | literal l => simp only [postPrimitive, postSimple, postUnit, bind_assoc]
  | constant value => simp only [postPrimitive, postSimple, postUnit, bind_assoc]
  | connective kind args =>
      have hatoms : args.all (·.isAtom) = true := by simpa [Constraint.isComposite] using hc
      rw [postPrimitive, if_pos hatoms, postSimple]
  | implication a d => rfl
  | comparison comparator lhs rhs =>
      cases hatoms : lhs.isAtom && rhs.isAtom with
      | true => rw [postPrimitive, if_pos hatoms, postSimple, if_pos hatoms]
      | false =>
          rw [Constraint.isComposite, hatoms, Bool.not_false, Bool.true_and] at hc
          obtain ⟨hequal, hcomputed⟩ := Bool.and_eq_true_iff.mp ((Bool.not_eq_false' _).mp hc)
          rw [eq_of_beq hequal, postPrimitive_equal hatoms, if_pos hcomputed]
  | global g =>
      cases g with
      | allDifferent args =>
          have hatoms : args.all (·.isAtom) = true := by simpa [Constraint.isComposite] using hc
          rw [postPrimitive, if_pos hatoms]
          simp only [postSimple, postAllDifferent, Global.args, bind_assoc]
      | _ => cases hc

/-- A composite constraint has none. -/
theorem postPrimitive_of_composite (hc : c.isComposite = true) : postPrimitive c = pure false := by
  cases c with
  | literal l => cases hc
  | constant value => cases hc
  | connective kind args =>
      have hatoms : args.all (·.isAtom) = false := by simpa [Constraint.isComposite] using hc
      rw [postPrimitive, if_neg (by simp [hatoms])]
  | implication a d => cases hc
  | comparison comparator lhs rhs =>
      obtain ⟨hatoms, hcomputed⟩ := Bool.and_eq_true_iff.mp hc
      have hatoms : (lhs.isAtom && rhs.isAtom) = false := (Bool.not_eq_true' _).mp hatoms
      by_cases hequal : comparator = .equal
      · subst hequal
        have hcomputed : (lhs.isComputed rhs || rhs.isComputed lhs) = false := by
          simpa using hcomputed
        rw [postPrimitive_equal hatoms, if_neg (by simp [hcomputed])]
      · rw [postPrimitive, if_neg (by simp [hatoms]), if_pos hequal]
  | global g =>
      cases g with
      | allDifferent args =>
          have hatoms : args.all (·.isAtom) = false := by simpa [Constraint.isComposite] using hc
          rw [postPrimitive, if_neg (by simp [hatoms])]
      | _ => rfl

/-! ## The recursion -/

theorem postNested_of_posted {action : Action Unit}
    (h : postPrimitive c = (do action; return true)) : postNested (n + 1) c = action := by
  funext s
  rw [postNested, h]
  simp only [Bind.bind, EStateM.bind]
  cases action s <;> rfl

/-- The state in which the pieces of a constraint are posted. -/
def decomposed (c : Constraint) (ps : List Constraint) (nextId : VarId) (s : Lowering.State InProcess) :
    Lowering.State InProcess :=
  { s with nextId, journal := s.journal.push (.decomposed c ps.length) }

/-- What a composite constraint is posted as, given what its pieces are posted as. -/
def postPieces (posts : Constraint → Action Unit) (c : Constraint) : Action Unit := fun s =>
  match c.decompose.run s.nextId with
  | (none, nextId) => .error (.error (.noLowering c)) { s with nextId }
  | (some pieces, nextId) => pieces.forM posts (decomposed c pieces nextId s)

theorem postPieces_of_none {posts : Constraint → Action Unit} {nextId : VarId}
    (h : c.decompose.run s.nextId = (none, nextId)) :
    postPieces posts c s = .error (.error (.noLowering c)) { s with nextId } := by
  rw [postPieces, h]

theorem postPieces_of_some {posts : Constraint → Action Unit} {nextId : VarId}
    (h : c.decompose.run s.nextId = (some cs, nextId)) :
    postPieces posts c s = cs.forM posts (decomposed c cs nextId s) := by
  rw [postPieces, h]

theorem postNested_of_composite (hc : c.isComposite = true) :
    postNested (n + 1) c = postPieces (postNested n) c := by
  funext s
  rw [postNested, postPrimitive_of_composite hc, pure_bind, postPieces]
  simp only [Bool.false_eq_true, if_false, Bind.bind, EStateM.bind, Lowering.fresh]
  rcases c.decompose.run s.nextId with ⟨_ | pieces, nextId⟩ <;> rfl

theorem forM_congr {posts posts' : Constraint → Action Unit}
    (h : ∀ c ∈ cs, posts c = posts' c) : cs.forM posts = cs.forM posts' := by
  induction cs with
  | nil => rfl
  | cons c cs ih =>
      obtain ⟨hc, hcs⟩ := List.forall_mem_cons.mp h
      have hrest := ih hcs
      rw [List.forM_eq_forM] at hrest ⊢
      rw [List.forM_cons, List.forM_cons, hc, hrest]

theorem forM_cons_apply {posts : Constraint → Action Unit} (s : Lowering.State InProcess) :
    (c :: cs).forM posts s = match posts c s with
      | .ok _ s' => cs.forM posts s'
      | .error stop s' => .error stop s' := by
  simp only [List.forM_eq_forM, List.forM_cons, Bind.bind, EStateM.bind]
  cases posts c s <;> rfl

theorem ok_of_forM_singleton {posts : Constraint → Action Unit} {s' : Lowering.State InProcess}
    (h : [c].forM posts s = .ok () s') : posts c s = .ok () s' := by
  rw [forM_cons_apply] at h
  cases hrun : posts c s with
  | ok _ s₁ =>
      rw [hrun] at h
      exact h
  | error stop s₁ =>
      rw [hrun] at h
      cases h

theorem postPieces_congr {posts posts' : Constraint → Action Unit} (hc : c.isComposite = true)
    (h : ∀ p, p.depth < c.depth → posts p = posts' p) : postPieces posts c = postPieces posts' c := by
  funext s
  rw [postPieces, postPieces]
  rcases hrun : c.decompose.run s.nextId with ⟨_ | pieces, nextId⟩
  · rfl
  · have hdepth := depth_lt_of_decompose hc (congrArg Prod.fst hrun)
    simp only [forM_congr fun p hp => h p (hdepth p hp)]

/-- From the depth of the constraint on the bound does not matter. -/
theorem postNested_eq (hn : c.depth ≤ n) (hm : c.depth ≤ m) : postNested n c = postNested m c := by
  induction n generalizing c m with
  | zero => exact absurd hn (not_le.mpr c.depth_pos)
  | succ n ih =>
      cases m with
      | zero => exact absurd hm (not_le.mpr c.depth_pos)
      | succ m =>
          cases hc : c.isComposite with
          | false =>
              have hposted := postPrimitive_of_simple hc
              rw [postNested_of_posted hposted, postNested_of_posted hposted]
          | true =>
              rw [postNested_of_composite hc, postNested_of_composite hc]
              exact postPieces_congr hc fun p hp =>
                ih (Nat.le_of_lt_succ (hp.trans_le hn)) (Nat.le_of_lt_succ (hp.trans_le hm))

theorem post_of_simple (hc : c.isComposite = false) : post c = postSimple c :=
  postNested_of_posted (postPrimitive_of_simple hc)

/-- A composite constraint is posted as its pieces are. -/
theorem post_of_composite (hc : c.isComposite = true) : post c = postPieces post c := by
  rw [post, postNested_of_composite hc]
  exact postPieces_congr hc fun p hp =>
    postNested_eq (Nat.le_of_lt_succ (hp.trans_le c.depth_le)) p.depth_le

end FiniteDomain.InProcess
