import FiniteDomain.Proofs.Constraint.Acceptance

/-!
# How deep decompositions are nested

A composite constraint has no propagator of its own and is decomposed. Its depth bounds how often
that has to be repeated: the pieces of a composite constraint have a smaller depth. They are no
subterms and may well be larger, but every decomposition peels off one operator of an expression
or one connective. So the size of a constraint, and a little more, bounds its depth.
-/

namespace FiniteDomain

namespace Expr

variable {e o : Expr} {es : List Expr}

mutual

/-- The number of operators on top of each other. -/
def height : Expr → Nat
  | atom _ => 0
  | sum terms => heights terms + 1
  | weightedSum _ terms => heights terms + 1
  | binary _ a b => max a.height b.height + 1
  | unary _ a => a.height + 1
  | element array index => max (heights array) index.height + 1

/-- The greatest height of the expressions. -/
def heights : List Expr → Nat
  | [] => 0
  | e :: es => max e.height (heights es)

end

theorem height_le_heights (he : e ∈ es) : e.height ≤ heights es := by
  induction es with
  | nil => cases he
  | cons a es ih =>
      rw [heights]
      rcases List.mem_cons.mp he with rfl | he
      · exact le_max_left _ _
      · exact (ih he).trans (le_max_right _ _)

theorem heights_le {n : Nat} (h : ∀ e ∈ es, e.height ≤ n) : heights es ≤ n := by
  induction es with
  | nil => exact Nat.zero_le n
  | cons e es ih =>
      obtain ⟨he, hes⟩ := List.forall_mem_cons.mp h
      exact max_le he (ih hes)

theorem height_of_isAtom (he : e.isAtom = true) : e.height = 0 := by
  obtain ⟨a, rfl⟩ := isAtom_iff.mp he
  rfl

theorem height_pos (he : e.isAtom = false) : 0 < e.height := by
  cases e with
  | atom a => cases he
  | _ => exact Nat.succ_pos _

theorem height_operand_lt (ho : o ∈ e.operands) : o.height < e.height := by
  cases e with
  | atom a => cases ho
  | sum terms => exact Nat.lt_succ_of_le (height_le_heights ho)
  | weightedSum weights terms => exact Nat.lt_succ_of_le (height_le_heights ho)
  | binary op a b =>
      rw [height]
      rcases List.mem_pair.mp ho with rfl | rfl <;> omega
  | unary op a =>
      obtain rfl := List.mem_singleton.mp ho
      exact Nat.lt_succ_self _
  | element array index =>
      rw [height]
      rcases List.mem_append.mp ho with ho | ho
      · have := height_le_heights ho
        omega
      · obtain rfl := List.mem_singleton.mp ho
        omega

theorem height_le_of_operands {n : Nat} (h : ∀ o ∈ e.operands, o.height ≤ n) :
    e.height ≤ n + 1 := by
  cases e with
  | atom a => exact Nat.zero_le _
  | sum terms => exact Nat.succ_le_succ (heights_le h)
  | weightedSum weights terms => exact Nat.succ_le_succ (heights_le h)
  | binary op a b =>
      exact Nat.succ_le_succ (max_le (h a (by simp [operands])) (h b (by simp [operands])))
  | unary op a => exact Nat.succ_le_succ (h a (by simp [operands]))
  | element array index =>
      exact Nat.succ_le_succ (max_le (heights_le fun o ho => h o (by simp [operands, ho]))
        (h index (by simp [operands])))

/-- An operation on atoms has one operator. -/
theorem height_le_one (h : ∀ o ∈ e.operands, o.isAtom = true) : e.height ≤ 1 :=
  height_le_of_operands fun o ho => (height_of_isAtom (h o ho)).le

theorem size_le_sizes (he : e ∈ es) : e.size ≤ sizes es := by
  induction es with
  | nil => cases he
  | cons a es ih =>
      rw [sizes]
      rcases List.mem_cons.mp he with rfl | he
      · exact Nat.le_add_right _ _
      · exact (ih he).trans (Nat.le_add_left _ _)

theorem size_operand_lt (ho : o ∈ e.operands) : o.size < e.size := by
  cases e with
  | atom a => cases ho
  | sum terms => exact Nat.lt_succ_of_le (size_le_sizes ho)
  | weightedSum weights terms => exact Nat.lt_succ_of_le (size_le_sizes ho)
  | binary op a b =>
      rw [size]
      rcases List.mem_pair.mp ho with rfl | rfl <;> omega
  | unary op a =>
      obtain rfl := List.mem_singleton.mp ho
      exact Nat.lt_succ_self _
  | element array index =>
      rw [size]
      rcases List.mem_append.mp ho with ho | ho
      · have := size_le_sizes ho
        omega
      · obtain rfl := List.mem_singleton.mp ho
        omega

theorem size_pos (e : Expr) : 0 < e.size := by
  cases e <;> exact Nat.succ_pos _

theorem height_le_size (e : Expr) : e.height ≤ e.size := by
  induction e using operand_induction with
  | h e ih =>
    have hpos := e.size_pos
    have hle : e.height ≤ e.size - 1 + 1 := height_le_of_operands fun o ho =>
      (ih o ho).trans (Nat.le_sub_one_of_lt (size_operand_lt ho))
    omega

theorem heights_le_sizes (es : List Expr) : heights es ≤ sizes es :=
  heights_le fun e he => e.height_le_size.trans (size_le_sizes he)

/-- The expression is an operation for which there is a propagator, except that its operands have
to be atoms. -/
def isOperation : Expr → Bool
  | atom _ => false
  | element _ _ => false
  | _ => true

/-- A propagator gives the second expression the value of the first one. -/
def isComputed (e result : Expr) : Bool :=
  result.isAtom && e.operands.all (·.isAtom) && e.isOperation

end Expr

namespace Constraint

variable {c : Constraint} {cs : List Constraint}

/-- There is no propagator for the constraint as it is. -/
def isComposite : Constraint → Bool
  | connective _ args => !args.all isAtom
  | comparison comparator lhs rhs =>
    !(lhs.isAtom && rhs.isAtom) &&
      !(comparator == .equal && (lhs.isComputed rhs || rhs.isComputed lhs))
  | global (.allDifferent args) => !args.all (·.isAtom)
  | global _ => true
  | _ => false

mutual

/-- The greatest height of the expressions of the constraint. -/
def height : Constraint → Nat
  | connective _ args => heights args
  | implication a c => max a.height c.height
  | comparison _ lhs rhs => max lhs.height rhs.height
  | global g => Expr.heights g.args
  | _ => 0

/-- The greatest height of the expressions of the constraints. -/
def heights : List Constraint → Nat
  | [] => 0
  | c :: cs => max c.height (heights cs)

end

mutual

/-- How often pieces of the constraint are decomposed at most, one within the other, and once
more. -/
def depth : Constraint → Nat
  | connective .and args => if args.all isAtom then 1 else depths args + 1
  | connective _ args => if args.all isAtom then 1 else heights args + 2
  | comparison comparator lhs rhs =>
    if lhs.isAtom && rhs.isAtom then 1
    else if comparator == .equal && (lhs.isAtom || rhs.isAtom) then
      max lhs.height rhs.height + 1
    else max lhs.height rhs.height + 2
  | global (.allDifferent args) => if args.all (·.isAtom) then 1 else Expr.heights args + 2
  | global g => Expr.heights g.args + 3
  | _ => 1

/-- The greatest depth of the constraints. -/
def depths : List Constraint → Nat
  | [] => 0
  | c :: cs => max c.depth (depths cs)

end

theorem height_le_heights (hc : c ∈ cs) : c.height ≤ heights cs := by
  induction cs with
  | nil => cases hc
  | cons d cs ih =>
      rw [heights]
      rcases List.mem_cons.mp hc with rfl | hc
      · exact le_max_left _ _
      · exact (ih hc).trans (le_max_right _ _)

theorem heights_le {n : Nat} (h : ∀ c ∈ cs, c.height ≤ n) : heights cs ≤ n := by
  induction cs with
  | nil => exact Nat.zero_le n
  | cons c cs ih =>
      obtain ⟨hc, hcs⟩ := List.forall_mem_cons.mp h
      exact max_le hc (ih hcs)

theorem depth_le_depths (hc : c ∈ cs) : c.depth ≤ depths cs := by
  induction cs with
  | nil => cases hc
  | cons d cs ih =>
      rw [depths]
      rcases List.mem_cons.mp hc with rfl | hc
      · exact le_max_left _ _
      · exact (ih hc).trans (le_max_right _ _)

theorem depths_le {n : Nat} (h : ∀ c ∈ cs, c.depth ≤ n) : depths cs ≤ n := by
  induction cs with
  | nil => exact Nat.zero_le n
  | cons c cs ih =>
      obtain ⟨hc, hcs⟩ := List.forall_mem_cons.mp h
      exact max_le hc (ih hcs)

theorem size_le_sizes (hc : c ∈ cs) : c.size ≤ sizes cs := by
  induction cs with
  | nil => cases hc
  | cons d cs ih =>
      rw [sizes]
      rcases List.mem_cons.mp hc with rfl | hc
      · exact Nat.le_add_right _ _
      · exact (ih hc).trans (Nat.le_add_left _ _)

theorem height_le_size (c : Constraint) : c.height ≤ c.size := by
  induction c using Constraint.induction with
  | literal l => exact Nat.zero_le _
  | constant value => exact Nat.zero_le _
  | connective kind args ih =>
      have hle : heights args ≤ sizes args := heights_le fun c hc => (ih c hc).trans (size_le_sizes hc)
      exact hle.trans (Nat.le_succ _)
  | implication a c iha ihc =>
      rw [height, size]
      omega
  | comparison comparator lhs rhs =>
      have hl := lhs.height_le_size
      have hr := rhs.height_le_size
      rw [height, size]
      omega
  | global g => exact (Expr.heights_le_sizes g.args).trans (Nat.le_succ _)

/-- The size of a constraint, and a little more, bounds its depth. -/
theorem depth_le (c : Constraint) : c.depth ≤ c.size + 4 := by
  induction c using Constraint.induction with
  | literal l => exact Nat.le_add_left _ _
  | constant value => exact Nat.le_add_left _ _
  | connective kind args ih =>
      have hdepth : depths args ≤ sizes args + 4 := depths_le fun c hc => by
        have := ih c hc
        have := size_le_sizes hc
        omega
      have hheight : heights args ≤ sizes args :=
        heights_le fun c hc => c.height_le_size.trans (size_le_sizes hc)
      cases kind <;> simp only [depth, size] <;> split <;> omega
  | implication a c iha ihc => exact Nat.le_add_left _ _
  | comparison comparator lhs rhs =>
      have hl := lhs.height_le_size
      have hr := rhs.height_le_size
      simp only [depth, size]
      repeat' split
      all_goals omega
  | global g =>
      have hheight := Expr.heights_le_sizes g.args
      cases g with
      | allDifferent args =>
          rw [depth, size]
          split <;> simp only [Global.args] at hheight ⊢ <;> omega
      | _ =>
          rw [depth, size]
          · omega
          · simp

/-- A comparison is decomposed into equalities with atoms. -/
theorem depth_comparison_le {comparator : Comparator} {lhs rhs : Expr} :
    (comparison comparator lhs rhs).depth ≤ max lhs.height rhs.height + 2 := by
  rw [depth]
  repeat' split
  all_goals omega

/-- An equality with an atom is decomposed at most as often as its other side is high. -/
theorem depth_eq_le {lhs rhs : Expr} (h : lhs.isAtom = true ∨ rhs.isAtom = true) :
    (eq lhs rhs).depth ≤ max lhs.height rhs.height + 1 := by
  rw [eq, depth]
  split
  · exact Nat.le_add_left _ _
  · rw [if_pos (by simpa using h)]

theorem depth_pos (c : Constraint) : 0 < c.depth := by
  unfold depth
  repeat' split
  all_goals omega

/-- A composite constraint is decomposed at least once. -/
theorem one_lt_depth (hc : c.isComposite = true) : 1 < c.depth := by
  cases c with
  | literal l => cases hc
  | constant value => cases hc
  | implication a c => cases hc
  | connective kind args =>
      have hatoms : args.all isAtom = false := by simpa [isComposite] using hc
      cases kind with
      | and =>
          rw [depth, if_neg (by simp [hatoms])]
          obtain ⟨d, hd, -⟩ := List.all_eq_false.mp hatoms
          exact Nat.succ_lt_succ (d.depth_pos.trans_le (depth_le_depths hd))
      | _ =>
          simp only [depth, hatoms, Bool.false_eq_true, if_false]
          omega
  | comparison comparator lhs rhs =>
      have hatoms : (lhs.isAtom && rhs.isAtom) = false :=
        (Bool.not_eq_true' _).mp (Bool.and_eq_true_iff.mp hc).1
      have hpos : 0 < max lhs.height rhs.height := by
        rcases Bool.and_eq_false_iff.mp hatoms with h | h
        · exact lt_max_of_lt_left (Expr.height_pos h)
        · exact lt_max_of_lt_right (Expr.height_pos h)
      simp only [depth, hatoms, Bool.false_eq_true, if_false]
      split <;> omega
  | global g =>
      cases g with
      | allDifferent args =>
          have hatoms : args.all (·.isAtom) = false := by simpa [isComposite] using hc
          simp only [depth, hatoms, Bool.false_eq_true, if_false]
          omega
      | _ =>
          simp only [depth]
          omega

end Constraint

end FiniteDomain
