import FiniteDomain.Proofs.Constraint.Encoding

/-!
# Atoms in place of expressions

A structured expression is named by a variable that equals it. Whatever value the expression has,
the variable has it too, and the variable can take that value if it fits into 32 bits.
-/

namespace FiniteDomain

open FiniteDomain.Expr (Traces Representable ofInt)

variable {scope : Scope} {r r' : Registry} {τ τ' : VarId → Int} {e a lhs rhs : Expr} {v : Int}
  {es as : List Expr} {definitions : List Constraint}

namespace Constraint

theorem not_fails_eq_iff : ¬ (eq lhs rhs).Fails τ ↔
    ∀ x y, lhs.evaluate (total τ) = .ok x → rhs.evaluate (total τ) = .ok y → x = y := by
  constructor
  · intro h x y hx hy
    by_contra hne
    exact h (evaluate_eq_iff.mpr ⟨x, y, hx, hy, decide_eq_false hne⟩)
  · intro h hfails
    obtain ⟨x, y, hx, hy, hne⟩ := evaluate_eq_iff.mp hfails
    exact of_decide_eq_false hne (h x y hx hy)

theorem realised_eq (hl : lhs.evaluate (total τ) = .ok v) (hr : rhs.evaluate (total τ) = .ok v)
    (hnamed : ∀ o ∈ lhs.equated rhs, o.Representable τ) : (eq lhs rhs).Realised τ :=
  ⟨evaluate_eq_iff.mpr ⟨v, v, hl, hr, decide_eq_true rfl⟩, hnamed⟩

end Constraint

open Constraint (not_fails_eq_iff realised_eq knownTo_comparison_iff)

/-- An atom stands for an expression, given the definitions. -/
structure Named (scope : Scope) (r r' : Registry) (e a : Expr) (definitions : List Constraint) :
    Prop where
  isAtom : a.isAtom = true
  known : a.KnownTo r'
  plain : a.Plain scope
  encodes : Encodes scope r r' definitions (fun τ => Traces (total τ) (total τ) e a)
    fun τ => ∀ o ∈ e.named, o.Representable τ

/-- Atoms stand for expressions, given the definitions. -/
structure NamedAll (scope : Scope) (r r' : Registry) (es as : List Expr)
    (definitions : List Constraint) : Prop where
  length_eq : as.length = es.length
  isAtom : ∀ a ∈ as, a.isAtom = true
  known : ∀ a ∈ as, a.KnownTo r'
  plain : ∀ a ∈ as, a.Plain scope
  encodes : Encodes scope r r' definitions
    (fun τ => List.Forall₂ (Traces (total τ) (total τ)) es as)
    fun τ => ∀ e ∈ es, ∀ o ∈ e.named, o.Representable τ

namespace Expr

theorem plain_ofInt (x : IntVar) : (ofInt x).Plain scope := ⟨trivial, by simp [ofInt, parts]⟩

theorem knownTo_ofInt {x : IntVar} (h : r.Knows (.int x)) : (ofInt x).KnownTo r := by
  intro y hy
  obtain rfl := List.mem_singleton.mp hy
  exact h

theorem equated_ofInt (he : ¬ e.isAtom) (x : IntVar) : e.equated (ofInt x) = e.inner := by
  rw [equated, if_neg he, named_eq_nil rfl, List.append_nil]

/-- An operation on atoms that equals an atom names nothing. -/
theorem equated_eq_nil (hl : lhs.operands.all (·.isAtom) = true) (hr : rhs.isAtom = true) :
    lhs.equated rhs = [] := by
  obtain ⟨a, rfl⟩ := isAtom_iff.mp hr
  rw [equated]
  split
  · rfl
  · rw [inner_eq_nil hl, named_eq_nil rfl, List.append_nil]

theorem mem_named_self (he : ¬ e.isAtom) : e ∈ e.named := by
  rw [named, if_neg he]
  exact List.mem_cons_self

/-- The constraint that a new variable equals an expression. -/
theorem encodes_auxiliary (he : ¬ e.isAtom) (hknown : e.KnownTo r) (hplain : e.Plain scope) :
    Encodes scope r (r.extend (.int (e.auxiliaryVar r.next)))
      [.eq e (ofInt (e.auxiliaryVar r.next))]
      (fun τ => Traces (total τ) (total τ) e (ofInt (e.auxiliaryVar r.next)))
      fun τ => ∀ o ∈ e.named, o.Representable τ := by
  have hx : (Variable.int (e.auxiliaryVar r.next)).id = r.next := rfl
  have hknown' : (Constraint.eq e (ofInt (e.auxiliaryVar r.next))).KnownTo
      (r.extend (.int (e.auxiliaryVar r.next))) :=
    knownTo_comparison_iff.mpr
      ⟨hknown.mono (r.le_extend _), knownTo_ofInt (Registry.knows_extend hx)⟩
  refine Encodes.create hx ((Encodes.single hknown' <|
    Constraint.plain_comparison hplain (plain_ofInt _)).weaken ?_
    fun τ _ h => h) ?_
  · intro τ _ h v hv
    exact congrArg Except.ok (not_fails_eq_iff.mp h v _ hv rfl).symm
  · intro _ τ hτ hnamed
    obtain ⟨v, hv, hfits⟩ := hnamed e (mem_named_self he)
    have hinner : ∀ o ∈ e.inner, o.Representable τ := fun o ho =>
      hnamed o (mem_named_of_inner ho)
    refine ⟨v, contains_auxiliaryVar hτ hknown hinner hv hfits,
      fun τ' hagree hτ' => ?_⟩
    have hvar : (ofInt (e.auxiliaryVar r.next)).evaluate (total τ') = .ok v :=
      congrArg Except.ok hτ'
    apply realised_eq (hknown.traces hagree v hv) hvar
    intro o ho
    rw [equated_ofInt he] at ho
    exact (hinner o ho).agree (hknown.part (List.mem_filter.mp ho).1) hagree

theorem makes_auxiliary : Makes r e.auxiliary fun p r' =>
    p = (e.auxiliaryVar r.next, .eq e (ofInt (e.auxiliaryVar r.next))) ∧
      r' = r.extend (.int (e.auxiliaryVar r.next)) :=
  ⟨_, r.le_extend _, rfl, rfl, rfl⟩

theorem makes_atomize (hknown : e.KnownTo r) (hplain : e.Plain scope) :
    Makes r e.atomize fun p r' => Named scope r r' e p.1 p.2 := by
  rw [atomize]
  split
  · next hatom =>
    refine Makes.pure ⟨hatom, hknown, hplain, ?_⟩
    exact (Encodes.given (by simp) (by simp)).weaken (fun τ _ _ v hv => hv) (by simp)
  · next hatom =>
    refine makes_auxiliary.bind fun p r' _ hp => ?_
    obtain ⟨rfl, rfl⟩ := hp
    exact Makes.pure ⟨rfl, knownTo_ofInt (Registry.knows_extend rfl), plain_ofInt _,
      encodes_auxiliary hatom hknown hplain⟩

/-- Values that fit are kept when new variables get values. -/
theorem KnownTo.representable (hknown : e.KnownTo r) (hagree : Agree r.next τ τ')
    (h : ∀ o ∈ e.named, o.Representable τ) : ∀ o ∈ e.named, o.Representable τ' :=
  fun o ho => (h o ho).agree (hknown.named ho) hagree

theorem exists_operand_of_inner {o : Expr} (ho : o ∈ e.inner) : ∃ a ∈ e.operands, o ∈ a.named := by
  obtain ⟨ho, hatom⟩ := List.mem_filter.mp ho
  obtain ⟨a, ha, hoa⟩ := mem_parts_iff.mp ho
  refine ⟨a, ha, ?_⟩
  rcases hoa with rfl | hoa
  · exact mem_named_self (by simpa using hatom)
  · exact mem_named_of_inner (List.mem_filter.mpr ⟨hoa, hatom⟩)

/-- Names for two expressions. -/
theorem encodes_pair {r₁ r₂ : Registry} {lhs' rhs' : Expr}
    {definitionsL definitionsR : List Constraint} (hknown : rhs.KnownTo r)
    (hl : Named scope r r₁ lhs lhs' definitionsL) (hr : Named scope r₁ r₂ rhs rhs' definitionsR)
    (hle₁ : r ≤ r₁) (hle₂ : r₁ ≤ r₂) : Encodes scope r r₂ (definitionsL ++ definitionsR)
      (fun τ => Traces (total τ) (total τ) lhs lhs' ∧ Traces (total τ) (total τ) rhs rhs')
      fun τ => ∀ o ∈ lhs.named ++ rhs.named, o.Representable τ := by
  apply hl.encodes.append hr.encodes hle₁ hle₂
  · exact fun τ _ hl hr => ⟨hl, hr⟩
  · exact fun τ _ h o ho => h o (List.mem_append_left _ ho)
  · exact fun τ τ' _ h hagree _ _ => hknown.representable hagree fun o ho =>
      h o (List.mem_append_right _ ho)

theorem makes_atomizeAll (hknown : ∀ e ∈ es, e.KnownTo r) (hplain : ∀ e ∈ es, e.Plain scope) :
    Makes r (atomizeAll es) fun p r' => NamedAll scope r r' es p.1 p.2 := by
  induction es generalizing r with
  | nil =>
      refine Makes.pure ⟨rfl, by simp, by simp, by simp, ?_⟩
      exact (Encodes.given (by simp) (by simp)).weaken (fun τ _ _ => .nil) (by simp)
  | cons e es ih =>
      rw [List.forall_mem_cons] at hknown hplain
      refine (makes_atomize hknown.1 hplain.1).bind fun p r₁ hle₁ hp => ?_
      obtain ⟨a, definition⟩ := p
      refine (ih (fun e he => (hknown.2 e he).mono hle₁) hplain.2).bind fun q r₂ hle₂ hq => ?_
      obtain ⟨as, definitions⟩ := q
      refine Makes.pure ⟨by simp [hq.length_eq], ?_, ?_, ?_, ?_⟩
      · exact List.forall_mem_cons.mpr ⟨hp.isAtom, hq.isAtom⟩
      · exact List.forall_mem_cons.mpr ⟨hp.known.mono hle₂, hq.known⟩
      · exact List.forall_mem_cons.mpr ⟨hp.plain, hq.plain⟩
      · apply hp.encodes.append hq.encodes hle₁ hle₂
        · exact fun τ _ ha has => .cons ha has
        · exact fun τ _ h => h e List.mem_cons_self
        · exact fun τ τ' _ h hagree _ _ e' he' =>
            (hknown.2 e' he').representable hagree (h e' (List.mem_cons_of_mem _ he'))

/-- The same operation on atoms. -/
structure Operates (scope : Scope) (r r' : Registry) (e e' : Expr) (definitions : List Constraint) :
    Prop where
  isAtom : e'.operands.all (·.isAtom) = true
  known : e'.KnownTo r'
  plain : e'.Plain scope
  encodes : Encodes scope r r' definitions (fun τ => Traces (total τ) (total τ) e e')
    fun τ => ∀ o ∈ e.inner, o.Representable τ

theorem knownTo_iff_operands (he : ¬ e.isAtom) :
    e.KnownTo r ↔ ∀ a ∈ e.operands, a.KnownTo r := by
  simp only [KnownTo, mem_occurrences_iff_of_operands he]
  constructor
  · exact fun h a ha x hx => h x ⟨a, ha, hx⟩
  · rintro h x ⟨a, ha, hx⟩
    exact h a ha x hx

theorem plain_iff_operands : e.Plain scope ↔ e.Tame scope ∧ ∀ a ∈ e.operands, a.Plain scope := by
  constructor
  · exact fun h => ⟨h.1, fun a ha => h.part (mem_parts_of_operand ha)⟩
  · rintro ⟨htame, h⟩
    refine ⟨htame, fun o ho => ?_⟩
    obtain ⟨a, ha, rfl | ho⟩ := mem_parts_iff.mp ho
    · exact (h o ha).1
    · exact (h a ha).2 o ho

theorem mem_inner_of_operand {o : Expr} (ha : a ∈ e.operands) (ho : o ∈ a.named) : o ∈ e.inner :=
  mem_inner_of_part (mem_parts_of_operand ha) ho

/-- The names of the operands make up the operation. -/
theorem operates_of_operands {e' : Expr} {definitions : List Constraint} (he' : ¬ e'.isAtom)
    (hatoms : ∀ a ∈ e'.operands, a.isAtom = true) (hknown : ∀ a ∈ e'.operands, a.KnownTo r')
    (htame : e'.Tame scope) (hplain : ∀ a ∈ e'.operands, a.Plain scope)
    (h : Encodes scope r r' definitions (fun τ => Traces (total τ) (total τ) e e')
      fun τ => ∀ o ∈ e.inner, o.Representable τ) : Operates scope r r' e e' definitions where
  isAtom := List.all_eq_true.mpr hatoms
  known := (knownTo_iff_operands he').mpr hknown
  plain := plain_iff_operands.mpr ⟨htame, hplain⟩
  encodes := h

theorem makes_atomizeOperands (hknown : e.KnownTo r) (hplain : e.Plain scope) :
    Makes r e.atomizeOperands fun p r' => Operates scope r r' e p.1 p.2 := by
  by_cases he : e.isAtom
  · obtain ⟨a, rfl⟩ := isAtom_iff.mp he
    refine Makes.pure ⟨rfl, hknown, hplain, ?_⟩
    exact (Encodes.given (by simp) (by simp)).weaken (fun τ _ _ v hv => hv) (by simp)
  have hoperands := (knownTo_iff_operands he).mp hknown
  obtain ⟨htame, hplains⟩ := plain_iff_operands.mp hplain
  cases e with
  | atom a => exact absurd rfl he
  | sum terms =>
      refine (makes_atomizeAll hoperands hplains).bind fun p r₁ _ hp => Makes.pure ?_
      refine operates_of_operands (by simp [isAtom, asAtom?]) hp.isAtom hp.known
        (hp.length_eq.trans_le htame) hp.plain ?_
      exact hp.encodes.weaken (fun τ _ h => Traces.sum h) fun τ _ h e he o ho =>
        h o (mem_inner_of_operand he ho)
  | weightedSum weights terms =>
      refine (makes_atomizeAll hoperands hplains).bind fun p r₁ _ hp => Makes.pure ?_
      refine operates_of_operands (by simp [isAtom, asAtom?]) hp.isAtom hp.known
        ⟨htame.1, hp.length_eq.trans_le htame.2⟩ hp.plain ?_
      exact hp.encodes.weaken (fun τ _ h => Traces.weightedSum h) fun τ _ h e he o ho =>
        h o (mem_inner_of_operand he ho)
  | binary op a b =>
      simp only [operands, List.forall_mem_cons, List.not_mem_nil, false_imp_iff,
        implies_true, and_true] at hoperands hplains
      refine (makes_atomize hoperands.1 hplains.1).bind fun p r₁ hle₁ hp => ?_
      refine (makes_atomize (hoperands.2.mono hle₁) hplains.2).bind fun q r₂ hle₂ hq =>
        Makes.pure ?_
      refine operates_of_operands (by simp [isAtom, asAtom?])
        (by simp [operands, hp.isAtom, hq.isAtom])
        (by simp [operands, hp.known.mono hle₂, hq.known]) trivial
        (by simp [operands, hp.plain, hq.plain]) ?_
      apply (encodes_pair hoperands.2 hp hq hle₁ hle₂).weaken
      · exact fun τ _ h => Traces.binary h.1 h.2
      · exact fun τ _ h => List.forall_mem_append.mpr
          ⟨fun o ho => h o (mem_inner_of_operand (by simp [operands]) ho),
            fun o ho => h o (mem_inner_of_operand (by simp [operands]) ho)⟩
  | unary op a =>
      simp only [operands, List.forall_mem_cons, List.not_mem_nil, false_imp_iff,
        implies_true, and_true] at hoperands hplains
      refine (makes_atomize hoperands hplains).bind fun p r₁ hle₁ hp => Makes.pure ?_
      refine operates_of_operands (by simp [isAtom, asAtom?]) (by simp [operands, hp.isAtom])
        (by simp [operands, hp.known]) trivial (by simp [operands, hp.plain]) ?_
      exact hp.encodes.weaken (fun τ _ h => Traces.unary h) fun τ _ h o ho =>
        h o (mem_inner_of_operand (by simp [operands]) ho)
  | element array index =>
      simp only [operands, List.forall_mem_append, List.forall_mem_cons, List.not_mem_nil,
        false_imp_iff, implies_true, and_true] at hoperands hplains
      refine (makes_atomizeAll hoperands.1 hplains.1).bind fun p r₁ hle₁ hp => ?_
      refine (makes_atomize (hoperands.2.mono hle₁) hplains.2).bind fun q r₂ hle₂ hq =>
        Makes.pure ?_
      refine operates_of_operands (by simp [isAtom, asAtom?])
        (List.forall_mem_append.mpr ⟨hp.isAtom, by simp [hq.isAtom]⟩)
        (List.forall_mem_append.mpr ⟨fun a ha => (hp.known a ha).mono hle₂, by simp [hq.known]⟩)
        (hp.length_eq.trans_le htame)
        (List.forall_mem_append.mpr ⟨hp.plain, by simp [hq.plain]⟩) ?_
      apply hp.encodes.append hq.encodes hle₁ hle₂
      · exact fun τ _ harray hindex => Traces.element harray hindex
      · exact fun τ _ h e he o ho => h o (mem_inner_of_operand (by simp [operands, he]) ho)
      · exact fun τ τ' _ h hagree _ _ => hoperands.2.representable hagree fun o ho =>
          h o (mem_inner_of_operand (by simp [operands]) ho)

end Expr

end FiniteDomain
