import FiniteDomain.Proofs.Expr.Evaluation

/-!
# Parts of an expression

The parts of an expression are its operands and their parts. A property of expressions that
carries over from the operands holds of all expressions; one that holds of an expression and its
parts holds of each operand and its parts.
-/

namespace FiniteDomain

namespace Expr

variable {P : Expr → Prop} {e o : Expr}

theorem isAtom_iff : e.isAtom = true ↔ ∃ a, e = .atom a := by
  cases e <;> simp [isAtom, asAtom?]

theorem mem_parts_of_operand (ho : o ∈ e.operands) : o ∈ e.parts := by
  have hin : ∀ {es : List Expr}, o ∈ es → o ∈ partsIn es := fun h =>
    mem_partsIn.mpr ⟨o, h, .inl rfl⟩
  cases e with
  | atom a => cases ho
  | sum terms => exact hin ho
  | weightedSum weights terms => exact hin ho
  | binary op a b => rcases List.mem_pair.mp ho with rfl | rfl <;> simp [parts]
  | unary op a =>
      obtain rfl := List.mem_singleton.mp ho
      simp [parts]
  | element array index =>
      rcases List.mem_append.mp ho with ho | ho
      · exact List.mem_append_left _ (hin ho)
      · obtain rfl := List.mem_singleton.mp ho
        simp [parts]

/-- A part is an operand or a part of one. -/
theorem mem_parts_iff : o ∈ e.parts ↔ ∃ a ∈ e.operands, o = a ∨ o ∈ a.parts := by
  cases e with
  | atom a => simp [parts, operands]
  | sum terms => exact mem_partsIn
  | weightedSum weights terms => exact mem_partsIn
  | binary op a b => simp [parts, operands, or_assoc]
  | unary op a => simp [parts, operands]
  | element array index =>
      simp only [parts, operands, List.mem_append, mem_partsIn, List.mem_cons, List.not_mem_nil,
        or_false]
      constructor
      · rintro (⟨a, ha, h⟩ | h)
        · exact ⟨a, .inl ha, h⟩
        · exact ⟨index, .inr rfl, h⟩
      · rintro ⟨a, ha | rfl, h⟩
        · exact .inl ⟨a, ha, h⟩
        · exact .inr h

theorem mem_occurrences_iff_of_operands {x : Variable} (he : ¬ e.isAtom) :
    x ∈ e.occurrences ↔ ∃ a ∈ e.operands, x ∈ a.occurrences := by
  cases e with
  | atom a => simp [isAtom, asAtom?] at he
  | sum terms => exact mem_occurrencesIn
  | weightedSum weights terms => exact mem_occurrencesIn
  | binary op a b => simp [occurrences, operands]
  | unary op a => simp [occurrences, operands]
  | element array index =>
      simp only [occurrences, operands, List.mem_append, mem_occurrencesIn, List.mem_cons,
        List.not_mem_nil, or_false]
      constructor
      · rintro (⟨a, ha, h⟩ | h)
        · exact ⟨a, .inl ha, h⟩
        · exact ⟨index, .inr rfl, h⟩
      · rintro ⟨a, ha | rfl, h⟩
        · exact .inl ⟨a, ha, h⟩
        · exact .inr h

/-- A property of expressions holds if it carries over from the operands. -/
theorem operand_induction {P : Expr → Prop} (h : ∀ e : Expr, (∀ o ∈ e.operands, P o) → P e)
    (e : Expr) : P e := by
  induction e using Expr.induction with
  | atom a => exact h _ (by simp [operands])
  | sum terms ih => exact h _ ih
  | weightedSum weights terms ih => exact h _ ih
  | binary op a b iha ihb => exact h _ (by simp [operands, iha, ihb])
  | unary op a ih => exact h _ (by simp [operands, ih])
  | element array index iharray ihindex =>
      apply h
      intro o ho
      rcases List.mem_append.mp ho with ho | ho
      · exact iharray o ho
      · exact List.mem_singleton.mp ho ▸ ihindex

theorem mem_parts_trans {q : Expr} (ho : o ∈ e.parts) (hq : q ∈ o.parts) : q ∈ e.parts := by
  induction e using operand_induction with
  | h e ih =>
      obtain ⟨a, ha, h⟩ := mem_parts_iff.mp ho
      refine mem_parts_iff.mpr ⟨a, ha, .inr ?_⟩
      rcases h with rfl | h
      · exact hq
      · exact ih a ha h

theorem mem_occurrences_of_part {x : Variable} (ho : o ∈ e.parts)
    (hx : x ∈ o.occurrences) : x ∈ e.occurrences := by
  induction e using operand_induction with
  | h e ih =>
      obtain ⟨a, ha, h⟩ := mem_parts_iff.mp ho
      have he : ¬ e.isAtom := by
        cases e with
        | atom a => cases ha
        | _ => simp [isAtom, asAtom?]
      refine (mem_occurrences_iff_of_operands he).mpr ⟨a, ha, ?_⟩
      rcases h with rfl | h
      · exact hx
      · exact ih a ha h

/-- The expression and its parts have the property. -/
def Everywhere (P : Expr → Prop) (e : Expr) : Prop := P e ∧ ∀ o ∈ e.parts, P o

theorem everywhere_iff : e.Everywhere P ↔ P e ∧ ∀ a ∈ e.operands, a.Everywhere P := by
  constructor
  · rintro ⟨he, hparts⟩
    exact ⟨he, fun a ha => ⟨hparts a (mem_parts_of_operand ha),
      fun o ho => hparts o (mem_parts_trans (mem_parts_of_operand ha) ho)⟩⟩
  · rintro ⟨he, hoperands⟩
    refine ⟨he, fun o ho => ?_⟩
    obtain ⟨a, ha, rfl | ho⟩ := mem_parts_iff.mp ho
    · exact (hoperands o ha).1
    · exact (hoperands a ha).2 o ho

theorem Everywhere.operand (h : e.Everywhere P) (ho : o ∈ e.operands) : o.Everywhere P :=
  (everywhere_iff.mp h).2 o ho

theorem Everywhere.part (h : e.Everywhere P) (ho : o ∈ e.parts) : o.Everywhere P :=
  ⟨h.2 o ho, fun _ hq => h.2 _ (mem_parts_trans ho hq)⟩

theorem Everywhere.mono {P' : Expr → Prop} (h : e.Everywhere P) (himp : ∀ o, P o → P' o) :
    e.Everywhere P' :=
  ⟨himp e h.1, fun o ho => himp o (h.2 o ho)⟩

theorem everywhere_of_isAtom (he : e.isAtom = true) (h : P e) : e.Everywhere P := by
  obtain ⟨a, rfl⟩ := isAtom_iff.mp he
  exact ⟨h, by simp [parts]⟩

end Expr

end FiniteDomain
