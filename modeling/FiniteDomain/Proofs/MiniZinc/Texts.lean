import FiniteDomain.Proofs.MiniZinc.Calls
import FiniteDomain.Proofs.MiniZinc.Rendering

/-!
# The texts that one backend renders

The variables that are written in a text are declared, and a name that was given once is never
given again. So all texts that a backend renders use one dictionary, and if its names are words of
the language, equal texts have equal meanings.
-/

namespace FiniteDomain.MiniZinc

open Text

/-- The variable that a name belongs to. -/
def Program.owner (p : Program) (cs : List Char) : Option VarId :=
  (p.declarations.toList.find? (·.name.toList == cs)).map (·.var.id)

/-- A declared variable is known by its name. -/
theorem Program.Orderly.known {p : Program} (h : p.Orderly)
    (hnames : ∀ d ∈ p.declarations.toList, IsName d.name.toList) {id : VarId}
    (hid : (p.name? id).isSome) : Known p.names p.owner id := by
  obtain ⟨x, hx, rfl⟩ := Program.isSome_name?_iff.mp hid
  obtain ⟨d, hd, rfl⟩ := List.mem_map.mp hx
  refine ⟨by rw [h.names_eq hd]; exact hnames d hd, ?_⟩
  rw [h.names_eq hd, owner]
  cases hfind : p.declarations.toList.find? (·.name.toList == d.name.toList) with
  | none => exact absurd (List.find?_eq_none.mp hfind d hd) (by simp)
  | some e =>
      have hname : e.name.toList = d.name.toList := by simpa using List.find?_some hfind
      rw [h.eq_of_name_eq (List.mem_of_find?_eq_some hfind) hd (String.toList_inj.mp hname)]
      rfl

section Rendered

variable {calls : List Call} {e e' : Expr} {c c' : Constraint} {text : String}

/-- At some time in the course of the calls, when its variables had been declared, this was the text
of the expression. -/
def RendersExpr (calls : List Call) (e : Expr) (text : String) : Prop :=
  ∃ before, before <+: calls ∧ (∀ x ∈ writtenIn e, ((programAfter before).name? x.id).isSome) ∧
    renderExpr (programAfter before).names e = text

/-- At some time in the course of the calls, when its variables had been declared, this was the text
of the constraint. -/
def RendersConstraint (calls : List Call) (c : Constraint) (text : String) : Prop :=
  ∃ before, before <+: calls ∧
    (∀ x ∈ writtenInConstraint c, ((programAfter before).name? x.id).isSome) ∧
    renderConstraint (programAfter before).names c = text

/-- The program at an earlier time declares less. -/
theorem extends_programAfter {before : List Call} (h : before <+: calls) :
    (programAfter before).Extends (programAfter calls) := by
  obtain ⟨after, rfl⟩ := h
  rw [programAfter_append]
  exact Program.extends_afterAll _ after

theorem isSome_name?_of_extends {p q : Program} (h : p.Extends q) {id : VarId}
    (hid : (p.name? id).isSome) : (q.name? id).isSome := by
  obtain ⟨name, hname⟩ := Option.isSome_iff_exists.mp hid
  rw [h.name?_eq hname, Option.isSome_some]

/-- What was rendered once is rendered the same at the end. -/
theorem RendersExpr.final (h : RendersExpr calls e text) :
    (∀ x ∈ writtenIn e, ((programAfter calls).name? x.id).isSome) ∧
      renderExpr (programAfter calls).names e = text := by
  obtain ⟨before, hbefore, hdeclared, rfl⟩ := h
  have hextends := extends_programAfter hbefore
  exact ⟨fun x hx => isSome_name?_of_extends hextends (hdeclared x hx),
    renderExpr_congr fun x hx => hextends.names_eq (hdeclared x hx)⟩

theorem RendersConstraint.final (h : RendersConstraint calls c text) :
    (∀ x ∈ writtenInConstraint c, ((programAfter calls).name? x.id).isSome) ∧
      renderConstraint (programAfter calls).names c = text := by
  obtain ⟨before, hbefore, hdeclared, rfl⟩ := h
  have hextends := extends_programAfter hbefore
  exact ⟨fun x hx => isSome_name?_of_extends hextends (hdeclared x hx),
    renderConstraint_congr fun x hx => hextends.names_eq (hdeclared x hx)⟩

end Rendered

/-- Rendering loses no meaning. If the names that a backend has handed out are identifiers and no
keywords, then two constraints that it rendered to the same text have the same truth value under
every assignment under which both have one, and two expressions the same value. -/
theorem rendering_keeps_meaning (calls : List Call)
    (hnames : ∀ d ∈ (programAfter calls).declarations.toList, IsName d.name.toList) :
    (∀ c c' text, RendersConstraint calls c text → RendersConstraint calls c' text →
      ∀ σ b b', c.evaluate σ = .ok b → c'.evaluate σ = .ok b' → b = b') ∧
    (∀ e e' text, RendersExpr calls e text → RendersExpr calls e' text →
      ∀ σ v v', e.evaluate σ = .ok v → e'.evaluate σ = .ok v' → v = v') := by
  have hknown : ∀ {id}, ((programAfter calls).name? id).isSome →
      Known (programAfter calls).names (programAfter calls).owner id :=
    (orderly_programAfter calls).known hnames
  constructor
  · intro c c' text hc hc' σ b b' hb hb'
    obtain ⟨hdeclared, htext⟩ := hc.final
    obtain ⟨hdeclared', htext'⟩ := hc'.final
    exact truth_eq_of_renderConstraint_eq (fun x hx => hknown (hdeclared x hx))
      (fun x hx => hknown (hdeclared' x hx)) (htext.trans htext'.symm) hb hb'
  · intro e e' text he he' σ v v' hv hv'
    obtain ⟨hdeclared, htext⟩ := he.final
    obtain ⟨hdeclared', htext'⟩ := he'.final
    exact value_eq_of_renderExpr_eq (fun x hx => hknown (hdeclared x hx))
      (fun x hx => hknown (hdeclared' x hx)) (htext.trans htext'.symm) hv hv'

/-- Three switches. -/
def switches : List Literal := [⟨⟨0, "a"⟩, false⟩, ⟨⟨1, "b"⟩, false⟩, ⟨⟨2, "c"⟩, false⟩]

/-- Each switch is bound. -/
def switchCalls : List Call := switches.map fun l => .bind (.bool l.var)

/-- The exclusive disjunction of three literals has the same text as their parity, and the negation
of a number the same text as the negative number. -/
theorem rendering_keeps_meaning_threeSwitches :
    (∀ b, (Constraint.connective .xor (switches.map .literal)).evaluate (fun _ => some 1) = .ok b →
      b = true) ∧
    ∀ v, (Expr.unary .neg (.atom (.constant 5))).evaluate (fun _ => none) = .ok v → v = -5 := by
  have hnames : ∀ d ∈ (programAfter switchCalls).declarations.toList, IsName d.name.toList := by
    decide +kernel
  have hdeclared : ∀ x ∈ switches.map fun l => Variable.bool l.var,
      ((programAfter switchCalls).name? x.id).isSome := by
    decide +kernel
  have hxor : RendersConstraint switchCalls (.connective .xor (switches.map .literal))
      "xorall([a,b,c])" := by
    refine ⟨switchCalls, List.prefix_refl _, fun x hx => hdeclared x ?_, ?_⟩
    · simpa [switches, writtenInConstraint, writtenInConstraints] using hx
    · rw [renderConstraint_connective (by decide)]
      simp only [switches, List.map_cons, List.map_nil, renderConstraint]
      decide +kernel
  have hparity : RendersConstraint switchCalls (.global (.parity switches)) "xorall([a,b,c])" := by
    refine ⟨switchCalls, List.prefix_refl _, fun x hx => hdeclared x ?_, ?_⟩
    · simpa [switches, writtenInConstraint, writtenInGlobal, Global.args, writtenInAll,
        Expr.ofLiteral, writtenIn, Atom.vars] using hx
    · rw [renderConstraint_global]
      decide +kernel
  have hneg : RendersExpr switchCalls (.unary .neg (.atom (.constant 5))) "-5" := by
    refine ⟨[], List.nil_prefix, by simp [writtenIn, Atom.vars], ?_⟩
    rw [renderExpr_neg, renderOperand_eq, renderExpr_atom]
    rfl
  have hconstant : RendersExpr switchCalls (.atom (.constant (-5))) "-5" := by
    refine ⟨[], List.nil_prefix, by simp [writtenIn, Atom.vars], ?_⟩
    rw [renderExpr_atom]
    rfl
  obtain ⟨hconstraints, hexprs⟩ := rendering_keeps_meaning switchCalls hnames
  constructor
  · intro b hb
    refine hconstraints _ _ _ hxor hparity _ b true hb ?_
    rw [Constraint.evaluate]
    rfl
  · intro v hv
    refine hexprs _ _ _ hneg hconstant _ v (-5) hv ?_
    rw [Expr.evaluate]
    rfl

end FiniteDomain.MiniZinc
