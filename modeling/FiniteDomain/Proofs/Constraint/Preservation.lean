import FiniteDomain.Proofs.Constraint.Decomposition

/-!
# Meaning under decomposition

The pieces of a constraint speak about its variables and new ones. Where values of the new
variables make all pieces true the constraint is not false. Where the constraint is true and every
numeric subexpression has a 32-bit value, the new variables have values that make all pieces true.

## Implementation notes

An assignment need not give values to other variables than those of the constraint. The laws of
encodings are about values of all variables of a registry, so a partial assignment is completed
by values of the domains before they are applied.

The constraint is one that a machine of 64 bits holds. Decomposition writes the number of nodes of
a circuit and the number of terms of a parity into 32 bits, so these are less than `2 ^ 31`.
-/

namespace FiniteDomain

variable {c : Constraint} {cs cs₁ cs₂ pieces : List Constraint} {r r' r₁ r₂ : Registry}
  {σ σ' : Assignment} {τ τ' τ₁ τ₂ : VarId → Int} {next : VarId} {scope : Scope}

namespace Assignment

/-- Every variable of the constraints has a value of its domain. -/
def Covers (σ : Assignment) (cs : List Constraint) : Prop :=
  ∀ c ∈ cs, ∀ x ∈ c.occurrences, ∃ v, σ x.id = some v ∧ x.domain.contains v = true

/-- The expressions have values that fit into 32 bits. -/
def Represents (σ : Assignment) (es : List Expr) : Prop :=
  ∀ e ∈ es, ∃ v, e.evaluate σ = .ok v ∧ word32.Fits v

end Assignment

/-! ## Numeric subexpressions -/

/-- The arguments and what is inside them. -/
def Global.subexpressions (g : Global) : List Expr := g.args.flatMap fun e => e :: e.parts

namespace Constraint

mutual

/-- The numeric expressions in a constraint. -/
def subexpressions : Constraint → List Expr
  | connective _ args => subexpressionsIn args
  | implication a c => a.subexpressions ++ c.subexpressions
  | comparison _ lhs rhs => lhs :: lhs.parts ++ rhs :: rhs.parts
  | global g => g.subexpressions
  | _ => []

/-- The numeric expressions in all constraints. -/
def subexpressionsIn : List Constraint → List Expr
  | [] => []
  | c :: cs => c.subexpressions ++ subexpressionsIn cs

end

theorem mem_subexpressionsIn {o : Expr} :
    o ∈ subexpressionsIn cs ↔ ∃ c ∈ cs, o ∈ c.subexpressions := by
  induction cs with
  | nil => simp [subexpressionsIn]
  | cons c cs ih => simp [subexpressionsIn, ih]

theorem mem_self_or_parts_of_named {e o : Expr} (ho : o ∈ e.named) : o ∈ e :: e.parts := by
  rw [Expr.named] at ho
  split at ho
  · cases ho
  · rcases List.mem_cons.mp ho with rfl | ho
    · exact List.mem_cons_self
    · exact List.mem_cons_of_mem _ (List.mem_filter.mp ho).1

theorem mem_subexpressions_of_sides {comparator : Comparator} {lhs rhs o : Expr}
    (ho : o ∈ lhs.named ∨ o ∈ rhs.named) :
    o ∈ (comparison comparator lhs rhs).subexpressions := by
  rcases ho with ho | ho
  · exact List.mem_append_left _ (mem_self_or_parts_of_named ho)
  · exact List.mem_append_right _ (mem_self_or_parts_of_named ho)

theorem mem_subexpressions_of_reified {o : Expr} (ho : o ∈ c.reified) : o ∈ c.subexpressions := by
  induction c using Constraint.induction with
  | literal l => cases ho
  | constant value => cases ho
  | connective kind args ih =>
      obtain ⟨c, hc, ho⟩ := mem_reifiedIn.mp ho
      exact mem_subexpressionsIn.mpr ⟨c, hc, ih c hc ho⟩
  | implication a c iha ihc => exact List.mem_append_right _ (ihc ho)
  | comparison comparator lhs rhs =>
      exact mem_subexpressions_of_sides (List.mem_append.mp ho)
  | global g => cases ho

/-- What decomposition names are subexpressions. -/
theorem mem_subexpressions_of_named {o : Expr} (ho : o ∈ c.named) : o ∈ c.subexpressions := by
  induction c using Constraint.induction with
  | literal l => cases ho
  | constant value => cases ho
  | connective kind args ih =>
      cases kind with
      | and =>
          obtain ⟨c, hc, ho⟩ := mem_namedIn.mp ho
          exact mem_subexpressionsIn.mpr ⟨c, hc, ih c hc ho⟩
      | _ => exact mem_subexpressions_of_reified ho
  | implication a c iha ihc => exact mem_subexpressions_of_reified ho
  | comparison comparator lhs rhs =>
      apply mem_subexpressions_of_sides
      cases comparator with
      | equal => exact Expr.mem_named_of_equated ho
      | _ => exact List.mem_append.mp ho
  | global g =>
      obtain ⟨e, he, ho⟩ := Global.exists_named ho
      exact List.mem_flatMap.mpr ⟨e, he, mem_self_or_parts_of_named ho⟩

/-- The constants in expressions whose values fit into 32 bits can be negated. -/
theorem narrow_of_represents {e : Expr} (hplain : e.Plain .words)
    (h : σ.Represents (e :: e.parts)) : e.Plain .narrow := by
  have htame : ∀ {o : Expr} {v : Int}, o.Tame .words → o.evaluate σ = .ok v → word32.Fits v →
      o.Tame .narrow := by
    intro o v ho hv hfits
    cases o with
    | atom a =>
        cases a with
        | constant value =>
            obtain rfl := Except.ok.inj hv
            refine ⟨ho.1, fun _ hmin => ?_⟩
            rw [hmin] at hfits
            exact absurd hfits (by decide)
        | _ => trivial
    | sum terms => exact ho
    | weightedSum weights terms => exact ho
    | binary op a b => trivial
    | unary op a => trivial
    | element array index => exact ho
  constructor
  · obtain ⟨v, hv, hfits⟩ := h e List.mem_cons_self
    exact htame hplain.1 hv hfits
  · intro o ho
    obtain ⟨v, hv, hfits⟩ := h o (List.mem_cons_of_mem _ ho)
    exact htame (hplain.2 o ho) hv hfits

theorem plain_narrow (hplain : c.Plain .words)
    (h : σ.Represents c.subexpressions) : c.Plain .narrow := by
  induction c using Constraint.induction with
  | literal l => trivial
  | constant value => trivial
  | connective kind args ih =>
      refine ⟨plainIn_iff.mpr fun c hc => ?_, hplain.2⟩
      exact ih c hc (plainIn_iff.mp hplain.1 c hc) fun o ho =>
        h o (mem_subexpressionsIn.mpr ⟨c, hc, ho⟩)
  | implication a c iha ihc =>
      obtain ⟨ha, hc⟩ := List.forall_mem_append.mp h
      exact ⟨iha hplain.1 ha, ihc hplain.2 hc⟩
  | comparison comparator lhs rhs =>
      obtain ⟨hl, hr⟩ := List.forall_mem_append.mp h
      have hsides : lhs.Plain .words ∧ rhs.Plain .words := by
        rw [Plain] at hplain
        split at hplain <;> exact hplain
      exact plain_comparison (narrow_of_represents hsides.1 hl)
        (narrow_of_represents hsides.2 hr)
  | global g =>
      refine ⟨fun e he => ?_, hplain.2⟩
      exact narrow_of_represents (hplain.1 e he) fun o ho =>
        h o (List.mem_flatMap.mpr ⟨e, he, ho⟩)

theorem mem_occurrences_of_subexpression {o : Expr} {x : Variable} (ho : o ∈ c.subexpressions)
    (hx : x ∈ o.occurrences) : x ∈ c.occurrences := by
  have hparts : ∀ {e : Expr}, o ∈ e :: e.parts → x ∈ e.occurrences := by
    intro e ho
    rcases List.mem_cons.mp ho with rfl | ho
    · exact hx
    · exact Expr.mem_occurrences_of_part ho hx
  induction c using Constraint.induction with
  | literal l => cases ho
  | constant value => cases ho
  | connective kind args ih =>
      obtain ⟨c, hc, ho⟩ := mem_subexpressionsIn.mp ho
      exact mem_occurrencesIn.mpr ⟨c, hc, ih c hc ho⟩
  | implication a c iha ihc =>
      exact List.mem_append.mpr ((List.mem_append.mp ho).imp iha ihc)
  | comparison comparator lhs rhs =>
      exact List.mem_append.mpr ((List.mem_append.mp ho).imp hparts hparts)
  | global g =>
      obtain ⟨e, he, ho⟩ := List.mem_flatMap.mp ho
      exact List.mem_flatMap.mpr ⟨e, he, hparts ho⟩

end Constraint

/-! ## Completing an assignment -/

/-- The value of a variable, or one of its domain if there is no value in the domain. -/
def Registry.complete (r : Registry) (σ : Assignment) (id : VarId) : Int :=
  let domain := (r.lookup id).domain
  match (σ id).filter (domain.contains ·) with
  | some v => v
  | none => domain.lower

theorem Registry.respects_complete (r : Registry) (σ : Assignment) :
    r.Respects (r.complete σ) := by
  intro id _
  rw [complete]
  split
  · next v hv => exact (Option.filter_eq_some_iff.mp hv).2
  · exact (r.lookup id).domain.contains_lower

theorem Registry.Knows.complete_eq {x : Variable} {v : Int} (hx : r.Knows x)
    (hv : σ x.id = some v) (hcontains : x.domain.contains v = true) :
    r.complete σ x.id = v := by
  rw [Registry.complete, hx.2, hv, Option.filter_some_pos hcontains]

/-- The completion has the values that known variables have. -/
theorem Assignment.Assigns.total_complete {xs : List Variable} (hσ : σ.Assigns xs)
    (hknown : ∀ x ∈ xs, r.Knows x) : ∀ x ∈ xs, total (r.complete σ) x.id = σ x.id := by
  intro x hx
  obtain ⟨v, hv, hcontains⟩ := hσ x hx
  rw [total, (hknown x hx).complete_eq hv hcontains, hv]

theorem Assignment.Covers.total_complete (hσ : σ.Covers cs) (hknown : ∀ c ∈ cs, c.KnownTo r) :
    ∀ c ∈ cs, ∀ x ∈ c.occurrences, total (r.complete σ) x.id = σ x.id :=
  fun c hc => Assigns.total_complete (hσ c hc) (hknown c hc)

theorem evaluate_congr {b : Bool} (h : ∀ x ∈ c.occurrences, σ' x.id = σ x.id)
    (hc : c.evaluate σ = .ok b) : c.evaluate σ' = .ok b :=
  Constraint.evaluate_of_agree (fun x hx _ hv => (h x hx).trans hv) hc

/-! ## The variables of the pieces -/

/-- Some variable that is not the given one. -/
theorem exists_other_variable (x : Variable) : ∃ y, y ≠ x := by
  cases x with
  | bool x => exact ⟨.int ⟨0, "", .boolean⟩, by simp⟩
  | int x => exact ⟨.bool ⟨0, ""⟩, by simp⟩

/-- The variables of the pieces are new, or variables of the constraint. -/
theorem mem_occurrences_of_piece (hknown : c.KnownTo r) (hplain : c.Plain .words)
    (hpieces : c.decompose.run r.next = (some pieces, next)) {p : Constraint} (hp : p ∈ pieces)
    {x : Variable} (hx : x ∈ p.occurrences) : x ∈ c.occurrences ∨ r.next ≤ x.id := by
  have hlookup : ∀ r₀ : Registry, r₀.next = r.next → c.KnownTo r₀ → x.id < r.next →
      r₀.lookup x.id = x := by
    intro r₀ hnext hknown₀ hlt
    obtain ⟨r', hle, -, h⟩ := makes_decompose hknown₀ hplain
    have hsome : (c.decompose.run r₀.next).1 = some pieces := by rw [hnext, hpieces]
    rw [← hle.2 _ (hnext ▸ hlt)]
    exact ((h pieces hsome).known p hp x hx).2
  by_contra hnot
  obtain ⟨hnotMem, hlt⟩ := not_or.mp hnot
  have hlt : x.id < r.next := Nat.lt_of_not_le hlt
  -- the pieces do not depend on what variable has the number, unless it occurs
  obtain ⟨y, hy⟩ := exists_other_variable x
  apply hy
  have hknown' : c.KnownTo ⟨Function.update r.lookup x.id y, r.next⟩ := by
    intro z hz
    refine ⟨(hknown z hz).1, (Function.update_of_ne ?_ _ _).trans (hknown z hz).2⟩
    intro hid
    apply hnotMem
    rwa [← hlookup r rfl hknown hlt, ← hid, (hknown z hz).2]
  have hother := hlookup ⟨Function.update r.lookup x.id y, r.next⟩ rfl hknown' hlt
  exact (Function.update_self x.id y r.lookup).symm.trans hother

/-! ## Values of new variables -/

/-- Values of new variables, besides those of the old ones, make the constraints true. -/
structure Fulfils (r r' : Registry) (τ τ' : VarId → Int) (cs : List Constraint) : Prop where
  agree : Agree r.next τ τ'
  respects : r'.Respects τ'
  known : ∀ c ∈ cs, c.KnownTo r'
  holds : ∀ c ∈ cs, c.evaluate (total τ') = .ok true

namespace Fulfils

theorem refl (hτ : r.Respects τ) : Fulfils r r τ τ [] := ⟨fun _ _ => rfl, hτ, by simp, by simp⟩

/-- Values of further variables. -/
theorem append (h₁ : Fulfils r r₁ τ τ₁ cs₁) (h₂ : Fulfils r₁ r₂ τ₁ τ₂ cs₂) (hle₁ : r ≤ r₁)
    (hle₂ : r₁ ≤ r₂) : Fulfils r r₂ τ τ₂ (cs₁ ++ cs₂) where
  agree := h₁.agree.trans h₂.agree hle₁.1
  respects := h₂.respects
  known := List.forall_mem_append.mpr ⟨fun c hc => (h₁.known c hc).mono hle₂, h₂.known⟩
  holds := List.forall_mem_append.mpr
    ⟨fun c hc => (h₁.known c hc).evaluate h₂.agree (h₁.holds c hc), h₂.holds⟩

end Fulfils

theorem Encodes.exists_fulfils {S C : (VarId → Int) → Prop} (h : Encodes scope r r' cs S C)
    (hscope : scope.Complete) (hτ : r.Respects τ) (hneeded : C τ) :
    ∃ τ', Fulfils r r' τ τ' cs := by
  obtain ⟨τ', hagree, hτ', hall⟩ := h.complete hscope τ hτ hneeded
  exact ⟨τ', hagree, hτ', h.known, fun c hc => (hall c hc).1⟩

/-- The values of the old variables, together with values of new ones. -/
def Assignment.extended (σ : Assignment) (n : VarId) (τ : VarId → Int) : Assignment :=
  fun id => if id < n then σ id else some (τ id)

theorem Assignment.extended_of_lt {n id : VarId} (h : id < n) : σ.extended n τ id = σ id := if_pos h

/-- An assignment and its completion are extended to the same values of the variables that are new
or have values. -/
theorem extended_eq {x : Variable} (hagree : Agree r.next (r.complete σ) τ')
    (hx : r.next ≤ x.id ∨ total (r.complete σ) x.id = σ x.id) :
    σ.extended r.next τ' x.id = total τ' x.id := by
  rw [Assignment.extended]
  split
  · next hlt => rw [← hx.resolve_left (Nat.not_le.mpr hlt), total, total, hagree x.id hlt]
  · rfl

/-- What the completion of an assignment is extended to can be taken over. -/
theorem Fulfils.extended (h : Fulfils r r' (r.complete σ) τ' cs)
    (hold : ∀ c ∈ cs, ∀ x ∈ c.occurrences, r.next ≤ x.id ∨ total (r.complete σ) x.id = σ x.id) :
    (σ.extended r.next τ').Covers cs ∧ ∀ c ∈ cs, c.evaluate (σ.extended r.next τ') = .ok true := by
  constructor
  · exact fun c hc x hx =>
      ⟨τ' x.id, extended_eq h.agree (hold c hc x hx), h.respects.contains (h.known c hc x hx)⟩
  · exact fun c hc => evaluate_congr (fun x hx => extended_eq h.agree (hold c hc x hx))
      (h.holds c hc)

/-! ## Both directions -/

/-- Values that make all pieces true do not make the constraint false. -/
theorem not_false_of_pieces (hencodes : Decomposes scope r r' c pieces) (hknown : c.KnownTo r')
    (hσ : σ.Covers (c :: pieces)) (hpieces : ∀ p ∈ pieces, p.evaluate σ = .ok true) :
    c.evaluate σ ≠ .ok false := by
  have hcomplete := hσ.total_complete (List.forall_mem_cons.mpr ⟨hknown, hencodes.known⟩)
  intro hfalse
  apply hencodes.sound (r'.complete σ) (r'.respects_complete σ)
  · intro p hp hfails
    have htrue := evaluate_congr (hcomplete p (List.mem_cons_of_mem _ hp)) (hpieces p hp)
    cases hfails.symm.trans htrue
  · exact evaluate_congr (hcomplete c List.mem_cons_self) hfalse

/-- Values that make the constraint true are extended to the new variables. -/
theorem exists_pieces_true (hencodes : Decomposes .narrow r r' c pieces) (hknown : c.KnownTo r)
    (hnew : ∀ p ∈ pieces, ∀ x ∈ p.occurrences, x ∈ c.occurrences ∨ r.next ≤ x.id)
    (hσ : σ.Covers [c])
    (hfits : σ.Represents c.subexpressions) (htrue : c.evaluate σ = .ok true) :
    ∃ σ' : Assignment, (∀ id < r.next, σ' id = σ id) ∧ σ'.Covers pieces ∧
      ∀ p ∈ pieces, p.evaluate σ' = .ok true := by
  have hcomplete := hσ.total_complete (List.forall_mem_singleton.mpr hknown) c
    List.mem_cons_self
  have hrealised : c.Realised (r.complete σ) := by
    refine ⟨evaluate_congr hcomplete htrue, fun o ho => ?_⟩
    have ho := Constraint.mem_subexpressions_of_named ho
    obtain ⟨v, hv, hfits⟩ := hfits o ho
    refine ⟨v, Expr.traces_self (fun x hx w hw => ?_) v hv, hfits⟩
    exact (hcomplete x (Constraint.mem_occurrences_of_subexpression ho hx)).trans hw
  obtain ⟨τ', hfulfils⟩ := hencodes.exists_fulfils trivial (r.respects_complete σ) hrealised
  refine ⟨_, fun id hid => Assignment.extended_of_lt hid, hfulfils.extended fun p hp x hx => ?_⟩
  exact (hnew p hp x hx).symm.imp_right (hcomplete x)

/-- Decomposition preserves meaning. The pieces are about the variables of the constraint and new
ones. If values make all pieces true, then the constraint is not false; and if the constraint is
true and all numeric subexpressions have 32-bit values, then the new variables have values of their
domains that make all pieces true. -/
theorem decompose_preserves_meaning (hknown : c.KnownTo r) (hplain : c.Plain .words)
    (hpieces : c.decompose.run r.next = (some pieces, next)) :
    (∀ p ∈ pieces, ∀ x ∈ p.occurrences, x ∈ c.occurrences ∨ r.next ≤ x.id ∧ x.id < next) ∧
      ∀ σ : Assignment, σ.Covers [c] →
        (∀ σ' : Assignment, (∀ x ∈ c.occurrences, σ' x.id = σ x.id) → σ'.Covers pieces →
          (∀ p ∈ pieces, p.evaluate σ' = .ok true) → c.evaluate σ ≠ .ok false) ∧
        (σ.Represents c.subexpressions → c.evaluate σ = .ok true →
          ∃ σ' : Assignment, (∀ id < r.next, σ' id = σ id) ∧ σ'.Covers pieces ∧
            ∀ p ∈ pieces, p.evaluate σ' = .ok true) := by
  have hsome : (c.decompose.run r.next).1 = some pieces := by rw [hpieces]
  have hnew := fun p (hp : p ∈ pieces) x (hx : x ∈ p.occurrences) =>
    mem_occurrences_of_piece hknown hplain hpieces hp hx
  obtain ⟨r', hle, hnext, h⟩ := makes_decompose hknown hplain
  have hencodes : Decomposes .words r r' c pieces := h pieces hsome
  rw [hpieces] at hnext
  refine ⟨fun p hp x hx => (hnew p hp x hx).imp_right fun hnew => ⟨hnew, ?_⟩, fun σ hσ => ⟨?_, ?_⟩⟩
  · exact (hencodes.known p hp x hx).1.trans_eq hnext
  · intro σ' hagree hcovers htrue hfalse
    apply not_false_of_pieces hencodes (hknown.mono hle) ?_ htrue (evaluate_congr hagree hfalse)
    refine List.forall_mem_cons.mpr ⟨fun x hx => ?_, hcovers⟩
    obtain ⟨v, hv, hcontains⟩ := hσ c List.mem_cons_self x hx
    exact ⟨v, (hagree x hx).trans hv, hcontains⟩
  · intro hfits htrue
    obtain ⟨r', -, -, h⟩ := makes_decompose hknown (Constraint.plain_narrow hplain hfits)
    exact exists_pieces_true (h pieces hsome) hknown hnew hσ hfits htrue

section ProductOrOrder

/-- Two digits. -/
def digit (id : VarId) : IntVar := ⟨id, "digit", .interval 0 9 (by decide) (by decide)⟩

/-- Two digits whose product is 12, or in ascending order. -/
def productOrOrder : Constraint :=
  .or [.eq (.binary .mul (.ofInt (digit 0)) (.ofInt (digit 1))) (.constant 12),
    .comparison .less (.ofInt (digit 0)) (.ofInt (digit 1))]

/-- The selectors and the product have values for the digits 6 and 2. -/
theorem decompose_preserves_meaning_productOrOrder : ∃ pieces next,
    productOrOrder.decompose.run 2 = (some pieces, next) ∧ pieces.length = 4 ∧
      ∃ σ : Assignment, σ 0 = some 6 ∧ σ 1 = some 2 ∧ σ.Covers pieces ∧
        ∀ p ∈ pieces, p.evaluate σ = .ok true := by
  have hvars : ∀ x ∈ productOrOrder.occurrences, x = .int (digit 0) ∨ x = .int (digit 1) := by
    simp [productOrOrder, Constraint.or, Constraint.eq, Constraint.occurrences,
      Constraint.occurrencesIn, Expr.occurrences, Expr.ofInt, Expr.constant, Atom.vars]
  have hknown : productOrOrder.KnownTo ⟨fun id => .int (digit id), 2⟩ := by
    intro x hx
    rcases hvars x hx with rfl | rfl <;> exact ⟨by decide, rfl⟩
  have hplain : productOrOrder.Plain .words := by
    simp [productOrOrder, Constraint.Plain, Constraint.PlainIn, Constraint.or, Constraint.eq,
      Expr.Plain, Expr.Tame, Expr.parts, Atom.Plain, Expr.ofInt, Expr.constant, Scope.Admits,
      Word.Fits, word64, Expr.isAtom, Expr.asAtom?]
  let σ : Assignment := fun id => if id = 0 then some 6 else some 2
  have hσ : σ.Covers [productOrOrder] := by
    refine List.forall_mem_singleton.mpr fun x hx => ?_
    rcases hvars x hx with rfl | rfl
    · exact ⟨6, rfl, rfl⟩
    · exact ⟨2, rfl, rfl⟩
  have hdigits : ∀ id, ∃ v, (Expr.ofInt (digit id)).evaluate σ = .ok v ∧ word32.Fits v := by
    intro id
    refine ⟨if id = 0 then 6 else 2, ?_, by split <;> decide⟩
    by_cases hid : id = 0 <;> simp [Expr.ofInt, Expr.evaluate, Atom.evaluate, digit, σ, hid,
      orUndefined]
  have hfits : σ.Represents productOrOrder.subexpressions := by
    intro e he
    simp only [productOrOrder, Constraint.or, Constraint.eq, Constraint.subexpressions,
      Constraint.subexpressionsIn, Expr.parts, Expr.ofInt, Expr.constant, List.mem_append,
      List.mem_cons, List.not_mem_nil, or_false] at he
    rcases he with (((rfl | rfl | rfl) | rfl) | (rfl | rfl))
    all_goals first | exact hdigits _ | exact ⟨12, rfl, by decide⟩
  obtain ⟨-, hmeaning⟩ := decompose_preserves_meaning hknown hplain rfl
  obtain ⟨σ', hagree, hcovers, htrue⟩ := (hmeaning σ hσ).2 hfits rfl
  exact ⟨_, _, rfl, rfl, σ', hagree 0 (by decide), hagree 1 (by decide), hcovers, htrue⟩

end ProductOrOrder

end FiniteDomain
