import FiniteDomain.Constraint.Decomposition
import FiniteDomain.Proofs.Constraint.Evaluation
import FiniteDomain.Proofs.Expr.Bounds

/-!
# Variables and their values

A registry knows which variable has which number, below the next free one. Decomposition
creates variables, so it leads to a registry that knows more; values that respect the domains of
the old variables are extended to the new ones. Expressions that decomposition names by such a
variable need values that fit into 32 bits.
-/

namespace FiniteDomain

/-- The assignment under which every variable has a value. -/
def total (τ : VarId → Int) : Assignment := fun x => some (τ x)

/-- Two assignments of values agree on the variables below a number. -/
def Agree (n : VarId) (τ τ' : VarId → Int) : Prop := ∀ id < n, τ' id = τ id

/-- The variable that has a number, for the numbers below the next free one. -/
structure Registry where
  lookup : VarId → Variable
  next : VarId

namespace Registry

variable {r r' r'' : Registry} {x : Variable} {xs : List Variable} {τ τ' τ'' : VarId → Int}

/-- The variable has been created. -/
def Knows (r : Registry) (x : Variable) : Prop := x.id < r.next ∧ r.lookup x.id = x

/-- A registry that knows at least the same variables. -/
instance : LE Registry where
  le r r' := r.next ≤ r'.next ∧ ∀ id < r.next, r'.lookup id = r.lookup id

/-- Every variable has a value of its domain. -/
def Respects (r : Registry) (τ : VarId → Int) : Prop :=
  ∀ id < r.next, (r.lookup id).domain.contains (τ id) = true

/-- The registry after a variable with the next free number was created. -/
def extend (r : Registry) (x : Variable) : Registry where
  lookup := Function.update r.lookup r.next x
  next := r.next + 1

theorem le_refl (r : Registry) : r ≤ r := ⟨le_rfl, fun _ _ => rfl⟩

theorem le_trans (h : r ≤ r') (h' : r' ≤ r'') : r ≤ r'' :=
  ⟨h.1.trans h'.1, fun id hid => (h'.2 id (hid.trans_le h.1)).trans (h.2 id hid)⟩

theorem Knows.mono (hx : r.Knows x) (h : r ≤ r') : r'.Knows x :=
  ⟨hx.1.trans_le h.1, (h.2 x.id hx.1).trans hx.2⟩

theorem Respects.mono (hτ : r'.Respects τ) (h : r ≤ r') : r.Respects τ := by
  intro id hid
  rw [← h.2 id hid]
  exact hτ id (hid.trans_le h.1)

theorem le_extend (r : Registry) (x : Variable) : r ≤ r.extend x :=
  ⟨Nat.le_succ _, fun _ hid => Function.update_of_ne hid.ne _ _⟩

theorem knows_extend (hx : x.id = r.next) : (r.extend x).Knows x :=
  ⟨hx ▸ Nat.lt_succ_self _, hx ▸ Function.update_self ..⟩

/-- The new variable needs a value of its domain. -/
theorem respects_extend (hτ : r.Respects τ) {v : Int} (hv : x.domain.contains v = true) :
    (r.extend x).Respects (Function.update τ r.next v) := by
  intro id hid
  rcases Nat.lt_succ_iff_lt_or_eq.mp hid with hid | rfl
  · rw [(r.le_extend x).2 id hid, Function.update_of_ne hid.ne]
    exact hτ id hid
  · simpa [extend] using hv

theorem Respects.contains (hτ : r.Respects τ) (hx : r.Knows x) :
    x.domain.contains (τ x.id) = true := by
  have := hτ x.id hx.1
  rwa [hx.2] at this

end Registry

theorem Registry.Respects.agree {r : Registry} {τ τ' : VarId → Int} (hτ : r.Respects τ)
    (hagree : Agree r.next τ τ') : r.Respects τ' := by
  intro id hid
  rw [hagree id hid]
  exact hτ id hid

theorem agree_update (n : VarId) (τ : VarId → Int) (v : Int) : Agree n τ (Function.update τ n v) :=
  fun _ hid => Function.update_of_ne hid.ne _ _

theorem Agree.trans {n m : VarId} {τ τ' τ'' : VarId → Int} (h : Agree n τ τ')
    (h' : Agree m τ' τ'') (hnm : n ≤ m) : Agree n τ τ'' :=
  fun id hid => (h' id (hid.trans_le hnm)).trans (h id hid)

/-! ## Atoms -/

namespace Domain

theorem contains_boolean {v : Int} : boolean.contains v = true ↔ v = 0 ∨ v = 1 := by
  simp only [boolean, contains, Bool.and_eq_true, decide_eq_true_eq]
  omega

/-- A 32-bit value between two bounds belongs to the interval that they are moved to. -/
theorem contains_clamped {lower upper v : Int} {h : lower ≤ upper} (hv : word32.Fits v)
    (hl : lower ≤ v) (hu : v ≤ upper) : (clamped lower upper h).contains v = true := by
  simp only [clamped, contains, Bool.and_eq_true, decide_eq_true_eq]
  exact ⟨Word.clamp_le_of_le hv.1 hl, Word.le_clamp_of_le hv.2 hu⟩

end Domain

/-- How large the constants and the lists of a constraint may be. -/
inductive Scope where
  /-- Constants have 64 bits, and lists have at most `2 ^ 63` entries. -/
  | words
  /-- Negations of the constants in structured expressions fit into 64 bits as well. -/
  | narrow
  /-- Negations of all constants fit into 64 bits as well. -/
  | negatable
  /-- Lists of operands have at most `2 ^ 31` entries as well. -/
  | modest

namespace Scope

/-- The greatest length of a list of operands. -/
def limit : Scope → Nat
  | modest => 2 ^ 31
  | _ => 2 ^ 63

/-- What holds for a constant that is compared with an atom. -/
def bare : Scope → Scope
  | narrow => words
  | scope => scope

/-- Values of the variables that are there can be extended to auxiliaries. -/
def Complete : Scope → Prop
  | narrow => True
  | modest => True
  | _ => False

theorem limit_le (scope : Scope) : scope.limit ≤ 2 ^ 63 := by cases scope <;> decide

theorem le_limit (scope : Scope) : 2 ^ 31 ≤ scope.limit := by cases scope <;> decide

theorem limit_bare_le (scope : Scope) : scope.limit ≤ scope.bare.limit := by
  cases scope <;> decide

theorem Complete.ne_words {scope : Scope} (h : scope.Complete) : scope ≠ words := by
  rintro rfl
  exact h

/-- The constant may occur. -/
def Admits (scope : Scope) (v : Int) : Prop :=
  word64.Fits v ∧ (scope ≠ words → v ≠ word64.min)

/-- A value of 32 bits and its negation fit into 64 bits. -/
theorem admits_of_fits {scope : Scope} {v : Int} (h : word32.Fits v) : scope.Admits v := by
  simp only [Admits, Word.Fits, word32, word64] at h ⊢
  omega

theorem Admits.bare {scope : Scope} {v : Int} (h : scope.Admits v) : scope.bare.Admits v := by
  refine ⟨h.1, fun hbare => h.2 ?_⟩
  rintro rfl
  exact hbare rfl

end Scope

namespace Atom

variable {a : Atom} {r : Registry} {τ : VarId → Int} {scope : Scope}

/-- The value of an atom over the integers. -/
def value (τ : VarId → Int) : Atom → Int
  | .int x => τ x.id
  | .literal l => if l.negated then 1 - τ l.var.id else τ l.var.id
  | .constant value => value
  | .bool value => value.toInt

/-- A constant is in scope. -/
def Plain (scope : Scope) : Atom → Prop
  | .constant value => scope.Admits value
  | _ => True

/-- The value of a known literal is 0 or 1. -/
theorem value_literal {l : Literal} (hτ : r.Respects τ) (hl : r.Knows (.bool l.var)) :
    (literal l).value τ = 0 ∨ (literal l).value τ = 1 := by
  have := Domain.contains_boolean.mp (hτ.contains hl)
  simp only [Variable.id] at this
  simp only [value]
  split <;> omega

theorem evaluate_total (hτ : r.Respects τ) (ha : ∀ x ∈ a.vars, r.Knows x) :
    a.evaluate (total τ) = .ok (a.value τ) := by
  cases a with
  | literal l =>
      have := Domain.contains_boolean.mp (hτ.contains (ha (.bool l.var) (by simp [vars])))
      simp only [Variable.id] at this
      have hfits : word64.Fits (1 - τ l.var.id) := by
        simp only [Word.Fits, word64]
        omega
      simp only [evaluate, Literal.evaluate, total, orUndefined, value, bind, Except.bind]
      cases l.negated <;> simp [hfits, pure, Except.pure]
  | _ => rfl

/-- Values of plain atoms fit into 64 bits, and so do their negations in a negatable scope. -/
theorem admits_value (hτ : r.Respects τ) (ha : ∀ x ∈ a.vars, r.Knows x) (hplain : a.Plain scope) :
    scope.Admits (a.value τ) := by
  cases a with
  | int x =>
      exact Scope.admits_of_fits (Domain.fits_of_contains (hτ.contains (ha (.int x) (by simp [vars]))))
  | literal l =>
      have := value_literal hτ (ha (.bool l.var) (by simp [vars]))
      simp only [Scope.Admits, Word.Fits, word64]
      omega
  | constant value => exact hplain
  | bool value => cases value <;> simp [Atom.value, Scope.Admits, Word.Fits, word64]

end Atom

namespace Expr

variable {e : Expr} {r r' : Registry} {τ τ' : VarId → Int} {scope : Scope}

/-- All variables of the expression are known. -/
def KnownTo (r : Registry) (e : Expr) : Prop := ∀ x ∈ e.occurrences, r.Knows x

theorem KnownTo.mono (h : e.KnownTo r) (hle : r ≤ r') : e.KnownTo r' := fun x hx => (h x hx).mono hle

/-- Only the values of the variables that occur matter. -/
theorem traces_congr (h : ∀ x ∈ e.occurrences, τ' x.id = τ x.id) :
    Traces (total τ) (total τ') e e :=
  traces_self fun x hx _ hv => (congrArg some (h x hx)).trans hv

theorem KnownTo.traces (h : e.KnownTo r) (hagree : Agree r.next τ τ') :
    Traces (total τ) (total τ') e e :=
  traces_congr fun x hx => hagree x.id (h x hx).1

/-- The operator has no large constants, and not too many operands. -/
def Tame (scope : Scope) : Expr → Prop
  | atom a => a.Plain scope
  | sum terms => terms.length ≤ scope.limit
  | weightedSum weights terms => (∀ w ∈ weights, word64.Fits w) ∧ terms.length ≤ scope.limit
  | element array _ => array.length ≤ scope.limit
  | _ => True

/-- The expression and its parts have no large constants, and not too many operands. -/
def Plain (scope : Scope) (e : Expr) : Prop := e.Tame scope ∧ ∀ o ∈ e.parts, o.Tame scope

theorem Tame.bare (h : e.Tame scope) : e.Tame scope.bare := by
  cases e with
  | atom a =>
      cases a with
      | constant value => exact Scope.Admits.bare h
      | _ => trivial
  | sum terms => exact le_trans h scope.limit_bare_le
  | weightedSum weights terms => exact ⟨h.1, h.2.trans scope.limit_bare_le⟩
  | binary op a b => trivial
  | unary op a => trivial
  | element array index => exact le_trans h scope.limit_bare_le

theorem Plain.bare (h : e.Plain scope) : e.Plain scope.bare :=
  ⟨h.1.bare, fun o ho => (h.2 o ho).bare⟩

/-- The parts that are not atoms. -/
def inner (e : Expr) : List Expr := e.parts.filter (!·.isAtom)

/-- The parts that are not atoms, the expression itself included. -/
def named (e : Expr) : List Expr := if e.isAtom then [] else e :: e.inner

/-- The expression has a value, and that fits into 32 bits. -/
def Representable (τ : VarId → Int) (e : Expr) : Prop :=
  ∃ v, e.evaluate (total τ) = .ok v ∧ word32.Fits v

theorem Representable.congr (h : e.Representable τ) (hτ : ∀ x ∈ e.occurrences, τ' x.id = τ x.id) :
    e.Representable τ' := by
  obtain ⟨v, hv, hfits⟩ := h
  exact ⟨v, traces_congr hτ v hv, hfits⟩

theorem Representable.agree (h : e.Representable τ) (hknown : e.KnownTo r)
    (hagree : Agree r.next τ τ') : e.Representable τ' :=
  h.congr fun x hx => hagree x.id (hknown x hx).1

/-! ## Parts -/

theorem KnownTo.part {o : Expr} (h : e.KnownTo r) (ho : o ∈ e.parts) : o.KnownTo r :=
  fun x hx => h x (mem_occurrences_of_part ho hx)

theorem Plain.part {o : Expr} (h : e.Plain scope) (ho : o ∈ e.parts) : o.Plain scope :=
  ⟨h.2 o ho, fun q hq => h.2 q (mem_parts_trans ho hq)⟩

theorem mem_inner_of_part {o q : Expr} (ho : o ∈ e.parts) (hq : q ∈ o.named) : q ∈ e.inner := by
  rw [named] at hq
  split at hq
  · cases hq
  · next hatom =>
    rcases List.mem_cons.mp hq with rfl | hq
    · exact List.mem_filter.mpr ⟨ho, by simpa using hatom⟩
    · obtain ⟨hq, hatom⟩ := List.mem_filter.mp hq
      exact List.mem_filter.mpr ⟨mem_parts_trans ho hq, hatom⟩

theorem named_eq_nil (h : e.isAtom = true) : e.named = [] := if_pos h

theorem inner_eq_nil (h : e.operands.all (·.isAtom) = true) : e.inner = [] := by
  rw [inner, List.filter_eq_nil_iff]
  intro o ho
  obtain ⟨a, ha, hoa⟩ := mem_parts_iff.mp ho
  obtain ⟨b, rfl⟩ := isAtom_iff.mp (List.all_eq_true.mp h a ha)
  rcases hoa with rfl | hoa
  · simp [isAtom, asAtom?]
  · cases hoa

/-! ## Values -/

/-- The parts of a plain expression whose structured parts fit into 32 bits do not have the
smallest value. -/
theorem admits_part (hτ : r.Respects τ) (hknown : e.KnownTo r) (hplain : e.Plain scope)
    (hinner : ∀ o ∈ e.inner, o.Representable τ) {o : Expr} (ho : o ∈ e.parts) {v : Int}
    (hv : o.evaluate (total τ) = .ok v) : scope.Admits v := by
  by_cases hatom : o.isAtom
  · obtain ⟨a, rfl⟩ := isAtom_iff.mp hatom
    have hvars : ∀ x ∈ a.vars, r.Knows x := hknown.part ho
    have heval : (atom a).evaluate (total τ) = .ok (a.value τ) := Atom.evaluate_total hτ hvars
    obtain rfl := Except.ok.inj (heval.symm.trans hv)
    exact Atom.admits_value hτ hvars (hplain.2 _ ho)
  · obtain ⟨w, hw, hfits⟩ := hinner o (List.mem_filter.mpr ⟨ho, by simpa using hatom⟩)
    obtain rfl := Except.ok.inj (hw.symm.trans hv)
    exact Scope.admits_of_fits hfits

/-- The variable that names an expression. -/
def auxiliaryVar (e : Expr) (n : VarId) : IntVar :=
  ⟨n, "IV" ++ toString n, .clamped e.bounds.lower e.bounds.upper e.ordered_bounds⟩

/-- The variable that names an expression can take a 32-bit value of the expression. -/
theorem contains_auxiliaryVar (hτ : r.Respects τ) (hknown : e.KnownTo r)
    (hinner : ∀ o ∈ e.inner, o.Representable τ) {v : Int} (hv : e.evaluate (total τ) = .ok v)
    (hfits : word32.Fits v) : (e.auxiliaryVar r.next).domain.contains v = true := by
  have hinside : Inside (total τ) e.occurrences := by
    intro x hx w hw
    obtain rfl := Option.some.inj hw
    exact hτ.contains (hknown x hx)
  have hfits' : ∀ {o : Expr} {w : Int}, o.evaluate (total τ) = .ok w → word32.Fits w →
      ∀ w, o.evaluate (total τ) = .ok w → word32.Fits w := by
    rintro o w hw hfits w' hw'
    exact Except.ok.inj (hw.symm.trans hw') ▸ hfits
  have hno : e.Everywhere fun o => ¬ o.Escapes (total τ) := by
    refine ⟨not_escapes_of_fits (hfits' hv hfits), fun o ho => ?_⟩
    by_cases hatom : o.isAtom
    · exact not_escapes_of_isAtom hatom
    · obtain ⟨w, hw, hfits⟩ := hinner o (List.mem_filter.mpr ⟨ho, by simpa using hatom⟩)
      exact not_escapes_of_fits (hfits' hw hfits)
  obtain ⟨hl, hu⟩ := holds_bounds hinside hno hv
  exact Domain.contains_clamped (h := e.ordered_bounds) hfits hl hu

end Expr

end FiniteDomain
