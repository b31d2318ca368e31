import FiniteDomain.Proofs.Constraint.Decomposition
import FiniteDomain.Proofs.Constraint.Nesting
import FiniteDomain.Proofs.Engine.Losses

/-!
# The pieces of a constraint

Whether a composite constraint is decomposed does not depend on the numbers that new variables get.
Its pieces are all accepted, and have a smaller depth. What holds of all expressions of the
constraint holds of those of its pieces, and the variables of the constraint occur in them.

The exception are conjunctions, whose pieces are their arguments, whatever these are.
-/

namespace FiniteDomain

open FiniteDomain.Expr (ofInt)
open Constraint (eq comparison connective implication)

/-! ## Creating variables -/

section Judgements

variable {α β : Type} {action : Fresh α} {partially : OptionT Fresh α} {Q : α → Prop}
  {Q' : β → Prop} {N : Prop}

/-- The result is right, whatever the next free number is. -/
def Always (action : Fresh α) (Q : α → Prop) : Prop := ∀ n, Q (action n).1

theorem Always.pure {a : α} (h : Q a) : Always (Pure.pure a) Q := fun _ => h

theorem Always.bind {next : α → Fresh β} (h : Always action Q)
    (hnext : ∀ a, Q a → Always (next a) Q') : Always (action >>= next) Q' :=
  fun n => hnext _ (h n) (action n).2

theorem Always.weaken {Q' : α → Prop} (h : Always action Q) (himp : ∀ a, Q a → Q' a) :
    Always action Q' := fun n => himp _ (h n)

/-- There is a right result, or none and the condition holds, whatever the next free number is. -/
def Ends (action : OptionT Fresh α) (N : Prop) (Q : α → Prop) : Prop :=
  Always action.run fun result => match result with
    | none => N
    | some a => Q a

theorem Ends.pure {a : α} (h : Q a) : Ends (Pure.pure a) N Q := Always.pure (a := some a) h

theorem Ends.failure (h : N) : Ends (failure : OptionT Fresh α) N Q := Always.pure (a := none) h

theorem Ends.lift (h : Always action Q) : Ends (monadLift action) N Q :=
  h.bind fun a ha => Always.pure (a := some a) ha

theorem Ends.weaken {Q' : α → Prop} {N' : Prop} (h : Ends partially N Q) (hnone : N → N')
    (himp : ∀ a, Q a → Q' a) : Ends partially N' Q' :=
  Always.weaken h fun result hresult => match result with
    | none => hnone hresult
    | some a => himp a hresult

theorem Ends.ofOption {result : Option α} (h : result = none → N) :
    Ends (OptionT.mk (Pure.pure result)) N fun a => result = some a := by
  cases result with
  | none => exact Always.pure (a := none) (h rfl)
  | some a => exact Always.pure (a := some a) rfl

theorem Ends.bind {next : α → OptionT Fresh β} (h : Ends partially N Q)
    (hnext : ∀ a, Q a → Ends (next a) N Q') : Ends (partially >>= next) N Q' := by
  rw [Ends, OptionT.run_bind]
  refine Always.bind h fun result hresult => ?_
  cases result with
  | none => exact Always.pure (a := none) hresult
  | some a => exact hnext a hresult

/-- The same continuation after both branches. -/
theorem Ends.bindIte {p : Prop} [Decidable p] {first second : OptionT Fresh α}
    {next : α → OptionT Fresh β} (h : Ends (if p then first else second) N Q)
    (hnext : ∀ a, Q a → Ends (next a) N Q') :
    Ends (if p then first >>= next else second >>= next) N Q' := by
  split
  · next hp => exact (if_pos hp ▸ h).bind hnext
  · next hp => exact (if_neg hp ▸ h).bind hnext

end Judgements

/-! ## Properties of all expressions -/

/-- The second expression has the operator of the first one, over as many operands. -/
inductive Expr.Mirrors : Expr → Expr → Prop
  | sum {es as : List Expr} : as.length = es.length → Mirrors (sum es) (sum as)
  | weightedSum {weights : List Int} {es as : List Expr} : as.length = es.length →
      Mirrors (weightedSum weights es) (weightedSum weights as)
  | binary (op : BinaryOp) (a b a' b' : Expr) : Mirrors (binary op a b) (binary op a' b')
  | unary (op : UnaryOp) (a a' : Expr) : Mirrors (unary op a) (unary op a')
  | element {array items : List Expr} (index index' : Expr) : items.length = array.length →
      Mirrors (element array index) (element items index')

theorem Expr.Mirrors.not_isAtom {e e' : Expr} (h : e.Mirrors e') : ¬ e'.isAtom := by
  cases h <;> simp [isAtom, asAtom?]

/-- What decompositions build has the properties if what they are given has. -/
structure Inherited (P : Expr → Prop) (Q : Global → Prop) : Prop where
  ofInt : ∀ x, P (Expr.ofInt x)
  zero : P (.constant 0)
  one : P (.constant 1)
  mirror : ∀ {e e'}, P e → e.Mirrors e' → P e'
  position : ∀ {array index} {i : Nat}, P (.element array index) → i < array.length →
    P (.constant i)
  entry : ∀ {g : Global}, Q g → ∀ row ∈ g.rows, ∀ v ∈ row, P (.constant v)
  distinct : ∀ {g : Global} {es}, Q g → es.length = g.args.length → Q (.allDifferent es)
  count : ∀ {successors}, Q (.circuit successors) → P (.constant successors.length)
  follow : ∀ {successors}, Q (.circuit successors) → ∀ index, P (.element successors index)
  half : ∀ {literals terms}, Q (.parity literals) → terms.length = literals.length + 1 →
    P (.weightedSum (List.replicate literals.length 1 ++ [-2]) terms)

theorem inherited_hasWeights : Inherited Expr.HasWeights fun _ => True where
  ofInt := fun _ => trivial
  zero := trivial
  one := trivial
  mirror := fun h hmirror => by
    cases hmirror with
    | weightedSum hlength => exact Eq.trans h hlength.symm
    | _ => trivial
  position := fun _ _ => trivial
  entry := fun _ _ _ _ _ => trivial
  distinct := fun _ _ => trivial
  count := fun _ => trivial
  follow := fun _ _ => trivial
  half := fun _ hlength => by simp [Expr.HasWeights, hlength]

/-- The weights have 64 bits and are not too large together. -/
def Light (weights : List Int) : Prop :=
  (∀ w ∈ weights, word64.Fits w) ∧ (weights.map fun w => |w|).sum ≤ (2 ^ 31 - 1) * 2 ^ 63

/-- Numbers have 64 bits, there are fewer than `2 ^ 31` terms or items, and weights are light. -/
def Expr.IsModerate : Expr → Prop
  | atom (.constant value) => word64.Fits value
  | sum terms => terms.length < 2 ^ 31
  | weightedSum weights terms => weights.length = terms.length → Light weights
  | element array _ => array.length < 2 ^ 31
  | _ => True

theorem Expr.IsSized.isModerate {e : Expr} (h : e.IsSized) : e.IsModerate := by
  match e with
  | .weightedSum weights terms =>
    intro hlength
    refine ⟨h.1, ?_⟩
    have hle : ∀ v ∈ weights.map fun w => |w|, v ≤ 2 ^ 63 :=
      List.forall_mem_map.mpr fun w hw => Engine.Linear.abs_le_of_fits (h.1 w hw)
    have hsum := List.sum_le_card_nsmul _ _ hle
    have hterms : terms.length < 2 ^ 31 := h.2
    rw [List.length_map, hlength, nsmul_eq_mul] at hsum
    refine hsum.trans (mul_le_mul_of_nonneg_right ?_ (by decide))
    omega
  | .atom (.constant value) => exact h
  | .sum terms => exact h
  | .element array index => exact h
  | .atom (.int x) | .atom (.literal l) | .atom (.bool value) => trivial
  | .binary op a b => trivial
  | .unary op a => trivial

theorem fits_natCast {n : Nat} (h : n < 2 ^ 31) : word64.Fits n := by
  simp only [Word.Fits, word64]
  omega

theorem inherited_isModerate : Inherited Expr.IsModerate Global.IsSized where
  ofInt := fun _ => trivial
  zero := fits_natCast (n := 0) (by decide)
  one := fits_natCast (n := 1) (by decide)
  mirror := fun h hmirror => by
    cases hmirror with
    | sum hlength => exact hlength.trans_lt h
    | weightedSum hlength => exact fun hweights => h (hweights.trans hlength)
    | binary => trivial
    | unary => trivial
    | element index index' hlength => exact hlength.trans_lt h
  position := fun h hi => fits_natCast (hi.trans h)
  entry := fun h => h.2
  distinct := fun h hlength => ⟨hlength.trans_lt h.1, by simp [Global.rows]⟩
  count := fun h => fits_natCast h.1
  follow := fun h _ => h.1
  half := fun {literals terms} h _ _ => by
    have hlength : literals.length < 2 ^ 31 := by simpa [Global.args] using h.1
    constructor
    · refine List.forall_mem_append.mpr ⟨fun w hw => ?_, List.forall_mem_singleton.mpr (by decide)⟩
      obtain rfl := List.eq_of_mem_replicate hw
      decide
    · simp only [List.map_append, List.map_replicate, List.sum_append, List.sum_replicate,
        List.map_singleton, List.sum_singleton, nsmul_eq_mul, abs_one, abs_neg]
      norm_num
      omega

/-- Numbers and lists are of a moderate size. -/
def Constraint.Moderate (c : Constraint) : Prop := c.Everywhere Expr.IsModerate Global.IsSized

theorem Constraint.Sized.moderate {c : Constraint} (h : c.Sized) : c.Moderate :=
  Constraint.Everywhere.mono h (fun _ => Expr.IsSized.isModerate) fun _ => id

/-! ## Pieces -/

namespace Constraint

mutual

/-- The variables that are met when the constraint is posted. All-equal does not look at its
argument if there is only one. -/
def bound : Constraint → List Variable
  | connective .and args => boundIn args
  | global (.allEqual args) => if args.length ≤ 1 then [] else args.flatMap Expr.occurrences
  | c => c.occurrences

/-- The same for all constraints of a list. -/
def boundIn : List Constraint → List Variable
  | [] => []
  | c :: cs => c.bound ++ boundIn cs

end

theorem mem_boundIn {cs : List Constraint} {x : Variable} :
    x ∈ boundIn cs ↔ ∃ c ∈ cs, x ∈ c.bound := by
  induction cs with
  | nil => simp [boundIn]
  | cons c cs ih => simp [boundIn, ih]

theorem bound_subset (c : Constraint) : c.bound ⊆ c.occurrences := by
  induction c using Constraint.induction with
  | literal l => exact fun _ => id
  | constant value => exact fun _ => id
  | connective kind args ih =>
      cases kind with
      | and =>
          intro x hx
          obtain ⟨c, hc, hx⟩ := mem_boundIn.mp hx
          exact mem_occurrencesIn.mpr ⟨c, hc, ih c hc hx⟩
      | or => exact fun _ => id
      | xor => exact fun _ => id
  | implication a c _ _ => exact fun _ => id
  | comparison comparator lhs rhs => exact fun _ => id
  | global g =>
      cases g with
      | allEqual args =>
          intro x hx
          rw [bound] at hx
          split at hx
          · cases hx
          · exact hx
      | _ => exact fun _ => id

theorem bound_global {g : Global} (hg : ∀ args, g ≠ .allEqual args) :
    (global g).bound = g.args.flatMap Expr.occurrences := by
  cases g with
  | allEqual args => exact absurd rfl (hg args)
  | _ => rfl

end Constraint

/-- The variable is met when the constraints are posted, unless they cannot be satisfied. -/
def Covers (ps : List Constraint) (x : Variable) : Prop :=
  .constant false ∈ ps ∨ ∃ p ∈ ps, x ∈ p.bound

variable {c p : Constraint} {cs ps qs : List Constraint} {e a lhs rhs : Expr}
  {es as es' as' : List Expr} {definitions definitions' : List Constraint} {x : Variable}
  {P : Expr → Prop} {Q : Global → Prop}

theorem Covers.mono (h : Covers ps x) (hle : ∀ p ∈ ps, p ∈ qs) : Covers qs x :=
  h.imp (hle _) fun ⟨p, hp, hx⟩ => ⟨p, hle p hp, hx⟩

theorem covers_cons_iff : Covers (c :: cs) x ↔ Covers [c] x ∨ Covers cs x := by
  simp only [Covers, List.mem_cons, List.not_mem_nil, or_false, exists_eq_left, exists_eq_or_imp]
  tauto

/-- What a decomposition can yield for a constraint. -/
structure IsPiece (c p : Constraint) : Prop where
  depth_lt : p.depth < c.depth
  accepted : p.Accepted
  everywhere : ∀ {P Q}, Inherited P Q → c.Everywhere P Q → p.Everywhere P Q

/-- An expression that can be named when the constraint is decomposed, or the name of one. -/
structure IsSource (c : Constraint) (e : Expr) : Prop where
  height_lt : e.height + 1 < c.depth
  everywhere : ∀ {P Q}, Inherited P Q → c.Everywhere P Q → e.Everywhere P

theorem isSource_ofInt (hc : 1 < c.depth) (x : IntVar) : IsSource c (ofInt x) where
  height_lt := hc
  everywhere := fun h _ => Expr.everywhere_of_isAtom rfl (h.ofInt x)

namespace IsPiece

theorem ofAtom (hc : 1 < c.depth) (hp : p.isAtom = true) : IsPiece c p where
  depth_lt := by
    cases p with
    | literal l => exact hc
    | constant value => exact hc
    | _ => cases hp
  accepted := .atom hp
  everywhere := fun _ _ => Constraint.everywhere_of_isAtom hp

/-- A comparison of atoms. -/
theorem ofAtoms (hc : 1 < c.depth) (comparator : Comparator) (hl : lhs.isAtom = true)
    (hr : rhs.isAtom = true)
    (hsides : ∀ {P Q}, Inherited P Q → c.Everywhere P Q → lhs.Everywhere P ∧ rhs.Everywhere P) :
    IsPiece c (comparison comparator lhs rhs) where
  depth_lt := by
    rw [Constraint.depth, if_pos (Bool.and_eq_true_iff.mpr ⟨hl, hr⟩)]
    exact hc
  accepted := .comparison comparator lhs rhs
  everywhere := hsides

theorem ofEq (he : IsSource c e) (ha : a.isAtom = true)
    (hsides : ∀ {P Q}, Inherited P Q → c.Everywhere P Q → a.Everywhere P) :
    IsPiece c (eq e a) where
  depth_lt := by
    have hle : (eq e a).depth ≤ max e.height a.height + 1 := Constraint.depth_eq_le (.inr ha)
    rw [Expr.height_of_isAtom ha, Nat.max_zero] at hle
    exact hle.trans_lt he.height_lt
  accepted := .comparison .equal e a
  everywhere := fun h hall => ⟨he.everywhere h hall, hsides h hall⟩

/-- The definition of a name. -/
theorem ofDefinition (he : IsSource c e) (x : IntVar) : IsPiece c (eq e (ofInt x)) :=
  ofEq he rfl fun h _ => Expr.everywhere_of_isAtom rfl (h.ofInt x)

/-- A reifiable constraint behind an atom. -/
theorem ofImplication (hc : 1 < c.depth) {a : Constraint} (ha : a.isAtom = true)
    (hp : p.isReifiable = true)
    (heverywhere : ∀ {P Q}, Inherited P Q → c.Everywhere P Q → p.Everywhere P Q) :
    IsPiece c (implication a p) where
  depth_lt := hc
  accepted := .implication ha hp
  everywhere := fun h hall => ⟨Constraint.everywhere_of_isAtom ha, heverywhere h hall⟩

/-- A disjunction of atoms. -/
theorem ofDisjunction (hc : 1 < c.depth) (hatoms : ∀ d ∈ cs, d.isAtom = true) :
    IsPiece c (.or cs) where
  depth_lt := by
    rw [Constraint.or, Constraint.depth, if_pos (List.all_eq_true.mpr hatoms)]
    · exact hc
    · simp
  accepted := .connective hatoms
  everywhere := fun _ _ => Constraint.everywhereIn_iff.mpr fun d hd =>
    Constraint.everywhere_of_isAtom (hatoms d hd)

end IsPiece

/-! ## Naming -/

/-- The expressions with atoms in place of those that are structured, which are defined. -/
structure Atomized (es as : List Expr) (definitions : List Constraint) : Prop where
  length_eq : as.length = es.length
  isAtom : ∀ a ∈ as, a.isAtom = true
  origin : ∀ a ∈ as, a ∈ es ∨ ∃ x, a = ofInt x
  definition : ∀ d ∈ definitions, ∃ e ∈ es, ∃ x, d = eq e (ofInt x)
  kept : ∀ e ∈ es, e ∈ as ∨ ∃ x, eq e (ofInt x) ∈ definitions

namespace Atomized

theorem nil : Atomized [] [] [] := ⟨rfl, by simp, by simp, by simp, by simp⟩

theorem append (h : Atomized es as definitions) (h' : Atomized es' as' definitions') :
    Atomized (es ++ es') (as ++ as') (definitions ++ definitions') where
  length_eq := by rw [List.length_append, List.length_append, h.length_eq, h'.length_eq]
  isAtom := List.forall_mem_append.mpr ⟨h.isAtom, h'.isAtom⟩
  origin := List.forall_mem_append.mpr
    ⟨fun a ha => (h.origin a ha).imp_left (List.mem_append_left _),
      fun a ha => (h'.origin a ha).imp_left (List.mem_append_right _)⟩
  definition := List.forall_mem_append.mpr
    ⟨fun d hd => (h.definition d hd).imp fun _ he => ⟨List.mem_append_left _ he.1, he.2⟩,
      fun d hd => (h'.definition d hd).imp fun _ he => ⟨List.mem_append_right _ he.1, he.2⟩⟩
  kept := List.forall_mem_append.mpr
    ⟨fun e he => (h.kept e he).imp (List.mem_append_left _)
      fun ⟨x, hx⟩ => ⟨x, List.mem_append_left _ hx⟩,
      fun e he => (h'.kept e he).imp (List.mem_append_right _)
        fun ⟨x, hx⟩ => ⟨x, List.mem_append_right _ hx⟩⟩

/-- The atoms are sources if the expressions are. -/
theorem isSource (h : Atomized es as definitions) (hc : 1 < c.depth)
    (hes : ∀ e ∈ es, IsSource c e) : ∀ a ∈ as, IsSource c a := by
  intro a ha
  rcases h.origin a ha with he | ⟨x, rfl⟩
  · exact hes a he
  · exact isSource_ofInt hc x

theorem isPiece (h : Atomized es as definitions) (hes : ∀ e ∈ es, IsSource c e) :
    ∀ d ∈ definitions, IsPiece c d := by
  intro d hd
  obtain ⟨e, he, x, rfl⟩ := h.definition d hd
  exact .ofDefinition (hes e he) x

/-- A variable of the expressions occurs in a definition or in an atom. -/
theorem mem_bound (h : Atomized es as definitions) (he : e ∈ es) (hx : x ∈ e.occurrences) :
    (∃ d ∈ definitions, x ∈ d.bound) ∨ ∃ a ∈ as, x ∈ a.occurrences := by
  rcases h.kept e he with ha | ⟨y, hy⟩
  · exact .inr ⟨e, ha, hx⟩
  · exact .inl ⟨_, hy, List.mem_append_left _ hx⟩

end Atomized

namespace Expr

theorem always_atomize (e : Expr) : Always e.atomize fun p => Atomized [e] [p.1] p.2 := by
  have hname : ∀ x, Atomized [e] [ofInt x] [eq e (ofInt x)] := fun x =>
    ⟨rfl, List.forall_mem_singleton.mpr rfl, List.forall_mem_singleton.mpr (.inr ⟨x, rfl⟩),
      List.forall_mem_singleton.mpr ⟨e, List.mem_cons_self, x, rfl⟩,
      List.forall_mem_singleton.mpr (.inr ⟨x, List.mem_cons_self⟩)⟩
  rw [atomize]
  split
  · next hatom => exact Always.pure ⟨rfl, by simpa using hatom, by simp, by simp, by simp⟩
  · exact fun n => hname (e.auxiliaryVar n)

theorem always_atomizeAll (es : List Expr) :
    Always (atomizeAll es) fun p => Atomized es p.1 p.2 := by
  induction es with
  | nil => exact Always.pure .nil
  | cons e es ih =>
      refine e.always_atomize.bind fun p hp => ih.bind fun q hq => Always.pure ?_
      exact hp.append hq

/-- An operation keeps its operator when its operands are named. -/
theorem always_atomizeOperands (he : e.isAtom = false) :
    Always e.atomizeOperands fun p => e.Mirrors p.1 ∧ Atomized e.operands p.1.operands p.2 := by
  cases e with
  | atom a => cases he
  | sum terms =>
      exact (always_atomizeAll terms).bind fun p hp => Always.pure ⟨.sum hp.length_eq, hp⟩
  | weightedSum weights terms =>
      exact (always_atomizeAll terms).bind fun p hp => Always.pure ⟨.weightedSum hp.length_eq, hp⟩
  | binary op a b =>
      refine a.always_atomize.bind fun p hp => b.always_atomize.bind fun q hq => Always.pure ?_
      exact ⟨.binary op a b p.1 q.1, hp.append hq⟩
  | unary op a => exact a.always_atomize.bind fun p hp => Always.pure ⟨.unary op a p.1, hp⟩
  | element array index =>
      refine (always_atomizeAll array).bind fun p hp => index.always_atomize.bind fun q hq =>
        Always.pure ?_
      exact ⟨.element index q.1 hp.length_eq, hp.append hq⟩

end Expr

end FiniteDomain
