import FiniteDomain.Proofs.Constraint.Registry

/-!
# What constraints encode

Constraints over old and new variables encode a condition on the old ones in two respects. They
are sound: where none of them is false the condition holds. They are complete: values of the old
variables are extended to the new ones so that all of them are true. Completeness asks for more
than the condition, since the values of named expressions have to fit into 32 bits.

Encodings are put together by three rules: no new variable, one new variable before the rest, and
one encoding after another.

## Implementation notes

A constraint that has no truth value is not false. Soundness is stated for constraints that are
not false, because the engine accepts values for which a checked evaluation overflows.
-/

namespace FiniteDomain

/-! ## Named expressions -/

/-- The expressions of an equality that are named. -/
def Expr.equated (lhs rhs : Expr) : List Expr :=
  if lhs.isAtom then rhs.inner else lhs.inner ++ rhs.named

namespace Global

/-- The expressions that are named when neighbours in a list are equated. -/
def equatedChain : List Expr → List Expr
  | a :: b :: rest => a.equated b ++ equatedChain (b :: rest)
  | _ => []

/-- The expressions that are named when the constraint is decomposed. -/
def named : Global → List Expr
  | allEqual args => equatedChain args
  | g => g.args.flatMap Expr.named

/-- The rows of a table. -/
def rows : Global → List (List Int)
  | table _ rows => rows
  | _ => []

/-- The arguments are counted in 32 bits. -/
def isCounted : Global → Bool
  | circuit _ => true
  | parity _ => true
  | _ => false

/-- There are no large constants, and not too many arguments where they are counted. -/
def Plain (scope : Scope) (g : Global) : Prop :=
  (∀ e ∈ g.args, e.Plain scope) ∧ (g.isCounted = true → g.args.length < 2 ^ 31) ∧
    ∀ row ∈ g.rows, ∀ v ∈ row, scope.bare.Admits v

end Global

namespace Constraint

mutual

/-- The expressions that are named when the constraint is decomposed under a condition. -/
def reified : Constraint → List Expr
  | connective _ args => reifiedIn args
  | implication _ c => c.reified
  | comparison _ lhs rhs => lhs.named ++ rhs.named
  | _ => []

/-- The named expressions of all constraints under conditions. -/
def reifiedIn : List Constraint → List Expr
  | [] => []
  | c :: cs => c.reified ++ reifiedIn cs

end

mutual

/-- The expressions that are named when the constraint is decomposed. -/
def named : Constraint → List Expr
  | connective .and args => namedIn args
  | connective _ args => reifiedIn args
  | implication _ c => c.reified
  | comparison .equal lhs rhs => lhs.equated rhs
  | comparison _ lhs rhs => lhs.named ++ rhs.named
  | global g => g.named
  | _ => []

/-- The named expressions of all constraints. -/
def namedIn : List Constraint → List Expr
  | [] => []
  | c :: cs => c.named ++ namedIn cs

end

mutual

/-- There are no large constants, and not too many arguments where they are counted. -/
def Plain (scope : Scope) : Constraint → Prop
  | connective kind args => PlainIn scope args ∧ (kind = .xor → args.length < 2 ^ 31)
  | implication a c => a.Plain scope ∧ c.Plain scope
  | comparison _ lhs rhs =>
      if lhs.isAtom && rhs.isAtom then lhs.Plain scope.bare ∧ rhs.Plain scope.bare
      else lhs.Plain scope ∧ rhs.Plain scope
  | global g => g.Plain scope
  | _ => True

/-- All constraints are plain. -/
def PlainIn (scope : Scope) : List Constraint → Prop
  | [] => True
  | c :: cs => c.Plain scope ∧ PlainIn scope cs

end

variable {c : Constraint} {cs : List Constraint} {r r' : Registry} {τ τ' : VarId → Int}
  {scope : Scope} {o : Expr} {b : Bool}

theorem mem_reifiedIn : o ∈ reifiedIn cs ↔ ∃ c ∈ cs, o ∈ c.reified := by
  induction cs with
  | nil => simp [reifiedIn]
  | cons c cs ih => simp [reifiedIn, ih]

theorem mem_namedIn : o ∈ namedIn cs ↔ ∃ c ∈ cs, o ∈ c.named := by
  induction cs with
  | nil => simp [namedIn]
  | cons c cs ih => simp [namedIn, ih]

theorem plainIn_iff : PlainIn scope cs ↔ ∀ c ∈ cs, c.Plain scope := by
  induction cs with
  | nil => simp [PlainIn]
  | cons c cs ih => simp [PlainIn, ih]

section Comparison

variable {comparator : Comparator} {lhs rhs : Expr}

theorem plain_comparison (hl : lhs.Plain scope) (hr : rhs.Plain scope) :
    (comparison comparator lhs rhs).Plain scope := by
  rw [Plain]
  split
  · exact ⟨hl.bare, hr.bare⟩
  · exact ⟨hl, hr⟩

/-- Two atoms that are compared may be less than plain. -/
theorem plain_comparison_atoms (hl : lhs.isAtom = true ∧ lhs.Plain scope.bare)
    (hr : rhs.isAtom = true ∧ rhs.Plain scope.bare) :
    (comparison comparator lhs rhs).Plain scope := by
  rw [Plain, if_pos (Bool.and_eq_true_iff.mpr ⟨hl.1, hr.1⟩)]
  exact ⟨hl.2, hr.2⟩

theorem Plain.sides (h : (comparison comparator lhs rhs).Plain scope)
    (hatoms : ¬ (lhs.isAtom && rhs.isAtom) = true) : lhs.Plain scope ∧ rhs.Plain scope := by
  rwa [Plain, if_neg hatoms] at h

end Comparison

/-- All variables of the constraint are known. -/
def KnownTo (r : Registry) (c : Constraint) : Prop := ∀ x ∈ c.occurrences, r.Knows x

theorem KnownTo.mono (h : c.KnownTo r) (hle : r ≤ r') : c.KnownTo r' :=
  fun x hx => (h x hx).mono hle

theorem knownTo_constant (value : Bool) : (constant value).KnownTo r := fun x hx => by cases hx

theorem knownTo_connective_iff {kind : Connective} :
    (connective kind cs).KnownTo r ↔ ∀ c ∈ cs, c.KnownTo r := by
  simp only [KnownTo, occurrences, mem_occurrencesIn]
  exact ⟨fun h c hc x hx => h x ⟨c, hc, hx⟩, fun h x ⟨c, hc, hx⟩ => h c hc x hx⟩

theorem knownTo_implication_iff {a : Constraint} :
    (implication a c).KnownTo r ↔ a.KnownTo r ∧ c.KnownTo r := by
  simp only [KnownTo, occurrences, List.mem_append]
  exact ⟨fun h => ⟨fun x hx => h x (.inl hx), fun x hx => h x (.inr hx)⟩,
    fun h x hx => hx.elim (h.1 x) (h.2 x)⟩

theorem knownTo_comparison_iff {comparator : Comparator} {lhs rhs : Expr} :
    (comparison comparator lhs rhs).KnownTo r ↔ lhs.KnownTo r ∧ rhs.KnownTo r := by
  simp only [KnownTo, Expr.KnownTo, occurrences, List.mem_append]
  exact ⟨fun h => ⟨fun x hx => h x (.inl hx), fun x hx => h x (.inr hx)⟩,
    fun h x hx => hx.elim (h.1 x) (h.2 x)⟩

theorem knownTo_global_iff {g : Global} :
    (global g).KnownTo r ↔ ∀ e ∈ g.args, e.KnownTo r := by
  simp only [KnownTo, Expr.KnownTo, occurrences, List.mem_flatMap]
  exact ⟨fun h e he x hx => h x ⟨e, he, hx⟩, fun h x ⟨e, he, hx⟩ => h e he x hx⟩

end Constraint

/-! ### Their variables -/

namespace Expr

variable {e o lhs rhs : Expr} {r : Registry} {x : Variable}

theorem mem_named_of_inner (ho : o ∈ e.inner) : o ∈ e.named := by
  rw [named]
  split
  · next hatom =>
    obtain ⟨a, rfl⟩ := isAtom_iff.mp hatom
    cases ho
  · exact List.mem_cons_of_mem _ ho

theorem mem_named_of_equated (ho : o ∈ lhs.equated rhs) : o ∈ lhs.named ∨ o ∈ rhs.named := by
  rw [equated] at ho
  split at ho
  · exact .inr (mem_named_of_inner ho)
  · rcases List.mem_append.mp ho with ho | ho
    · exact .inl (mem_named_of_inner ho)
    · exact .inr ho

theorem mem_occurrences_of_named (ho : o ∈ e.named) (hx : x ∈ o.occurrences) :
    x ∈ e.occurrences := by
  rw [Expr.named] at ho
  split at ho
  · cases ho
  · rcases List.mem_cons.mp ho with rfl | ho
    · exact hx
    · exact mem_occurrences_of_part (List.mem_filter.mp ho).1 hx

theorem mem_occurrences_of_equated (ho : o ∈ lhs.equated rhs) (hx : x ∈ o.occurrences) :
    x ∈ lhs.occurrences ∨ x ∈ rhs.occurrences := by
  rcases mem_named_of_equated ho with ho | ho
  · exact .inl (mem_occurrences_of_named ho hx)
  · exact .inr (mem_occurrences_of_named ho hx)

theorem KnownTo.named (h : e.KnownTo r) (ho : o ∈ e.named) : o.KnownTo r :=
  fun x hx => h x (mem_occurrences_of_named ho hx)

theorem exists_evaluate_atom {τ : VarId → Int} (he : e.isAtom = true) (hτ : r.Respects τ)
    (hknown : e.KnownTo r) : ∃ v, e.evaluate (total τ) = .ok v := by
  obtain ⟨a, rfl⟩ := Expr.isAtom_iff.mp he
  exact ⟨_, Atom.evaluate_total hτ hknown⟩

end Expr

theorem Global.mem_named_of_equatedChain {args : List Expr} {o : Expr}
    (ho : o ∈ equatedChain args) : ∃ e ∈ args, o ∈ e.named := by
  induction args with
  | nil => cases ho
  | cons a rest ih =>
      cases rest with
      | nil => cases ho
      | cons b rest =>
          rcases List.mem_append.mp ho with ho | ho
          · rcases Expr.mem_named_of_equated ho with ho | ho
            · exact ⟨a, by simp, ho⟩
            · exact ⟨b, by simp, ho⟩
          · obtain ⟨e, he, ho⟩ := ih ho
            exact ⟨e, List.mem_cons_of_mem _ he, ho⟩

theorem Global.exists_named {g : Global} {o : Expr} (ho : o ∈ g.named) :
    ∃ e ∈ g.args, o ∈ e.named := by
  cases g with
  | allEqual args => exact mem_named_of_equatedChain ho
  | _ => exact List.mem_flatMap.mp ho

namespace Constraint

variable {c : Constraint} {cs : List Constraint} {r r' : Registry} {τ τ' : VarId → Int}
  {scope : Scope} {o : Expr} {b : Bool} {x : Variable}

theorem mem_occurrences_of_reified (ho : o ∈ c.reified) (hx : x ∈ o.occurrences) :
    x ∈ c.occurrences := by
  induction c using Constraint.induction with
  | literal l => cases ho
  | constant value => cases ho
  | connective kind args ih =>
      obtain ⟨c, hc, ho⟩ := mem_reifiedIn.mp ho
      exact mem_occurrencesIn.mpr ⟨c, hc, ih c hc ho⟩
  | implication a c iha ihc => exact List.mem_append_right _ (ihc ho)
  | comparison comparator lhs rhs =>
      rcases List.mem_append.mp ho with ho | ho
      · exact List.mem_append_left _ (Expr.mem_occurrences_of_named ho hx)
      · exact List.mem_append_right _ (Expr.mem_occurrences_of_named ho hx)
  | global g => cases ho

theorem mem_occurrences_of_named (ho : o ∈ c.named) (hx : x ∈ o.occurrences) :
    x ∈ c.occurrences := by
  induction c using Constraint.induction with
  | literal l => cases ho
  | constant value => cases ho
  | connective kind args ih =>
      cases kind with
      | and =>
          obtain ⟨c, hc, ho⟩ := mem_namedIn.mp ho
          exact mem_occurrencesIn.mpr ⟨c, hc, ih c hc ho⟩
      | _ => exact mem_occurrences_of_reified ho hx
  | implication a c iha ihc => exact mem_occurrences_of_reified (c := .implication a c) ho hx
  | comparison comparator lhs rhs =>
      cases comparator with
      | equal => exact List.mem_append.mpr (Expr.mem_occurrences_of_equated ho hx)
      | _ => exact mem_occurrences_of_reified (c := .comparison .notEqual lhs rhs) ho hx
  | global g =>
      obtain ⟨e, he, ho⟩ := Global.exists_named ho
      exact List.mem_flatMap.mpr ⟨e, he, Expr.mem_occurrences_of_named ho hx⟩

theorem KnownTo.reified (h : c.KnownTo r) (ho : o ∈ c.reified) : o.KnownTo r :=
  fun x hx => h x (mem_occurrences_of_reified ho hx)

/-! ## Truth -/

/-- The constraint is false. -/
def Fails (τ : VarId → Int) (c : Constraint) : Prop := c.evaluate (total τ) = .ok false

/-- The constraint is true, and the named expressions have values that fit into 32 bits. -/
def Realised (τ : VarId → Int) (c : Constraint) : Prop :=
  c.evaluate (total τ) = .ok true ∧ ∀ o ∈ c.named, o.Representable τ

theorem evaluate_congr (h : ∀ x ∈ c.occurrences, τ' x.id = τ x.id)
    (hb : c.evaluate (total τ) = .ok b) : c.evaluate (total τ') = .ok b :=
  evaluate_of_agree (fun x hx _ hv => (congrArg some (h x hx)).trans hv) hb

/-- Only the values of the variables that occur matter. -/
theorem Realised.congr (h : c.Realised τ) (hτ : ∀ x ∈ c.occurrences, τ' x.id = τ x.id) :
    c.Realised τ' :=
  ⟨evaluate_congr hτ h.1, fun o ho =>
    (h.2 o ho).congr fun x hx => hτ x (mem_occurrences_of_named ho hx)⟩

theorem KnownTo.evaluate (h : c.KnownTo r) (hagree : Agree r.next τ τ')
    (hb : c.evaluate (total τ) = .ok b) : c.evaluate (total τ') = .ok b :=
  evaluate_congr (fun x hx => hagree x.id (h x hx).1) hb

theorem Realised.agree (h : c.Realised τ) (hknown : c.KnownTo r) (hagree : Agree r.next τ τ') :
    c.Realised τ' :=
  h.congr fun x hx => hagree x.id (hknown x hx).1

/-! ## Constraints over atoms -/

theorem evaluate_asAtom {a : Atom} (hc : c.asAtom? = some a) (hτ : r.Respects τ)
    (hknown : c.KnownTo r) : c.evaluate (total τ) = .ok (a.value τ != 0) := by
  cases c with
  | literal l =>
      obtain rfl := Option.some.inj hc
      have hl : l.evaluate (total τ) = .ok ((Atom.literal l).value τ) :=
        Atom.evaluate_total (a := .literal l) hτ hknown
      exact evaluate_literal_iff.mpr ⟨_, hl, rfl⟩
  | constant value =>
      obtain rfl := Option.some.inj hc
      cases value <;> rfl
  | _ => cases hc

theorem isAtom_iff : c.isAtom = true ↔ ∃ a, c.asAtom? = some a := Option.isSome_iff_exists

theorem plain_atom (hc : c.isAtom = true) : c.Plain scope := by
  cases c with
  | literal l => trivial
  | constant value => trivial
  | _ => cases hc

theorem reified_atom (hc : c.isAtom = true) : c.reified = [] := by
  cases c with
  | literal l => rfl
  | constant value => rfl
  | _ => cases hc

theorem reifiedIn_eq_nil (h : ∀ c ∈ cs, c.reified = []) : reifiedIn cs = [] := by
  rw [List.eq_nil_iff_forall_not_mem]
  intro o ho
  obtain ⟨c, hc, ho⟩ := mem_reifiedIn.mp ho
  rw [h c hc] at ho
  cases ho

/-- A reifiable constraint names nothing. -/
theorem reified_eq_nil (hc : c.isReifiable = true) : c.reified = [] := by
  cases c with
  | connective kind args =>
      exact reifiedIn_eq_nil fun c hmem => reified_atom (List.all_eq_true.mp hc c hmem)
  | implication a c =>
      have : c.reified = [] := reified_atom (Bool.and_eq_true_iff.mp hc).2
      exact this
  | comparison comparator lhs rhs =>
      obtain ⟨hl, hr⟩ := Bool.and_eq_true_iff.mp hc
      simp [reified, Expr.named_eq_nil hl, Expr.named_eq_nil hr]
  | _ => rfl

theorem exists_evaluate_atom (hc : c.isAtom = true) (hτ : r.Respects τ) (hknown : c.KnownTo r) :
    ∃ b, c.evaluate (total τ) = .ok b := by
  obtain ⟨a, ha⟩ := isAtom_iff.mp hc
  exact ⟨_, evaluate_asAtom ha hτ hknown⟩

/-- A reifiable constraint always has a truth value. -/
theorem exists_evaluate (hc : c.isReifiable = true) (hτ : r.Respects τ) (hknown : c.KnownTo r) :
    ∃ b, c.evaluate (total τ) = .ok b := by
  cases c with
  | literal l => exact exists_evaluate_atom rfl hτ hknown
  | constant value => exact ⟨value, rfl⟩
  | connective kind args =>
      obtain ⟨bs, hbs⟩ := exists_truthValues fun c hmem =>
        exists_evaluate_atom (List.all_eq_true.mp hc c hmem) hτ
          (knownTo_connective_iff.mp hknown c hmem)
      exact ⟨_, evaluate_connective_iff.mpr ⟨bs, hbs, rfl⟩⟩
  | implication a c =>
      obtain ⟨ha, hc⟩ := Bool.and_eq_true_iff.mp hc
      obtain ⟨hknownA, hknownC⟩ := knownTo_implication_iff.mp hknown
      obtain ⟨p, hp⟩ := exists_evaluate_atom ha hτ hknownA
      obtain ⟨q, hq⟩ := exists_evaluate_atom hc hτ hknownC
      cases p with
      | true => exact ⟨q, evaluate_implication_iff.mpr (.inl ⟨hp, hq⟩)⟩
      | false => exact ⟨true, evaluate_implication_iff.mpr (.inr ⟨hp, rfl⟩)⟩
  | comparison comparator lhs rhs =>
      obtain ⟨hl, hr⟩ := Bool.and_eq_true_iff.mp hc
      obtain ⟨hknownL, hknownR⟩ := knownTo_comparison_iff.mp hknown
      obtain ⟨x, hx⟩ := Expr.exists_evaluate_atom hl hτ hknownL
      obtain ⟨y, hy⟩ := Expr.exists_evaluate_atom hr hτ hknownR
      exact ⟨_, evaluate_comparison_iff.mpr ⟨x, y, hx, hy, rfl⟩⟩
  | global g => cases hc

end Constraint

/-! ## Creating variables -/

section Makes

variable {α β : Type} {r r' : Registry} {action : Fresh α} {Q Q' : α → Registry → Prop}

/-- The action creates variables, and its result is right for a registry that knows them. -/
def Makes (r : Registry) (action : Fresh α) (Q : α → Registry → Prop) : Prop :=
  ∃ r', r ≤ r' ∧ r'.next = (action r.next).2 ∧ Q (action r.next).1 r'

theorem Makes.pure {a : α} (h : Q a r) : Makes r (Pure.pure a) Q := ⟨r, r.le_refl, rfl, h⟩

theorem Makes.bind {next : α → Fresh β} {Q' : β → Registry → Prop} (h : Makes r action Q)
    (hnext : ∀ a r', r ≤ r' → Q a r' → Makes r' (next a) Q') : Makes r (action >>= next) Q' := by
  obtain ⟨r₁, hle₁, hnext₁, h⟩ := h
  obtain ⟨r₂, hle₂, hnext₂, h⟩ := hnext _ r₁ hle₁ h
  rw [hnext₁] at hnext₂ h
  exact ⟨r₂, Registry.le_trans hle₁ hle₂, hnext₂, h⟩

theorem Makes.weaken (h : Makes r action Q) (himp : ∀ a r', r ≤ r' → Q a r' → Q' a r') :
    Makes r action Q' := by
  obtain ⟨r', hle, hnext, h⟩ := h
  exact ⟨r', hle, hnext, himp _ r' hle h⟩

theorem makes_boolVar : Makes r BoolVar.create fun x r' =>
    x.id = r.next ∧ r' = r.extend (.bool x) :=
  ⟨_, r.le_extend _, rfl, rfl, rfl⟩

theorem makes_intVar {domain : Domain} : Makes r (IntVar.create domain) fun x r' =>
    x.id = r.next ∧ x.domain = domain ∧ r' = r.extend (.int x) :=
  ⟨_, r.le_extend _, rfl, rfl, rfl, rfl⟩

/-- The same for an action that may have no result. -/
def MakesSome (r : Registry) (action : OptionT Fresh α) (Q : α → Registry → Prop) : Prop :=
  Makes r action.run fun result r' => ∀ a, result = some a → Q a r'

variable {partially : OptionT Fresh α}

theorem MakesSome.pure {a : α} (h : Q a r) : MakesSome r (Pure.pure a) Q :=
  Makes.pure fun _ ha => Option.some.inj ha ▸ h

theorem MakesSome.failure : MakesSome r (failure : OptionT Fresh α) Q :=
  Makes.pure (a := none) fun _ ha => by cases ha

theorem MakesSome.weaken (h : MakesSome r partially Q)
    (himp : ∀ a r', r ≤ r' → Q a r' → Q' a r') : MakesSome r partially Q' :=
  Makes.weaken h fun _ r' hle ha a heq => himp a r' hle (ha a heq)

theorem MakesSome.lift (h : Makes r action Q) : MakesSome r (monadLift action) Q :=
  h.bind fun _ _ _ ha => Makes.pure fun _ heq => Option.some.inj heq ▸ ha

theorem MakesSome.ofOption {result : Option α} :
    MakesSome r (OptionT.mk (Pure.pure result)) fun a r' => result = some a ∧ r' = r :=
  Makes.pure fun _ ha => ⟨ha, rfl⟩

theorem MakesSome.bind {next : α → OptionT Fresh β} {Q' : β → Registry → Prop}
    (h : MakesSome r partially Q)
    (hnext : ∀ a r', r ≤ r' → Q a r' → MakesSome r' (next a) Q') :
    MakesSome r (partially >>= next) Q' := by
  rw [MakesSome, OptionT.run_bind]
  refine Makes.bind h fun result r' hle ha => ?_
  cases result with
  | none => exact Makes.pure fun _ ha => by cases ha
  | some a => exact hnext a r' hle (ha a rfl)

/-- The same continuation after both branches. -/
theorem MakesSome.bindIte {p : Prop} [Decidable p] {first second : OptionT Fresh α}
    {next : α → OptionT Fresh β} {Q' : β → Registry → Prop}
    (h : MakesSome r (if p then first else second) Q)
    (hnext : ∀ a r', r ≤ r' → Q a r' → MakesSome r' (next a) Q') :
    MakesSome r (if p then first >>= next else second >>= next) Q' := by
  split
  · next hp =>
    rw [if_pos hp] at h
    exact h.bind hnext
  · next hp =>
    rw [if_neg hp] at h
    exact h.bind hnext

end Makes

/-! ## Encodings -/

/-- The constraints use new variables up to those of the second registry. Where none of them is
false the first condition holds; where the second condition holds all of them can be true. -/
structure Encodes (scope : Scope) (r r' : Registry) (cs : List Constraint)
    (Assured Needed : (VarId → Int) → Prop) : Prop where
  known : ∀ c ∈ cs, c.KnownTo r'
  plain : ∀ c ∈ cs, c.Plain scope
  sound : ∀ τ, r'.Respects τ → (∀ c ∈ cs, ¬ c.Fails τ) → Assured τ
  complete : scope.Complete → ∀ τ, r.Respects τ → Needed τ →
    ∃ τ', Agree r.next τ τ' ∧ r'.Respects τ' ∧ ∀ c ∈ cs, c.Realised τ'

namespace Encodes

variable {scope : Scope} {r r₁ r₂ r' : Registry} {cs cs₁ cs₂ : List Constraint} {c : Constraint}
  {S S₁ S₂ S' C C₁ C₂ C' : (VarId → Int) → Prop}

/-- Constraints over known variables encode themselves. -/
theorem given (hknown : ∀ c ∈ cs, c.KnownTo r) (hplain : ∀ c ∈ cs, c.Plain scope) :
    Encodes scope r r cs (fun τ => ∀ c ∈ cs, ¬ c.Fails τ) fun τ => ∀ c ∈ cs, c.Realised τ where
  known := hknown
  plain := hplain
  sound := fun _ _ h => h
  complete := fun _ τ hτ h => ⟨τ, fun _ _ => rfl, hτ, h⟩

theorem single (hknown : c.KnownTo r) (hplain : c.Plain scope) :
    Encodes scope r r [c] (fun τ => ¬ c.Fails τ) fun τ => c.Realised τ where
  known := by simpa using hknown
  plain := by simpa using hplain
  sound := fun _ _ h => h c (by simp)
  complete := fun _ τ hτ h => ⟨τ, fun _ _ => rfl, hτ, by simpa using h⟩

/-- Constraints over the old variables are added. -/
theorem prepend (h : Encodes scope r r' cs S C) (hle : r ≤ r')
    (hknown : ∀ c ∈ cs₁, c.KnownTo r) (hplain : ∀ c ∈ cs₁, c.Plain scope) :
    Encodes scope r r' (cs₁ ++ cs) (fun τ => (∀ c ∈ cs₁, ¬ c.Fails τ) ∧ S τ)
      fun τ => (∀ c ∈ cs₁, c.Realised τ) ∧ C τ where
  known := List.forall_mem_append.mpr ⟨fun c hc => (hknown c hc).mono hle, h.known⟩
  plain := List.forall_mem_append.mpr ⟨hplain, h.plain⟩
  sound := fun τ hτ hall => by
    obtain ⟨hall₁, hall⟩ := List.forall_mem_append.mp hall
    exact ⟨hall₁, h.sound τ hτ hall⟩
  complete := fun hscope τ hτ hC => by
    obtain ⟨τ', hagree, hτ', hall⟩ := h.complete hscope τ hτ hC.2
    exact ⟨τ', hagree, hτ', List.forall_mem_append.mpr
      ⟨fun c hc => (hC.1 c hc).agree (hknown c hc) hagree, hall⟩⟩

theorem weaken (h : Encodes scope r r' cs S C) (hS : ∀ τ, r'.Respects τ → S τ → S' τ)
    (hC : ∀ τ, r.Respects τ → C' τ → C τ) : Encodes scope r r' cs S' C' where
  known := h.known
  plain := h.plain
  sound := fun τ hτ hcs => hS τ hτ (h.sound τ hτ hcs)
  complete := fun hscope τ hτ hC' => h.complete hscope τ hτ (hC τ hτ hC')

/-- The order of the constraints does not matter. -/
theorem congr (h : Encodes scope r r' cs S C) (hcs : ∀ c, c ∈ cs₁ ↔ c ∈ cs) :
    Encodes scope r r' cs₁ S C where
  known := fun c hc => h.known c ((hcs c).mp hc)
  plain := fun c hc => h.plain c ((hcs c).mp hc)
  sound := fun τ hτ hall => h.sound τ hτ fun c hc => hall c ((hcs c).mpr hc)
  complete := fun hscope τ hτ hC => by
    obtain ⟨τ', hagree, hτ', hall⟩ := h.complete hscope τ hτ hC
    exact ⟨τ', hagree, hτ', fun c hc => hall c ((hcs c).mp hc)⟩

/-- A new variable is given a value under which the rest can be true. -/
theorem create {x : Variable} (hx : x.id = r.next) (h : Encodes scope (r.extend x) r' cs S C)
    (hC : scope.Complete → ∀ τ, r.Respects τ → C' τ →
      ∃ v, x.domain.contains v = true ∧ ∀ τ', Agree r.next τ τ' → τ' x.id = v → C τ') :
    Encodes scope r r' cs S C' where
  known := h.known
  plain := h.plain
  sound := h.sound
  complete := fun hscope τ hτ hC' => by
    obtain ⟨v, hv, hrest⟩ := hC hscope τ hτ hC'
    have hself : Function.update τ r.next v x.id = v := hx ▸ Function.update_self ..
    obtain ⟨τ', hagree, hτ', hall⟩ := h.complete hscope _ (Registry.respects_extend hτ hv)
      (hrest _ (agree_update r.next τ v) hself)
    exact ⟨τ', (agree_update r.next τ v).trans hagree (Nat.le_succ _), hτ', hall⟩

/-- One encoding after another. What the first one assures can be used for the second one. -/
theorem append (h₁ : Encodes scope r r₁ cs₁ S₁ C₁) (h₂ : Encodes scope r₁ r₂ cs₂ S₂ C₂)
    (hle₁ : r ≤ r₁) (hle₂ : r₁ ≤ r₂) (hS : ∀ τ, r₂.Respects τ → S₁ τ → S₂ τ → S τ)
    (hC₁ : ∀ τ, r.Respects τ → C τ → C₁ τ)
    (hC₂ : ∀ τ τ', r.Respects τ → C τ → Agree r.next τ τ' → r₁.Respects τ' → S₁ τ' → C₂ τ') :
    Encodes scope r r₂ (cs₁ ++ cs₂) S C where
  known := fun c hc => (List.mem_append.mp hc).elim (fun hc => (h₁.known c hc).mono hle₂)
    (h₂.known c)
  plain := fun c hc => (List.mem_append.mp hc).elim (h₁.plain c) (h₂.plain c)
  sound := fun τ hτ hall => by
    apply hS τ hτ
    · exact h₁.sound τ (hτ.mono hle₂) fun c hc => hall c (List.mem_append_left _ hc)
    · exact h₂.sound τ hτ fun c hc => hall c (List.mem_append_right _ hc)
  complete := fun hscope τ hτ hC => by
    obtain ⟨τ₁, hagree₁, hτ₁, hall₁⟩ := h₁.complete hscope τ hτ (hC₁ τ hτ hC)
    have hS₁ : S₁ τ₁ := h₁.sound τ₁ hτ₁ fun c hc hfails => by
      have := hfails.symm.trans (hall₁ c hc).1
      cases this
    obtain ⟨τ₂, hagree₂, hτ₂, hall₂⟩ := h₂.complete hscope τ₁ hτ₁
      (hC₂ τ τ₁ hτ hC hagree₁ hτ₁ hS₁)
    refine ⟨τ₂, hagree₁.trans hagree₂ hle₁.1, hτ₂, fun c hc => ?_⟩
    rcases List.mem_append.mp hc with hc | hc
    · exact (hall₁ c hc).agree (h₁.known c hc) hagree₂
    · exact hall₂ c hc

end Encodes

end FiniteDomain
