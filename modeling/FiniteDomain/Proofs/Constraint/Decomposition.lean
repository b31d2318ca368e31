import FiniteDomain.Proofs.Constraint.Circuit
import FiniteDomain.Proofs.Constraint.Parity
import FiniteDomain.Proofs.Constraint.Reification

/-!
# Decomposing constraints

The pieces of a constraint encode it: where none of them is false the constraint is not false, and
where the constraint is true and the named expressions fit into 32 bits the pieces can all be
true.
-/

namespace FiniteDomain

open FiniteDomain.Expr (Traces Values ofInt)
open Constraint (eq evaluate_eq_iff evaluate_and_true_iff evaluate_and_false_iff
  knownTo_comparison_iff knownTo_connective_iff knownTo_implication_iff knownTo_global_iff
  evaluate_comparison_of_traces evaluate_global_of_traces evaluate_connective_iff
  evaluate_global_iff plainIn_iff plain_comparison decomposeImplication)

variable {scope : Scope} {r r' : Registry} {τ τ' : VarId → Int} {e other lhs rhs : Expr}
  {c : Constraint} {es : List Expr}

/-- The pieces encode the constraint. -/
def Decomposes (scope : Scope) (r r' : Registry) (c : Constraint) (pieces : List Constraint) :
    Prop :=
  Encodes scope r r' pieces (fun τ => ¬ c.Fails τ) fun τ => c.Realised τ

/-! ## Comparisons -/

/-- The decomposition of an equality whose first side is structured. -/
def decomposeEquation (e other : Expr) : Pieces := do
  if !other.isAtom then
    let (x, definition) ← other.auxiliary
    return [definition, .eq e (.ofInt x)]
  if let .element array index := e then
    return ← decomposeElement array index other
  if e.operands.all (·.isAtom) then
    failure
  let (e, definitions) ← e.atomizeOperands
  return definitions ++ [.eq e other]

theorem decomposeComparison_equal (lhs rhs : Expr) :
    decomposeComparison .equal lhs rhs =
      if lhs.isAtom && rhs.isAtom then failure
      else if lhs.isAtom then decomposeEquation rhs lhs else decomposeEquation lhs rhs := by
  rw [decomposeComparison]
  split
  · rfl
  · split
    · contradiction
    · cases lhs.isAtom <;> rfl

theorem decomposeComparison_of_ne {comparator : Comparator} (h : comparator ≠ .equal)
    (lhs rhs : Expr) : decomposeComparison comparator lhs rhs =
      if lhs.isAtom && rhs.isAtom then failure
      else do
        let (lhs, definitionsL) ← lhs.atomize
        let (rhs, definitionsR) ← rhs.atomize
        return definitionsL ++ definitionsR ++ [.comparison comparator lhs rhs] := by
  rw [decomposeComparison]
  split
  · rfl
  · rfl

theorem equated_of_not_atom (he : ¬ e.isAtom) : e.equated other = e.inner ++ other.named :=
  if_neg he

theorem makes_decomposeEquation (he : ¬ e.isAtom)
    (hknown : e.KnownTo r) (hknownO : other.KnownTo r) (hplain : e.Plain scope)
    (hplainO : other.Plain scope) :
    MakesSome r (decomposeEquation e other) fun pieces r' =>
      Decomposes scope r r' (eq e other) pieces := by
  unfold decomposeEquation
  split
  · next hother =>
    have hother : ¬ other.isAtom := by simpa using hother
    refine (MakesSome.lift Expr.makes_auxiliary).bind fun p r₁ hle hp => ?_
    obtain ⟨rfl, rfl⟩ := hp
    apply MakesSome.pure
    have hx : (ofInt (other.auxiliaryVar r.next)).KnownTo
        (r.extend (.int (other.auxiliaryVar r.next))) :=
      Expr.knownTo_ofInt (Registry.knows_extend rfl)
    have hsingle := Encodes.single (c := eq e (ofInt (other.auxiliaryVar r.next)))
      (knownTo_comparison_iff.mpr ⟨hknown.mono hle, hx⟩)
      (plain_comparison hplain (Expr.plain_ofInt _))
    apply (Expr.encodes_auxiliary hother hknownO hplainO).append hsingle hle (Registry.le_refl _)
    · intro τ _ htraces hnot hfails
      exact hnot (evaluate_comparison_of_traces (fun v hv => hv) htraces hfails)
    · intro τ _ h o ho
      apply h.2
      rw [eq, Constraint.named, equated_of_not_atom he]
      exact List.mem_append_right _ ho
    · intro τ τ' _ h hagree _ htraces
      refine ⟨evaluate_comparison_of_traces (hknown.traces hagree)
        ((hknownO.traces hagree).trans htraces) h.1, fun o ho => ?_⟩
      rw [eq, Constraint.named, Expr.equated_ofInt he] at ho
      have hinner := inner_of_realised_eq he h o ho
      exact hinner.agree (hknown.part (List.mem_filter.mp ho).1) hagree
  · next hother =>
    have hother : other.isAtom = true := by simpa using hother
    split
    · next array index =>
      have hresult := And.intro hother (And.intro hknownO hplainO)
      exact MakesSome.lift (makes_decomposeElement hknown hplain hresult)
    split
    · exact MakesSome.failure
    refine (MakesSome.lift (Expr.makes_atomizeOperands hknown hplain)).bind fun p r₁ hle hp => ?_
    obtain ⟨e', definitions⟩ := p
    apply MakesSome.pure
    have hsingle := Encodes.single (c := eq e' other)
      (knownTo_comparison_iff.mpr ⟨hp.known, hknownO.mono hle⟩) (plain_comparison hp.plain hplainO)
    apply hp.encodes.append hsingle hle (Registry.le_refl _)
    · intro τ _ htraces hnot hfails
      exact hnot (evaluate_comparison_of_traces htraces (fun v hv => hv) hfails)
    · exact fun τ _ h => inner_of_realised_eq he h
    · intro τ τ' _ h hagree _ htraces
      refine ⟨evaluate_comparison_of_traces ((hknown.traces hagree).trans htraces)
        (hknownO.traces hagree) h.1, fun o ho => ?_⟩
      rw [eq, Constraint.named, Expr.equated_eq_nil hp.isAtom hother] at ho
      cases ho

/-- An equality can be read from right to left. -/
theorem decomposes_swap {pieces : List Constraint} (hl : lhs.isAtom = true) (hr : ¬ rhs.isAtom)
    (h : Decomposes scope r r' (eq rhs lhs) pieces) : Decomposes scope r r' (eq lhs rhs) pieces := by
  have hswap : ∀ {τ b}, (eq lhs rhs).evaluate (total τ) = .ok b →
      (eq rhs lhs).evaluate (total τ) = .ok b := by
    intro τ b hb
    obtain ⟨x, y, hx, hy, hxy⟩ := evaluate_eq_iff.mp hb
    exact evaluate_eq_iff.mpr ⟨y, x, hy, hx, hxy ▸ decide_eq_decide.mpr eq_comm⟩
  apply h.weaken
  · exact fun τ _ hnot hfails => hnot (hswap hfails)
  · rintro τ - ⟨htrue, hnamed⟩
    refine ⟨hswap htrue, fun o ho => hnamed o ?_⟩
    rw [eq, Constraint.named, equated_of_not_atom hr, Expr.named_eq_nil hl, List.append_nil] at ho
    rwa [eq, Constraint.named, Expr.equated, if_pos hl]

theorem makes_decomposeComparison {comparator : Comparator}
    (hknown : (Constraint.comparison comparator lhs rhs).KnownTo r)
    (hplain : (Constraint.comparison comparator lhs rhs).Plain scope) :
    MakesSome r (decomposeComparison comparator lhs rhs) fun pieces r' =>
      Decomposes scope r r' (.comparison comparator lhs rhs) pieces := by
  obtain ⟨hknownL, hknownR⟩ := knownTo_comparison_iff.mp hknown
  by_cases hequal : comparator = .equal
  · subst hequal
    rw [decomposeComparison_equal]
    split
    · exact MakesSome.failure
    next hatoms =>
    obtain ⟨hplainL, hplainR⟩ := hplain.sides hatoms
    split
    · next hl =>
      have hr : ¬ rhs.isAtom := by simpa [hl] using hatoms
      exact (makes_decomposeEquation hr hknownR hknownL hplainR hplainL).weaken
        fun pieces r' _ hp => decomposes_swap hl hr hp
    · next hl => exact makes_decomposeEquation hl hknownL hknownR hplainL hplainR
  rw [decomposeComparison_of_ne hequal]
  split
  · exact MakesSome.failure
  next hatoms =>
  obtain ⟨hplainL, hplainR⟩ := hplain.sides hatoms
  refine (MakesSome.lift (Expr.makes_atomize hknownL hplainL)).bind fun p r₁ hle₁ hp => ?_
  obtain ⟨lhs', definitionsL⟩ := p
  refine (MakesSome.lift (Expr.makes_atomize (hknownR.mono hle₁) hplainR)).bind
    fun q r₂ hle₂ hq => ?_
  obtain ⟨rhs', definitionsR⟩ := q
  apply MakesSome.pure
  have hle := Registry.le_trans hle₁ hle₂
  have hnamed : ∀ {lhs rhs}, (Constraint.comparison comparator lhs rhs).named =
      lhs.named ++ rhs.named := by
    intro lhs rhs
    cases comparator with
    | equal => exact absurd rfl hequal
    | _ => rfl
  have hsingle := Encodes.single (c := .comparison comparator lhs' rhs')
    (knownTo_comparison_iff.mpr ⟨hp.known.mono hle₂, hq.known⟩)
    (plain_comparison hp.plain hq.plain)
  apply (Expr.encodes_pair hknownR hp hq hle₁ hle₂).append hsingle hle (Registry.le_refl _)
  · intro τ _ htraces hnot hfails
    exact hnot (evaluate_comparison_of_traces htraces.1 htraces.2 hfails)
  · exact fun τ _ h o ho => h.2 o (hnamed ▸ ho)
  · intro τ τ' _ h hagree _ htraces
    refine ⟨evaluate_comparison_of_traces ((hknownL.traces hagree).trans htraces.1)
      ((hknownR.traces hagree).trans htraces.2) h.1, ?_⟩
    simp [hnamed, Expr.named_eq_nil hp.isAtom, Expr.named_eq_nil hq.isAtom]

/-! ## Constraints over many expressions -/

theorem makes_decomposeAllDifferent (hknown : ∀ e ∈ es, e.KnownTo r)
    (hplain : (Global.allDifferent es).Plain scope) :
    MakesSome r (Global.allDifferent es).decompose fun pieces r' =>
      Decomposes scope r r' (.allDifferent es) pieces := by
  rw [Global.decompose]
  split
  · exact MakesSome.failure
  refine (MakesSome.lift (Expr.makes_atomizeAll hknown hplain.1)).bind fun p r₁ hle hp => ?_
  obtain ⟨atoms, definitions⟩ := p
  apply MakesSome.pure
  have htakes : ∀ {τ τ' b}, List.Forall₂ (Traces (total τ) (total τ')) es atoms →
      (Constraint.allDifferent es).evaluate (total τ) = .ok b →
      (Constraint.allDifferent atoms).evaluate (total τ') = .ok b :=
    fun htraces => evaluate_global_of_traces rfl htraces
  have hsingle := Encodes.single (c := .allDifferent atoms)
    (knownTo_global_iff.mpr hp.known)
    ⟨hp.plain, by simp [Global.isCounted], by simp [Global.rows]⟩
  apply hp.encodes.append hsingle hle (Registry.le_refl _)
  · exact fun τ _ htraces hnot hfails => hnot (htakes htraces hfails)
  · exact fun τ _ h e he o ho => h.2 o (List.mem_flatMap.mpr ⟨e, he, ho⟩)
  · intro τ τ' _ h hagree _ htraces
    have hknown' : (Constraint.allDifferent es).KnownTo r := knownTo_global_iff.mpr hknown
    refine ⟨htakes htraces (hknown'.evaluate hagree h.1), fun o ho => ?_⟩
    obtain ⟨e, he, ho⟩ := List.mem_flatMap.mp ho
    rw [Expr.named_eq_nil (hp.isAtom e he)] at ho
    cases ho

/-- Equal neighbours make all values the same. -/
theorem allSame_of_chainEqual {vs : List Int} (h : ∀ c ∈ chainEqual es, ¬ c.Fails τ)
    (hvs : Values (total τ) es vs) : allSame vs = true := by
  induction es generalizing vs with
  | nil =>
      cases hvs
      rfl
  | cons a rest ih =>
      cases hvs with
      | @cons _ x _ _ hx hvs =>
      cases hvs with
      | nil => rfl
      | @cons b y rest ws hy hws =>
          rw [chainEqual, List.forall_mem_cons] at h
          obtain rfl := Constraint.not_fails_eq_iff.mp h.1 x y hx hy
          have hsame := ih h.2 (.cons hy hws)
          simpa [allSame] using hsame

/-- The same values make neighbours equal. -/
theorem chainEqual_of_allSame {vs : List Int} (hvs : Values (total τ) es vs)
    (hsame : allSame vs = true)
    (hnamed : ∀ o ∈ Global.equatedChain es, o.Representable τ) :
    ∀ c ∈ chainEqual es, c.Realised τ := by
  induction es generalizing vs with
  | nil => simp [chainEqual]
  | cons a rest ih =>
      cases hvs with
      | @cons _ x _ _ hx hvs =>
      cases hvs with
      | nil => simp [chainEqual]
      | @cons b y rest ws hy hws =>
          obtain ⟨hnamed, hothers⟩ := List.forall_mem_append.mp hnamed
          obtain ⟨hyx, hws'⟩ : y = x ∧ ∀ w ∈ ws, w = x := by simpa [allSame] using hsame
          subst hyx
          rw [chainEqual, List.forall_mem_cons]
          exact ⟨Constraint.realised_eq hx hy hnamed,
            ih (.cons hy hws) (by simpa [allSame] using hws') hothers⟩

theorem mem_chainEqual (hc : c ∈ chainEqual es) : ∃ a ∈ es, ∃ b ∈ es, c = eq a b := by
  induction es with
  | nil => cases hc
  | cons a rest ih =>
      cases rest with
      | nil => cases hc
      | cons b rest =>
          rcases List.mem_cons.mp hc with rfl | hc
          · exact ⟨a, by simp, b, by simp, rfl⟩
          · obtain ⟨x, hx, y, hy, rfl⟩ := ih hc
            exact ⟨x, List.mem_cons_of_mem _ hx, y, List.mem_cons_of_mem _ hy, rfl⟩

theorem decomposes_allEqual (hknown : ∀ e ∈ es, e.KnownTo r) (hplain : ∀ e ∈ es, e.Plain scope) :
    Decomposes scope r r (.global (.allEqual es)) (chainEqual es) := by
  refine (Encodes.given (fun c hc => ?_) fun c hc => ?_).weaken ?_ ?_
  · obtain ⟨a, ha, b, hb, rfl⟩ := mem_chainEqual hc
    exact knownTo_comparison_iff.mpr ⟨hknown a ha, hknown b hb⟩
  · obtain ⟨a, ha, b, hb, rfl⟩ := mem_chainEqual hc
    exact plain_comparison (hplain a ha) (hplain b hb)
  · intro τ _ hall hfails
    obtain ⟨vs, hvs, hfalse⟩ := evaluate_global_iff.mp hfails
    cases (allSame_of_chainEqual hall hvs).symm.trans hfalse
  · rintro τ - ⟨htrue, hnamed⟩
    obtain ⟨vs, hvs, hsame⟩ := evaluate_global_iff.mp htrue
    exact chainEqual_of_allSame hvs hsame hnamed

/-! ## Parity -/

section Parity

variable {atoms : List Atom} {cs : List Constraint}

/-- The atoms that constraints are. -/
def AreAtoms (cs : List Constraint) (atoms : List Atom) : Prop :=
  List.Forall₂ (fun c a => c.asAtom? = some a) cs atoms

theorem areAtoms_of_mapM (h : cs.mapM Constraint.asAtom? = some atoms) : AreAtoms cs atoms :=
  mapM_eq_some_iff.mp h

theorem vars_asAtom {a : Atom} (ha : c.asAtom? = some a) : a.vars = c.occurrences := by
  cases c with
  | literal l =>
      obtain rfl := Option.some.inj ha
      rfl
  | constant value =>
      obtain rfl := Option.some.inj ha
      rfl
  | _ => cases ha

theorem knownTo_asAtom {a : Atom} (ha : c.asAtom? = some a) (hknown : c.KnownTo r) :
    (Expr.atom a).KnownTo r := by
  have hvars : (Expr.atom a).occurrences = c.occurrences := vars_asAtom ha
  rw [Expr.KnownTo, hvars]
  exact hknown

theorem value_asAtom {a : Atom} (ha : c.asAtom? = some a) (hτ : r.Respects τ)
    (hknown : c.KnownTo r) : a.value τ = 0 ∨ a.value τ = 1 := by
  cases c with
  | literal l =>
      obtain rfl := Option.some.inj ha
      exact Atom.value_literal hτ (hknown _ List.mem_cons_self)
  | constant value =>
      obtain rfl := Option.some.inj ha
      cases value <;> simp [Atom.value]
  | _ => cases ha

theorem values_atoms (hatoms : AreAtoms cs atoms) (hτ : r.Respects τ)
    (hknown : ∀ c ∈ cs, c.KnownTo r) :
    Values (total τ) (atoms.map .atom) (atoms.map (Atom.value τ)) ∧
      AreBits (atoms.map (Atom.value τ)) := by
  constructor
  · rw [Values, List.forall₂_map_left_iff, List.forall₂_map_right_iff]
    refine List.forall₂_same.mpr fun a ha => ?_
    obtain ⟨c, hc, hca⟩ := exists_related' hatoms ha
    exact Atom.evaluate_total hτ (knownTo_asAtom hca (hknown c hc))
  · intro v hv
    obtain ⟨a, ha, rfl⟩ := List.mem_map.mp hv
    obtain ⟨c, hc, hca⟩ := exists_related' hatoms ha
    exact value_asAtom hca hτ (hknown c hc)

theorem evaluate_xor (hatoms : AreAtoms cs atoms) (hτ : r.Respects τ)
    (hknown : ∀ c ∈ cs, c.KnownTo r) : (Constraint.connective .xor cs).evaluate (total τ) =
      .ok (isOdd ((atoms.map (Atom.value τ)).map (· != 0))) := by
  refine evaluate_connective_iff.mpr ⟨_, ?_, rfl⟩
  rw [Constraint.TruthValues, List.map_map, List.forall₂_map_right_iff]
  exact forall₂_imp_of_mem hatoms fun c hc a ha =>
    Constraint.evaluate_asAtom ha hτ (hknown c hc)

theorem makes_parityOfAtoms (scope : Scope) (hatoms : AreAtoms cs atoms)
    (hknown : ∀ c ∈ cs, c.KnownTo r) (hlength : cs.length < 2 ^ 31) :
    Makes r (decomposeParity (atoms.map .atom)) fun pieces r' => Encodes scope r r' pieces
      (fun τ => ¬ (Constraint.connective .xor cs).Fails τ)
      fun τ => (Constraint.connective .xor cs).evaluate (total τ) = .ok true := by
  have hplain : ∀ e ∈ atoms.map Expr.atom, e.Plain scope := by
    refine List.forall_mem_map.mpr fun a ha => ⟨?_, by simp [Expr.parts]⟩
    obtain ⟨c, -, hca⟩ := exists_related' hatoms ha
    cases c with
    | literal l =>
        obtain rfl := Option.some.inj hca
        trivial
    | constant value =>
        obtain rfl := Option.some.inj hca
        trivial
    | _ => cases hca
  have hknownAtoms : ∀ e ∈ atoms.map Expr.atom, e.KnownTo r := by
    refine List.forall_mem_map.mpr fun a ha => ?_
    obtain ⟨c, hc, hca⟩ := exists_related' hatoms ha
    exact knownTo_asAtom hca (hknown c hc)
  refine (makes_decomposeParity hknownAtoms hplain
    (List.forall_mem_map.mpr fun a _ => rfl) ?_ fun τ hτ => ?_).weaken fun pieces r' hle h => ?_
  · rwa [List.length_map, ← List.Forall₂.length_eq hatoms]
  · exact ⟨_, values_atoms hatoms hτ hknown⟩
  have hodd : ∀ {τ}, r.Respects τ → ((∃ vs, Values (total τ) (atoms.map .atom) vs ∧ AreBits vs ∧
      vs.sum % 2 = 1) ↔ (Constraint.connective .xor cs).evaluate (total τ) = .ok true) := by
    intro τ hτ
    obtain ⟨hvalues, hbits⟩ := values_atoms hatoms hτ hknown
    rw [evaluate_xor hatoms hτ hknown, Except.ok.injEq, isOdd_iff hbits]
    constructor
    · rintro ⟨vs, hvs, -, h⟩
      rwa [hvalues.unique hvs]
    · exact fun h => ⟨_, hvalues, hbits, h⟩
  apply h.weaken
  · intro τ hτ h hfails
    cases ((hodd (hτ.mono hle)).mp h).symm.trans hfails
  · exact fun τ hτ h => (hodd hτ).mpr h

end Parity

theorem truthValues_literals_iff {literals : List Literal} {bs : List Bool} {σ : Assignment} :
    Constraint.TruthValues σ (literals.map .literal) bs ↔
      ∃ vs, Values σ (literals.map .ofLiteral) vs ∧ vs.map (· != 0) = bs := by
  induction literals generalizing bs with
  | nil => simp [Constraint.TruthValues, Values, eq_comm]
  | cons l literals ih =>
      simp only [Constraint.TruthValues, Values, List.map_cons,
        List.forall₂_cons_left_iff] at ih ⊢
      constructor
      · rintro ⟨b, bs, hb, hbs, rfl⟩
        obtain ⟨v, hv, rfl⟩ := Constraint.evaluate_literal_iff.mp hb
        obtain ⟨vs, hvs, rfl⟩ := ih.mp hbs
        exact ⟨v :: vs, ⟨v, vs, hv, hvs, rfl⟩, rfl⟩
      · rintro ⟨_, ⟨v, vs, hv, hvs, rfl⟩, rfl⟩
        exact ⟨_, _, Constraint.evaluate_literal_iff.mpr ⟨v, hv, rfl⟩, ih.mpr ⟨vs, hvs, rfl⟩, rfl⟩

/-- A parity over literals is an exclusive disjunction. -/
theorem evaluate_parity_iff {literals : List Literal} {b : Bool} {σ : Assignment} :
    (Constraint.global (.parity literals)).evaluate σ = .ok b ↔
      (Constraint.connective .xor (literals.map .literal)).evaluate σ = .ok b := by
  rw [evaluate_global_iff, evaluate_connective_iff]
  constructor
  · rintro ⟨vs, hvs, rfl⟩
    exact ⟨_, truthValues_literals_iff.mpr ⟨vs, hvs, rfl⟩, rfl⟩
  · rintro ⟨bs, hbs, rfl⟩
    obtain ⟨vs, hvs, rfl⟩ := truthValues_literals_iff.mp hbs
    exact ⟨vs, hvs, rfl⟩

/-! ## All constraints -/

theorem makes_decomposeGlobal {g : Global}
    (hknown : (Constraint.global g).KnownTo r) (hplain : g.Plain scope) :
    MakesSome r g.decompose fun pieces r' => Decomposes scope r r' (.global g) pieces := by
  have hknown := knownTo_global_iff.mp hknown
  cases g with
  | allDifferent args => exact makes_decomposeAllDifferent hknown hplain
  | allEqual args => exact MakesSome.pure (decomposes_allEqual hknown hplain.1)
  | circuit successors =>
      exact MakesSome.lift (makes_decomposeCircuit hknown hplain.1 (hplain.2.1 rfl))
  | subcircuit successors => exact MakesSome.failure
  | table columns rows =>
      exact MakesSome.lift (makes_decomposeTable hknown hplain.1 hplain.2.2)
  | parity literals =>
      have hatoms : AreAtoms (literals.map .literal) (literals.map .literal) := by
        rw [AreAtoms, List.forall₂_map_left_iff, List.forall₂_map_right_iff]
        exact List.forall₂_same.mpr fun l _ => rfl
      have hknowns : ∀ c ∈ literals.map Constraint.literal, c.KnownTo r :=
        List.forall_mem_map.mpr fun l hl => hknown _ (List.mem_map_of_mem hl)
      have hlength : (literals.map Constraint.literal).length < 2 ^ 31 := by
        simpa [Global.args] using hplain.2.1 rfl
      have hparity := makes_parityOfAtoms scope hatoms hknowns hlength
      rw [List.map_map] at hparity
      refine MakesSome.lift (hparity.weaken fun pieces r' _ h => ?_)
      apply h.weaken
      · exact fun τ _ hnot hfails => hnot (evaluate_parity_iff.mp hfails)
      · exact fun τ _ h => evaluate_parity_iff.mp h.1

theorem decomposeImplication_eq_failure {a : Constraint} (ha : a.isAtom = false) :
    decomposeImplication a c = failure := by
  cases c with
  | connective kind args => cases kind <;> simp [decomposeImplication, ha]
  | implication b c => simp [decomposeImplication, ha]
  | comparison comparator lhs rhs =>
      rw [decomposeImplication, ha]
      rfl
  | _ => rfl

/-- A decomposition encodes the constraint. -/
theorem makes_decompose (hknown : c.KnownTo r)
    (hplain : c.Plain scope) :
    MakesSome r c.decompose fun pieces r' => Decomposes scope r r' c pieces := by
  cases c with
  | literal l => exact MakesSome.failure
  | constant value => exact MakesSome.failure
  | connective kind args =>
      have hknowns := knownTo_connective_iff.mp hknown
      have hplains := plainIn_iff.mp hplain.1
      cases kind with
      | and =>
          rw [Constraint.decompose]
          split
          · exact MakesSome.failure
          apply MakesSome.pure
          apply (Encodes.given hknowns hplains).weaken
          · intro τ _ hall hfails
            obtain ⟨-, c, hc, hfalse⟩ := evaluate_and_false_iff.mp hfails
            exact hall c hc hfalse
          · exact fun τ _ h c hc => ⟨evaluate_and_true_iff.mp h.1 c hc,
              fun o ho => h.2 o (Constraint.mem_namedIn.mpr ⟨c, hc, ho⟩)⟩
      | or =>
          rw [Constraint.decompose]
          split
          · exact MakesSome.failure
          refine (makes_reifyDisjuncts none [] (fun c _ => reifiable c)
            (by simp) (by simp) hknowns hplains).bind fun p r' _ hp => ?_
          obtain ⟨constraints, disjuncts⟩ := p
          exact MakesSome.pure hp
      | xor =>
          rw [Constraint.decompose]
          refine MakesSome.ofOption.bind fun atoms r' _ hatoms => ?_
          obtain ⟨hatoms, rfl⟩ := hatoms
          refine MakesSome.lift ((makes_parityOfAtoms scope (areAtoms_of_mapM hatoms) hknowns
            (hplain.2 rfl)).weaken fun pieces r' _ h => ?_)
          exact h.weaken (fun τ _ h => h) fun τ _ h => h.1
  | implication a c =>
      obtain ⟨hknownA, hknownC⟩ := knownTo_implication_iff.mp hknown
      rw [Constraint.decompose]
      cases ha : a.isAtom with
      | true => exact reifiable c r a ha hknownA hknownC hplain.2
      | false =>
          rw [decomposeImplication_eq_failure ha]
          exact MakesSome.failure
  | comparison comparator lhs rhs => exact makes_decomposeComparison hknown hplain
  | global g => exact makes_decomposeGlobal hknown hplain

end FiniteDomain
