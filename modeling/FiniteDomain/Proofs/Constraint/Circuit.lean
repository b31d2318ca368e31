import FiniteDomain.Proofs.Constraint.Selection
import FiniteDomain.Proofs.Constraint.SingleCycle

/-!
# Circuits

A circuit is decomposed with a variable for every step, which is the node that is met there. The
successors determine the nodes that are met, so the values of these variables leave no choice.
-/

namespace FiniteDomain

open FiniteDomain.Expr (Values ofInt)
open Constraint (eq evaluate_eq_iff knownTo_comparison_iff knownTo_global_iff
  evaluate_comparison_iff evaluate_global_iff plain_comparison)

variable {scope : Scope} {r r' : Registry} {τ τ' : VarId → Int} {successors : List Expr}
  {first : Expr} {vs : List Int} {order : List IntVar}

/-- The constraints between the successors and the nodes that are met. -/
def circuitPieces (successors : List Expr) (first : Expr) (order : List IntVar) :
    List Constraint :=
  let ranges := successors.flatMap fun s =>
    [.comparison .greaterOrEqual s (.constant 0),
      .comparison .less s (.constant successors.length)]
  let start := order.head?.toList.map fun x => eq (ofInt x) first
  let stop := order.getLast?.toList.map fun x => eq (ofInt x) (.constant 0)
  Constraint.allDifferent successors :: ranges ++ [.allDifferent (order.map ofInt)] ++ start ++
    followSuccessors successors order ++ stop

theorem decomposeCircuit_eq (rest : List Expr) :
    decomposeCircuit (first :: rest) = (do
      let order ← nodeVars (rest.length + 1) (rest.length + 1)
      return circuitPieces (first :: rest) first order) := rfl

/-- The node that is met at every step. -/
def met (τ : VarId → Int) (order : List IntVar) : List Int := order.map fun x => τ x.id

/-! ## Truth of the pieces -/

/-- The constraints have truth values, and all are true exactly if the condition holds. -/
def Decides (τ : VarId → Int) (cs : List Constraint) (p : Prop) : Prop :=
  (∀ c ∈ cs, ∃ b, c.evaluate (total τ) = .ok b) ∧
    ((∀ c ∈ cs, c.evaluate (total τ) = .ok true) ↔ p)

namespace Decides

variable {cs ds : List Constraint} {p q : Prop}

theorem nil : Decides τ [] True := ⟨by simp, by simp⟩

theorem single {c : Constraint} [Decidable p] (h : c.evaluate (total τ) = .ok (decide p)) :
    Decides τ [c] p := by
  rw [Decides, List.forall_mem_singleton, List.forall_mem_singleton, h]
  exact ⟨⟨_, rfl⟩, by simp⟩

theorem append (h : Decides τ cs p) (h' : Decides τ ds q) : Decides τ (cs ++ ds) (p ∧ q) := by
  rw [Decides, List.forall_mem_append, List.forall_mem_append, h.2, h'.2]
  exact ⟨⟨h.1, h'.1⟩, Iff.rfl⟩

theorem congr (h : Decides τ cs p) (hpq : p ↔ q) : Decides τ cs q := ⟨h.1, h.2.trans hpq⟩

theorem of_not_fails (h : Decides τ cs p) (hcs : ∀ c ∈ cs, ¬ c.Fails τ) : p := by
  refine h.2.mp fun c hc => ?_
  obtain ⟨b, hb⟩ := h.1 c hc
  cases b with
  | true => exact hb
  | false => exact absurd hb (hcs c hc)

end Decides

theorem values_met : Values (total τ) (order.map ofInt) (met τ order) := by
  rw [Values, met, List.forall₂_map_left_iff, List.forall₂_map_right_iff]
  exact List.forall₂_same.mpr fun x _ => rfl

theorem decides_allDifferent {es : List Expr} (hvs : Values (total τ) es vs) :
    Decides τ [.allDifferent es] vs.Nodup :=
  Decides.single (evaluate_global_iff.mpr ⟨vs, hvs, rfl⟩)

theorem decides_eq {lhs rhs : Expr} {v w : Int} (hl : lhs.evaluate (total τ) = .ok v)
    (hr : rhs.evaluate (total τ) = .ok w) : Decides τ [eq lhs rhs] (v = w) :=
  Decides.single (evaluate_eq_iff.mpr ⟨v, w, hl, hr, rfl⟩)

/-- The successor of a node, as an element. -/
theorem evaluate_next (hvs : Values (total τ) successors vs) {x : IntVar}
    (hx : 0 ≤ τ x.id ∧ τ x.id < vs.length) :
    (Expr.element successors (ofInt x)).evaluate (total τ) =
      .ok (vs.getD (τ x.id).toNat 0) := by
  have hlt : (τ x.id).toNat < vs.length := by omega
  have hlt' : (τ x.id).toNat < successors.length := (List.Forall₂.length_eq hvs).symm ▸ hlt
  refine Expr.evaluate_element_iff.mpr ⟨(τ x.id).toNat, successors[(τ x.id).toNat], ?_,
    List.getElem?_eq_getElem hlt', ?_⟩
  · rw [Int.toNat_of_nonneg hx.1]
    rfl
  · rw [List.getD_eq_getElem _ _ hlt]
    exact List.Forall₂.get hvs hlt' hlt

theorem decides_followSuccessors (hvs : Values (total τ) successors vs)
    (horder : ∀ x ∈ order, 0 ≤ τ x.id ∧ τ x.id < vs.length) :
    Decides τ (followSuccessors successors order)
      ((met τ order).IsChain fun v w => w = vs.getD v.toNat 0) := by
  induction order with
  | nil => exact Decides.nil.congr (by simp [met])
  | cons x order ih =>
      cases order with
      | nil => exact Decides.nil.congr (by simp [met])
      | cons y rest =>
          obtain ⟨hx, horder⟩ := List.forall_mem_cons.mp horder
          refine ((decides_eq rfl (evaluate_next hvs hx)).append (ih horder)).congr ?_
          simp only [met, List.map_cons, List.isChain_cons_cons]

theorem decides_ranges {n : Nat} {es : List Expr} {ws : List Int} (hws : Values (total τ) es ws) :
    Decides τ (es.flatMap fun s => [.comparison .greaterOrEqual s (.constant 0),
      .comparison .less s (.constant n)]) (∀ v ∈ ws, 0 ≤ v ∧ v < n) := by
  induction hws with
  | nil => exact Decides.nil.congr (by simp)
  | @cons s v es ws hv _ ih =>
      have hlower : Decides τ [.comparison .greaterOrEqual s (.constant 0)] (0 ≤ v) :=
        Decides.single (evaluate_comparison_iff.mpr ⟨v, 0, hv, rfl, rfl⟩)
      have hupper : Decides τ [.comparison .less s (.constant n)] (v < n) :=
        Decides.single (evaluate_comparison_iff.mpr ⟨v, n, hv, rfl, rfl⟩)
      exact ((hlower.append hupper).append ih).congr (by rw [List.forall_mem_cons])

/-- The condition on the nodes that are met under which all pieces are true. -/
structure Meets (vs os : List Int) : Prop where
  distinct : vs.Nodup
  areNodes : AreNodes vs
  nodup : os.Nodup
  head : ∀ o ∈ os.head?, ∀ v ∈ vs.head?, o = v
  chain : os.IsChain fun v w => w = vs.getD v.toNat 0
  last : ∀ o ∈ os.getLast?, o = 0

theorem decides_circuitPieces {rest : List Expr} (hvs : Values (total τ) (first :: rest) vs)
    (horder : ∀ x ∈ order, 0 ≤ τ x.id ∧ τ x.id < vs.length) :
    Decides τ (circuitPieces (first :: rest) first order) (Meets vs (met τ order)) := by
  have hstart : Decides τ (order.head?.toList.map fun x => eq (ofInt x) first)
      (∀ o ∈ (met τ order).head?, ∀ v ∈ vs.head?, o = v) := by
    cases hvs with
    | cons hv _ =>
        cases order with
        | nil => exact Decides.nil.congr (by simp [met])
        | cons x order => exact (decides_eq rfl hv).congr (by simp [met])
  have hstop : Decides τ (order.getLast?.toList.map fun x => eq (ofInt x) (.constant 0))
      (∀ o ∈ (met τ order).getLast?, o = 0) := by
    rw [met, List.getLast?_map]
    cases order.getLast? with
    | none => exact Decides.nil.congr (by simp)
    | some x => exact (decides_eq rfl rfl).congr (by simp)
  have hlength := List.Forall₂.length_eq hvs
  refine (((((decides_allDifferent hvs).append (decides_ranges hvs)).append
    (decides_allDifferent values_met)).append hstart).append
    (decides_followSuccessors hvs horder)).append hstop |>.congr ?_
  rw [hlength]
  constructor
  · rintro ⟨⟨⟨⟨⟨h₁, h₂⟩, h₃⟩, h₄⟩, h₅⟩, h₆⟩
    exact ⟨h₁, h₂, h₃, h₄, h₅, h₆⟩
  · rintro ⟨h₁, h₂, h₃, h₄, h₅, h₆⟩
    exact ⟨⟨⟨⟨⟨h₁, h₂⟩, h₃⟩, h₄⟩, h₅⟩, h₆⟩

/-- The pieces can be true only around a cycle through all nodes. -/
theorem Meets.isSingleCycle {os : List Int} (h : Meets vs os) (hlength : os.length = vs.length) :
    isSingleCycle vs (fun _ => true) = true := by
  have hhead : os.head? = vs.head? := by
    have := h.head
    cases os with
    | nil =>
        obtain rfl := List.length_eq_zero_iff.mp hlength.symm
        rfl
    | cons o os =>
        cases vs with
        | nil => cases hlength
        | cons v vs => simpa using this
  obtain rfl := eq_orbit h.areNodes hlength hhead h.chain
  exact isSingleCycle_of_orbit h.areNodes h.nodup h.last

/-- The nodes that are met around a cycle make the pieces true. -/
theorem meets_orbit (h : isSingleCycle vs (fun _ => true) = true) : Meets vs (orbit vs) := by
  have hnodes := (isSingleCycle_iff.mp h).1
  refine ⟨nodup_of_isSingleCycle h, hnodes, nodup_orbit h, fun o ho v hv => ?_,
    isChain_orbit hnodes, getLast?_of_isSingleCycle h⟩
  rw [head?_orbit hnodes] at ho
  exact Option.some.inj (ho.symm.trans hv)

/-! ## The variables of the nodes -/

/-- Variables that can take the numbers of nodes. -/
structure NodeVars (n : Nat) (r r' : Registry) (xs : List IntVar) : Prop where
  knows : ∀ x ∈ xs, r'.Knows (.int x)
  domain_eq : ∀ x ∈ xs, x.domain = .clamped 0 (max 0 (n - 1)) (Int.le_max_left 0 _)
  exists_values : ∀ τ, r.Respects τ → ∀ os : List Int, os.length = xs.length →
    (∀ o ∈ os, 0 ≤ o ∧ o < n ∧ word32.Fits o) →
    ∃ τ', Agree r.next τ τ' ∧ r'.Respects τ' ∧ met τ' xs = os

theorem makes_nodeVars (n count : Nat) : Makes r (nodeVars n count) fun xs r' =>
    xs.length = count ∧ NodeVars n r r' xs := by
  induction count generalizing r with
  | zero =>
      refine Makes.pure ⟨rfl, by simp, by simp, fun τ hτ os hlength _ => ?_⟩
      obtain rfl := List.length_eq_zero_iff.mp hlength
      exact ⟨τ, fun _ _ => rfl, hτ, rfl⟩
  | succ count ih =>
      refine makes_intVar.bind fun x r₁ hle hx => ?_
      obtain ⟨hid, hdomain, rfl⟩ := hx
      refine ih.bind fun xs r₂ hle₂ hxs => ?_
      obtain ⟨hcount, hxs⟩ := hxs
      have hknows := Registry.knows_extend (x := .int x) hid
      refine Makes.pure ⟨by simp [hcount], ?_, ?_, ?_⟩
      · exact List.forall_mem_cons.mpr ⟨hknows.mono hle₂, hxs.knows⟩
      · exact List.forall_mem_cons.mpr ⟨hdomain, hxs.domain_eq⟩
      · intro τ hτ os hlength hos
        cases os with
        | nil => cases hlength
        | cons o os =>
            obtain ⟨ho, hos⟩ := List.forall_mem_cons.mp hos
            have hcontains : x.domain.contains o = true := by
              rw [hdomain]
              exact Domain.contains_clamped ho.2.2 ho.1 (by omega)
            obtain ⟨τ', hagree, hτ', hmet⟩ := hxs.exists_values _
              (Registry.respects_extend (x := .int x) hτ hcontains) os (by simpa using hlength) hos
            refine ⟨τ', (agree_update r.next τ o).trans hagree hle.1, hτ', ?_⟩
            rw [met, List.map_cons, ← met, hmet, hagree x.id hknows.1, hid, Function.update_self]

/-- The value of a variable for a node is the number of a node. -/
theorem NodeVars.bounds {n : Nat} {xs : List IntVar} (h : NodeVars n r r' xs) (hn : 0 < n)
    (hτ : r'.Respects τ) : ∀ x ∈ xs, 0 ≤ τ x.id ∧ τ x.id < n := by
  intro x hx
  have hcontains : x.domain.contains (τ x.id) = true := hτ.contains (h.knows x hx)
  simp only [h.domain_eq x hx, Domain.clamped, Domain.contains, Bool.and_eq_true,
    decide_eq_true_eq] at hcontains
  have hlower : word32.clamp 0 = 0 := by decide
  have hupper := Word.clamp_cases word32 (max 0 (n - 1))
  simp only [word32] at hupper hlower hcontains
  omega

/-! ## The decomposition -/

theorem forall_followSuccessors {p : Constraint → Prop}
    (h : ∀ x ∈ order, ∀ y ∈ order, p (eq (ofInt y) (.element successors (ofInt x)))) :
    ∀ c ∈ followSuccessors successors order, p c := by
  induction order with
  | nil => simp [followSuccessors]
  | cons x order ih =>
      cases order with
      | nil => simp [followSuccessors]
      | cons y rest =>
          rw [followSuccessors, List.forall_mem_cons]
          constructor
          · exact h x List.mem_cons_self y (by simp)
          · exact ih fun x hx y hy => h x (List.mem_cons_of_mem _ hx) y (List.mem_cons_of_mem _ hy)

/-- The kinds of constraints among the pieces. -/
theorem forall_circuitPieces {p : Constraint → Prop}
    (hdistinct : p (.allDifferent successors))
    (hlower : ∀ s ∈ successors, p (.comparison .greaterOrEqual s (.constant 0)))
    (hupper : ∀ s ∈ successors, p (.comparison .less s (.constant successors.length)))
    (hnodup : p (.allDifferent (order.map ofInt)))
    (hstart : ∀ x ∈ order, p (eq (ofInt x) first))
    (hfollow : ∀ x ∈ order, ∀ y ∈ order, p (eq (ofInt y) (.element successors (ofInt x))))
    (hstop : ∀ x ∈ order, p (eq (ofInt x) (.constant 0))) :
    ∀ c ∈ circuitPieces successors first order, p c := by
  simp only [circuitPieces, List.forall_mem_append, List.forall_mem_cons, List.forall_mem_flatMap,
    List.forall_mem_map, Option.mem_toList, List.not_mem_nil, false_imp_iff, implies_true, and_true]
  exact ⟨⟨⟨⟨⟨hdistinct, fun s hs => ⟨hlower s hs, hupper s hs⟩⟩, hnodup⟩,
    fun x hx => hstart x (List.mem_of_mem_head? hx)⟩, forall_followSuccessors hfollow⟩,
    fun x hx => hstop x (List.mem_of_mem_getLast? hx)⟩

/-- The pieces name what the successors name. -/
theorem named_circuitPieces (hfirst : first ∈ successors) :
    ∀ c ∈ circuitPieces successors first order, ∀ o ∈ c.named, ∃ s ∈ successors, o ∈ s.named := by
  have hatom : ∀ x, (ofInt x).named = [] := fun x => Expr.named_eq_nil rfl
  have hconstant : ∀ v, (Expr.constant v).named = [] := fun v => Expr.named_eq_nil rfl
  apply forall_circuitPieces
  · exact fun o ho => List.mem_flatMap.mp ho
  · intro s hs o ho
    exact ⟨s, hs, by simpa [Constraint.named, hconstant] using ho⟩
  · intro s hs o ho
    exact ⟨s, hs, by simpa [Constraint.named, hconstant] using ho⟩
  · intro o ho
    obtain ⟨e, he, ho⟩ := List.mem_flatMap.mp ho
    obtain ⟨x, -, rfl⟩ := List.mem_map.mp he
    rw [hatom] at ho
    cases ho
  · intro x _ o ho
    exact ⟨first, hfirst, Expr.mem_named_of_inner ho⟩
  · intro x _ y _ o ho
    obtain ⟨a, ha, ho⟩ := Expr.exists_operand_of_inner ho
    rcases List.mem_append.mp ha with ha | ha
    · exact ⟨a, ha, ho⟩
    · rw [List.mem_singleton.mp ha, hatom] at ho
      cases ho
  · intro x _ o ho
    cases ho

theorem knownTo_circuitPieces (hfirst : first ∈ successors)
    (hknown : ∀ s ∈ successors, s.KnownTo r) (horder : ∀ x ∈ order, r.Knows (.int x)) :
    ∀ c ∈ circuitPieces successors first order, c.KnownTo r := by
  have hvars : ∀ x ∈ order, (ofInt x).KnownTo r := fun x hx => Expr.knownTo_ofInt (horder x hx)
  apply forall_circuitPieces
  · exact knownTo_global_iff.mpr hknown
  · exact fun s hs => knownTo_comparison_iff.mpr ⟨hknown s hs, knownTo_constant _⟩
  · exact fun s hs => knownTo_comparison_iff.mpr ⟨hknown s hs, knownTo_constant _⟩
  · exact knownTo_global_iff.mpr (List.forall_mem_map.mpr hvars)
  · exact fun x hx => knownTo_comparison_iff.mpr ⟨hvars x hx, hknown first hfirst⟩
  · intro x hx y hy
    refine knownTo_comparison_iff.mpr ⟨hvars y hy, ?_⟩
    exact (Expr.knownTo_iff_operands (by simp [Expr.isAtom, Expr.asAtom?])).mpr
      (List.forall_mem_append.mpr ⟨hknown, List.forall_mem_singleton.mpr (hvars x hx)⟩)
  · exact fun x hx => knownTo_comparison_iff.mpr ⟨hvars x hx, knownTo_constant 0⟩

theorem plain_circuitPieces (hfirst : first ∈ successors)
    (hplain : ∀ s ∈ successors, s.Plain scope) (hlength : successors.length < 2 ^ 31) :
    ∀ c ∈ circuitPieces successors first order, c.Plain scope := by
  have hzero : (Expr.constant 0).Plain scope := plain_constant (admits_natCast (n := 0) (by decide))
  have hcount : (Expr.constant successors.length).Plain scope :=
    plain_constant (admits_natCast (hlength.trans (by decide)))
  apply forall_circuitPieces
  · exact ⟨hplain, by simp [Global.isCounted], by simp [Global.rows]⟩
  · exact fun s hs => plain_comparison (hplain s hs) hzero
  · exact fun s hs => plain_comparison (hplain s hs) hcount
  · exact ⟨List.forall_mem_map.mpr fun x _ => Expr.plain_ofInt x, by simp [Global.isCounted],
      by simp [Global.rows]⟩
  · exact fun x _ => plain_comparison (Expr.plain_ofInt x) (hplain first hfirst)
  · intro x _ y _
    refine plain_comparison (Expr.plain_ofInt y) (Expr.plain_iff_operands.mpr
      ⟨hlength.le.trans scope.le_limit, ?_⟩)
    exact List.forall_mem_append.mpr
      ⟨hplain, List.forall_mem_singleton.mpr (Expr.plain_ofInt x)⟩
  · exact fun x _ => plain_comparison (Expr.plain_ofInt x) hzero

/-- The decomposition of a circuit. -/
theorem makes_decomposeCircuit
    (hknown : ∀ s ∈ successors, s.KnownTo r) (hplain : ∀ s ∈ successors, s.Plain scope)
    (hlength : successors.length < 2 ^ 31) :
    Makes r (decomposeCircuit successors) fun pieces r' => Encodes scope r r' pieces
      (fun τ => ¬ (Constraint.global (.circuit successors)).Fails τ)
      fun τ => (Constraint.global (.circuit successors)).Realised τ := by
  cases successors with
  | nil =>
      apply Makes.pure
      refine (Encodes.given (by simp) (by simp)).weaken (fun τ _ _ hfails => ?_) (by simp)
      obtain ⟨vs, hvs, hfalse⟩ := evaluate_global_iff.mp hfails
      cases hvs
      cases hfalse
  | cons first rest =>
      rw [decomposeCircuit_eq]
      refine (makes_nodeVars (rest.length + 1) (rest.length + 1)).bind fun order r' hle horder => ?_
      obtain ⟨hcount, hvars⟩ := horder
      apply Makes.pure
      have hfirst : first ∈ first :: rest := List.mem_cons_self
      refine ⟨knownTo_circuitPieces hfirst (fun s hs => (hknown s hs).mono hle) hvars.knows,
        plain_circuitPieces hfirst hplain hlength, fun τ hτ hall hfails => ?_, ?_⟩
      · obtain ⟨vs, hvs, hfalse⟩ := evaluate_global_iff.mp hfails
        have hlengthVs : rest.length + 1 = vs.length := List.Forall₂.length_eq hvs
        have hbounds := hvars.bounds (Nat.succ_pos _) hτ
        rw [hlengthVs] at hbounds
        have hmeets := (decides_circuitPieces hvs hbounds).of_not_fails hall
        have htrue := hmeets.isSingleCycle (by simp [met, hcount, hlengthVs])
        cases htrue.symm.trans hfalse
      · rintro hscope τ hτ ⟨htrue, hnamed⟩
        obtain ⟨vs, hvs, hcycle⟩ := evaluate_global_iff.mp htrue
        have hlengthVs : rest.length + 1 = vs.length := List.Forall₂.length_eq hvs
        have hnodes := (isSingleCycle_iff.mp hcycle).1
        have horbit : ∀ o ∈ orbit vs, 0 ≤ o ∧ o < (rest.length + 1 : Nat) ∧ word32.Fits o := by
          intro o ho
          have := mem_orbit hnodes ho
          rw [List.length_cons] at hlength
          simp only [Word.Fits, word32]
          omega
        obtain ⟨τ', hagree, hτ', hmet⟩ := hvars.exists_values τ hτ (orbit vs)
          (by simp [hcount, hlengthVs]) horbit
        have hvs' : Values (total τ') (first :: rest) vs :=
          hvs.traces (List.forall₂_same.mpr fun s hs => (hknown s hs).traces hagree)
        have hbounds := hvars.bounds (Nat.succ_pos _) hτ'
        rw [hlengthVs] at hbounds
        refine ⟨τ', hagree, hτ', fun c hc => ⟨?_, fun o ho => ?_⟩⟩
        · exact (decides_circuitPieces hvs' hbounds).2.mpr (hmet ▸ meets_orbit hcycle) c hc
        · obtain ⟨s, hs, hos⟩ := named_circuitPieces hfirst c hc o ho
          exact (hnamed o (List.mem_flatMap.mpr ⟨s, hs, hos⟩)).agree
            ((hknown s hs).named hos) hagree

end FiniteDomain
