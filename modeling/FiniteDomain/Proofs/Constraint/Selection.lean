import FiniteDomain.Proofs.Constraint.Naming

/-!
# Choosing among alternatives

The decompositions of elements and tables choose an alternative: each has a selector, which
implies the constraints of the alternative, and some selector is true. That is possible exactly if
the constraints of some alternative are all true.
-/

namespace FiniteDomain

open FiniteDomain.Expr (Traces Values ofInt)
open Constraint (eq evaluate_eq_iff evaluate_implication_iff evaluate_or_true_iff
  evaluate_or_false_iff knownTo_comparison_iff knownTo_implication_iff knownTo_connective_iff
  not_fails_eq_iff realised_eq plainIn_iff)

variable {scope : Scope} {r r' : Registry} {τ τ' : VarId → Int}

/-- A selector for every alternative, which implies its constraints; returns the selectors too. -/
def select : List (List Constraint) → Fresh (List Constraint × List Constraint)
  | [] => return ([], [])
  | alternative :: rest => do
    let selector ← BoolVar.create
    let (constraints, selectors) ← select rest
    return (alternative.map (.implication (.ofVar selector)) ++ constraints,
      .ofVar selector :: selectors)

/-- The index is at the item, and the item is the result. -/
def itemAlternatives (index result : Expr) (position : Nat) : List Expr → List (List Constraint)
  | [] => []
  | item :: items => [.eq index (.constant position), .eq item result] ::
      itemAlternatives index result (position + 1) items

/-- Every column has its value of the row. -/
def rowAlternative (columns : List Expr) (row : List Int) : List Constraint :=
  (columns.zip row).map fun p => .eq p.1 (.constant p.2)

theorem selectItems_eq (index result : Expr) (position : Nat) (items : List Expr) :
    selectItems index result position items =
      select (itemAlternatives index result position items) := by
  induction items generalizing position with
  | nil => rfl
  | cons item items ih =>
      rw [selectItems, ih]
      rfl

theorem selectRows_eq (columns : List Expr) (rows : List (List Int)) :
    selectRows columns rows = select (rows.map (rowAlternative columns)) := by
  induction rows with
  | nil => rfl
  | cons row rows ih =>
      rw [selectRows, ih, List.map_cons, select]
      simp only [rowAlternative, List.map_map]
      rfl

theorem mem_itemAlternatives {index result : Expr} {position : Nat} {items : List Expr}
    {alternative : List Constraint} :
    alternative ∈ itemAlternatives index result position items ↔
      ∃ (i : Nat) (item : Expr), items[i]? = some item ∧
        alternative = [.eq index (.constant (position + i : Nat)), .eq item result] := by
  induction items generalizing position with
  | nil => simp [itemAlternatives]
  | cons item items ih =>
      rw [itemAlternatives, List.mem_cons, ih]
      constructor
      · rintro (rfl | ⟨i, item', hi, rfl⟩)
        · exact ⟨0, item, rfl, rfl⟩
        · refine ⟨i + 1, item', hi, ?_⟩
          rw [show position + 1 + i = position + (i + 1) by omega]
      · rintro ⟨i, item', hi, rfl⟩
        cases i with
        | zero =>
            obtain rfl := Option.some.inj hi
            exact .inl rfl
        | succ i =>
            refine .inr ⟨i, item', hi, ?_⟩
            rw [show position + 1 + i = position + (i + 1) by omega]

/-! ## Selectors -/

/-- One of the constraints is true, or all constraints of one of the alternatives. -/
def Chosen (before : List Constraint) (alternatives : List (List Constraint))
    (τ : VarId → Int) : Prop :=
  (∃ c ∈ before, c.evaluate (total τ) = .ok true) ∨
    ∃ alternative ∈ alternatives, ∀ c ∈ alternative, c.evaluate (total τ) = .ok true

theorem knownTo_ofVar {x : BoolVar} (h : r.Knows (.bool x)) : (Constraint.ofVar x).KnownTo r := by
  intro y hy
  obtain rfl := List.mem_singleton.mp hy
  exact h

/-- The value of a Boolean decides the constraint that it is true. -/
theorem evaluate_ofVar (x : BoolVar) (τ : VarId → Int) :
    (Constraint.ofVar x).evaluate (total τ) = .ok (τ x.id != 0) := rfl

/-- A constraint behind a selector that is chosen as its truth value is true. -/
theorem realised_implication_ofVar {x : BoolVar} {c : Constraint}
    (hc : τ x.id ≠ 0 → c.evaluate (total τ) = .ok true)
    (hreified : ∀ o ∈ c.reified, o.Representable τ) :
    (Constraint.implication (.ofVar x) c).Realised τ := by
  refine ⟨evaluate_implication_iff.mpr ?_, hreified⟩
  by_cases hx : τ x.id = 0
  · exact .inr ⟨by simp [evaluate_ofVar, hx], rfl⟩
  · exact .inl ⟨by simp [evaluate_ofVar, hx], hc hx⟩

section Select

variable {before : List Constraint} {alternatives : List (List Constraint)}

/-- The alternatives may stand behind selectors. -/
def Selectable (scope : Scope) (r : Registry) (alternative : List Constraint) : Prop :=
  ∀ c ∈ alternative, c.isReifiable = true ∧ c.KnownTo r ∧ c.Plain scope

theorem Selectable.mono {alternative : List Constraint} (h : Selectable scope r alternative)
    (hle : r ≤ r') : Selectable scope r' alternative :=
  fun c hc => ⟨(h c hc).1, (h c hc).2.1.mono hle, (h c hc).2.2⟩

/-- Atoms one of which has to be true. -/
theorem encodes_disjunction (hbefore : ∀ c ∈ before, c.isAtom = true ∧ c.KnownTo r) :
    Encodes scope r r [.or before] (Chosen before []) (Chosen before []) := by
  refine (Encodes.single ?_ ?_).weaken ?_ ?_
  · exact knownTo_connective_iff.mpr fun c hc => (hbefore c hc).2
  · refine ⟨plainIn_iff.mpr fun c hc => ?_, by simp⟩
    exact Constraint.plain_atom (hbefore c hc).1
  · intro τ hτ hfails
    by_contra hnot
    apply hfails
    refine evaluate_or_false_iff.mpr fun c hc => ?_
    obtain ⟨b, hb⟩ := Constraint.exists_evaluate_atom (hbefore c hc).1 hτ (hbefore c hc).2
    cases b with
    | true => exact absurd (.inl ⟨c, hc, hb⟩) hnot
    | false => exact hb
  · rintro τ hτ (htrue | ⟨alternative, hmem, -⟩)
    · refine ⟨evaluate_or_true_iff.mpr ⟨fun c hc => ?_, htrue⟩, ?_⟩
      · exact Constraint.exists_evaluate_atom (hbefore c hc).1 hτ (hbefore c hc).2
      · have : (Constraint.or before).named = [] :=
          Constraint.reifiedIn_eq_nil fun c hc => Constraint.reified_atom (hbefore c hc).1
        simp [this]
    · cases hmem

/-- A new selector takes the place of an alternative. -/
theorem encodes_selector {x : BoolVar} {alternative cs : List Constraint} (hid : x.id = r.next)
    (hbefore : ∀ c ∈ before, c.KnownTo r) (halternative : Selectable scope r alternative)
    (hrest : ∀ a ∈ alternatives, Selectable scope r a) (hle : r.extend (.bool x) ≤ r')
    (h : Encodes scope (r.extend (.bool x)) r' cs (Chosen (before ++ [.ofVar x]) alternatives)
      (Chosen (before ++ [.ofVar x]) alternatives)) :
    Encodes scope r r' (alternative.map (.implication (.ofVar x)) ++ cs)
      (Chosen before (alternative :: alternatives))
      (Chosen before (alternative :: alternatives)) := by
  have hextend := r.le_extend (.bool x)
  have hknows : (Constraint.ofVar x).KnownTo (r.extend (.bool x)) :=
    knownTo_ofVar (Registry.knows_extend hid)
  have himplied : ∀ c ∈ alternative.map (Constraint.implication (.ofVar x)),
      c.KnownTo (r.extend (.bool x)) ∧ c.Plain scope := by
    rw [List.forall_mem_map]
    intro c hc
    exact ⟨knownTo_implication_iff.mpr ⟨hknows, (halternative c hc).2.1.mono hextend⟩, trivial,
      (halternative c hc).2.2⟩
  have hall := h.prepend hle (fun c hc => (himplied c hc).1) fun c hc => (himplied c hc).2
  refine Encodes.create (x := .bool x) hid (hall.weaken ?_ fun τ _ h => h) ?_
  · -- a true selector makes its alternative true
    rintro τ hτ ⟨himp, ⟨c, hc, htrue⟩ | hchosen⟩
    · rcases List.mem_append.mp hc with hc | hc
      · exact .inl ⟨c, hc, htrue⟩
      · obtain rfl := List.mem_singleton.mp hc
        refine .inr ⟨alternative, List.mem_cons_self, fun c hc => ?_⟩
        obtain ⟨b, hb⟩ := Constraint.exists_evaluate (halternative c hc).1
          (hτ.mono (Registry.le_trans hextend hle)) (halternative c hc).2.1
        cases b with
        | true => exact hb
        | false =>
            refine absurd ?_ (himp _ (List.mem_map_of_mem hc))
            exact evaluate_implication_iff.mpr (.inl ⟨htrue, hb⟩)
    · obtain ⟨a, ha, htrue⟩ := hchosen
      exact .inr ⟨a, List.mem_cons_of_mem _ ha, htrue⟩
  · -- the selector says whether its alternative is true
    classical
    intro _ τ hτ hchosen
    by_cases htrue : ∀ c ∈ alternative, c.evaluate (total τ) = .ok true
    · refine ⟨1, rfl, fun τ' hagree hone => ⟨List.forall_mem_map.mpr fun c hc => ?_,
        .inl ⟨.ofVar x, by simp, ?_⟩⟩⟩
      · apply realised_implication_ofVar
        · exact fun _ => (halternative c hc).2.1.evaluate hagree (htrue c hc)
        · simp [Constraint.reified_eq_nil (halternative c hc).1]
      · rw [evaluate_ofVar, show τ' x.id = 1 from hone]
        rfl
    · refine ⟨0, rfl, fun τ' hagree hzero => ⟨List.forall_mem_map.mpr fun c hc => ?_, ?_⟩⟩
      · apply realised_implication_ofVar
        · exact fun hx => absurd hzero hx
        · simp [Constraint.reified_eq_nil (halternative c hc).1]
      · rcases hchosen with ⟨c, hc, hb⟩ | ⟨a, ha, hb⟩
        · exact .inl ⟨c, List.mem_append_left _ hc, (hbefore c hc).evaluate hagree hb⟩
        · rcases List.mem_cons.mp ha with rfl | ha
          · exact absurd hb htrue
          · exact .inr ⟨a, ha, fun c hc => (hrest a ha c hc).2.1.evaluate hagree (hb c hc)⟩

/-- The atoms given before and a new selector are atoms. -/
theorem forall_mem_append_ofVar {x : BoolVar} (hid : x.id = r.next)
    (hbefore : ∀ c ∈ before, c.isAtom = true ∧ c.KnownTo r) :
    ∀ c ∈ before ++ [.ofVar x], c.isAtom = true ∧ c.KnownTo (r.extend (.bool x)) :=
  List.forall_mem_append.mpr ⟨fun c hc => ⟨(hbefore c hc).1, (hbefore c hc).2.mono (r.le_extend _)⟩,
    List.forall_mem_singleton.mpr ⟨rfl, knownTo_ofVar (Registry.knows_extend hid)⟩⟩

/-- Some selector is true, or one of the constraints given before. -/
theorem makes_select (before : List Constraint) (hbefore : ∀ c ∈ before, c.isAtom = true ∧ c.KnownTo r)
    (hreifiable : ∀ alternative ∈ alternatives, Selectable scope r alternative) :
    Makes r (select alternatives) fun p r' => Encodes scope r r'
      (p.1 ++ [.or (before ++ p.2)]) (Chosen before alternatives) (Chosen before alternatives) := by
  induction alternatives generalizing r before with
  | nil =>
      apply Makes.pure
      rw [List.append_nil, List.nil_append]
      exact encodes_disjunction hbefore
  | cons alternative rest ih =>
      obtain ⟨halternative, hrest⟩ := List.forall_mem_cons.mp hreifiable
      refine makes_boolVar.bind fun x r₁ _ hx => ?_
      obtain ⟨hid, rfl⟩ := hx
      have hle := r.le_extend (.bool x)
      refine (ih _ (forall_mem_append_ofVar hid hbefore)
        fun a ha => (hrest a ha).mono hle).bind fun p r₂ hle₂ hp => ?_
      have hselector := encodes_selector hid (fun c hc => (hbefore c hc).2) halternative hrest hle₂ hp
      refine Makes.pure (hselector.congr fun c => ?_)
      simp only [List.append_assoc, List.cons_append, List.nil_append]

end Select

/-! ## Elements -/

section Element

variable {array : List Expr} {index result : Expr}

theorem plain_constant {v : Int} (h : scope.Admits v) : (Expr.constant v).Plain scope :=
  ⟨h, by simp [Expr.constant, Expr.parts]⟩

theorem admits_natCast {n : Nat} (h : n < 2 ^ 63) : scope.Admits n := by
  simp only [Scope.Admits, Word.Fits, word64]
  omega

theorem knownTo_constant (v : Int) : (Expr.constant v).KnownTo r := fun x hx => by cases hx

/-- An alternative can be chosen if the item at the index is the result. -/
theorem chosen_items_iff {items : List Expr} :
    Chosen [] (itemAlternatives index result 0 items) τ ↔
      (eq (.element items index) result).evaluate (total τ) = .ok true := by
  have hempty : Chosen [] (itemAlternatives index result 0 items) τ ↔ ∃ alternative ∈
      itemAlternatives index result 0 items, ∀ c ∈ alternative, c.evaluate (total τ) = .ok true := by
    simp [Chosen]
  rw [hempty]
  constructor
  · rintro ⟨alternative, hmem, htrue⟩
    obtain ⟨i, item, hitem, rfl⟩ := mem_itemAlternatives.mp hmem
    rw [List.forall_mem_cons, List.forall_mem_singleton] at htrue
    obtain ⟨k, k', hk, hk', hposition⟩ := evaluate_eq_iff.mp htrue.1
    obtain ⟨v, w, hv, hw, heq⟩ := evaluate_eq_iff.mp htrue.2
    obtain rfl : k = i := by
      rw [of_decide_eq_true hposition, ← Except.ok.inj hk', Nat.zero_add]
    exact evaluate_eq_iff.mpr
      ⟨v, w, Expr.evaluate_element_iff.mpr ⟨i, item, hk, hitem, hv⟩, hw, heq⟩
  · intro h
    obtain ⟨v, w, hv, hw, heq⟩ := evaluate_eq_iff.mp h
    obtain ⟨i, item, hi, hitem, hv⟩ := Expr.evaluate_element_iff.mp hv
    refine ⟨_, mem_itemAlternatives.mpr ⟨i, item, hitem, rfl⟩, ?_⟩
    rw [List.forall_mem_cons, List.forall_mem_singleton]
    constructor
    · exact evaluate_eq_iff.mpr ⟨i, (0 + i : Nat), hi, rfl, by simp⟩
    · exact evaluate_eq_iff.mpr ⟨v, w, hv, hw, heq⟩

/-- The constraints of an item compare atoms, as far as positions fit into 64 bits. -/
theorem reifiable_items {items : List Expr} (hlength : items.length ≤ 2 ^ 63)
    (hindex : index.isAtom = true ∧ index.KnownTo r ∧ index.Plain scope.bare)
    (hitems : ∀ item ∈ items, item.isAtom = true ∧ item.KnownTo r ∧ item.Plain scope.bare)
    (hresult : result.isAtom = true ∧ result.KnownTo r ∧ result.Plain scope.bare) :
    ∀ alternative ∈ itemAlternatives index result 0 items, Selectable scope r alternative := by
  have hboth : ∀ {a b : Expr}, (a.isAtom = true ∧ a.KnownTo r ∧ a.Plain scope.bare) →
      (b.isAtom = true ∧ b.KnownTo r ∧ b.Plain scope.bare) →
      (eq a b).isReifiable = true ∧ (eq a b).KnownTo r ∧ (eq a b).Plain scope :=
    fun ha hb => ⟨Bool.and_eq_true_iff.mpr ⟨ha.1, hb.1⟩,
      knownTo_comparison_iff.mpr ⟨ha.2.1, hb.2.1⟩,
      Constraint.plain_comparison_atoms ⟨ha.1, ha.2.2⟩ ⟨hb.1, hb.2.2⟩⟩
  intro alternative halternative c hc
  obtain ⟨i, item, hi, rfl⟩ := mem_itemAlternatives.mp halternative
  have hlt : i < 2 ^ 63 := (List.getElem?_eq_some_iff.mp hi).1.trans_le hlength
  rcases List.mem_pair.mp hc with rfl | rfl
  · apply hboth hindex
    exact ⟨rfl, knownTo_constant _, plain_constant (admits_natCast (by omega))⟩
  · exact hboth (hitems item (List.mem_of_getElem? hi)) hresult

theorem inner_of_realised_eq {e : Expr} (he : ¬ e.isAtom) (h : (eq e result).Realised τ) :
    ∀ o ∈ e.inner, o.Representable τ := by
  intro o ho
  apply h.2 o
  rw [eq, Constraint.named, Expr.equated, if_neg he]
  exact List.mem_append_left _ ho

/-- The decomposition of an element that equals an atom. -/
theorem makes_decomposeElement
    (hknown : (Expr.element array index).KnownTo r)
    (hplain : (Expr.element array index).Plain scope)
    (hresult : result.isAtom = true ∧ result.KnownTo r ∧ result.Plain scope) :
    Makes r (decomposeElement array index result) fun pieces r' => Encodes scope r r' pieces
      (fun τ => ¬ (eq (.element array index) result).Fails τ)
      fun τ => (eq (.element array index) result).Realised τ := by
  have he : ¬ (Expr.element array index).isAtom := by simp [Expr.isAtom, Expr.asAtom?]
  obtain ⟨hknownA, hknownI⟩ := List.forall_mem_append.mp ((Expr.knownTo_iff_operands he).mp hknown)
  obtain ⟨htame, hplains⟩ := Expr.plain_iff_operands.mp hplain
  obtain ⟨hplainA, hplainI⟩ := List.forall_mem_append.mp hplains
  rw [List.forall_mem_singleton] at hknownI hplainI
  rw [decomposeElement]
  split
  · next hempty =>
    obtain rfl := List.isEmpty_iff.mp hempty
    apply Makes.pure
    refine (Encodes.single (Constraint.knownTo_constant false) trivial).weaken
      (fun τ _ h => absurd rfl h) ?_
    rintro τ - ⟨htrue, -⟩
    obtain ⟨x, y, hx, -, -⟩ := evaluate_eq_iff.mp htrue
    obtain ⟨i, item, -, hitem, -⟩ := Expr.evaluate_element_iff.mp hx
    cases hitem
  refine (Expr.makes_atomize hknownI hplainI).bind fun p r₁ hle₁ hp => ?_
  obtain ⟨index', definitionsI⟩ := p
  refine (Expr.makes_atomizeAll (fun e he => (hknownA e he).mono hle₁) hplainA).bind
    fun q r₂ hle₂ hq => ?_
  obtain ⟨items, definitionsA⟩ := q
  have hselect := makes_select [] (by simp) <| reifiable_items
    (hq.length_eq.trans_le (htame.trans scope.limit_le))
    ⟨hp.isAtom, hp.known.mono hle₂, hp.plain.bare⟩
    (fun item hitem => ⟨hq.isAtom item hitem, hq.known item hitem, (hq.plain item hitem).bare⟩)
    ⟨hresult.1, hresult.2.1.mono (Registry.le_trans hle₁ hle₂), hresult.2.2.bare⟩
  rw [← selectItems_eq] at hselect
  refine hselect.bind fun s r₃ hle₃ hs => ?_
  obtain ⟨constraints, selectors⟩ := s
  apply Makes.pure
  -- names for the index and the items, as one operation on atoms
  have hnames := hp.encodes.append hq.encodes hle₁ hle₂
    (S := fun τ => Traces (total τ) (total τ) (.element array index) (.element items index'))
    (C := fun τ => ∀ o ∈ (Expr.element array index).inner, o.Representable τ)
    (fun τ _ hindex hitems => Traces.element hitems hindex)
    (fun τ _ h o ho => h o (Expr.mem_inner_of_operand (by simp [Expr.operands]) ho))
    (fun τ τ' _ h hagree _ _ e he => (hknownA e he).representable hagree fun o ho =>
      h o (Expr.mem_inner_of_operand (by simp [Expr.operands, he]) ho))
  have hle := Registry.le_trans hle₁ hle₂
  refine (hnames.append hs hle hle₃ ?_ ?_ ?_).congr ?_
  · intro τ _ htraces hchosen hfails
    have htrue := chosen_items_iff.mp hchosen
    have hfalse := Constraint.evaluate_comparison_of_traces htraces (fun v hv => hv) hfails
    cases htrue.symm.trans hfalse
  · exact fun τ _ h => inner_of_realised_eq he h
  · intro τ τ' _ h hagree _ htraces
    exact chosen_items_iff.mpr (Constraint.evaluate_comparison_of_traces
      ((hknown.traces hagree).trans htraces) (hresult.2.1.traces hagree) h.1)
  · intro c
    simp only [List.append_assoc, List.nil_append]

end Element

/-! ## Tables -/

section Table

variable {columns : List Expr} {rows : List (List Int)}

theorem mem_rowAlternative {row : List Int} {c : Constraint} :
    c ∈ rowAlternative columns row ↔ ∃ e v, (e, v) ∈ columns.zip row ∧
      c = .eq e (.constant v) := by
  simp only [rowAlternative, List.mem_map, Prod.exists, eq_comm]

/-- A row can be chosen if its values are those of the columns. -/
theorem chosen_rows_iff :
    Chosen [] ((rows.filter (·.length == columns.length)).map (rowAlternative columns)) τ ↔
      (Constraint.global (.table columns rows)).evaluate (total τ) = .ok true := by
  have hrow : ∀ {row : List Int}, row.length = columns.length →
      ((∀ c ∈ rowAlternative columns row, c.evaluate (total τ) = .ok true) ↔
        Values (total τ) columns row) := by
    intro row hlength
    rw [Values, List.forall₂_iff_zip]
    constructor
    · intro h
      refine ⟨hlength.symm, fun {e v} hmem => ?_⟩
      obtain ⟨x, y, hx, hy, heq⟩ :=
        evaluate_eq_iff.mp (h _ (mem_rowAlternative.mpr ⟨e, v, hmem, rfl⟩))
      rw [hx, of_decide_eq_true heq, ← Except.ok.inj hy]
    · rintro ⟨-, h⟩ c hc
      obtain ⟨e, v, hmem, rfl⟩ := mem_rowAlternative.mp hc
      exact evaluate_eq_iff.mpr ⟨v, v, h hmem, rfl, decide_eq_true rfl⟩
  simp only [Chosen, List.not_mem_nil, false_and, exists_false, false_or,
    Constraint.evaluate_global_iff, Global.args, Global.apply, List.any_eq_true]
  constructor
  · rintro ⟨alternative, hmem, htrue⟩
    obtain ⟨row, hrows, rfl⟩ := List.mem_map.mp hmem
    obtain ⟨hrows, hlength⟩ := List.mem_filter.mp hrows
    exact ⟨row, (hrow (by simpa using hlength)).mp htrue, row, hrows, by simp⟩
  · rintro ⟨vs, hvs, row, hmem, heq⟩
    obtain rfl := eq_of_beq heq
    have hlength := (List.Forall₂.length_eq hvs).symm
    exact ⟨_, List.mem_map_of_mem (List.mem_filter.mpr ⟨hmem, by simpa using hlength⟩),
      (hrow hlength).mpr hvs⟩

/-- Without selectors there is no choice. -/
theorem Encodes.choice {cs selectors : List Constraint} {S C : (VarId → Int) → Prop}
    (h : Encodes scope r r' (cs ++ [.or selectors]) S C) :
    Encodes scope r r' (cs ++ [if selectors.isEmpty then .constant false else .or selectors])
      S C := by
  cases selectors with
  | cons c selectors => exact h
  | nil =>
      obtain ⟨hknown, -⟩ := List.forall_mem_append.mp h.known
      obtain ⟨hplain, -⟩ := List.forall_mem_append.mp h.plain
      refine ⟨List.forall_mem_append.mpr ⟨hknown, ?_⟩, List.forall_mem_append.mpr ⟨hplain, ?_⟩,
        fun τ _ hall => ?_, fun hscope τ hτ hC => ?_⟩
      · exact List.forall_mem_singleton.mpr (Constraint.knownTo_constant false)
      · exact List.forall_mem_singleton.mpr trivial
      · exact absurd rfl (hall (.constant false) (List.mem_append_right _ List.mem_cons_self))
      · obtain ⟨τ', -, -, hall⟩ := h.complete hscope τ hτ hC
        cases (hall (.or []) (List.mem_append_right _ List.mem_cons_self)).1

/-- The decomposition of a table. -/
theorem makes_decomposeTable (hknown : ∀ e ∈ columns, e.KnownTo r)
    (hplain : ∀ e ∈ columns, e.Plain scope)
    (hrows : ∀ row ∈ rows, ∀ v ∈ row, scope.bare.Admits v) :
    Makes r (decomposeTable columns rows) fun pieces r' => Encodes scope r r' pieces
      (fun τ => ¬ (Constraint.global (.table columns rows)).Fails τ)
      fun τ => (Constraint.global (.table columns rows)).Realised τ := by
  refine (Expr.makes_atomizeAll hknown hplain).bind fun p r₁ hle₁ hp => ?_
  obtain ⟨atoms, definitions⟩ := p
  have hreifiable : ∀ alternative ∈
      (rows.filter (·.length == atoms.length)).map (rowAlternative atoms),
      ∀ c ∈ alternative, c.isReifiable = true ∧ c.KnownTo r₁ ∧ c.Plain scope := by
    intro alternative halternative c hc
    obtain ⟨row, hrow, rfl⟩ := List.mem_map.mp halternative
    obtain ⟨e, v, hmem, rfl⟩ := mem_rowAlternative.mp hc
    obtain ⟨he, hv⟩ := List.of_mem_zip hmem
    exact ⟨Bool.and_eq_true_iff.mpr ⟨hp.isAtom e he, rfl⟩,
      knownTo_comparison_iff.mpr ⟨hp.known e he, knownTo_constant v⟩,
      Constraint.plain_comparison_atoms ⟨hp.isAtom e he, (hp.plain e he).bare⟩
        ⟨rfl, plain_constant (hrows row (List.mem_of_mem_filter hrow) v hv)⟩⟩
  have hselect := makes_select [] (by simp) hreifiable
  rw [← selectRows_eq] at hselect
  refine hselect.bind fun s r₂ hle₂ hs => ?_
  obtain ⟨constraints, selectors⟩ := s
  apply Makes.pure
  have htakes : ∀ {τ b}, List.Forall₂ (Traces (total τ) (total τ)) columns atoms →
      (Constraint.global (.table columns rows)).evaluate (total τ) = .ok b →
      (Constraint.global (.table atoms rows)).evaluate (total τ) = .ok b :=
    fun htraces => Constraint.evaluate_global_of_traces rfl htraces
  refine (hp.encodes.append (Encodes.choice hs) hle₁ hle₂ ?_ ?_ ?_).congr ?_
  · intro τ _ htraces hchosen hfails
    cases (chosen_rows_iff.mp hchosen).symm.trans (htakes htraces hfails)
  · exact fun τ _ h e he o ho => h.2 o (List.mem_flatMap.mpr ⟨e, he, ho⟩)
  · intro τ τ' _ h hagree _ htraces
    have hknown' : (Constraint.global (.table columns rows)).KnownTo r :=
      Constraint.knownTo_global_iff.mpr hknown
    exact chosen_rows_iff.mpr (htakes htraces (hknown'.evaluate hagree h.1))
  · intro c
    simp only [List.append_assoc, List.nil_append]

end Table

end FiniteDomain
