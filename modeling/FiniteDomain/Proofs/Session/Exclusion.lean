import FiniteDomain.Proofs.Constraint.Selection
import FiniteDomain.Session.Enumeration

/-!
# Excluding a solution

The constraints that exclude the kept values say that some variable has another value: a Boolean
the opposite literal, an integer a selector for the inequality. Other values can always be
extended to the selectors.
-/

namespace FiniteDomain.Iteration

open Constraint (evaluate_comparison_iff knownTo_comparison_iff evaluate_literal_iff)

variable {σ : Type} {s : Session σ} {scope : Scope} {r r' : Registry} {τ : VarId → Int}
  {xs : List Variable} {before : List Constraint}

/-- Some variable has another value than the one kept. -/
def Differs (s : Session σ) (xs : List Variable) (τ : VarId → Int) : Prop :=
  ∃ x ∈ xs, ∃ v, s.value x.id = some v ∧ τ x.id ≠ v

/-- The kept values belong to the domains of the variables. -/
def Keeping (r : Registry) (s : Session σ) (xs : List Variable) : Prop :=
  ∀ x ∈ xs, r.Knows x ∧ ∀ v, s.value x.id = some v → x.domain.contains v = true

theorem Keeping.mono (h : Keeping r s xs) (hle : r ≤ r') : Keeping r' s xs :=
  fun x hx => ⟨(h x hx).1.mono hle, (h x hx).2⟩

/-- The literal which says that a Boolean has another value. -/
def opposite? (s : Session σ) : Variable → Option Constraint
  | .bool b => (s.value b.id).map fun v => .literal ⟨b, v != 0⟩
  | .int _ => none

/-- The inequality which says that an integer has another value. -/
def inequality? (s : Session σ) : Variable → Option (List Constraint)
  | .bool _ => none
  | .int i => (s.value i.id).map fun v => [.comparison .notEqual (.ofInt i) (.constant v)]

/-- What a constraint that excludes values looks like: a selector implies an inequality, or some
literal is true. Only certain variables occur. -/
inductive IsExclusion (met : VarId → Prop) : Constraint → Prop
  | selector (d : BoolVar) (i : IntVar) (v : Int) (hd : met d.id) (hi : met i.id) :
      IsExclusion met (.implication (.ofVar d) (.comparison .notEqual (.ofInt i) (.constant v)))
  | literals (ls : List Literal) (hls : ∀ l ∈ ls, met l.var.id) :
      IsExclusion met (.or (ls.map .literal))

theorem IsExclusion.mono {met met' : VarId → Prop} {c : Constraint} (h : IsExclusion met c)
    (hmet : ∀ id, met id → met' id) : IsExclusion met' c := by
  cases h with
  | selector d i v hd hi => exact .selector d i v (hmet _ hd) (hmet _ hi)
  | literals ls hls => exact .literals ls fun l hl => hmet _ (hls l hl)

/-- The variable is a new selector, or its value is kept. -/
def Involved (n : VarId) (s : Session σ) (id : VarId) : Prop :=
  n ≤ id ∨ (s.value id).isSome = true

theorem Involved.mono {n m id : VarId} (h : Involved m s id) (hnm : n ≤ m) : Involved n s id :=
  h.imp_left hnm.trans

/-- The opposite literal of a Boolean says that its value differs. -/
theorem evaluate_opposite {b : BoolVar} {v : Int} (hτ : r.Respects τ) (hb : r.Knows (.bool b))
    (hv : Domain.boolean.contains v = true) :
    (Constraint.literal ⟨b, v != 0⟩).evaluate (total τ) = .ok true ↔ τ b.id ≠ v := by
  have hvalue := Atom.evaluate_total (a := .literal ⟨b, v != 0⟩) hτ (by simpa [Atom.vars] using hb)
  have hbit := Domain.contains_boolean.mp (hτ.contains hb)
  have hv := Domain.contains_boolean.mp hv
  simp only [Variable.id] at hbit
  have hliteral : Literal.evaluate (total τ) ⟨b, v != 0⟩ =
    .ok ((Atom.literal ⟨b, v != 0⟩).value τ) := hvalue
  rw [evaluate_literal_iff]
  simp only [hliteral, Except.ok.injEq, exists_eq_left', Atom.value]
  rcases hv with rfl | rfl <;> rcases hbit with h | h <;> simp [h]

/-- The inequality of an integer says that its value differs. -/
theorem evaluate_inequality {i : IntVar} {v : Int} :
    (Constraint.comparison .notEqual (.ofInt i) (.constant v)).evaluate (total τ) = .ok true ↔
      τ i.id ≠ v := by
  rw [evaluate_comparison_iff]
  constructor
  · rintro ⟨x, y, hx, hy, hcompare⟩
    obtain rfl := Except.ok.inj hx
    obtain rfl := Except.ok.inj hy
    simpa [Comparator.compare] using hcompare
  · exact fun hne => ⟨_, _, rfl, rfl, by simpa [Comparator.compare] using hne⟩

theorem chosen_iff (hτ : r.Respects τ) (hxs : Keeping r s xs) :
    Chosen (xs.filterMap (opposite? s)) (xs.filterMap (inequality? s)) τ ↔ Differs s xs τ := by
  constructor
  · rintro (⟨c, hc, htrue⟩ | ⟨alternative, ha, htrue⟩)
    · obtain ⟨x, hx, hmap⟩ := List.mem_filterMap.mp hc
      cases x with
      | int i => cases hmap
      | bool b =>
          obtain ⟨hknows, hdomain⟩ := hxs _ hx
          obtain ⟨v, hv, rfl⟩ := Option.map_eq_some_iff.mp hmap
          exact ⟨_, hx, v, hv, (evaluate_opposite hτ hknows (hdomain v hv)).mp htrue⟩
    · obtain ⟨x, hx, hmap⟩ := List.mem_filterMap.mp ha
      cases x with
      | bool b => cases hmap
      | int i =>
          obtain ⟨v, hv, rfl⟩ := Option.map_eq_some_iff.mp hmap
          exact ⟨_, hx, v, hv, evaluate_inequality.mp (htrue _ (List.mem_singleton_self _))⟩
  · rintro ⟨x, hx, v, hv, hne⟩
    obtain ⟨hknows, hdomain⟩ := hxs x hx
    cases x with
    | bool b =>
        refine .inl ⟨.literal ⟨b, v != 0⟩, List.mem_filterMap.mpr ⟨_, hx, ?_⟩, ?_⟩
        · exact Option.map_eq_some_iff.mpr ⟨v, hv, rfl⟩
        · exact (evaluate_opposite hτ hknows (hdomain v hv)).mpr hne
    | int i =>
        refine .inr ⟨[.comparison .notEqual (.ofInt i) (.constant v)],
          List.mem_filterMap.mpr ⟨_, hx, ?_⟩, ?_⟩
        · exact Option.map_eq_some_iff.mpr ⟨v, hv, rfl⟩
        · exact List.forall_mem_singleton.mpr (evaluate_inequality.mpr hne)

/-- An inequality may stand behind a selector. -/
theorem selectable_inequality {i : IntVar} {v : Int} (hi : r.Knows (.int i))
    (hv : i.domain.contains v = true) :
    Selectable scope r [.comparison .notEqual (.ofInt i) (.constant v)] := by
  have hadmits : scope.bare.Admits v := by
    have := Domain.fits_of_contains hv
    simp only [Scope.Admits, Word.Fits, word32, word64] at this ⊢
    omega
  refine List.forall_mem_singleton.mpr ⟨rfl, ?_, ?_⟩
  · exact knownTo_comparison_iff.mpr ⟨Expr.knownTo_ofInt hi, fun x hx => by cases hx⟩
  · exact Constraint.plain_comparison_atoms ⟨rfl, Expr.plain_ofInt i⟩ ⟨rfl, plain_constant hadmits⟩

theorem selectable_inequalities (hxs : Keeping r s xs) :
    ∀ alternative ∈ xs.filterMap (inequality? s), Selectable scope r alternative := by
  intro alternative ha
  obtain ⟨x, hx, hmap⟩ := List.mem_filterMap.mp ha
  cases x with
  | bool b => cases hmap
  | int i =>
      obtain ⟨hknows, hdomain⟩ := hxs _ hx
      obtain ⟨v, hv, rfl⟩ := Option.map_eq_some_iff.mp hmap
      exact selectable_inequality hknows (hdomain v hv)

theorem knownTo_opposites (hxs : Keeping r s xs) :
    ∀ c ∈ xs.filterMap (opposite? s), c.KnownTo r := by
  intro c hc
  obtain ⟨x, hx, hmap⟩ := List.mem_filterMap.mp hc
  cases x with
  | int i => cases hmap
  | bool b =>
      obtain ⟨v, -, rfl⟩ := Option.map_eq_some_iff.mp hmap
      exact knownTo_ofVar (hxs _ hx).1

theorem chosen_congr {before' : List Constraint} {alternatives : List (List Constraint)}
    (h : ∀ c, c ∈ before ↔ c ∈ before') :
    Chosen before alternatives τ ↔ Chosen before' alternatives τ := by
  simp only [Chosen, h]

/-- What excluding values creates: constraints and literals which together encode that one of the
constraints given before is true, or the value of a variable differs. -/
structure Excludes (scope : Scope) (r r' : Registry) (s : Session σ) (xs : List Variable)
    (before constraints literals : List Constraint) : Prop where
  encodes : Encodes scope r r' (constraints ++ [.or (before ++ literals)])
    (Chosen (before ++ xs.filterMap (opposite? s)) (xs.filterMap (inequality? s)))
    (Chosen (before ++ xs.filterMap (opposite? s)) (xs.filterMap (inequality? s)))
  constraints : ∀ c ∈ constraints, IsExclusion (Involved r.next s) c
  literals : ∃ ls : List Literal, literals = ls.map .literal ∧
    ∀ l ∈ ls, Involved r.next s l.var.id

section ExcludeValues

variable {x : Variable} {b : BoolVar} {i : IntVar} {v : Int}

theorem excludeValues_of_none (h : s.value x.id = none) :
    excludeValues s (x :: xs) = excludeValues s xs := by
  simp only [excludeValues, h]

theorem excludeValues_of_bool (h : s.value b.id = some v) :
    excludeValues s (.bool b :: xs) = (do
      let p ← excludeValues s xs
      return (p.1, .literal ⟨b, v != 0⟩ :: p.2)) := by
  simp only [excludeValues, Variable.id, h]

theorem excludeValues_of_int (h : s.value i.id = some v) :
    excludeValues s (.int i :: xs) = (do
      let differs ← BoolVar.create
      let p ← excludeValues s xs
      return (.implication (.ofVar differs) (.comparison .notEqual (.ofInt i) (.constant v)) :: p.1,
        .ofVar differs :: p.2)) := by
  simp only [excludeValues, Variable.id, h]

variable {cs ls : List Constraint}

/-- A variable without a kept value is left out. -/
theorem Excludes.skip (h : Excludes scope r r' s xs before cs ls) (hvalue : s.value x.id = none) :
    Excludes scope r r' s (x :: xs) before cs ls := by
  have hopposite : opposite? s x = none := by
    cases x with
    | bool b => exact Option.map_eq_none_iff.mpr hvalue
    | int i => rfl
  have hinequality : inequality? s x = none := by
    cases x with
    | bool b => rfl
    | int i => exact Option.map_eq_none_iff.mpr hvalue
  refine ⟨?_, h.constraints, h.literals⟩
  rw [List.filterMap_cons_none hopposite, List.filterMap_cons_none hinequality]
  exact h.encodes

/-- The opposite of a Boolean is one of the literals. -/
theorem Excludes.bool
    (h : Excludes scope r r' s xs (before ++ [.literal ⟨b, v != 0⟩]) cs ls)
    (hvalue : s.value b.id = some v) :
    Excludes scope r r' s (.bool b :: xs) before cs (.literal ⟨b, v != 0⟩ :: ls) := by
  have hopposite : opposite? s (.bool b) = some (.literal ⟨b, v != 0⟩) :=
    Option.map_eq_some_iff.mpr ⟨v, hvalue, rfl⟩
  have hinequality : inequality? s (.bool b) = none := rfl
  refine ⟨?_, h.constraints, ?_⟩
  · rw [List.filterMap_cons_some hopposite, List.filterMap_cons_none hinequality]
    simpa using h.encodes
  · obtain ⟨literals, rfl, hvars⟩ := h.literals
    exact ⟨⟨b, v != 0⟩ :: literals, rfl,
      List.forall_mem_cons.mpr ⟨.inr (Option.isSome_iff_exists.mpr ⟨v, hvalue⟩), hvars⟩⟩

/-- A selector implies that an integer differs. -/
theorem Excludes.int {d : BoolVar} (hd : d.id = r.next)
    (hbefore : ∀ c ∈ before, c.KnownTo r) (hi : r.Knows (.int i)) (hxs : Keeping r s xs)
    (hdomain : i.domain.contains v = true) (hle : r.extend (.bool d) ≤ r')
    (h : Excludes scope (r.extend (.bool d)) r' s xs (before ++ [.ofVar d]) cs ls)
    (hvalue : s.value i.id = some v) :
    Excludes scope r r' s (.int i :: xs) before
      (.implication (.ofVar d) (.comparison .notEqual (.ofInt i) (.constant v)) :: cs)
      (.ofVar d :: ls) := by
  have hopposite : opposite? s (.int i) = none := rfl
  have hinequality : inequality? s (.int i) =
      some [.comparison .notEqual (.ofInt i) (.constant v)] :=
    Option.map_eq_some_iff.mpr ⟨v, hvalue, rfl⟩
  have hmetI : Involved r.next s i.id := .inr (Option.isSome_iff_exists.mpr ⟨v, hvalue⟩)
  refine ⟨?_, List.forall_mem_cons.mpr ⟨.selector d i v (.inl hd.ge) hmetI, fun c hc => ?_⟩, ?_⟩
  · have hswap : ∀ c, c ∈ before ++ xs.filterMap (opposite? s) ++ [.ofVar d] ↔
        c ∈ before ++ [.ofVar d] ++ xs.filterMap (opposite? s) := by simp [or_comm]
    have hencodes := h.encodes.weaken (fun τ _ => (chosen_congr hswap).mpr)
      fun τ _ => (chosen_congr hswap).mp
    have hknown : ∀ c ∈ before ++ xs.filterMap (opposite? s), c.KnownTo r :=
      List.forall_mem_append.mpr ⟨hbefore, knownTo_opposites hxs⟩
    have hselector := encodes_selector hd hknown (selectable_inequality hi hdomain)
      (selectable_inequalities hxs) hle hencodes
    rw [List.filterMap_cons_none hopposite, List.filterMap_cons_some hinequality]
    exact hselector.congr fun c => by simp
  · exact (h.constraints c hc).mono fun id hid => hid.mono (Nat.le_succ _)
  · obtain ⟨literals, rfl, hvars⟩ := h.literals
    exact ⟨.ofVar d :: literals, rfl, List.forall_mem_cons.mpr
      ⟨.inl hd.ge, fun l hl => (hvars l hl).mono (Nat.le_succ _)⟩⟩

end ExcludeValues

theorem makes_excludeValues (hxs : Keeping r s xs)
    (hbefore : ∀ c ∈ before, c.isAtom = true ∧ c.KnownTo r) :
    Makes r (excludeValues s xs) fun p r' => Excludes scope r r' s xs before p.1 p.2 := by
  induction xs generalizing r before with
  | nil =>
      refine Makes.pure ⟨?_, by simp, [], rfl, by simp⟩
      simpa using encodes_disjunction hbefore
  | cons x xs ih =>
      obtain ⟨⟨hknows, hdomain⟩, hrest⟩ := List.forall_mem_cons.mp hxs
      cases hvalue : s.value x.id with
      | none =>
          rw [excludeValues_of_none hvalue]
          exact (ih hrest hbefore).weaken fun p r' _ h => h.skip hvalue
      | some v =>
          cases x with
          | bool b =>
              have hliteral : (Constraint.literal ⟨b, v != 0⟩).KnownTo r := knownTo_ofVar hknows
              rw [excludeValues_of_bool hvalue]
              refine (ih hrest (List.forall_mem_append.mpr
                ⟨hbefore, List.forall_mem_singleton.mpr ⟨rfl, hliteral⟩⟩)).bind fun p r' _ h => ?_
              exact Makes.pure (h.bool hvalue)
          | int i =>
              rw [excludeValues_of_int hvalue]
              refine makes_boolVar.bind fun d r₁ hle hd => ?_
              obtain ⟨hd, rfl⟩ := hd
              refine (ih (Keeping.mono hrest hle) (forall_mem_append_ofVar hd hbefore)).bind
                fun p r' hle' h => ?_
              exact Makes.pure (h.int hd (fun c hc => (hbefore c hc).2) hknows hrest
                (hdomain v hvalue) hle' hvalue)

/-- The constraints that exclude the kept values encode that some value differs. -/
theorem makes_exclusionOf (hxs : Keeping r s s.tracked) :
    Makes r (exclusionOf s) fun cs r' =>
      Encodes scope r r' cs (Differs s s.tracked) (Differs s s.tracked) ∧
        ∀ c ∈ cs, IsExclusion (Involved r.next s) c := by
  have hmakes : Makes r (excludeValues s s.tracked) fun p r' =>
      Excludes scope r r' s s.tracked [] p.1 p.2 := makes_excludeValues hxs (by simp)
  refine hmakes.bind fun p r' hle h => Makes.pure ⟨?_, ?_⟩
  · exact h.encodes.weaken (fun τ hτ => (chosen_iff hτ (hxs.mono hle)).mp)
      fun τ hτ => (chosen_iff hτ hxs).mpr
  · obtain ⟨ls, hls, hvars⟩ := h.literals
    refine List.forall_mem_append.mpr ⟨h.constraints, List.forall_mem_singleton.mpr ?_⟩
    rw [hls]
    exact .literals ls hvars

end FiniteDomain.Iteration
