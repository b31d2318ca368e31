import FiniteDomain.Proofs.Constraint.Pieces

/-!
# Decompositions descend

Every decomposition of a composite constraint is gone through: of elements and tables, which
choose among alternatives, of comparisons, of constraints over many expressions, and of
disjunctions, whose arguments are put behind selectors.
-/

namespace FiniteDomain

open FiniteDomain.Expr (ofInt)
open Constraint (eq comparison connective implication)

variable {c d p : Constraint} {cs : List Constraint} {e other lhs rhs index result : Expr}
  {es array columns : List Expr} {x : Variable} {xs ys : List Variable} {ps qs : List Constraint}

/-- The constraint yields pieces in which these variables are met. -/
structure Yields (c : Constraint) (xs : List Variable) (ps : List Constraint) : Prop where
  isPiece : ∀ p ∈ ps, IsPiece c p
  covers : ∀ x ∈ xs, Covers ps x

theorem Yields.append (h : Yields c xs ps) (h' : Yields c ys qs) : Yields c (xs ++ ys) (ps ++ qs) where
  isPiece := List.forall_mem_append.mpr ⟨h.isPiece, h'.isPiece⟩
  covers := List.forall_mem_append.mpr
    ⟨fun x hx => (h.covers x hx).mono fun _ => List.mem_append_left _,
      fun x hx => (h'.covers x hx).mono fun _ => List.mem_append_right _⟩

theorem Yields.subset (h : Yields c xs ps) (hle : ys ⊆ xs) : Yields c ys ps :=
  ⟨h.isPiece, fun x hx => h.covers x (hle hx)⟩

/-- A constraint that cannot be satisfied. -/
theorem yields_false (hc : 1 < c.depth) : Yields c xs [.constant false] where
  isPiece := List.forall_mem_singleton.mpr (.ofAtom hc rfl)
  covers := fun _ _ => .inl List.mem_cons_self

/-! ## Alternatives -/

/-- The alternatives behind selectors. -/
structure Selected (alternatives : List (List Constraint)) (constraints selectors : List Constraint) :
    Prop where
  implied : ∀ q ∈ constraints, ∃ alternative ∈ alternatives, ∃ d ∈ alternative, ∃ s,
    q = implication (.ofVar s) d
  kept : ∀ alternative ∈ alternatives, ∀ d ∈ alternative, ∃ s,
    implication (.ofVar s) d ∈ constraints
  isAtom : ∀ s ∈ selectors, s.isAtom = true
  length_eq : selectors.length = alternatives.length

theorem always_select (alternatives : List (List Constraint)) :
    Always (select alternatives) fun p => Selected alternatives p.1 p.2 := by
  induction alternatives with
  | nil => exact Always.pure ⟨by simp, by simp, by simp, rfl⟩
  | cons alternative rest ih =>
      refine Always.bind (Q := fun _ => True) (fun _ => trivial) fun selector _ =>
        ih.bind fun p hp => Always.pure ⟨?_, ?_, ?_, ?_⟩
      · refine List.forall_mem_append.mpr ⟨List.forall_mem_map.mpr fun d hd => ?_, fun q hq => ?_⟩
        · exact ⟨alternative, List.mem_cons_self, d, hd, selector, rfl⟩
        · obtain ⟨a, ha, hq⟩ := hp.implied q hq
          exact ⟨a, List.mem_cons_of_mem _ ha, hq⟩
      · refine List.forall_mem_cons.mpr ⟨fun d hd => ?_, fun a ha d hd => ?_⟩
        · exact ⟨selector, List.mem_append_left _ (List.mem_map_of_mem hd)⟩
        · obtain ⟨s, hs⟩ := hp.kept a ha d hd
          exact ⟨s, List.mem_append_right _ hs⟩
      · exact List.forall_mem_cons.mpr ⟨rfl, hp.isAtom⟩
      · exact congrArg (· + 1) hp.length_eq

namespace Selected

variable {alternatives : List (List Constraint)} {constraints selectors : List Constraint}

/-- Reifiable constraints behind selectors, and that one of the selectors is true. -/
theorem yields (h : Selected alternatives constraints selectors) (hc : 1 < c.depth)
    (hreifiable : ∀ alternative ∈ alternatives, ∀ d ∈ alternative, d.isReifiable = true)
    (heverywhere : ∀ {P Q}, Inherited P Q → c.Everywhere P Q → ∀ alternative ∈ alternatives,
      ∀ d ∈ alternative, d.Everywhere P Q)
    (hxs : ∀ x ∈ xs, ∃ alternative ∈ alternatives, ∃ d ∈ alternative, x ∈ d.occurrences) :
    Yields c xs (constraints ++ [.or selectors]) where
  isPiece := by
    refine List.forall_mem_append.mpr ⟨fun q hq => ?_, List.forall_mem_singleton.mpr ?_⟩
    · obtain ⟨alternative, halternative, d, hd, s, rfl⟩ := h.implied q hq
      exact .ofImplication hc rfl (hreifiable alternative halternative d hd)
        fun hinherited hall => heverywhere hinherited hall alternative halternative d hd
    · exact .ofDisjunction hc h.isAtom
  covers := fun x hx => by
    obtain ⟨alternative, halternative, d, hd, hx⟩ := hxs x hx
    obtain ⟨s, hs⟩ := h.kept alternative halternative d hd
    exact .inr ⟨_, List.mem_append_left _ hs, List.mem_append_right _ hx⟩

end Selected

/-- Atoms behind the definitions of the structured ones, and what is built from them. -/
theorem Atomized.yields {as : List Expr} {definitions : List Constraint}
    (h : Atomized es as definitions) (hes : ∀ e ∈ es, IsSource c e)
    (hrest : Yields c (as.flatMap Expr.occurrences ++ xs) ps) :
    Yields c (es.flatMap Expr.occurrences ++ xs) (definitions ++ ps) where
  isPiece := List.forall_mem_append.mpr ⟨h.isPiece hes, hrest.isPiece⟩
  covers := by
    have hright : ∀ {x}, Covers ps x → Covers (definitions ++ ps) x := fun h =>
      h.mono fun _ => List.mem_append_right _
    refine List.forall_mem_append.mpr ⟨fun x hx => ?_, fun x hx => ?_⟩
    · obtain ⟨e, he, hx⟩ := List.mem_flatMap.mp hx
      rcases h.mem_bound he hx with ⟨d, hd, hx⟩ | ⟨a, ha, hx⟩
      · exact .inr ⟨d, List.mem_append_left _ hd, hx⟩
      · exact hright (hrest.covers x
          (List.mem_append_left _ (List.mem_flatMap.mpr ⟨a, ha, hx⟩)))
    · exact hright (hrest.covers x (List.mem_append_right _ hx))

/-! ## Elements -/

/-- An atom that is a source. -/
def IsName (c : Constraint) (e : Expr) : Prop := e.isAtom = true ∧
  ∀ {P Q}, Inherited P Q → c.Everywhere P Q → e.Everywhere P

theorem Atomized.isName {as : List Expr} {definitions : List Constraint}
    (h : Atomized es as definitions) (hc : 1 < c.depth) (hes : ∀ e ∈ es, IsSource c e) :
    ∀ a ∈ as, IsName c a :=
  fun a ha => ⟨h.isAtom a ha, (h.isSource hc hes a ha).everywhere⟩

/-- The choice of an item. -/
theorem yields_items {items : List Expr} {constraints selectors : List Constraint}
    (h : Selected (itemAlternatives index result 0 items) constraints selectors) (hc : 1 < c.depth)
    (hindex : IsName c index) (hitems : ∀ item ∈ items, IsName c item) (hresult : IsName c result)
    (hposition : ∀ {P Q}, Inherited P Q → c.Everywhere P Q → ∀ i < items.length,
      P (.constant i)) (hne : items ≠ []) :
    Yields c (items.flatMap Expr.occurrences ++ (index.occurrences ++ result.occurrences))
      (constraints ++ [.or selectors]) := by
  apply h.yields hc
  · intro alternative halternative d hd
    obtain ⟨i, item, hi, rfl⟩ := mem_itemAlternatives.mp halternative
    rcases List.mem_pair.mp hd with rfl | rfl
    · exact Bool.and_eq_true_iff.mpr ⟨hindex.1, rfl⟩
    · exact Bool.and_eq_true_iff.mpr ⟨(hitems item (List.mem_of_getElem? hi)).1, hresult.1⟩
  · intro P Q hinherited hall alternative halternative d hd
    obtain ⟨i, item, hi, rfl⟩ := mem_itemAlternatives.mp halternative
    rcases List.mem_pair.mp hd with rfl | rfl
    · have hlt : 0 + i < items.length := by
        rw [Nat.zero_add]
        exact (List.getElem?_eq_some_iff.mp hi).1
      exact ⟨hindex.2 hinherited hall,
        Expr.everywhere_of_isAtom rfl (hposition hinherited hall _ hlt)⟩
    · exact ⟨(hitems item (List.mem_of_getElem? hi)).2 hinherited hall, hresult.2 hinherited hall⟩
  · have hitem : ∀ {item}, item ∈ items → ∀ x, (x ∈ index.occurrences ∨ x ∈ item.occurrences ∨
        x ∈ result.occurrences) → ∃ alternative ∈ itemAlternatives index result 0 items,
          ∃ d ∈ alternative, x ∈ d.occurrences := by
      intro item hmem x hx
      obtain ⟨i, hi⟩ := List.mem_iff_getElem?.mp hmem
      refine ⟨_, mem_itemAlternatives.mpr ⟨i, item, hi, rfl⟩, ?_⟩
      rcases hx with hx | hx
      · exact ⟨_, List.mem_cons_self, List.mem_append_left _ hx⟩
      · exact ⟨_, List.mem_cons_of_mem _ List.mem_cons_self, List.mem_append.mpr hx⟩
    obtain ⟨first, hfirst⟩ := List.exists_mem_of_ne_nil items hne
    simp only [List.forall_mem_append]
    refine ⟨fun x hx => ?_, fun x hx => hitem hfirst x (.inl hx),
      fun x hx => hitem hfirst x (.inr (.inr hx))⟩
    obtain ⟨item, hmem, hx⟩ := List.mem_flatMap.mp hx
    exact hitem hmem x (.inr (.inl hx))

theorem always_decomposeElement (hc : 1 < c.depth)
    (hoperands : ∀ o ∈ (Expr.element array index).operands, IsSource c o)
    (hself : ∀ {P Q}, Inherited P Q → c.Everywhere P Q → P (.element array index))
    (hresult : IsName c result) :
    Always (decomposeElement array index result) fun ps =>
      Yields c ((Expr.element array index).operands.flatMap Expr.occurrences ++ result.occurrences)
        ps := by
  obtain ⟨harray, hindex⟩ := List.forall_mem_append.mp hoperands
  rw [decomposeElement]
  split
  · exact Always.pure (yields_false hc)
  next hempty =>
  refine index.always_atomize.bind fun p hp => (Expr.always_atomizeAll array).bind fun q hq => ?_
  obtain ⟨index', definitionsI⟩ := p
  obtain ⟨items, definitionsA⟩ := q
  have hselect := always_select (itemAlternatives index' result 0 items)
  rw [← selectItems_eq] at hselect
  refine hselect.bind fun s hs => Always.pure ?_
  obtain ⟨constraints, selectors⟩ := s
  have hlength : items.length = array.length := hq.length_eq
  have hne : items ≠ [] := by
    rw [← List.length_pos_iff, hlength, List.length_pos_iff]
    simpa using hempty
  have hchoice := yields_items hs hc (hp.isName hc hindex index' List.mem_cons_self)
    (hq.isName hc harray) hresult
    (fun hinherited hall i hi => hinherited.position (hself hinherited hall) (hlength ▸ hi)) hne
  have hrest : Yields c ([index].flatMap Expr.occurrences ++
      (array.flatMap Expr.occurrences ++ result.occurrences)) _ :=
    hp.yields hindex ((hq.yields harray hchoice).subset ?_)
  · simp only [List.append_assoc]
    refine hrest.subset fun x hx => ?_
    simp only [Expr.operands, List.flatMap_append, List.mem_append] at hx ⊢
    tauto
  · intro x hx
    simp only [List.flatMap_singleton, List.mem_append] at hx ⊢
    tauto

/-! ## Constraints over many expressions -/

/-- Every entry of a list is paired with one of a list of the same length. -/
theorem exists_mem_zip {α β : Type} {as : List α} {bs : List β} (hlength : as.length = bs.length)
    {a : α} (ha : a ∈ as) : ∃ b, (a, b) ∈ as.zip bs := by
  have hmem : a ∈ (as.zip bs).map Prod.fst := by rwa [List.map_fst_zip hlength.le]
  obtain ⟨⟨_, b⟩, hab, rfl⟩ := List.mem_map.mp hmem
  exact ⟨b, hab⟩

theorem always_decomposeTable {rows : List (List Int)} (hc : 1 < c.depth)
    (hcolumns : ∀ e ∈ columns, IsSource c e)
    (hentry : ∀ {P Q}, Inherited P Q → c.Everywhere P Q → ∀ row ∈ rows, ∀ v ∈ row,
      P (.constant v)) :
    Always (decomposeTable columns rows) fun ps =>
      Yields c (columns.flatMap Expr.occurrences) ps := by
  refine (Expr.always_atomizeAll columns).bind fun p hp => ?_
  obtain ⟨atoms, definitions⟩ := p
  have hnames : ∀ a ∈ atoms, IsName c a := hp.isName hc hcolumns
  have hselect := always_select ((rows.filter (·.length == atoms.length)).map (rowAlternative atoms))
  rw [← selectRows_eq] at hselect
  refine hselect.bind fun s hs => Always.pure ?_
  obtain ⟨constraints, selectors⟩ := s
  have hchoice : Yields c [] _ := hs.yields hc (fun alternative halternative d hd => ?_)
    (fun hinherited hall alternative halternative d hd => ?_) (by simp)
  · have hrest : Yields c (atoms.flatMap Expr.occurrences ++ [])
        (constraints ++ [if selectors.isEmpty then .constant false else .or selectors]) := by
      cases hempty : selectors.isEmpty with
      | true =>
          obtain ⟨hconstraints, -⟩ := List.forall_mem_append.mp hchoice.isPiece
          refine ⟨List.forall_mem_append.mpr ⟨hconstraints, ?_⟩, fun x _ => .inl (by simp)⟩
          exact List.forall_mem_singleton.mpr (.ofAtom hc rfl)
      | false =>
          refine ⟨hchoice.isPiece, fun x hx => ?_⟩
          -- some row is there to choose, and it has a value for every column
          obtain ⟨alternative, halternative⟩ := List.exists_mem_of_length_pos <| by
            rw [← hs.length_eq, List.length_pos_iff]
            simpa using hempty
          obtain ⟨row, hrow, rfl⟩ := List.mem_map.mp halternative
          have hlength : row.length = atoms.length := by simpa using (List.mem_filter.mp hrow).2
          obtain ⟨a, ha, hx⟩ := List.mem_flatMap.mp (by simpa using hx)
          obtain ⟨v, hv⟩ := exists_mem_zip hlength.symm ha
          obtain ⟨s, hs⟩ := hs.kept _ halternative _ (mem_rowAlternative.mpr ⟨a, v, hv, rfl⟩)
          exact .inr ⟨_, List.mem_append_left _ hs,
            List.mem_append_right _ (List.mem_append_left _ hx)⟩
    simpa using hp.yields hcolumns hrest
  · obtain ⟨row, -, rfl⟩ := List.mem_map.mp halternative
    obtain ⟨a, v, hmem, rfl⟩ := mem_rowAlternative.mp hd
    exact Bool.and_eq_true_iff.mpr ⟨(hnames a (List.of_mem_zip hmem).1).1, rfl⟩
  · obtain ⟨row, hrow, rfl⟩ := List.mem_map.mp halternative
    obtain ⟨a, v, hmem, rfl⟩ := mem_rowAlternative.mp hd
    obtain ⟨ha, hv⟩ := List.of_mem_zip hmem
    exact ⟨(hnames a ha).2 hinherited hall, Expr.everywhere_of_isAtom rfl
      (hentry hinherited hall row (List.mem_of_mem_filter hrow) v hv)⟩

theorem always_nodeVars (n count : Nat) :
    Always (nodeVars n count) fun order => order.length = count := by
  induction count with
  | zero => exact Always.pure rfl
  | succ count ih =>
      refine Always.bind (Q := fun _ => True) (fun _ => trivial) fun x _ =>
        ih.bind fun order horder => Always.pure ?_
      exact congrArg (· + 1) horder

/-- With two expressions at least, every one of them is equal to a neighbour. -/
theorem exists_mem_chainEqual (hes : 1 < es.length) (he : e ∈ es) :
    ∃ a b, eq a b ∈ chainEqual es ∧ (e = a ∨ e = b) := by
  induction es with
  | nil => cases he
  | cons a rest ih =>
      cases rest with
      | nil => simp at hes
      | cons b rest =>
          rcases List.mem_cons.mp he with rfl | he
          · exact ⟨e, b, List.mem_cons_self, .inl rfl⟩
          · cases rest with
            | nil =>
                obtain rfl := List.mem_singleton.mp he
                exact ⟨a, e, List.mem_cons_self, .inr rfl⟩
            | cons c rest =>
                obtain ⟨a', b', hmem, hside⟩ := ih (by simp) he
                exact ⟨a', b', List.mem_cons_of_mem _ hmem, hside⟩

section Global

variable {g : Global}

/-- The arguments of a constraint over many expressions can be named. -/
theorem isSource_arg (hc : (Constraint.global g).isComposite = true) (he : e ∈ g.args) :
    IsSource (.global g) e where
  height_lt := by
    have hle := Expr.height_le_heights he
    cases g with
    | allDifferent args =>
        have hatoms : args.all (·.isAtom) = false := by simpa [Constraint.isComposite] using hc
        rw [Constraint.depth, if_neg (by simp [hatoms])]
        exact Nat.add_lt_add_right (Nat.lt_succ_of_le hle) 1
    | _ =>
        simp only [Constraint.depth]
        omega
  everywhere := fun _ hall => hall.2 e he

theorem height_lt_of_circuit {successors : List Expr} (he : e ∈ successors) :
    e.height + 2 < (Constraint.global (.circuit successors)).depth :=
  Nat.add_lt_add_right (Nat.lt_succ_of_le (Expr.height_le_heights he)) 2

/-- The pieces of a circuit are pieces. -/
theorem isPiece_circuit {successors : List Expr} {first : Expr} {order : List IntVar}
    (hfirst : first ∈ successors) (horder : order.length = successors.length) :
    ∀ p ∈ circuitPieces successors first order, IsPiece (.global (.circuit successors)) p := by
  have hc : 1 < (Constraint.global (.circuit successors)).depth := Constraint.one_lt_depth rfl
  have hvar : ∀ {P Q}, Inherited P Q → ∀ x, (ofInt x).Everywhere P := fun h x =>
    Expr.everywhere_of_isAtom rfl (h.ofInt x)
  have hconstant : ∀ {P : Expr → Prop} {v}, P (.constant v) → (Expr.constant v).Everywhere P :=
    Expr.everywhere_of_isAtom rfl
  have hrange : ∀ s ∈ successors, ∀ comparator v,
      (comparison comparator s (.constant v)).depth <
        (Constraint.global (.circuit successors)).depth := fun s hs comparator v =>
    Constraint.depth_comparison_le.trans_lt (by
      rw [Expr.height_of_isAtom (e := .constant v) rfl, Nat.max_zero]
      exact height_lt_of_circuit hs)
  apply forall_circuitPieces
  · refine ⟨?_, .global (by simp), fun h hall => ⟨h.distinct hall.1 rfl, hall.2⟩⟩
    rw [Constraint.allDifferent, Constraint.depth]
    split
    · exact hc
    · exact Nat.lt_succ_self _
  · exact fun s hs => ⟨hrange s hs _ _, .comparison _ _ _, fun h hall =>
      ⟨hall.2 s hs, hconstant h.zero⟩⟩
  · exact fun s hs => ⟨hrange s hs _ _, .comparison _ _ _, fun h hall =>
      ⟨hall.2 s hs, hconstant (h.count hall.1)⟩⟩
  · refine ⟨?_, .global (by simp), fun h hall =>
      ⟨h.distinct hall.1 (by simpa [Global.args] using horder), ?_⟩⟩
    · rw [Constraint.allDifferent, Constraint.depth,
        if_pos (by simp [Expr.isAtom, Expr.asAtom?, ofInt])]
      exact hc
    · exact List.forall_mem_map.mpr fun x _ => hvar h x
  · refine fun x _ => ⟨(Constraint.depth_eq_le (.inl rfl)).trans_lt ?_, .comparison _ _ _,
      fun h hall => ⟨hvar h x, hall.2 first hfirst⟩⟩
    rw [Expr.height_of_isAtom (e := ofInt x) rfl, Nat.zero_max]
    exact (Nat.lt_succ_self _).trans (height_lt_of_circuit hfirst)
  · refine fun x _ y _ => ⟨(Constraint.depth_eq_le (.inl rfl)).trans_lt ?_, .comparison _ _ _,
      fun h hall => ⟨hvar h y, Expr.everywhere_iff.mpr ⟨h.follow hall.1 _, ?_⟩⟩⟩
    · rw [Expr.height_of_isAtom (e := ofInt y) rfl, Nat.zero_max, Expr.height,
        Expr.height_of_isAtom (e := ofInt x) rfl, Nat.max_zero]
      exact Nat.lt_succ_self _
    · exact List.forall_mem_append.mpr ⟨hall.2, List.forall_mem_singleton.mpr (hvar h x)⟩
  · exact fun x _ => .ofAtoms hc _ rfl rfl fun h _ => ⟨hvar h x, hconstant h.zero⟩

theorem yields_chainEqual : Yields (.global (.allEqual es))
    (Constraint.global (.allEqual es)).bound (chainEqual es) where
  isPiece := fun p hp => by
    obtain ⟨a, ha, b, hb, rfl⟩ := mem_chainEqual hp
    refine ⟨Constraint.depth_comparison_le.trans_lt ?_, .comparison _ _ _, fun _ hall =>
      ⟨hall.2 a ha, hall.2 b hb⟩⟩
    have hle := max_le (Expr.height_le_heights ha) (Expr.height_le_heights hb)
    exact Nat.add_lt_add_right (Nat.lt_succ_of_le hle) 2
  covers := fun x hx => by
    rw [Constraint.bound] at hx
    split at hx
    · cases hx
    · next hlength =>
      obtain ⟨e, he, hx⟩ := List.mem_flatMap.mp hx
      obtain ⟨a, b, hmem, hside⟩ := exists_mem_chainEqual (not_le.mp hlength) he
      refine .inr ⟨_, hmem, List.mem_append.mpr ?_⟩
      rcases hside with rfl | rfl
      · exact .inl hx
      · exact .inr hx

theorem always_decomposeParity (literals : List Literal) :
    Always (decomposeParity (literals.map .ofLiteral)) fun ps =>
      Yields (.global (.parity literals)) ((literals.map Expr.ofLiteral).flatMap Expr.occurrences)
        ps := by
  have hc : 1 < (Constraint.global (.parity literals)).depth := Constraint.one_lt_depth rfl
  rw [decomposeParity]
  split
  · exact Always.pure (yields_false hc)
  refine Always.bind (Q := fun _ => True) (fun _ => trivial) fun half _ => Always.pure ⟨?_, ?_⟩
  · refine List.forall_mem_singleton.mpr (.ofEq ⟨?_, fun h hall => ?_⟩ rfl fun h _ =>
      Expr.everywhere_of_isAtom rfl h.one)
    · have hzero : Expr.heights (literals.map .ofLiteral ++ [ofInt half]) ≤ 0 :=
        Expr.heights_le fun e he => by
          rcases List.mem_append.mp he with he | he
          · obtain ⟨l, -, rfl⟩ := List.mem_map.mp he
            exact le_rfl
          · obtain rfl := List.mem_singleton.mp he
            exact le_rfl
      rw [Expr.height]
      simp only [Constraint.depth]
      omega
    · rw [List.length_map]
      refine Expr.everywhere_iff.mpr ⟨h.half hall.1 (by simp), List.forall_mem_append.mpr ⟨hall.2, ?_⟩⟩
      exact List.forall_mem_singleton.mpr (Expr.everywhere_of_isAtom rfl (h.ofInt half))
  · intro x hx
    refine .inr ⟨_, List.mem_cons_self, List.mem_append_left _ ?_⟩
    obtain ⟨e, he, hx⟩ := List.mem_flatMap.mp hx
    exact Expr.mem_occurrencesIn.mpr ⟨e, List.mem_append_left _ he, hx⟩

/-- A composite constraint over many expressions is decomposed unless it is a subcircuit. -/
theorem ends_global (hc : (Constraint.global g).isComposite = true) :
    Ends g.decompose (¬ (Constraint.global g).Accepted) fun ps => (Constraint.global g).Accepted ∧
      Yields (.global g) (Constraint.global g).bound ps := by
  have hdepth := Constraint.one_lt_depth hc
  have hsource : ∀ e ∈ g.args, IsSource (.global g) e := fun e he => isSource_arg hc he
  cases g with
  | allDifferent args =>
      have hatoms : args.all (·.isAtom) = false := by simpa [Constraint.isComposite] using hc
      rw [Global.decompose, if_neg (by simp [hatoms]), Constraint.bound_global (by simp)]
      refine (Ends.lift (Expr.always_atomizeAll args)).bind fun p hp =>
        Ends.pure ⟨.global (by simp), ?_⟩
      obtain ⟨atoms, definitions⟩ := p
      have hpiece : IsPiece (.global (.allDifferent args)) (.allDifferent atoms) := by
        refine ⟨?_, .global (by simp), fun h hall => ⟨h.distinct hall.1 hp.length_eq, fun a ha =>
          (hp.isSource hdepth hsource a ha).everywhere h hall⟩⟩
        rw [Constraint.allDifferent, Constraint.depth, if_pos (List.all_eq_true.mpr hp.isAtom)]
        exact hdepth
      have hrest : Yields (.global (.allDifferent args)) (atoms.flatMap Expr.occurrences ++ [])
          [.allDifferent atoms] := by
        refine ⟨List.forall_mem_singleton.mpr hpiece, fun x hx => .inr ⟨_, List.mem_cons_self, ?_⟩⟩
        rwa [Constraint.allDifferent, Constraint.bound_global (by simp),
          ← List.append_nil (List.flatMap _ _)]
      simpa [Global.args] using hp.yields hsource hrest
  | allEqual args => exact Ends.pure ⟨.global (by simp), yields_chainEqual⟩
  | circuit successors =>
      rw [Constraint.bound_global (by simp)]
      refine Ends.lift (Always.weaken ?_ fun ps h => ⟨.global (by simp), h⟩)
      cases successors with
      | nil => exact Always.pure ⟨by simp, by simp [Global.args]⟩
      | cons first rest =>
          rw [decomposeCircuit_eq]
          refine (always_nodeVars _ _).bind fun order horder => Always.pure
            ⟨isPiece_circuit List.mem_cons_self horder, fun x hx => .inr
              ⟨.allDifferent (first :: rest), List.mem_append_left _ (by simp), ?_⟩⟩
          rwa [Constraint.allDifferent, Constraint.bound_global (by simp)]
  | subcircuit successors => exact Ends.failure (Constraint.not_accepted_subcircuit successors)
  | table columns rows =>
      rw [Constraint.bound_global (by simp)]
      exact Ends.lift ((always_decomposeTable hdepth hsource fun h hall => h.entry hall.1).weaken
        fun ps h => ⟨.global (by simp), h⟩)
  | parity literals =>
      rw [Constraint.bound_global (by simp)]
      exact Ends.lift ((always_decomposeParity literals).weaken fun ps h => ⟨.global (by simp), h⟩)

end Global

/-! ## Comparisons -/

section Pair

variable {a b : Expr} {definitions : List Constraint}

theorem Atomized.isName_pair (h : Atomized [lhs, rhs] [a, b] definitions) (hc : 1 < c.depth)
    (hl : IsSource c lhs) (hr : IsSource c rhs) : IsName c a ∧ IsName c b := by
  have hnames := h.isName hc (by simp [hl, hr])
  exact ⟨hnames a (by simp), hnames b (by simp)⟩

/-- A piece over the names of two expressions, and their definitions. -/
theorem Atomized.yields_pair (h : Atomized [lhs, rhs] [a, b] definitions) (hl : IsSource c lhs)
    (hr : IsSource c rhs) (hp : IsPiece c p)
    (hbound : ∀ x ∈ a.occurrences ++ b.occurrences, x ∈ p.bound) :
    Yields c (lhs.occurrences ++ rhs.occurrences) (definitions ++ [p]) := by
  have hrest : Yields c ([a, b].flatMap Expr.occurrences ++ []) [p] :=
    ⟨List.forall_mem_singleton.mpr hp,
      fun x hx => .inr ⟨p, List.mem_cons_self, hbound x (by simpa using hx)⟩⟩
  simpa using h.yields (by simp [hl, hr]) hrest

end Pair

/-- Two structured sides are both equated with the name of the second one. -/
theorem yields_equations {x : IntVar} (he : IsSource c e) (hother : IsSource c other) :
    Yields c (e.occurrences ++ other.occurrences) [eq other (ofInt x), eq e (ofInt x)] := by
  refine ⟨by simp [IsPiece.ofDefinition he, IsPiece.ofDefinition hother], ?_⟩
  refine List.forall_mem_append.mpr ⟨fun y hy => .inr ⟨eq e (ofInt x), by simp, ?_⟩,
    fun y hy => .inr ⟨eq other (ofInt x), by simp, ?_⟩⟩ <;> exact List.mem_append_left _ hy

/-- The same operation over names of its operands is equated with the second side. -/
theorem Atomized.yields_equation {e' : Expr} {definitions : List Constraint}
    (h : Atomized e.operands e'.operands definitions) (hmirrors : e.Mirrors e')
    (hc : 1 < c.depth) (hheight : e.height + 1 ≤ c.depth)
    (hoperands : ∀ o ∈ e.operands, IsSource c o) (hatoms : e.operands.all (·.isAtom) = false)
    (hsides : ∀ {P Q}, Inherited P Q → c.Everywhere P Q → e.Everywhere P ∧ other.Everywhere P)
    (hother : other.isAtom = true) :
    Yields c (e.operands.flatMap Expr.occurrences ++ other.occurrences)
      (definitions ++ [eq e' other]) := by
  have hhigh : 1 < e.height := by
    obtain ⟨o, ho, hatom⟩ := List.all_eq_false.mp hatoms
    have hpos := Expr.height_pos (by simpa using hatom)
    exact Nat.lt_of_le_of_lt hpos (Expr.height_operand_lt ho)
  have hsource : IsSource c e' := by
    refine ⟨?_, fun h' hall => Expr.everywhere_iff.mpr
      ⟨h'.mirror (hsides h' hall).1.1 hmirrors, fun a ha => ?_⟩⟩
    · have hlow := Expr.height_le_one h.isAtom
      omega
    · exact (h.isSource hc hoperands a ha).everywhere h' hall
  apply h.yields hoperands
  refine ⟨List.forall_mem_singleton.mpr
    (.ofEq hsource hother fun h' hall => (hsides h' hall).2), fun x hx => .inr
    ⟨_, List.mem_cons_self, List.mem_append.mpr ((List.mem_append.mp hx).imp_left fun hx => ?_)⟩⟩
  obtain ⟨a, ha, hx⟩ := List.mem_flatMap.mp hx
  exact (Expr.mem_occurrences_iff_of_operands hmirrors.not_isAtom).mpr ⟨a, ha, hx⟩

/-- Decomposing an equality whose first side is structured. It is not decomposed if a propagator
computes the second side. -/
theorem ends_decomposeEquation (he : e.isAtom = false) (hheight : e.height + 1 ≤ c.depth)
    (hboth : other.isAtom = false → e.height + 1 < c.depth ∧ other.height + 1 < c.depth)
    (hsides : ∀ {P Q}, Inherited P Q → c.Everywhere P Q → e.Everywhere P ∧ other.Everywhere P)
    (hcomputed : e.isComputed other = false) :
    Ends (decomposeEquation e other) False fun ps =>
      Yields c (e.occurrences ++ other.occurrences) ps := by
  have hpos := Expr.height_pos he
  have hc : 1 < c.depth := (Nat.succ_lt_succ hpos).trans_le hheight
  have hoccurrences : e.occurrences ++ other.occurrences ⊆
      e.operands.flatMap Expr.occurrences ++ other.occurrences := fun x hx => by
    refine List.mem_append.mpr ((List.mem_append.mp hx).imp_left fun hx => ?_)
    exact List.mem_flatMap.mpr ((Expr.mem_occurrences_iff_of_operands (by simp [he])).mp hx)
  have hoperands : ∀ o ∈ e.operands, IsSource c o := fun o ho =>
    ⟨(Nat.succ_lt_succ (Expr.height_operand_lt ho)).trans_le hheight,
      fun h hall => (hsides h hall).1.operand ho⟩
  unfold decomposeEquation
  split
  · next hother =>
    have hother : other.isAtom = false := by simpa using hother
    obtain ⟨hlow, hlow'⟩ := hboth hother
    refine (Ends.lift (Q := fun p => ∃ x, p = (x, eq other (ofInt x)))
      (fun n => ⟨other.auxiliaryVar n, rfl⟩)).bind fun p hp => Ends.pure ?_
    obtain ⟨x, rfl⟩ := hp
    exact yields_equations ⟨hlow, fun h hall => (hsides h hall).1⟩
      ⟨hlow', fun h hall => (hsides h hall).2⟩
  · next hother =>
    have hother : other.isAtom = true := by simpa using hother
    have hname : IsName c other := ⟨hother, fun h hall => (hsides h hall).2⟩
    split
    · next array index =>
      exact (Ends.lift (always_decomposeElement hc hoperands
        (fun h hall => (hsides h hall).1.1) hname)).weaken id fun ps h => h.subset hoccurrences
    next hne =>
    split
    · next hatoms =>
      -- a propagator computes all operations on atoms but elements
      have hoperation : e.isOperation = true := by
        cases e with
        | atom a => cases he
        | element array index => exact absurd rfl (hne array index)
        | _ => rfl
      rw [Expr.isComputed, hother, hatoms, hoperation] at hcomputed
      cases hcomputed
    next hatoms =>
    refine (Ends.lift (Expr.always_atomizeOperands he)).bind fun p hp => Ends.pure ?_
    obtain ⟨e', definitions⟩ := p
    obtain ⟨hmirrors, hatomized⟩ := hp
    have hatoms : e.operands.all (·.isAtom) = false := by simpa using hatoms
    exact (hatomized.yields_equation hmirrors hc hheight hoperands hatoms hsides hother).subset
      hoccurrences

/-- A composite comparison is decomposed. -/
theorem ends_decomposeComparison {comparator : Comparator}
    (hc : (comparison comparator lhs rhs).isComposite = true) :
    Ends (decomposeComparison comparator lhs rhs) False fun ps =>
      Yields (comparison comparator lhs rhs) (lhs.occurrences ++ rhs.occurrences) ps := by
  have hone := Constraint.one_lt_depth hc
  obtain ⟨hatoms, hcomputed⟩ := Bool.and_eq_true_iff.mp hc
  have hatoms : (lhs.isAtom && rhs.isAtom) = false := (Bool.not_eq_true' _).mp hatoms
  by_cases hequal : comparator = .equal
  · subst hequal
    have hcomputed : (lhs.isComputed rhs || rhs.isComputed lhs) = false := by simpa using hcomputed
    obtain ⟨hcomputedL, hcomputedR⟩ := Bool.or_eq_false_iff.mp hcomputed
    rw [decomposeComparison_equal, if_neg (by simp [hatoms])]
    split
    · next hl =>
      have hr : rhs.isAtom = false := by simpa [hl] using hatoms
      have hdepth : (comparison .equal lhs rhs).depth = rhs.height + 1 := by
        simp [Constraint.depth, hl, hr, Expr.height_of_isAtom hl]
      refine (ends_decomposeEquation hr hdepth.ge (fun h => ?_) (fun _ hall => ⟨hall.2, hall.1⟩)
        hcomputedR).weaken id fun ps h => h.subset fun x hx => ?_
      · cases h.symm.trans hl
      · exact List.mem_append.mpr (List.mem_append.mp hx).symm
    · next hl =>
      have hl : lhs.isAtom = false := by simpa using hl
      have hdepth : max lhs.height rhs.height + (if rhs.isAtom then 1 else 2) =
          (comparison .equal lhs rhs).depth := by
        cases hr : rhs.isAtom <;> simp [Constraint.depth, hl, hr]
      refine ends_decomposeEquation hl ?_ (fun hr => ?_) (fun _ hall => hall) hcomputedL
      · split at hdepth <;> omega
      · rw [hr] at hdepth
        simp only [Bool.false_eq_true, if_false] at hdepth
        omega
  · have hdepth : (comparison comparator lhs rhs).depth = max lhs.height rhs.height + 2 := by
      rw [Constraint.depth, if_neg (by simp [hatoms]), if_neg (by simp [hequal])]
    have hl : IsSource (comparison comparator lhs rhs) lhs := ⟨by omega, fun _ hall => hall.1⟩
    have hr : IsSource (comparison comparator lhs rhs) rhs := ⟨by omega, fun _ hall => hall.2⟩
    rw [decomposeComparison_of_ne hequal, if_neg (by simp [hatoms])]
    refine (Ends.lift lhs.always_atomize).bind fun p hp => (Ends.lift rhs.always_atomize).bind
      fun q hq => Ends.pure ?_
    have hnames := hp.append hq
    obtain ⟨hname, hname'⟩ := hnames.isName_pair hone hl hr
    exact hnames.yields_pair hl hr (.ofAtoms hone comparator hname.1 hname'.1
      fun h hall => ⟨hname.2 h hall, hname'.2 h hall⟩) fun _ hx => hx

/-! ## Reification -/

section Reification

variable {a : Constraint} {ds : List Constraint}

/-- A constraint below the root of one that is decomposed. -/
structure IsPart (c d : Constraint) : Prop where
  height_lt : d.height + 1 < c.depth
  everywhere : ∀ {P Q}, Inherited P Q → c.Everywhere P Q → d.Everywhere P Q

/-- Whether the constraint can be moved behind an atom is a matter of its syntax. -/
def Moves (c d : Constraint) : Prop :=
  ∀ a : Constraint, a.isAtom = true → d.isReifiable = false →
    Ends (Constraint.decomposeImplication a d) (¬ d.Conditional) fun ps =>
      d.Conditional ∧ Yields c d.occurrences ps

/-- A reifiable consequent stays as it is. -/
theorem ends_reified (h : Moves c d) (hc : 1 < c.depth) (hd : IsPart c d) (ha : a.isAtom = true) :
    Ends (if d.isReifiable then pure [implication a d] else Constraint.decomposeImplication a d)
      (¬ d.Conditional) fun ps => d.Conditional ∧ Yields c d.occurrences ps := by
  split
  · next hreifiable =>
    refine Ends.pure ⟨.reifiable hreifiable, List.forall_mem_singleton.mpr
      (.ofImplication hc ha hreifiable hd.everywhere), fun x hx => .inr ⟨_, List.mem_cons_self, ?_⟩⟩
    exact List.mem_append_right _ hx
  · next hreifiable => exact h a ha (by simpa using hreifiable)

theorem ends_reifyAll (h : ∀ d ∈ ds, Moves c d) (hc : 1 < c.depth) (hds : ∀ d ∈ ds, IsPart c d)
    (ha : a.isAtom = true) :
    Ends (Constraint.reifyAll a ds) (¬ ∀ d ∈ ds, d.Conditional) fun ps =>
      (∀ d ∈ ds, d.Conditional) ∧ Yields c (Constraint.occurrencesIn ds) ps := by
  induction ds with
  | nil =>
      rw [Constraint.reifyAll]
      exact Ends.pure ⟨by simp, by simp, by simp [Constraint.occurrencesIn]⟩
  | cons d ds ih =>
      obtain ⟨hd, h⟩ := List.forall_mem_cons.mp h
      obtain ⟨hpart, hds⟩ := List.forall_mem_cons.mp hds
      simp only [List.forall_mem_cons]
      rw [Constraint.reifyAll]
      refine ((ends_reified hd hc hpart ha).weaken (fun hnot h => hnot h.1) fun _ h => h).bindIte
        fun first hfirst => ?_
      refine ((ih h hds).weaken (fun hnot h => hnot h.2) fun _ h => h).bind fun others hothers =>
        Ends.pure ⟨⟨hfirst.1, hothers.1⟩, ?_⟩
      exact hfirst.2.append hothers.2

/-- Atoms in place of the disjuncts, and what makes the disjuncts true behind these. -/
structure Disjoined (c : Constraint) (ds constraints disjuncts : List Constraint) : Prop where
  isPiece : ∀ p ∈ constraints, IsPiece c p
  isAtom : ∀ d ∈ disjuncts, d.isAtom = true
  covers : ∀ x ∈ Constraint.occurrencesIn ds,
    Covers constraints x ∨ x ∈ Constraint.occurrencesIn disjuncts

/-- A piece over the atoms, after what makes the disjuncts true. -/
theorem Disjoined.yields {constraints disjuncts : List Constraint}
    (h : Disjoined c ds constraints disjuncts) (hp : IsPiece c p)
    (hbound : ∀ x ∈ Constraint.occurrencesIn disjuncts, x ∈ p.bound) :
    Yields c (Constraint.occurrencesIn ds) (constraints ++ [p]) where
  isPiece := List.forall_mem_append.mpr ⟨h.isPiece, List.forall_mem_singleton.mpr hp⟩
  covers := fun x hx => (h.covers x hx).elim (fun h => h.mono fun _ => List.mem_append_left _)
    fun hx => .inr ⟨p, List.mem_append_right _ List.mem_cons_self, hbound x hx⟩

theorem ends_reifyDisjuncts (h : ∀ d ∈ ds, Moves c d) (hc : 1 < c.depth)
    (hds : ∀ d ∈ ds, IsPart c d) :
    Ends (Constraint.reifyDisjuncts ds) (¬ ∀ d ∈ ds, d.Conditional) fun p =>
      (∀ d ∈ ds, d.Conditional) ∧ Disjoined c ds p.1 p.2 := by
  induction ds with
  | nil =>
      rw [Constraint.reifyDisjuncts]
      exact Ends.pure ⟨by simp, by simp, by simp, by simp [Constraint.occurrencesIn]⟩
  | cons d ds ih =>
      obtain ⟨hd, h⟩ := List.forall_mem_cons.mp h
      obtain ⟨hpart, hds⟩ := List.forall_mem_cons.mp hds
      simp only [List.forall_mem_cons]
      rw [Constraint.reifyDisjuncts]
      have hrest : Ends (Constraint.reifyDisjuncts ds)
          (¬ (d.Conditional ∧ ∀ d ∈ ds, d.Conditional)) fun p =>
            (∀ d ∈ ds, d.Conditional) ∧ Disjoined c ds p.1 p.2 :=
        (ih h hds).weaken (fun hnot h => hnot h.2) fun _ h => h
      split
      · next hatom =>
        refine hrest.bind fun p hp => Ends.pure ⟨⟨.of_isAtom hatom, hp.1⟩, hp.2.isPiece,
          List.forall_mem_cons.mpr ⟨hatom, hp.2.isAtom⟩, List.forall_mem_append.mpr ⟨?_, ?_⟩⟩
        · exact fun x hx => .inr (List.mem_append_left _ hx)
        · exact fun x hx => (hp.2.covers x hx).imp_right (List.mem_append_right _)
      · refine Ends.bind (Q := fun _ => True) (Ends.lift fun _ => trivial) fun selector _ => ?_
        refine ((ends_reified hd hc hpart rfl).weaken (fun hnot h => hnot h.1) fun _ h => h).bindIte
          fun implied himplied => hrest.bind fun p hp => Ends.pure ⟨⟨himplied.1, hp.1⟩, ?_, ?_, ?_⟩
        · exact List.forall_mem_append.mpr ⟨himplied.2.isPiece, hp.2.isPiece⟩
        · exact List.forall_mem_cons.mpr ⟨rfl, hp.2.isAtom⟩
        · refine List.forall_mem_append.mpr ⟨fun x hx => .inl ?_, fun x hx => ?_⟩
          · exact (himplied.2.covers x hx).mono fun _ => List.mem_append_left _
          · exact (hp.2.covers x hx).imp (fun h => h.mono fun _ => List.mem_append_right _)
              (List.mem_append_right _)

theorem IsPart.argument {kind : Connective} (h : IsPart c (connective kind ds)) (hd : d ∈ ds) :
    IsPart c d where
  height_lt := (Nat.succ_le_succ (Constraint.height_le_heights hd)).trans_lt h.height_lt
  everywhere := fun hinherited hall =>
    Constraint.everywhereIn_iff.mp (h.everywhere hinherited hall) d hd

theorem IsPart.consequent {b : Constraint} (h : IsPart c (implication b d)) : IsPart c d where
  height_lt := (Nat.succ_le_succ (le_max_right _ _)).trans_lt h.height_lt
  everywhere := fun hinherited hall => (h.everywhere hinherited hall).2

theorem exists_negate (ha : a.isAtom = true) : ∃ b, a.negate? = some b := by
  cases a with
  | literal l => exact ⟨_, rfl⟩
  | constant value => exact ⟨_, rfl⟩
  | _ => cases ha

/-- Only atoms have an opposite, which is an atom with the same variables. -/
theorem isAtom_of_negate {b : Constraint} (h : a.negate? = some b) :
    a.isAtom = true ∧ b.isAtom = true ∧ b.occurrences = a.occurrences := by
  cases a with
  | literal l =>
      obtain rfl := Option.some.inj h
      exact ⟨rfl, rfl, rfl⟩
  | constant value =>
      obtain rfl := Option.some.inj h
      exact ⟨rfl, rfl, rfl⟩
  | _ => cases h

theorem moves_and (h : ∀ d ∈ ds, Moves c d) (hc : 1 < c.depth)
    (hd : IsPart c (connective .and ds)) : Moves c (connective .and ds) := by
  intro a ha hreifiable
  have hatoms : ds.all (·.isAtom) = false := hreifiable
  rw [Constraint.decomposeImplication, if_neg (by simp [ha, hatoms]), Constraint.conditional_and_iff]
  exact ends_reifyAll h hc (fun d hmem => hd.argument hmem) ha

theorem moves_or (h : ∀ d ∈ ds, Moves c d) (hc : 1 < c.depth) (hd : IsPart c (connective .or ds)) :
    Moves c (connective .or ds) := by
  intro a ha hreifiable
  have hatoms : ds.all (·.isAtom) = false := hreifiable
  rw [Constraint.decomposeImplication, if_neg (by simp [ha, hatoms]), Constraint.conditional_or_iff]
  refine (ends_reifyDisjuncts h hc fun d hmem => hd.argument hmem).bind fun p hp =>
    Ends.pure ⟨hp.1, ?_⟩
  refine hp.2.yields (.ofImplication hc ha (List.all_eq_true.mpr hp.2.isAtom) fun _ _ =>
    Constraint.everywhereIn_iff.mpr fun d hd =>
      Constraint.everywhere_of_isAtom (hp.2.isAtom d hd)) fun x hx => ?_
  exact List.mem_append_right _ hx

theorem moves_implication {b : Constraint} (h : Moves c d) (hc : 1 < c.depth)
    (hd : IsPart c (implication b d)) : Moves c (implication b d) := by
  intro a ha hreifiable
  have hatoms : (b.isAtom && d.isAtom) = false := hreifiable
  rw [Constraint.decomposeImplication, if_neg (by simpa [ha] using hatoms),
    Constraint.conditional_implication_iff]
  refine Ends.bind (Q := fun _ => True) (Ends.lift fun _ => trivial) fun both _ => ?_
  refine Ends.bind (Ends.ofOption fun hnone => ?_) fun notOuter hnotOuter => ?_
  · obtain ⟨_, hsome⟩ := exists_negate ha
    cases hnone.symm.trans hsome
  refine Ends.bind (Ends.ofOption fun hnone h => ?_) fun notInner hnotInner => ?_
  · obtain ⟨_, hsome⟩ := exists_negate h.1
    cases hnone.symm.trans hsome
  obtain ⟨-, hatomOuter, -⟩ := isAtom_of_negate hnotOuter
  obtain ⟨hatomB, hatomInner, hinner⟩ := isAtom_of_negate hnotInner
  have hclause : IsPiece c (.or [notOuter, notInner, .ofVar both]) :=
    .ofDisjunction hc (List.forall_mem_cons.mpr
      ⟨hatomOuter, List.forall_mem_cons.mpr ⟨hatomInner, List.forall_mem_singleton.mpr rfl⟩⟩)
  refine ((ends_reified h hc hd.consequent rfl).weaken (fun hnot h => hnot h.2)
    fun _ h => h).bindIte fun pieces hpieces =>
      Ends.pure ⟨⟨hatomB, hpieces.1⟩, List.forall_mem_cons.mpr ⟨hclause, hpieces.2.isPiece⟩,
        List.forall_mem_append.mpr ⟨fun x hx => .inr ⟨_, List.mem_cons_self, ?_⟩, fun x hx => ?_⟩⟩
  · refine Constraint.mem_occurrencesIn.mpr ⟨notInner, by simp, ?_⟩
    rwa [hinner]
  · exact (hpieces.2.covers x hx).mono fun _ => List.mem_cons_of_mem _

theorem moves_comparison {comparator : Comparator} (hc : 1 < c.depth)
    (hd : IsPart c (comparison comparator lhs rhs)) : Moves c (comparison comparator lhs rhs) := by
  intro a ha hreifiable
  have hatoms : (lhs.isAtom && rhs.isAtom) = false := hreifiable
  rw [Constraint.decomposeImplication, if_neg (by simpa [ha] using hatoms),
    Constraint.conditional_comparison_iff]
  split
  · next hdefinable =>
    refine Ends.failure fun h => ?_
    simp [h.1, h.2] at hdefinable
  next hdefinable =>
  have hl : IsSource c lhs := ⟨(Nat.succ_le_succ (le_max_left _ _)).trans_lt hd.height_lt,
    fun h hall => (hd.everywhere h hall).1⟩
  have hr : IsSource c rhs := ⟨(Nat.succ_le_succ (le_max_right _ _)).trans_lt hd.height_lt,
    fun h hall => (hd.everywhere h hall).2⟩
  refine (Ends.lift lhs.always_atomize).bind fun p hp => (Ends.lift rhs.always_atomize).bind
    fun q hq => Ends.pure ⟨by simpa using hdefinable, ?_⟩
  have hnames := hp.append hq
  obtain ⟨hname, hname'⟩ := hnames.isName_pair hc hl hr
  exact hnames.yields_pair hl hr (.ofImplication hc ha
    (Bool.and_eq_true_iff.mpr ⟨hname.1, hname'.1⟩)
    fun h hall => ⟨hname.2 h hall, hname'.2 h hall⟩) fun _ hx => List.mem_append_right _ hx

/-- Whether a part can be moved behind an atom is a matter of its syntax. -/
theorem moves (hc : 1 < c.depth) (d : Constraint) (hd : IsPart c d) : Moves c d := by
  induction d using Constraint.induction with
  | literal l => exact fun a _ hreifiable => by cases hreifiable
  | constant value => exact fun a _ hreifiable => by cases hreifiable
  | connective kind ds ih =>
      have hmoves : ∀ d ∈ ds, Moves c d := fun d hmem => ih d hmem (hd.argument hmem)
      cases kind with
      | and => exact moves_and hmoves hc hd
      | or => exact moves_or hmoves hc hd
      | xor => exact fun a _ hreifiable => Ends.failure (Constraint.not_conditional_xor hreifiable)
  | implication b d _ ih => exact moves_implication (ih hd.consequent) hc hd
  | comparison comparator lhs rhs => exact moves_comparison hc hd
  | global g => exact fun a ha _ => Ends.failure (Constraint.not_conditional_global g)

end Reification

/-- A composite constraint that is no conjunction is decomposed exactly if it is accepted. -/
theorem ends_decompose (hc : c.isComposite = true) (hand : ∀ args, c ≠ connective .and args) :
    Ends c.decompose (¬ c.Accepted) fun ps => c.Accepted ∧ Yields c c.bound ps := by
  have hdepth := Constraint.one_lt_depth hc
  cases c with
  | literal l => cases hc
  | constant value => cases hc
  | implication a d => cases hc
  | connective kind args =>
      have hatoms : args.all (·.isAtom) = false := by simpa [Constraint.isComposite] using hc
      cases kind with
      | and => exact absurd rfl (hand args)
      | or =>
          have hparts : ∀ d ∈ args, IsPart (connective .or args) d := fun d hd =>
            ⟨by
              rw [Constraint.depth, if_neg (by simp [hatoms])]
              · exact Nat.add_lt_add_right (Nat.lt_succ_of_le (Constraint.height_le_heights hd)) 1
              · simp,
              fun _ hall => Constraint.everywhereIn_iff.mp hall d hd⟩
          rw [Constraint.decompose, if_neg (by simp [hatoms]), Constraint.accepted_or_iff]
          refine (ends_reifyDisjuncts (fun d hd => moves hdepth d (hparts d hd)) hdepth hparts).bind
            fun p hp => Ends.pure ⟨hp.1, ?_⟩
          exact hp.2.yields (.ofDisjunction hdepth hp.2.isAtom) fun _ hx => hx
      | xor =>
          have hnone : args.mapM Constraint.asAtom? = none := by
            refine Option.eq_none_iff_forall_ne_some.mpr fun atoms hsome => ?_
            obtain ⟨d, hd, hatom⟩ := List.all_eq_false.mp hatoms
            obtain ⟨a, -, ha⟩ := exists_related (areAtoms_of_mapM hsome) hd
            exact hatom (Constraint.isAtom_iff.mpr ⟨a, ha⟩)
          rw [Constraint.decompose, hnone]
          exact Ends.bind (Q := fun _ => False) (Ends.failure (Constraint.not_accepted_xor hatoms))
            fun _ h => h.elim
  | comparison comparator lhs rhs =>
      exact (ends_decomposeComparison hc).weaken False.elim fun ps h => ⟨.comparison _ _ _, h⟩
  | global g => exact ends_global hc

/-- A conjunction is decomposed into its arguments. -/
theorem decompose_and (hc : (connective .and cs).isComposite = true) :
    (connective .and cs).decompose = pure cs := by
  have hatoms : cs.all (·.isAtom) = false := by simpa [Constraint.isComposite] using hc
  rw [Constraint.decompose, if_neg (by simp [hatoms])]

/-- The pieces of a composite constraint have a smaller depth. -/
theorem depth_lt_of_decompose {n : VarId} (hc : c.isComposite = true)
    (h : (c.decompose.run n).1 = some ps) : ∀ p ∈ ps, p.depth < c.depth := by
  by_cases hand : ∃ args, c = connective .and args
  · obtain ⟨args, rfl⟩ := hand
    rw [decompose_and hc] at h
    obtain rfl : args = ps := Option.some.inj h
    have hatoms : args.all (·.isAtom) = false := by simpa [Constraint.isComposite] using hc
    intro p hp
    rw [Constraint.depth, if_neg (by simp [hatoms])]
    exact Nat.lt_succ_of_le (Constraint.depth_le_depths hp)
  · have hends := ends_decompose hc (fun args h => hand ⟨args, h⟩) n
    rw [h] at hends
    exact fun p hp => (hends.2.isPiece p hp).depth_lt

end FiniteDomain
