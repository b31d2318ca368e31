import FiniteDomain.MiniZinc.Rendering
import FiniteDomain.Proofs.Constraint.Evaluation

/-!
# The names in a text

The text of an expression or a constraint depends on the names of the variables that are
written in it, and on no other name. Each of these names stands in the text.
-/

namespace FiniteDomain.MiniZinc

variable {names names' : Names} {x : Variable}

/-! ## Lists -/

theorem renderExprs_eq (names : Names) (es : List Expr) :
    renderExprs names es = es.map (renderExpr names) := by
  induction es with
  | nil => simp [renderExprs]
  | cons e es ih => simp [renderExprs, ih]

theorem renderConstraints_eq (names : Names) (cs : List Constraint) :
    renderConstraints names cs = cs.map (renderConstraint names) := by
  induction cs with
  | nil => simp [renderConstraints]
  | cons c cs ih => simp [renderConstraints, ih]

theorem mem_writtenInAll {es : List Expr} :
    x ∈ writtenInAll es ↔ ∃ e ∈ es, x ∈ writtenIn e := by
  induction es with
  | nil => simp [writtenInAll]
  | cons e es ih => simp [writtenInAll, ih]

/-- A term is written if it has a weight. -/
theorem writtenInProducts_eq (weights : List Int) (es : List Expr) :
    writtenInProducts weights es = writtenInAll (es.take weights.length) := by
  induction es generalizing weights with
  | nil => simp [writtenInProducts, writtenInAll]
  | cons e es ih =>
      cases weights with
      | nil => simp [writtenInProducts, writtenInAll]
      | cons w ws => simp [writtenInProducts, writtenInAll, ih]

theorem mem_writtenInConstraints {cs : List Constraint} :
    x ∈ writtenInConstraints cs ↔ ∃ c ∈ cs, x ∈ writtenInConstraint c := by
  induction cs with
  | nil => simp [writtenInConstraints]
  | cons c cs ih => simp [writtenInConstraints, ih]

/-! ## One equation for each shape -/

theorem renderExpr_atom (a : Atom) : renderExpr names (.atom a) = renderAtom names a := by
  rw [renderExpr]

theorem renderOperand_eq (e : Expr) :
    renderOperand names e = parenthesised (isCompound e) (renderExpr names e) := by
  rw [renderOperand]

theorem renderExpr_pair (a b : Expr) :
    renderExpr names (.sum [a, b]) = renderOperand names a ++ " + " ++ renderOperand names b := by
  rw [renderExpr]

/-- Sums of any other number of terms are written as a function. -/
theorem renderExpr_sum {terms : List Expr} (h : terms.length ≠ 2) :
    renderExpr names (.sum terms) = "sum(" ++ arrayOf (terms.map (renderExpr names)) ++ ")" := by
  rw [renderExpr, renderExprs_eq]
  rintro a b rfl
  exact h rfl

theorem renderExpr_weightedSum (weights : List Int) (terms : List Expr) :
    renderExpr names (.weightedSum weights terms) =
      "sum(" ++ arrayOf (renderProducts names weights terms) ++ ")" := by
  rw [renderExpr]

theorem renderExpr_binary (op : BinaryOp) (a b : Expr) :
    renderExpr names (.binary op a b) =
      renderOperand names a ++ " " ++ operatorSymbol op ++ " " ++ renderOperand names b := by
  rw [renderExpr]

theorem renderExpr_abs (a : Expr) :
    renderExpr names (.unary .abs a) = "abs(" ++ renderExpr names a ++ ")" := by
  rw [renderExpr]

theorem renderExpr_neg (a : Expr) :
    renderExpr names (.unary .neg a) = "-" ++ renderOperand names a := by
  rw [renderExpr]

theorem renderExpr_element (array : List Expr) (index : Expr) :
    renderExpr names (.element array index) =
      elementText (array.all Expr.isBool) (array.map (renderExpr names))
        (renderExpr names index) := by
  rw [renderExpr, renderExprs_eq]

/-! ## Equal names, equal texts -/

theorem renderLiteral_congr {l : Literal} (h : names l.var.id = names' l.var.id) :
    renderLiteral names l = renderLiteral names' l := by
  rw [renderLiteral, renderLiteral, h]

theorem renderAtom_congr {a : Atom} (h : ∀ x ∈ a.vars, names x.id = names' x.id) :
    renderAtom names a = renderAtom names' a := by
  cases a with
  | int x => exact h (.int x) (by simp [Atom.vars])
  | literal l => exact renderLiteral_congr (h (.bool l.var) (by simp [Atom.vars]))
  | constant value => rfl
  | bool value => rfl

theorem renderOperand_congr {e : Expr} (h : renderExpr names e = renderExpr names' e) :
    renderOperand names e = renderOperand names' e := by
  rw [renderOperand_eq, renderOperand_eq, h]

theorem renderProducts_congr {weights : List Int} {es : List Expr}
    (h : ∀ e ∈ es.take weights.length, renderExpr names e = renderExpr names' e) :
    renderProducts names weights es = renderProducts names' weights es := by
  induction es generalizing weights with
  | nil => simp [renderProducts]
  | cons e es ih =>
      cases weights with
      | nil => simp [renderProducts]
      | cons w ws =>
          rw [List.length_cons, List.take_succ_cons, List.forall_mem_cons] at h
          rw [renderProducts, renderProducts, renderOperand_congr h.1, ih h.2]

/-- The text of an expression needs the names of the variables written in it only. -/
theorem renderExpr_congr {e : Expr} (h : ∀ x ∈ writtenIn e, names x.id = names' x.id) :
    renderExpr names e = renderExpr names' e := by
  induction e using Expr.induction with
  | atom a =>
      rw [renderExpr_atom, renderExpr_atom]
      exact renderAtom_congr fun x hx => h x (by rwa [writtenIn])
  | sum terms ih =>
      have hterms : ∀ e ∈ terms, renderExpr names e = renderExpr names' e := fun e he =>
        ih e he fun x hx => h x (by rw [writtenIn]; exact mem_writtenInAll.mpr ⟨e, he, hx⟩)
      by_cases hlength : terms.length = 2
      · obtain ⟨a, b, rfl⟩ := List.length_eq_two.mp hlength
        rw [renderExpr_pair, renderExpr_pair, renderOperand_congr (hterms a (by simp)),
          renderOperand_congr (hterms b (by simp))]
      · rw [renderExpr_sum hlength, renderExpr_sum hlength, List.map_congr_left hterms]
  | weightedSum weights terms ih =>
      have hproducts : renderProducts names weights terms = renderProducts names' weights terms :=
        renderProducts_congr fun e he => ih e (List.mem_of_mem_take he) fun x hx => h x (by
          rw [writtenIn, writtenInProducts_eq]
          exact mem_writtenInAll.mpr ⟨e, he, hx⟩)
      rw [renderExpr_weightedSum, renderExpr_weightedSum, hproducts]
  | binary op a b iha ihb =>
      rw [writtenIn] at h
      rw [renderExpr_binary, renderExpr_binary,
        renderOperand_congr (iha fun x hx => h x (List.mem_append_left _ hx)),
        renderOperand_congr (ihb fun x hx => h x (List.mem_append_right _ hx))]
  | unary op a ih =>
      rw [writtenIn] at h
      cases op with
      | abs => rw [renderExpr_abs, renderExpr_abs, ih h]
      | neg => rw [renderExpr_neg, renderExpr_neg, renderOperand_congr (ih h)]
  | element array index iharray ihindex =>
      rw [writtenIn] at h
      have harray : ∀ e ∈ array, renderExpr names e = renderExpr names' e := fun e he =>
        iharray e he fun x hx =>
          h x (List.mem_append_left _ (mem_writtenInAll.mpr ⟨e, he, hx⟩))
      rw [renderExpr_element, renderExpr_element, List.map_congr_left harray,
        ihindex fun x hx => h x (List.mem_append_right _ hx)]

/-! ## Constraints -/

theorem renderConstraintOperand_eq (c : Constraint) :
    renderConstraintOperand names c =
      parenthesised (isCompoundConstraint c) (renderConstraint names c) := by
  rw [renderConstraintOperand]

theorem renderConstraint_pair (kind : Connective) (a b : Constraint) :
    renderConstraint names (.connective kind [a, b]) =
      renderConstraintOperand names a ++ " " ++ connectiveSymbol kind ++ " "
        ++ renderConstraintOperand names b := by
  rw [renderConstraint]

/-- Connectives with any other number of arguments are written as functions. -/
theorem renderConstraint_connective {kind : Connective} {args : List Constraint}
    (h : args.length ≠ 2) :
    renderConstraint names (.connective kind args) =
      connectiveFunction kind ++ "(" ++ arrayOf (args.map (renderConstraint names)) ++ ")" := by
  rw [renderConstraint, renderConstraints_eq]
  rintro a b rfl
  exact h rfl

theorem renderConstraint_implication (a c : Constraint) :
    renderConstraint names (.implication a c) =
      renderConstraintOperand names a ++ " -> " ++ renderConstraintOperand names c := by
  rw [renderConstraint]

theorem renderConstraint_comparison (comparator : Comparator) (lhs rhs : Expr) :
    renderConstraint names (.comparison comparator lhs rhs) =
      renderOperand names lhs ++ " " ++ comparator.symbol ++ " " ++ renderOperand names rhs := by
  rw [renderConstraint]

theorem renderConstraint_global (g : Global) :
    renderConstraint names (.global g) = renderGlobal names g := by
  rw [renderConstraint]

theorem renderSuccessors_congr {es : List Expr}
    (h : ∀ e ∈ es, renderExpr names e = renderExpr names' e) :
    renderSuccessors names es = renderSuccessors names' es := by
  rw [renderSuccessors, renderSuccessors, renderExprs_eq, renderExprs_eq, List.map_congr_left h,
    List.map_congr_left fun e he => congrArg (· ++ "+1") (renderOperand_congr (h e he))]

theorem renderGlobal_congr {g : Global} (h : ∀ x ∈ writtenInGlobal g, names x.id = names' x.id) :
    renderGlobal names g = renderGlobal names' g := by
  have hexprs : ∀ es, writtenInGlobal g = writtenInAll es →
      ∀ e ∈ es, renderExpr names e = renderExpr names' e := fun es hes e he =>
    renderExpr_congr fun x hx => h x (hes ▸ mem_writtenInAll.mpr ⟨e, he, hx⟩)
  cases g with
  | allDifferent args =>
      simp only [renderGlobal, renderExprs_eq, List.map_congr_left (hexprs args rfl)]
  | allEqual args =>
      simp only [renderGlobal, renderExprs_eq, List.map_congr_left (hexprs args rfl)]
  | circuit successors =>
      rw [renderGlobal, renderGlobal, renderSuccessors_congr (hexprs successors rfl)]
  | subcircuit successors =>
      rw [renderGlobal, renderGlobal, renderSuccessors_congr (hexprs successors rfl)]
  | table columns rows =>
      cases rows with
      | nil => rfl
      | cons row rows =>
          simp only [renderGlobal, renderExprs_eq, List.map_congr_left (hexprs columns rfl)]
  | parity literals =>
      have hliterals : ∀ l ∈ literals, renderLiteral names l = renderLiteral names' l := by
        intro l hl
        have hexpr := hexprs _ rfl (.ofLiteral l) (List.mem_map_of_mem hl)
        rwa [Expr.ofLiteral, renderExpr_atom, renderExpr_atom] at hexpr
      simp only [renderGlobal, List.map_congr_left hliterals]

/-- The text of a constraint needs the names of the variables written in it only. -/
theorem renderConstraint_congr {c : Constraint}
    (h : ∀ x ∈ writtenInConstraint c, names x.id = names' x.id) :
    renderConstraint names c = renderConstraint names' c := by
  have hexpr : ∀ e, (∀ x ∈ writtenIn e, names x.id = names' x.id) →
      renderOperand names e = renderOperand names' e := fun e he =>
    renderOperand_congr (renderExpr_congr he)
  have hoperand : ∀ c, renderConstraint names c = renderConstraint names' c →
      renderConstraintOperand names c = renderConstraintOperand names' c := fun c hc => by
    rw [renderConstraintOperand_eq, renderConstraintOperand_eq, hc]
  induction c using Constraint.induction with
  | literal l =>
      rw [renderConstraint, renderConstraint]
      exact renderLiteral_congr (h (.bool l.var) (by simp [writtenInConstraint]))
  | constant value => rw [renderConstraint, renderConstraint]
  | connective kind args ih =>
      have hargs : ∀ c ∈ args, renderConstraint names c = renderConstraint names' c :=
        fun c hc => ih c hc fun x hx => h x (by
          rw [writtenInConstraint]
          exact mem_writtenInConstraints.mpr ⟨c, hc, hx⟩)
      by_cases hlength : args.length = 2
      · obtain ⟨a, b, rfl⟩ := List.length_eq_two.mp hlength
        rw [renderConstraint_pair, renderConstraint_pair, hoperand a (hargs a (by simp)),
          hoperand b (hargs b (by simp))]
      · rw [renderConstraint_connective hlength, renderConstraint_connective hlength,
          List.map_congr_left hargs]
  | implication a c iha ihc =>
      rw [writtenInConstraint] at h
      rw [renderConstraint_implication, renderConstraint_implication,
        hoperand a (iha fun x hx => h x (List.mem_append_left _ hx)),
        hoperand c (ihc fun x hx => h x (List.mem_append_right _ hx))]
  | comparison comparator lhs rhs =>
      rw [writtenInConstraint] at h
      rw [renderConstraint_comparison, renderConstraint_comparison,
        hexpr lhs fun x hx => h x (List.mem_append_left _ hx),
        hexpr rhs fun x hx => h x (List.mem_append_right _ hx)]
  | global g =>
      rw [writtenInConstraint] at h
      rw [renderConstraint_global, renderConstraint_global, renderGlobal_congr h]

/-! ## The names that stand in a text -/

/-- The text spells the name somewhere. -/
def Spells (text name : String) : Prop := name.toList <:+: text.toList

namespace Spells

variable {text left right name : String} {items : List String}

theorem refl (name : String) : Spells name name := List.infix_rfl

theorem append_left (h : Spells text name) (rest : String) : Spells (text ++ rest) name := by
  rw [Spells, String.toList_append]
  exact h.trans (List.prefix_append _ _).isInfix

theorem append_right (h : Spells text name) (before : String) : Spells (before ++ text) name := by
  rw [Spells, String.toList_append]
  exact h.trans (List.suffix_append _ _).isInfix

/-- In one of two operands. -/
theorem between (h : Spells left name ∨ Spells right name) (symbol : String) :
    Spells (left ++ symbol ++ right) name := by
  rcases h with h | h
  · exact (h.append_left symbol).append_left right
  · exact h.append_right (left ++ symbol)

theorem spaced (h : Spells left name ∨ Spells right name) (symbol : String) :
    Spells (left ++ " " ++ symbol ++ " " ++ right) name := by
  have hbetween := between h (" " ++ symbol ++ " ")
  simpa only [String.append_assoc] using hbetween

theorem parenthesised (h : Spells text name) (compound : Bool) :
    Spells (parenthesised compound text) name := by
  rw [MiniZinc.parenthesised]
  split
  · exact (h.append_right "(").append_left ")"
  · exact h

/-- In one of the items of an array. -/
theorem arrayOf (h : ∃ item ∈ items, Spells item name) : Spells (arrayOf items) name := by
  have hjoined : Spells (joined items) name := by
    rw [Spells, joined, String.toList_intercalate]
    obtain ⟨item, hitem, hname⟩ := h
    induction items with
    | nil => cases hitem
    | cons first items ih =>
        cases items with
        | nil =>
            obtain rfl := List.mem_singleton.mp hitem
            simpa [Spells] using hname
        | cons second items =>
            rw [List.map_cons, List.map_cons, List.intercalate_cons_cons, ← List.map_cons]
            rcases List.mem_cons.mp hitem with rfl | hitem
            · rw [List.append_assoc]
              exact hname.trans (List.prefix_append _ _).isInfix
            · exact (ih hitem).trans (List.suffix_append _ _).isInfix
  exact (hjoined.append_right "[").append_left "]"

theorem call (h : ∃ item ∈ items, Spells item name) (function : String) :
    Spells (function ++ MiniZinc.arrayOf items ++ ")") name :=
  ((arrayOf h).append_right function).append_left ")"

/-- In one of the items that are looked up, or in the index. -/
theorem elementText {index : String} (h : (∃ item ∈ items, Spells item name) ∨ Spells index name)
    (isBool : Bool) : Spells (elementText isBool items index) name := by
  unfold MiniZinc.elementText
  rcases h with h | h
  · apply append_left
    apply append_left
    apply append_left
    exact append_right (arrayOf h) _
  · apply append_left
    exact append_right h _

end Spells

theorem exists_spells_map {α : Type} {as : List α} {text : α → String} {name : String}
    (h : ∃ a ∈ as, Spells (text a) name) : ∃ item ∈ as.map text, Spells item name := by
  obtain ⟨a, ha, hname⟩ := h
  exact ⟨text a, List.mem_map_of_mem ha, hname⟩

theorem spells_renderLiteral (l : Literal) :
    Spells (renderLiteral names l) (names l.var.id) := by
  rw [renderLiteral]
  split
  · exact (Spells.refl _).append_right "not "
  · exact .refl _

theorem spells_renderOperand {e : Expr} {name : String} (h : Spells (renderExpr names e) name) :
    Spells (renderOperand names e) name := by
  rw [renderOperand_eq]
  exact h.parenthesised _

theorem exists_spells_products {weights : List Int} {es : List Expr} {name : String}
    (h : ∃ e ∈ es.take weights.length, Spells (renderExpr names e) name) :
    ∃ item ∈ renderProducts names weights es, Spells item name := by
  induction es generalizing weights with
  | nil => simp at h
  | cons e es ih =>
      cases weights with
      | nil => simp at h
      | cons w ws =>
          rw [renderProducts]
          rw [List.length_cons, List.take_succ_cons] at h
          obtain ⟨e', he, hname⟩ := h
          rcases List.mem_cons.mp he with rfl | he
          · exact ⟨_, List.mem_cons_self, (spells_renderOperand hname).append_right _⟩
          · obtain ⟨item, hitem, hname⟩ := ih ⟨e', he, hname⟩
            exact ⟨item, List.mem_cons_of_mem _ hitem, hname⟩

/-- The names of the variables written in an expression stand in its text. -/
theorem spells_renderExpr {e : Expr} (hx : x ∈ writtenIn e) :
    Spells (renderExpr names e) (names x.id) := by
  induction e using Expr.induction with
  | atom a =>
      rw [writtenIn] at hx
      rw [renderExpr_atom]
      cases a with
      | int y =>
          obtain rfl := List.mem_singleton.mp hx
          exact .refl _
      | literal l =>
          obtain rfl := List.mem_singleton.mp hx
          exact spells_renderLiteral l
      | constant value => cases hx
      | bool value => cases hx
  | sum terms ih =>
      rw [writtenIn] at hx
      obtain ⟨e, he, hx⟩ := mem_writtenInAll.mp hx
      have hterm := ih e he hx
      by_cases hlength : terms.length = 2
      · obtain ⟨a, b, rfl⟩ := List.length_eq_two.mp hlength
        rw [renderExpr_pair]
        rcases List.mem_pair.mp he with rfl | rfl
        · exact .between (.inl (spells_renderOperand hterm)) " + "
        · exact .between (.inr (spells_renderOperand hterm)) " + "
      · rw [renderExpr_sum hlength]
        exact .call (exists_spells_map ⟨e, he, hterm⟩) "sum("
  | weightedSum weights terms ih =>
      rw [writtenIn, writtenInProducts_eq] at hx
      obtain ⟨e, he, hx⟩ := mem_writtenInAll.mp hx
      rw [renderExpr_weightedSum]
      exact .call (exists_spells_products ⟨e, he, ih e (List.mem_of_mem_take he) hx⟩) "sum("
  | binary op a b iha ihb =>
      rw [writtenIn] at hx
      rw [renderExpr_binary]
      exact .spaced ((List.mem_append.mp hx).imp (fun hx => spells_renderOperand (iha hx))
        fun hx => spells_renderOperand (ihb hx)) _
  | unary op a ih =>
      rw [writtenIn] at hx
      cases op with
      | abs =>
          rw [renderExpr_abs]
          exact ((ih hx).append_right "abs(").append_left ")"
      | neg =>
          rw [renderExpr_neg]
          exact (spells_renderOperand (ih hx)).append_right "-"
  | element array index iharray ihindex =>
      rw [writtenIn] at hx
      rw [renderExpr_element]
      refine .elementText ((List.mem_append.mp hx).imp (fun hx => ?_) ihindex) _
      obtain ⟨e, he, hx⟩ := mem_writtenInAll.mp hx
      exact exists_spells_map ⟨e, he, iharray e he hx⟩

theorem spells_renderGlobal {g : Global} (hx : x ∈ writtenInGlobal g) :
    Spells (renderGlobal names g) (names x.id) := by
  have hexprs : ∀ es : List Expr, x ∈ writtenInAll es →
      ∃ item ∈ renderExprs names es, Spells item (names x.id) := fun es hx => by
    obtain ⟨e, he, hx⟩ := mem_writtenInAll.mp hx
    rw [renderExprs_eq]
    exact exists_spells_map ⟨e, he, spells_renderExpr hx⟩
  have hsuccessors : ∀ es : List Expr, x ∈ writtenInAll es →
      ∃ item ∈ renderSuccessors names es, Spells item (names x.id) := fun es hx => by
    rw [renderSuccessors]
    split
    · obtain ⟨e, he, hx⟩ := mem_writtenInAll.mp hx
      exact exists_spells_map
        ⟨e, he, (spells_renderOperand (spells_renderExpr hx)).append_left "+1"⟩
    · exact hexprs es hx
  cases g with
  | allDifferent args => exact .call (hexprs args hx) "alldifferent("
  | allEqual args => exact .call (hexprs args hx) "all_equal("
  | circuit successors => exact .call (hsuccessors successors hx) "circuit("
  | subcircuit successors => exact .call (hsuccessors successors hx) "subcircuit("
  | table columns rows =>
      cases rows with
      | nil => cases hx
      | cons row rows =>
          have hcolumns := Spells.arrayOf (hexprs columns hx)
          exact (((hcolumns.append_right _).append_left _).append_left _).append_left _
  | parity literals =>
      obtain ⟨e, he, hx⟩ := mem_writtenInAll.mp hx
      obtain ⟨l, hl, rfl⟩ := List.mem_map.mp he
      rw [Expr.ofLiteral, writtenIn] at hx
      obtain rfl := List.mem_singleton.mp hx
      exact .call (exists_spells_map ⟨l, hl, spells_renderLiteral l⟩) "xorall("

/-- The names of the variables written in a constraint stand in its text. -/
theorem spells_renderConstraint {c : Constraint} (hx : x ∈ writtenInConstraint c) :
    Spells (renderConstraint names c) (names x.id) := by
  have hoperand : ∀ c, Spells (renderConstraint names c) (names x.id) →
      Spells (renderConstraintOperand names c) (names x.id) := fun c hc => by
    rw [renderConstraintOperand_eq]
    exact hc.parenthesised _
  induction c using Constraint.induction with
  | literal l =>
      rw [writtenInConstraint] at hx
      obtain rfl := List.mem_singleton.mp hx
      rw [renderConstraint]
      exact spells_renderLiteral l
  | constant value =>
      rw [writtenInConstraint] at hx
      cases hx
  | connective kind args ih =>
      rw [writtenInConstraint] at hx
      obtain ⟨c, hc, hx⟩ := mem_writtenInConstraints.mp hx
      have harg := ih c hc hx
      by_cases hlength : args.length = 2
      · obtain ⟨a, b, rfl⟩ := List.length_eq_two.mp hlength
        rw [renderConstraint_pair]
        rcases List.mem_pair.mp hc with rfl | rfl
        · exact .spaced (.inl (hoperand _ harg)) _
        · exact .spaced (.inr (hoperand _ harg)) _
      · rw [renderConstraint_connective hlength]
        exact .call (exists_spells_map ⟨c, hc, harg⟩) (connectiveFunction kind ++ "(")
  | implication a c iha ihc =>
      rw [writtenInConstraint] at hx
      rw [renderConstraint_implication]
      exact .between ((List.mem_append.mp hx).imp (fun hx => hoperand a (iha hx))
        fun hx => hoperand c (ihc hx)) " -> "
  | comparison comparator lhs rhs =>
      rw [writtenInConstraint] at hx
      rw [renderConstraint_comparison]
      exact .spaced ((List.mem_append.mp hx).imp
        (fun hx => spells_renderOperand (spells_renderExpr hx))
        fun hx => spells_renderOperand (spells_renderExpr hx)) comparator.symbol
  | global g =>
      rw [writtenInConstraint] at hx
      rw [renderConstraint_global]
      exact spells_renderGlobal hx

end FiniteDomain.MiniZinc
