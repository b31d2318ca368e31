import FiniteDomain.Proofs.InProcess.Views

/-!
# What propagators enforce

A propagator over the views of atoms enforces a constraint over these atoms. It is sound: values
that pass it do not make the constraint false. It is complete: values that make the constraint true
satisfy it, and if it is a linear equality its terms are small. Soundness needs negations of
constants to fit into 64 bits, completeness needs lists of operands not to be too long.

The bounds of a linear equality are those of a checked sum: every product fits into 64 bits, so
terms over constants are small, and terms over variables have at most `2 ^ 94` and a little more.
-/

namespace FiniteDomain.Engine.Linear

variable {a : Valuation}

/-- Terms with coefficient zero do not matter to the accumulated sum. -/
theorem clampedSum_filter (a : Valuation) (terms : List Term) :
    clampedSum a (terms.filter (·.1 != 0)) = clampedSum a terms := by
  have hgo : ∀ total, word128.Fits total →
      (terms.filter (·.1 != 0)).foldl (fun sum t => word128.clamp (sum + value a t)) total =
        terms.foldl (fun sum t => word128.clamp (sum + value a t)) total := by
    induction terms with
    | nil => exact fun _ _ => rfl
    | cons t ts ih =>
        intro total htotal
        by_cases ht : t.1 = 0
        · rw [List.filter_cons_of_neg (by simpa using ht), List.foldl_cons, value, ht, zero_mul,
            add_zero, Word.clamp_of_fits htotal]
          exact ih total htotal
        · rw [List.filter_cons_of_pos (by simpa using ht), List.foldl_cons, List.foldl_cons]
          exact ih _ (Word.fits_clamp (by decide) _)
  exact hgo 0 (by decide)

/-- A sum that stays inside 64 bits is accumulated without being moved. -/
theorem foldl_clamp_of_addAll {coefficients : List Int} {views : List View} {total r : Int}
    (h : addAll total (List.zipWith (fun c v => c * v.eval a) coefficients views) = some r) :
    (coefficients.zip views).foldl (fun sum t => word128.clamp (sum + value a t)) total = r := by
  induction coefficients generalizing views total with
  | nil => exact Option.some.inj h
  | cons c cs ih =>
      cases views with
      | nil => exact Option.some.inj h
      | cons v vs =>
          obtain ⟨hfits, hrest⟩ := addAll_cons_eq_some_iff.mp h
          have hclamp : word128.clamp (total + c * v.eval a) = total + c * v.eval a := by
            apply Word.clamp_of_fits
            simp only [Word.Fits, word64, word128] at hfits ⊢
            omega
          rw [List.zip_cons_cons, List.foldl_cons, value, hclamp]
          exact ih hrest

/-- A checked sum fits into 64 bits. -/
theorem fits_of_addAll {vs : List Int} {total r : Int} (htotal : word64.Fits total)
    (h : addAll total vs = some r) : word64.Fits r := by
  induction vs generalizing total with
  | nil => exact Option.some.inj h ▸ htotal
  | cons v vs ih =>
      obtain ⟨hfits, hrest⟩ := addAll_cons_eq_some_iff.mp h
      exact ih hfits hrest

end FiniteDomain.Engine.Linear

namespace FiniteDomain.InProcess

open Engine (View Valuation Store Propagator Rule)

variable {g g' : Account} {scope : Scope} {p : Propagator} {rule : Rule} {c c' : Constraint}
  {e result : Expr} {v w : View} {τ : VarId → Int}

/-- The propagator enforces the constraint. -/
structure Enforces (scope : Scope) (g : Account) (p : Propagator) (c : Constraint) : Prop where
  exact : p.Exact g.declared
  sound : scope ≠ .words → ∀ τ, g.registry.Respects τ → p.Passes (g.valuation τ) → ¬ c.Fails τ
  complete : scope = .modest → ∀ τ, g.registry.Respects τ → c.evaluate (total τ) = .ok true →
    p.Small g.declared ∧ p.Holds (g.valuation τ)

/-! ## Rules over atoms -/

/-- The rule holds exactly if the constraint is true. -/
structure Decides (g : Account) (rule : Rule) (c : Constraint) : Prop where
  exact : rule.Exact g.declared
  small : rule.Small g.declared
  accepts_iff : ∀ a, rule.Accepts a ↔ rule.Holds a
  holds_iff : ∀ τ, g.registry.Respects τ → ∀ b, c.evaluate (total τ) = .ok b →
    (rule.Holds (g.valuation τ) ↔ b = true)

/-- The second constraint is the first one, under a condition if there is one. -/
inductive Guarded (g : Account) : Option View → Constraint → Constraint → Prop
  | always (c : Constraint) : Guarded g none c c
  | under {a : Constraint} {v : View} (c : Constraint) : a.KnownTo g.registry → Signals g a v →
      Guarded g (some v) c (.implication a c)

theorem Guarded.mono {condition : Option View} (h : Guarded g condition c c')
    (hg : g.Consistent) (hle : g.Grows g') : Guarded g' condition c c' := by
  cases h with
  | always => exact .always c
  | under c hknown hsignals => exact .under c (hknown.mono hle.registry) (hsignals.mono hg hle)

theorem Decides.enforces {condition : Option View} (h : Decides g rule c)
    (hguard : Guarded g condition c c') : Enforces scope g ⟨rule, condition⟩ c' := by
  cases hguard with
  | always =>
      refine ⟨fun v hv => h.exact v (by simpa [Propagator.views] using hv), ?_, ?_⟩
      · intro _ τ hτ hpasses hfails
        have hholds : rule.Holds (g.valuation τ) := hpasses.holds (h.accepts_iff _)
        cases (h.holds_iff τ hτ _ hfails).mp hholds
      · exact fun _ τ hτ htrue => ⟨h.small, (h.holds_iff τ hτ _ htrue).mpr rfl⟩
  | @under a v _ hknown hsignals =>
      have hcondition : ∀ {τ}, g.registry.Respects τ →
          a.evaluate (total τ) = .ok (v.eval (g.valuation τ) != 0) :=
        fun hτ => hsignals.evaluate hknown hτ
      refine ⟨fun w hw => ?_, ?_, ?_⟩
      · rcases List.mem_append.mp hw with hw | hw
        · exact h.exact w hw
        · obtain rfl := List.mem_singleton.mp hw
          exact hsignals.exact
      · intro _ τ hτ hpasses hfails
        have hrule : v.eval (g.valuation τ) ≠ 0 → rule.Holds (g.valuation τ) :=
          hpasses.holds (h.accepts_iff _)
        rcases Constraint.evaluate_implication_iff.mp hfails with ⟨htrue, hfalse⟩ | ⟨-, hb⟩
        · have hne : v.eval (g.valuation τ) ≠ 0 := by
            simpa using Except.ok.inj ((hcondition hτ).symm.trans htrue)
          cases (h.holds_iff τ hτ _ hfalse).mp (hrule hne)
        · cases hb
      · refine fun _ τ hτ htrue => ⟨h.small, fun hne => ?_⟩
        rcases Constraint.evaluate_implication_iff.mp htrue with ⟨-, hc⟩ | ⟨hfalse, -⟩
        · exact (h.holds_iff τ hτ _ hc).mpr rfl
        · simpa using hne (by simpa using Except.ok.inj ((hcondition hτ).symm.trans hfalse))

/-- A literal or a truth value is a clause of its own. -/
theorem decides_unit (hknown : c.KnownTo g.registry) (hv : Signals g c v) :
    Decides g (.disjunction [v]) c where
  exact := fun w hw => List.mem_singleton.mp hw ▸ hv.exact
  small := trivial
  accepts_iff := fun _ => Iff.rfl
  holds_iff := fun τ hτ b hb => by
    obtain rfl := Except.ok.inj ((hv.evaluate hknown hτ).symm.trans hb)
    simp [Rule.Holds]

theorem exact_of_signals {cs : List Constraint} {vs : List View}
    (hvs : List.Forall₂ (Signals g) cs vs) : ∀ v ∈ vs, v.Exact g.declared := fun v hv => by
  obtain ⟨c, -, hc⟩ := exists_related' hvs hv
  exact hc.exact

theorem exact_of_depicts {es : List Expr} {vs : List View}
    (hvs : List.Forall₂ (Depicts g) es vs) : ∀ v ∈ vs, v.Exact g.declared := fun v hv => by
  obtain ⟨e, -, he⟩ := exists_related' hvs hv
  exact he.exact

theorem truthValues_of_signals {cs : List Constraint} {vs : List View}
    (hknown : ∀ c ∈ cs, c.KnownTo g.registry) (hvs : List.Forall₂ (Signals g) cs vs)
    (hτ : g.registry.Respects τ) :
    Constraint.TruthValues (total τ) cs (vs.map fun v => v.eval (g.valuation τ) != 0) := by
  rw [Constraint.TruthValues, List.forall₂_map_right_iff]
  exact forall₂_imp_of_mem hvs fun c hc v hv => hv.evaluate (hknown c hc) hτ

theorem values_of_depicts {es : List Expr} {vs : List View}
    (hvs : List.Forall₂ (Depicts g) es vs) (hτ : g.registry.Respects τ) :
    Expr.Values (total τ) es (vs.map (View.eval (g.valuation τ))) := by
  rw [Expr.Values, List.forall₂_map_right_iff]
  exact hvs.imp fun e v hv => hv.evaluate τ hτ

theorem connectiveRule_holds_iff {kind : Connective} {literals : List View} {a : Valuation} :
    (connectiveRule kind literals).Holds a ↔
      kind.apply (literals.map fun v => v.eval a != 0) = true := by
  cases kind with
  | and => simp [connectiveRule, Rule.Holds, Connective.apply]
  | or => simp [connectiveRule, Rule.Holds, Connective.apply]
  | xor =>
      simp only [connectiveRule, Rule.Holds, Connective.apply, isOdd, List.countP_map, beq_iff_eq]
      exact Iff.rfl

theorem decides_connective {kind : Connective} {args : List Constraint} {literals : List View}
    (hknown : ∀ c ∈ args, c.KnownTo g.registry) (hvs : List.Forall₂ (Signals g) args literals) :
    Decides g (connectiveRule kind literals) (.connective kind args) where
  exact := fun v hv => exact_of_signals hvs v (by cases kind <;> exact hv)
  small := by cases kind <;> trivial
  accepts_iff := fun a => by cases kind <;> exact Iff.rfl
  holds_iff := fun τ hτ b hb => by
    have heval := (@Constraint.evaluate_connective_iff _ _ kind args).mpr
      ⟨_, truthValues_of_signals hknown hvs hτ, rfl⟩
    obtain rfl := Except.ok.inj (heval.symm.trans hb)
    exact connectiveRule_holds_iff

theorem comparisonRule_holds_iff {comparator : Comparator} {a : Valuation} :
    (comparisonRule comparator v w).Holds a ↔ comparator.compare (v.eval a) (w.eval a) = true := by
  cases comparator <;> simp [comparisonRule, Rule.Holds, Comparator.compare]

theorem decides_comparison {comparator : Comparator} {lhs rhs : Expr} (hv : Depicts g lhs v)
    (hw : Depicts g rhs w) :
    Decides g (comparisonRule comparator v w) (.comparison comparator lhs rhs) where
  exact := by
    have hboth : ∀ u ∈ [v, w], u.Exact g.declared := by simp [hv.exact, hw.exact]
    intro u hu
    apply hboth
    cases comparator <;> simpa [comparisonRule, Rule.views, or_comm] using hu
  small := by cases comparator <;> trivial
  accepts_iff := fun a => by cases comparator <;> exact Iff.rfl
  holds_iff := fun τ hτ b hb => by
    have heval : (Constraint.comparison comparator lhs rhs).evaluate (total τ) = .ok _ :=
      Constraint.evaluate_comparison_iff.mpr ⟨_, _, hv.evaluate τ hτ, hw.evaluate τ hτ, rfl⟩
    obtain rfl := Except.ok.inj (heval.symm.trans hb)
    exact comparisonRule_holds_iff

theorem decides_implies {a b : Constraint} (hknownA : a.KnownTo g.registry)
    (hknownB : b.KnownTo g.registry) (hg : g.Consistent) (hv : Signals g a v) (hw : Signals g b w) :
    Decides g (.implies v w) (.implication a b) := by
  obtain ⟨hexact, hcomplement⟩ := View.exact_complement hg.proper hv.exact fun _ => hv.bit
  refine ⟨fun u hu => ?_, trivial, fun _ => Iff.rfl, fun τ hτ truth htruth => ?_⟩
  · rcases List.mem_pair.mp hu with rfl | rfl
    · exact hexact
    · exact hw.exact
  · have ha := hv.evaluate hknownA hτ
    have hb := hw.evaluate hknownB hτ
    have hadmits := hg.admits hτ
    have hcomplement := hcomplement _ hadmits
    simp only [Rule.implies, Rule.Holds, List.exists_mem_cons_iff, List.not_mem_nil, false_and,
      exists_false, or_false, hcomplement]
    rcases Constraint.evaluate_implication_iff.mp htruth with ⟨htrue, hc⟩ | ⟨hfalse, rfl⟩
    · have hne : v.eval (g.valuation τ) ≠ 0 := by simpa using Except.ok.inj (ha.symm.trans htrue)
      have hone := (hv.bit hadmits).resolve_left hne
      obtain rfl := Except.ok.inj (hb.symm.trans hc)
      simp [hone]
    · have hzero : v.eval (g.valuation τ) = 0 := by simpa using Except.ok.inj (ha.symm.trans hfalse)
      simp [hzero]

theorem decides_allDifferent {args : List Expr} {views : List View}
    (hvs : List.Forall₂ (Depicts g) args views) :
    Decides g (.allDifferent views) (.allDifferent args) where
  exact := exact_of_depicts hvs
  small := trivial
  accepts_iff := fun _ => Iff.rfl
  holds_iff := fun τ hτ b hb => by
    have heval : (Constraint.global (.allDifferent args)).evaluate (total τ) = .ok _ :=
      Constraint.evaluate_global_iff.mpr ⟨_, values_of_depicts hvs hτ, rfl⟩
    obtain rfl := Except.ok.inj (heval.symm.trans hb)
    simp [Rule.Holds, Global.apply]

/-! ## Operations -/

/-- The propagator gives an atom the value of an expression. -/
structure Computes (scope : Scope) (g : Account) (p : Propagator) (e result : Expr) : Prop where
  exact : p.Exact g.declared
  sound : scope ≠ .words → ∀ τ, g.registry.Respects τ → p.Passes (g.valuation τ) →
    ∀ x, e.evaluate (total τ) = .ok x → result.evaluate (total τ) = .ok x
  complete : scope = .modest → ∀ τ, g.registry.Respects τ → ∀ x, e.evaluate (total τ) = .ok x →
    result.evaluate (total τ) = .ok x → p.Small g.declared ∧ p.Holds (g.valuation τ)

/-- What computes an atom enforces the equality, whichever side the atom is on. -/
theorem Computes.enforces {lhs rhs : Expr} (h : Computes scope g p e result)
    (hsides : lhs = e ∧ rhs = result ∨ lhs = result ∧ rhs = e) :
    Enforces scope g p (.comparison .equal lhs rhs) where
  exact := h.exact
  sound := fun hscope τ hτ hpasses hfails => by
    obtain ⟨x, y, hx, hy, hne⟩ := Constraint.evaluate_eq_iff.mp hfails
    have hne : x ≠ y := of_decide_eq_false hne
    rcases hsides with ⟨rfl, rfl⟩ | ⟨rfl, rfl⟩
    · exact hne (Except.ok.inj ((h.sound hscope τ hτ hpasses x hx).symm.trans hy))
    · exact hne (Except.ok.inj (hx.symm.trans (h.sound hscope τ hτ hpasses y hy)))
  complete := fun hscope τ hτ htrue => by
    obtain ⟨x, y, hx, hy, heq⟩ := Constraint.evaluate_eq_iff.mp htrue
    obtain rfl : x = y := of_decide_eq_true heq
    rcases hsides with ⟨rfl, rfl⟩ | ⟨rfl, rfl⟩
    · exact h.complete hscope τ hτ x hx hy
    · exact h.complete hscope τ hτ x hy hx

/-- A rule that is no linear equality computes an atom if it holds for the value of the
expression and no other value. -/
theorem computes_of_rule (hexact : rule.Exact g.declared) (hsmall : rule.Small g.declared)
    (haccepts : ∀ a, rule.Accepts a ↔ rule.Holds a) (hw : Depicts g result w)
    (hrule : scope ≠ .words → ∀ τ, g.registry.Respects τ → ∀ x, e.evaluate (total τ) = .ok x →
      (rule.Holds (g.valuation τ) ↔ w.eval (g.valuation τ) = x)) :
    Computes scope g { rule := rule } e result where
  exact := fun v hv => hexact v (by simpa [Propagator.views] using hv)
  sound := fun hscope τ hτ hpasses x hx => by
    rw [hw.evaluate τ hτ, (hrule hscope τ hτ x hx).mp (hpasses.holds (haccepts _))]
  complete := fun hscope τ hτ x hx hresult => by
    have hne : scope ≠ .words := Scope.Complete.ne_words (by rw [hscope]; trivial)
    exact ⟨hsmall, (hrule hne τ hτ x hx).mpr (Except.ok.inj ((hw.evaluate τ hτ).symm.trans hresult))⟩

/-- An operation on two atoms, the second one negated or not. -/
theorem computes_operation {operator : Operator} {a b : Expr} {va vb : View} {negated : Bool}
    (hg : g.Consistent) (ha : Depicts g a va) (hb : Depicts g b vb) (hr : Depicts g result w)
    (hplain : b.Plain scope)
    (heval : ∀ τ, g.registry.Respects τ → ∀ r, e.evaluate (total τ) = .ok r → ∃ x y,
      a.evaluate (total τ) = .ok x ∧ b.evaluate (total τ) = .ok y ∧
        operator.apply x (if negated then -y else y) = some r) :
    Computes scope g { rule := .operation operator va (if negated then vb.negate else vb) w }
      e result := by
  have hnegate : (if negated then vb.negate else vb).Exact g.declared := by
    cases negated
    · exact hb.exact
    · exact hb.simple.exact_negate hg.proper hb.exact
  refine computes_of_rule (fun v hv => ?_) trivial (fun _ => Iff.rfl) hr fun hscope τ hτ r hr' => ?_
  · simp only [Rule.views, List.mem_cons, List.not_mem_nil, or_false] at hv
    rcases hv with rfl | rfl | rfl
    · exact ha.exact
    · exact hnegate
    · exact hr.exact
  · obtain ⟨x, y, hx, hy, happly⟩ := heval τ hτ r hr'
    obtain rfl := Except.ok.inj ((ha.evaluate τ hτ).symm.trans hx)
    obtain rfl := Except.ok.inj ((hb.evaluate τ hτ).symm.trans hy)
    have hsecond : (if negated then vb.negate else vb).eval (g.valuation τ) =
        if negated then -vb.eval (g.valuation τ) else vb.eval (g.valuation τ) := by
      cases negated
      · rfl
      · exact hb.eval_negate hplain hscope hτ
    simp only [Rule.Holds, hsecond, happly, Option.some.injEq]
    exact eq_comm

theorem computes_absolute {a : Expr} {va : View} (ha : Depicts g a va) (hr : Depicts g result w) :
    Computes scope g { rule := .absolute va w } (.unary .abs a) result := by
  refine computes_of_rule (fun v hv => ?_) trivial (fun _ => Iff.rfl) hr fun _ τ hτ r hr' => ?_
  · rcases List.mem_pair.mp hv with rfl | rfl
    · exact ha.exact
    · exact hr.exact
  · obtain ⟨x, hx, happly⟩ := Expr.evaluate_unary_iff.mp hr'
    obtain rfl := Except.ok.inj ((ha.evaluate τ hτ).symm.trans hx)
    obtain ⟨-, rfl⟩ := Word.fit?_eq_some_iff.mp happly
    exact Iff.rfl

theorem computes_negation {a : Expr} {va : View} (hg : g.Consistent) (ha : Depicts g a va)
    (hr : Depicts g result w) (hplain : a.Plain scope) :
    Computes scope g { rule := .equal va.negate w } (.unary .neg a) result := by
  refine computes_of_rule (fun v hv => ?_) trivial (fun _ => Iff.rfl) hr fun hscope τ hτ r hr' => ?_
  · rcases List.mem_pair.mp hv with rfl | rfl
    · exact ha.simple.exact_negate hg.proper ha.exact
    · exact hr.exact
  · obtain ⟨x, hx, happly⟩ := Expr.evaluate_unary_iff.mp hr'
    obtain rfl := Except.ok.inj ((ha.evaluate τ hτ).symm.trans hx)
    obtain ⟨-, rfl⟩ := Word.fit?_eq_some_iff.mp happly
    simp only [Rule.Holds, ha.eval_negate hplain hscope hτ]
    exact eq_comm

/-! ## Sums -/

/-- A term whose product fits into 64 bits under some values has no large magnitude. -/
theorem magnitude_le_of_fits {coefficient : Int} (hg : g.Consistent) (hv : Depicts g e v)
    (hcoefficient : word64.Fits coefficient)
    (hproduct : word64.Fits (coefficient * v.eval (g.valuation τ))) :
    Engine.Linear.magnitude g.declared (coefficient, v) ≤ 2 ^ 94 + 2 ^ 63 := by
  have hword : ∀ x, word64.Fits x → |x| ≤ 2 ^ 63 := fun x hx => by
    simp only [Word.Fits, word64] at hx
    rw [abs_le]
    omega
  by_cases hconstant : ∃ value, v = .constant value
  · obtain ⟨value, rfl⟩ := hconstant
    have hbound : Engine.Linear.magnitude g.declared (coefficient, .constant value) =
        |coefficient * value| := by
      simp [Engine.Linear.magnitude, Store.lowerBound, Store.upperBound, View.map, abs_mul]
    rw [hbound]
    exact (hword _ hproduct).trans (by norm_num)
  · have hbounds : ∀ b, g.declared.Admits b → |v.eval b| ≤ 2 ^ 31 + 1 := fun b hb =>
      hv.simple.abs_eval_le hg.proper hv.exact hb fun value h => hconstant ⟨value, h⟩
    obtain ⟨b, hb, hlower⟩ := Store.exists_eval_eq_lowerBound hg.proper hv.exact
    obtain ⟨b', hb', hupper⟩ := Store.exists_eval_eq_upperBound hg.proper hv.exact
    have hmax : max |g.declared.lowerBound v| |g.declared.upperBound v| ≤ 2 ^ 31 + 1 :=
      max_le (hlower ▸ hbounds b hb) (hupper ▸ hbounds b' hb')
    calc Engine.Linear.magnitude g.declared (coefficient, v) ≤ 2 ^ 63 * (2 ^ 31 + 1) :=
          mul_le_mul (hword _ hcoefficient) hmax (le_max_of_le_left (abs_nonneg _)) (by norm_num)
      _ = 2 ^ 94 + 2 ^ 63 := by norm_num

/-- The magnitude of a view with 64 bits. -/
theorem magnitude_one_le (hg : g.Consistent) (hv : v.Exact g.declared) :
    Engine.Linear.magnitude g.declared (1, v) ≤ 2 ^ 63 := by
  obtain ⟨b, hb, hlower⟩ := Store.exists_eval_eq_lowerBound hg.proper hv
  obtain ⟨b', hb', hupper⟩ := Store.exists_eval_eq_upperBound hg.proper hv
  have hl := hlower ▸ hv.fits_eval hb
  have hu := hupper ▸ hv.fits_eval hb'
  simp only [Word.Fits, word64] at hl hu
  rw [Engine.Linear.magnitude, abs_one, one_mul]
  change max |g.declared.lowerBound v| |g.declared.upperBound v| ≤ 2 ^ 63
  rw [max_le_iff, abs_le, abs_le]
  omega

/-- The magnitudes of so many terms. -/
theorem sum_magnitude_le {terms : List Expr} {views : List View} {weights : List Int}
    (hg : g.Consistent) (hviews : List.Forall₂ (Depicts g) terms views)
    (hweights : ∀ w ∈ weights, word64.Fits w)
    (hproducts : ∀ p ∈ List.zipWith (· * ·) weights (views.map (View.eval (g.valuation τ))),
      word64.Fits p) :
    ((weights.zip views).map (Engine.Linear.magnitude g.declared)).sum ≤
      terms.length * (2 ^ 94 + 2 ^ 63) := by
  induction hviews generalizing weights with
  | nil => simp
  | @cons e v terms views hv _ ih =>
      cases weights with
      | nil =>
          simp only [List.zip_nil_left, List.map_nil, List.sum_nil]
          positivity
      | cons weight weights =>
          simp only [List.map_cons, List.zipWith_cons_cons, List.forall_mem_cons] at hproducts hweights
          have hfirst := magnitude_le_of_fits hg hv hweights.1 hproducts.1
          have hrest := ih hweights.2 hproducts.2
          simp only [List.zip_cons_cons, List.map_cons, List.sum_cons, List.length_cons]
          push_cast
          linarith

/-- The views of a weighted sum, less the result, are exact. -/
theorem exact_linear {terms : List Expr} {views : List View} {coefficients : List Int} {rhs : Int}
    (hg : g.Consistent) (hviews : List.Forall₂ (Depicts g) terms views) (hr : Depicts g result w) :
    ({ rule := .ofTerms (coefficients.zip (views ++ [w.negate])) rhs } : Propagator).Exact
      g.declared := by
  intro v hv
  have hv : v ∈ ((coefficients.zip (views ++ [w.negate])).filter
      fun (t : Engine.Linear.Term) => t.1 != 0).map Prod.snd := by
    simpa [Propagator.views, Rule.ofTerms, Rule.views] using hv
  obtain ⟨t, ht, rfl⟩ := List.mem_map.mp hv
  rcases List.mem_append.mp (List.of_mem_zip (List.mem_filter.mp ht).1).2 with ht | ht
  · exact exact_of_depicts hviews _ ht
  · exact List.mem_singleton.mp ht ▸ hr.simple.exact_negate hg.proper hr.exact

/-- The terms, less the result, accumulated or over the integers, where adding them up does not
overflow. -/
theorem sums_less_result {b : Valuation} {views : List View} {weights : List Int} {x : Int}
    (hlength : weights.length = views.length)
    (hadd : addAll 0 (List.zipWith (fun c v => c * v.eval b) weights views) = some x)
    (hnegate : w.negate.eval b = -w.eval b) :
    Engine.Linear.clampedSum b (((weights ++ [1]).zip (views ++ [w.negate])).filter (·.1 != 0)) =
        word128.clamp (x + -w.eval b) ∧
      Engine.Linear.sum b (((weights ++ [1]).zip (views ++ [w.negate])).filter (·.1 != 0)) =
        x + -w.eval b := by
  have hsplit : (weights ++ [1]).zip (views ++ [w.negate]) = weights.zip views ++ [(1, w.negate)] :=
    List.zip_append hlength
  constructor
  · rw [Engine.Linear.clampedSum_filter, hsplit, Engine.Linear.clampedSum, List.foldl_append,
      Engine.Linear.foldl_clamp_of_addAll hadd, List.foldl_cons, List.foldl_nil,
      Engine.Linear.value, one_mul, hnegate]
  · rw [Engine.Linear.sum_filter, hsplit, Engine.Linear.sum_eq, List.map_append, List.sum_append,
      ← Engine.Linear.sum_eq, Engine.Linear.sum_zip, List.map_singleton, List.sum_singleton,
      Engine.Linear.value, one_mul, hnegate, eq_sum_of_addAll hadd, zero_add]

/-- A linear equality over the views of a weighted sum, less the result. -/
theorem computes_sum {terms : List Expr} {views : List View} {weights : List Int}
    (hg : g.Consistent) (hviews : List.Forall₂ (Depicts g) terms views)
    (hr : Depicts g result w) (hplain : result.Plain scope) (hlength : weights.length = terms.length)
    (hlimit : terms.length ≤ scope.limit) (hweights : ∀ w ∈ weights, word64.Fits w)
    (heval : ∀ τ, g.registry.Respects τ → ∀ x, e.evaluate (total τ) = .ok x → ∃ vs,
      Expr.Values (total τ) terms vs ∧ (∀ p ∈ List.zipWith (· * ·) weights vs, word64.Fits p) ∧
        addAll 0 (List.zipWith (· * ·) weights vs) = some x) :
    Computes scope g
      { rule := .ofTerms ((weights ++ [1]).zip (views ++ [w.negate])) 0 } e result := by
  have hlength' : weights.length = views.length := hlength.trans hviews.length_eq
  -- what a checked evaluation says about the values of the views
  have hchecked : ∀ τ, g.registry.Respects τ → ∀ x, e.evaluate (total τ) = .ok x →
      (∀ p ∈ List.zipWith (· * ·) weights (views.map (View.eval (g.valuation τ))), word64.Fits p) ∧
        addAll 0 (List.zipWith (fun c v => c * v.eval (g.valuation τ)) weights views) = some x := by
    intro τ hτ x hx
    obtain ⟨vs, hvs, hproducts, hadd⟩ := heval τ hτ x hx
    obtain rfl := hvs.unique (values_of_depicts hviews hτ)
    rw [List.zipWith_map_right] at hadd
    exact ⟨hproducts, hadd⟩
  refine ⟨exact_linear hg hviews hr, fun hscope τ hτ hpasses x hx => ?_,
    fun hscope τ hτ x hx hresult => ?_⟩
  · obtain ⟨-, hadd⟩ := hchecked τ hτ x hx
    obtain ⟨hclamped, hsum⟩ :=
      sums_less_result hlength' hadd (hr.eval_negate hplain hscope hτ)
    have hx64 : word64.Fits x := Engine.Linear.fits_of_addAll (by decide) hadd
    have hfits : word64.Fits (w.eval (g.valuation τ)) := hr.exact.fits_eval (hg.admits hτ)
    have hclamp := word128.clamp_cases (x + -w.eval (g.valuation τ))
    have hzero : word128.clamp (x + -w.eval (g.valuation τ)) = 0 ∨
        x + -w.eval (g.valuation τ) = 0 := hpasses.imp hclamped.symm.trans hsum.symm.trans
    rw [hr.evaluate τ hτ]
    simp only [Word.Fits, word64, word128] at hfits hx64 hclamp hzero
    congr 1
    omega
  · obtain ⟨hproducts, hadd⟩ := hchecked τ hτ x hx
    have hne : scope ≠ .words := Scope.Complete.ne_words (by rw [hscope]; trivial)
    have hvalue : w.eval (g.valuation τ) = x :=
      Except.ok.inj ((hr.evaluate τ hτ).symm.trans hresult)
    constructor
    · apply Engine.Linear.small_filter (by decide)
      have hterms := sum_magnitude_le (τ := τ) hg hviews hweights hproducts
      have hlast := magnitude_one_le hg (hr.simple.exact_negate hg.proper hr.exact)
      have hcount : terms.length ≤ 2 ^ 31 := by
        subst hscope
        exact hlimit
      rw [List.zip_append hlength', List.map_append, List.sum_append]
      have hcount : (terms.length : Int) ≤ 2 ^ 31 := by exact_mod_cast hcount
      simp only [List.zip_cons_cons, List.zip_nil_left, List.map_singleton, List.sum_singleton]
      linarith
    · have hsum := (sums_less_result hlength' hadd (hr.eval_negate hplain hne hτ)).2
      rw [hvalue, add_neg_cancel] at hsum
      exact hsum

end FiniteDomain.InProcess
