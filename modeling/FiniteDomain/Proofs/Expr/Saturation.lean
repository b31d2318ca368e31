import FiniteDomain.Proofs.Expr.Enclosure

/-!
# Expressions that always have a value

An expression without partial operators fails only if some result on the way leaves the 64-bit
range. Its bounds show whether that can happen: if none of them had to be moved into the range,
every result on the way fits, whatever the values of the variables in their domains are.
-/

namespace FiniteDomain

namespace Bounds

variable {a b c : Bounds} {v w x y : Int} {values : List Int}

/-- What lies between bounds that fit, fits. -/
theorem Holds.fits (hv : c.Holds v) (hc : c.Fits) : word64.Fits v :=
  ⟨hc.1.1.trans hv.1, hv.2.trans hc.2.2⟩

theorem mapM_fit? {ws : List Int} (h : values.mapM word64.fit? = some ws) :
    ws = values ∧ ∀ v ∈ values, word64.Fits v := by
  have hfit := (mapM_eq_some_iff.mp h).imp fun _ _ h => Word.fit?_eq_some_iff.mp h
  clear h
  induction hfit with
  | nil => exact ⟨rfl, by simp⟩
  | cons hv _ ih =>
      obtain ⟨hfits, rfl⟩ := hv
      exact ⟨congrArg _ ih.1, List.forall_mem_cons.mpr ⟨hfits, ih.2⟩⟩

theorem ofValuesWith_fit? (h : ofValuesWith word64.fit? values = some c) :
    c.Fits ∧ c = ofValues values := by
  obtain ⟨ws, hws, rfl⟩ := Option.map_eq_some_iff.mp h
  obtain ⟨rfl, hfits⟩ := mapM_fit? hws
  exact ⟨fits_ofValues hfits, rfl⟩

/-- What two results that fit are bounds of. -/
theorem mk_fit? (h : (do return Bounds.mk (← word64.fit? v) (← word64.fit? w)) = some c) :
    c.Fits ∧ c = ⟨v, w⟩ := by
  simp only [Option.bind_eq_bind, Option.bind_eq_some_iff, Word.fit?_eq_some_iff, Option.pure_def,
    Option.some.injEq] at h
  obtain ⟨_, ⟨hv, rfl⟩, _, ⟨hw, rfl⟩, rfl⟩ := h
  exact ⟨⟨hv, hw⟩, rfl⟩

theorem holds_addWith (h : a.addWith word64.fit? b = some c) (ha : a.Holds x) (hb : b.Holds y) :
    word64.Fits (x + y) ∧ c.Holds (x + y) := by
  obtain ⟨hc, rfl⟩ := mk_fit? h
  have hholds : Holds ⟨a.lower + b.lower, a.upper + b.upper⟩ (x + y) :=
    ⟨Int.add_le_add ha.1 hb.1, Int.add_le_add ha.2 hb.2⟩
  exact ⟨hholds.fits hc, hholds⟩

theorem holds_subWith (h : a.subWith word64.fit? b = some c) (ha : a.Holds x) (hb : b.Holds y) :
    word64.Fits (x - y) ∧ c.Holds (x - y) := by
  obtain ⟨hc, rfl⟩ := mk_fit? h
  have hholds : Holds ⟨a.lower - b.upper, a.upper - b.lower⟩ (x - y) :=
    ⟨Int.sub_le_sub ha.1 hb.2, Int.sub_le_sub ha.2 hb.1⟩
  exact ⟨hholds.fits hc, hholds⟩

theorem holds_negWith (h : a.negWith word64.fit? = some c) (ha : a.Holds x) :
    word64.Fits (-x) ∧ c.Holds (-x) := by
  obtain ⟨hc, rfl⟩ := mk_fit? h
  have hholds : Holds ⟨-a.upper, -a.lower⟩ (-x) := ⟨Int.neg_le_neg ha.2, Int.neg_le_neg ha.1⟩
  exact ⟨hholds.fits hc, hholds⟩

theorem holds_mulWith (h : a.mulWith word64.fit? b = some c) (ha : a.Holds x) (hb : b.Holds y) :
    word64.Fits (x * y) ∧ c.Holds (x * y) := by
  obtain ⟨hc, rfl⟩ := ofValuesWith_fit? h
  have hholds : Holds (ofValues [a.lower * b.lower, a.lower * b.upper, a.upper * b.lower,
      a.upper * b.upper]) (x * y) := by
    apply holds_ofValues
    · rcases exists_corner_le ha hb with h | h | h | h <;> exact ⟨_, by simp, h⟩
    · rcases exists_le_corner ha hb with h | h | h | h <;> exact ⟨_, by simp, h⟩
  exact ⟨hholds.fits hc, hholds⟩

theorem holds_scaleWith (h : a.scaleWith word64.fit? w = some c) (ha : a.Holds x) :
    word64.Fits (w * x) ∧ c.Holds (w * x) := by
  obtain ⟨hc, rfl⟩ := ofValuesWith_fit? h
  have hw : w ≤ w ∧ w ≤ w := ⟨le_rfl, le_rfl⟩
  have hholds : Holds (ofValues [a.lower * w, a.upper * w]) (w * x) := by
    rw [mul_comm w x]
    apply holds_ofValues
    · rcases exists_corner_le ha hw with h | h | h | h <;> exact ⟨_, by simp, h⟩
    · rcases exists_le_corner ha hw with h | h | h | h <;> exact ⟨_, by simp, h⟩
  exact ⟨hholds.fits hc, hholds⟩

theorem holds_absWith (h : a.absWith word64.fit? = some c) (ha : a.Holds x) (hx : word64.Fits x) :
    word64.Fits x.natAbs ∧ c.Holds x.natAbs := by
  obtain ⟨hl, hu⟩ := ha
  rw [absWith] at h
  split at h
  · obtain rfl := Option.some.inj h
    rw [show (x.natAbs : Int) = x by omega]
    exact ⟨hx, hl, hu⟩
  · split at h
    · rw [show (x.natAbs : Int) = -x by omega]
      exact holds_negWith h ⟨hl, hu⟩
    · simp only [magnitudeWith, Option.bind_eq_bind, Option.bind_eq_some_iff,
        Word.fit?_eq_some_iff, Option.pure_def, Option.some.injEq] at h
      obtain ⟨_, ⟨_, ⟨hlower, rfl⟩, _, ⟨hupper, rfl⟩, rfl⟩, rfl⟩ := h
      simp only [Holds, Word.Fits, word64] at hlower hupper ⊢
      omega

end Bounds

namespace Expr

variable {σ : Assignment} {e : Expr} {box : Bounds} {v : Int}

/-- None of the bounds is moved into the 64-bit range. -/
def Unsaturated (e : Expr) : Prop := e.boundsWith word64.fit? = some e.bounds

/-! ## Total expressions -/

theorem areTotal_iff {es : List Expr} : areTotal es = true ↔ ∀ e ∈ es, e.isTotal = true := by
  induction es with
  | nil => simp [areTotal]
  | cons e es ih => simp [areTotal, ih]

theorem isTotal_operand {o : Expr} (htotal : e.isTotal = true) (ho : o ∈ e.operands) :
    o.isTotal = true := by
  cases e with
  | atom a => cases ho
  | sum terms => exact areTotal_iff.mp htotal o ho
  | weightedSum weights terms => exact areTotal_iff.mp htotal o ho
  | binary op a b =>
      have hboth : a.isTotal = true ∧ b.isTotal = true := by
        cases op <;> first | exact Bool.and_eq_true_iff.mp htotal | cases htotal
      rcases List.mem_pair.mp ho with rfl | rfl
      · exact hboth.1
      · exact hboth.2
  | unary op a =>
      obtain rfl := List.mem_singleton.mp ho
      cases op <;> exact htotal
  | element array index => cases htotal

/-- A total expression has no quotients and remainders, so nothing escapes. -/
theorem everywhere_not_escapes (htotal : e.isTotal = true) :
    e.Everywhere fun o => ¬ o.Escapes σ := by
  induction e using operand_induction with
  | h e ih =>
      refine everywhere_iff.mpr ⟨?_, fun o ho => ih o ho (isTotal_operand htotal ho)⟩
      unfold Escapes
      split
      · cases htotal
      · cases htotal
      · exact id

/-! ## Values between the bounds -/

/-- The expression has a value, and that lies between the bounds. -/
def HasValueIn (σ : Assignment) (e : Expr) (box : Bounds) : Prop :=
  ∃ v, e.evaluate σ = .ok v ∧ word64.Fits v ∧ box.Holds v

theorem hasValueIn_atom {a : Atom} (hσ : σ.Assigns a.vars) (hwords : (atom a).IsWord) :
    (atom a).HasValueIn σ a.bounds := by
  cases a with
  | int x =>
      obtain ⟨v, hv, hcontains⟩ := hσ (.int x) (by simp [Atom.vars])
      exact ⟨v, orUndefined_eq_ok_iff.mpr hv, Word.fits_word64 (Domain.fits_of_contains hcontains),
        Domain.bounds_of_contains hcontains⟩
  | literal l =>
      obtain ⟨v, hv, hcontains⟩ := hσ (.bool l.var) (by simp [Atom.vars])
      have hv' : 0 ≤ v ∧ v ≤ 1 := Domain.bounds_of_contains hcontains
      have hfits : ∀ {w : Int}, 0 ≤ w ∧ w ≤ 1 → word64.Fits w ∧ (Bounds.mk 0 1).Holds w := by
        intro w hw
        simp only [Word.Fits, word64, Bounds.Holds]
        omega
      have hnot : 0 ≤ 1 - v ∧ 1 - v ≤ 1 := by omega
      simp only [HasValueIn, evaluate, Atom.evaluate, Literal.evaluate, bind_eq_ok_iff,
        orUndefined_eq_ok_iff]
      cases hneg : l.negated with
      | false => exact ⟨v, ⟨v, hv, rfl⟩, hfits hv'⟩
      | true => exact ⟨1 - v, ⟨v, hv, if_pos (hfits hnot).1⟩, hfits hnot⟩
  | constant value => exact ⟨value, rfl, hwords, Bounds.holds_single value⟩
  | bool value => exact ⟨value.toInt, rfl, by cases value <;> decide, Bounds.holds_single _⟩

theorem exists_sum {terms : List Expr} {total : Bounds} {t : Int}
    (hterms : ∀ e ∈ terms, ∀ box, e.boundsWith word64.fit? = some box → e.HasValueIn σ box)
    (h : boundsOfSumWith word64.fit? total terms = some box) (ht : word64.Fits t ∧ total.Holds t) :
    ∃ v, evaluateSum σ t terms = .ok v ∧ word64.Fits v ∧ box.Holds v := by
  induction terms generalizing total t with
  | nil =>
      obtain rfl := Option.some.inj h
      exact ⟨t, rfl, ht⟩
  | cons e es ih =>
      simp only [boundsOfSumWith, Option.bind_eq_bind, Option.bind_eq_some_iff] at h
      obtain ⟨be, he, total', hadd, h⟩ := h
      obtain ⟨hterm, hterms⟩ := List.forall_mem_cons.mp hterms
      obtain ⟨x, hx, -, hholds⟩ := hterm be he
      have hsum := Bounds.holds_addWith hadd ht.2 hholds
      obtain ⟨v, hv, hvb⟩ := ih hterms h hsum
      refine ⟨v, ?_, hvb⟩
      simp only [evaluateSum, bind_eq_ok_iff, checked_eq_ok_iff]
      exact ⟨x, hx, _, ⟨hsum.1, rfl⟩, hv⟩

theorem exists_weightedSum {terms : List Expr} {weights : List Int} {total : Bounds} {t : Int}
    (hterms : ∀ e ∈ terms, ∀ box, e.boundsWith word64.fit? = some box → e.HasValueIn σ box)
    (h : boundsOfWeightedWith word64.fit? total weights terms = some box)
    (ht : word64.Fits t ∧ total.Holds t) :
    ∃ v, evaluateWeighted σ t weights terms = .ok v ∧ word64.Fits v ∧ box.Holds v := by
  induction terms generalizing total t weights with
  | nil =>
      obtain rfl := Option.some.inj h
      exact ⟨t, rfl, ht⟩
  | cons e es ih =>
      cases weights with
      | nil =>
          obtain rfl := Option.some.inj h
          exact ⟨t, rfl, ht⟩
      | cons w ws =>
          simp only [boundsOfWeightedWith, Option.bind_eq_bind, Option.bind_eq_some_iff] at h
          obtain ⟨be, he, scaled, hscale, total', hadd, h⟩ := h
          obtain ⟨hterm, hterms⟩ := List.forall_mem_cons.mp hterms
          obtain ⟨x, hx, -, hholds⟩ := hterm be he
          have hproduct := Bounds.holds_scaleWith hscale hholds
          have hsum := Bounds.holds_addWith hadd ht.2 hproduct.2
          obtain ⟨v, hv, hvb⟩ := ih hterms h hsum
          refine ⟨v, ?_, hvb⟩
          simp only [evaluateWeighted, bind_eq_ok_iff, checked_eq_ok_iff]
          exact ⟨x, hx, _, ⟨hproduct.1, rfl⟩, _, ⟨hsum.1, rfl⟩, hv⟩

/-- Bounds that were computed without saturation hold a value of a total expression. -/
theorem hasValueIn_of_boundsWith (htotal : e.isTotal = true) (hwords : e.Everywhere IsWord)
    (hσ : σ.Assigns e.occurrences) (h : e.boundsWith word64.fit? = some box) :
    e.HasValueIn σ box := by
  have hzero : word64.Fits 0 ∧ (Bounds.single 0).Holds 0 := ⟨by decide, Bounds.holds_single 0⟩
  induction e using operand_induction generalizing box with
  | h e ih =>
      have hvalue : ∀ o ∈ e.operands, ∀ box, o.boundsWith word64.fit? = some box →
          o.HasValueIn σ box := fun o ho box => ih o ho (isTotal_operand htotal ho)
        (hwords.operand ho) fun x hx => hσ x (mem_occurrences_of_part (mem_parts_of_operand ho) hx)
      cases e with
      | atom a =>
          obtain rfl := Option.some.inj h
          exact hasValueIn_atom hσ hwords.1
      | sum terms => exact exists_sum hvalue h hzero
      | weightedSum weights terms => exact exists_weightedSum hvalue h hzero
      | binary op a b =>
          cases op with
          | sub =>
              simp only [boundsWith, Option.bind_eq_bind, Option.bind_eq_some_iff] at h
              obtain ⟨a', ha, b', hb, h⟩ := h
              obtain ⟨x, hx, -, hxa⟩ := hvalue a (by simp [operands]) a' ha
              obtain ⟨y, hy, -, hyb⟩ := hvalue b (by simp [operands]) b' hb
              have hsub := Bounds.holds_subWith h hxa hyb
              have hfit := Bounds.fit?_of_fits hsub.1
              exact ⟨x - y, evaluate_binary_iff.mpr ⟨x, y, hx, hy, hfit⟩, hsub⟩
          | mul =>
              simp only [boundsWith, Option.bind_eq_bind, Option.bind_eq_some_iff] at h
              obtain ⟨a', ha, b', hb, h⟩ := h
              obtain ⟨x, hx, -, hxa⟩ := hvalue a (by simp [operands]) a' ha
              obtain ⟨y, hy, -, hyb⟩ := hvalue b (by simp [operands]) b' hb
              have hmul := Bounds.holds_mulWith h hxa hyb
              have hfit := Bounds.fit?_of_fits hmul.1
              exact ⟨x * y, evaluate_binary_iff.mpr ⟨x, y, hx, hy, hfit⟩, hmul⟩
          | _ => cases htotal
      | unary op a =>
          cases op with
          | abs =>
              simp only [boundsWith, Option.bind_eq_bind, Option.bind_eq_some_iff] at h
              obtain ⟨a', ha, h⟩ := h
              obtain ⟨x, hx, hfits, hxa⟩ := hvalue a (by simp [operands]) a' ha
              have habs := Bounds.holds_absWith h hxa hfits
              have hfit := Bounds.fit?_of_fits habs.1
              exact ⟨x.natAbs, evaluate_unary_iff.mpr ⟨x, hx, hfit⟩, habs⟩
          | neg =>
              simp only [boundsWith, Option.bind_eq_bind, Option.bind_eq_some_iff] at h
              obtain ⟨a', ha, h⟩ := h
              obtain ⟨x, hx, -, hxa⟩ := hvalue a (by simp [operands]) a' ha
              have hneg := Bounds.holds_negWith h hxa
              have hfit := Bounds.fit?_of_fits hneg.1
              exact ⟨-x, evaluate_unary_iff.mpr ⟨x, hx, hfit⟩, hneg⟩
      | element array index => cases htotal

end Expr

end FiniteDomain
