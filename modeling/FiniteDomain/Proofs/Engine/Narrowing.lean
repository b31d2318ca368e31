import FiniteDomain.Proofs.Engine.Views

/-!
# Reasoning about narrowings

A narrowing obeys a property of stores if it leads from each store with that property to
another one, except where a failure is excused. Two properties matter. A propagator may
only lose values, and none that is needed by a valuation that it has to spare. And where
all views are fixed, an action that does not fail has checked their values.
-/

namespace FiniteDomain

/-- Reading the state. -/
theorem get_apply {ε σ : Type} (s : σ) : (get : EStateM ε σ σ) s = .ok s s := rfl

/-- Changing the state. -/
theorem modify_apply {ε σ : Type} (f : σ → σ) (s : σ) :
    (modify f : EStateM ε σ PUnit) s = .ok ⟨⟩ (f s) := rfl

/-- Going on with the result of an action. -/
theorem bind_apply {ε σ α β : Type} (action : EStateM ε σ α) (next : α → EStateM ε σ β) (s : σ) :
    (action >>= next) s = match action s with
      | .ok a t => next a t
      | .error f t => .error f t := by
  simp only [bind, EStateM.bind]
  cases action s <;> rfl

namespace Engine

/-! ## Two runs -/

/-- Two outcomes are the same except for the states, which are related. -/
inductive Same {σ α : Type} (R : σ → σ → Prop) :
    EStateM.Result Failure σ α → EStateM.Result Failure σ α → Prop
  | ok {s s' : σ} (a : α) : R s s' → Same R (.ok a s) (.ok a s')
  | error {s s' : σ} (f : Failure) : R s s' → Same R (.error f s) (.error f s')

/-- The action does not tell related states apart. -/
def Blind {σ α : Type} (R : σ → σ → Prop) (action : EStateM Failure σ α) : Prop :=
  ∀ s s', R s s' → Same R (action s) (action s')

theorem Blind.bind {σ α β : Type} {R : σ → σ → Prop} {action : EStateM Failure σ α}
    {next : α → EStateM Failure σ β} (h : Blind R action) (hnext : ∀ a, Blind R (next a)) :
    Blind R (action >>= next) := by
  intro s s' hs
  simp only [Bind.bind, EStateM.bind]
  match action s, action s', h s s' hs with
  | _, _, .ok a hs' => exact hnext a _ _ hs'
  | _, _, .error f hs' => exact .error f hs'

namespace Narrowing

variable {α β : Type} {I : Store → Prop} {excused : Failure → Store → Prop}

/-- The action leads from stores with the property to stores with the property, and its
result is as described; or its failure is excused. -/
def Obeys (I : Store → Prop) (excused : Failure → Store → Prop) (action : Narrowing α)
    (result : α → Prop) : Prop :=
  ∀ s, I s →
    match action s with
    | .ok a t => I t ∧ result a
    | .error f t => excused f t

namespace Obeys

variable {action : Narrowing α} {next : α → Narrowing β} {p p' : α → Prop} {q : β → Prop}

theorem pure {a : α} (h : p a) : Obeys I excused (pure a) p := fun _ hs => ⟨hs, h⟩

theorem weaken (h : Obeys I excused action p) (hpp' : ∀ a, p a → p' a) :
    Obeys I excused action p' := by
  intro s hs
  have h := h s hs
  revert h
  split
  · exact fun h => ⟨h.1, hpp' _ h.2⟩
  · exact id

theorem bind (h : Obeys I excused action p) (hnext : ∀ a, p a → Obeys I excused (next a) q) :
    Obeys I excused (action >>= next) q := by
  intro s hs
  have h := h s hs
  simp only [Bind.bind, EStateM.bind]
  cases hr : action s with
  | ok a t =>
      rw [hr] at h
      exact hnext a h.2 t h.1
  | error f t =>
      rw [hr] at h
      exact h

/-- A guarded action, with what follows in either case. -/
theorem guarded {c : Prop} [Decidable c] {first : Narrowing Unit} {next : Unit → Narrowing β}
    {p : Prop} (h : c → Obeys I excused first fun _ => p)
    (hnext : (c → p) → Obeys I excused (next ()) q) :
    Obeys I excused (if c then first >>= next else next ()) q := by
  split
  · next hc => exact (h hc).bind fun _ hp => hnext fun _ => hp
  · next hc => exact hnext fun hc' => absurd hc' hc

theorem ask {f : Store → α} (h : ∀ s, I s → p (f s)) : Obeys I excused (Narrowing.ask f) p :=
  fun s hs => ⟨hs, h s hs⟩

/-- Two tests in a row see the same store. -/
theorem ask₂ {γ : Type} {f : Store → α} {g : Store → γ} {next : α → γ → Narrowing β}
    {p : α → γ → Prop} (h : ∀ s, I s → p (f s) (g s))
    (hnext : ∀ a c, p a c → Obeys I excused (next a c) q) :
    Obeys I excused (do let a ← Narrowing.ask f; let c ← Narrowing.ask g; next a c) q :=
  fun s hs => hnext (f s) (g s) (h s hs) s hs

theorem throw {f : Failure} (h : ∀ s, I s → excused f s) :
    Obeys I excused (throw f : Narrowing α) p :=
  fun s hs => h s hs

/-- Visiting a list establishes for each element what its visit establishes. -/
theorem forM {γ : Type} {elements : List γ} {visit : γ → Narrowing Unit} {p : γ → Prop}
    (h : ∀ c ∈ elements, Obeys I excused (visit c) fun _ => p c) :
    Obeys I excused (elements.forM visit) fun _ => ∀ c ∈ elements, p c := by
  induction elements with
  | nil => exact .pure (by simp)
  | cons c cs ih =>
      refine (h c (by simp)).bind fun _ hc => ?_
      refine (ih fun d hd => h d (List.mem_cons_of_mem c hd)).weaken fun _ hcs => ?_
      simpa using ⟨hc, hcs⟩

end Obeys

/-! ## Sparing valuations -/

/-- A store has lost values, but none that the given valuations need. -/
structure Spares (s : Store) (needed : Valuation → Prop) (t : Store) : Prop where
  narrows : s.Narrows t
  admits : ∀ a, needed a → t.Admits a

/-- A conflict is excused if no valuation had to be spared, an overflow by large terms. -/
def Excused (s : Store) (needed : Valuation → Prop) (small : Prop) : Failure → Store → Prop
  | .conflict, t => s.Narrows t ∧ ∀ a, ¬ needed a
  | .overflow, _ => ¬ small

/-- Below the given store the action loses no value that one of the valuations needs. -/
abbrev Prunes (s : Store) (needed : Valuation → Prop) (small : Prop) (action : Narrowing α)
    (result : α → Prop) : Prop :=
  Obeys (Spares s needed) (Excused s needed small) action result

variable {s : Store} {needed : Valuation → Prop} {small : Prop} {v : View}

theorem Prunes.of_restricts {action : Narrowing Unit} {p : Valuation → Prop}
    (h : ∀ t, s.Narrows t → t.Restricts p (action t)) (hp : ∀ a, needed a → p a) :
    Prunes s needed small action fun _ => True := by
  intro t ht
  match hr : action t, h t ht.narrows with
  | .ok _ u, h =>
    exact ⟨⟨ht.narrows.trans h.1, fun a ha => (h.2 a).mpr ⟨ht.admits a ha, hp a ha⟩⟩, trivial⟩
  | .error .conflict u, h =>
    exact ⟨ht.narrows.trans h.1, fun a ha => h.2 a (ht.admits a ha) (hp a ha)⟩

theorem prunes_conflict {p : α → Prop} (h : ∀ a, ¬ needed a) :
    Prunes s needed small (throw .conflict : Narrowing α) p :=
  .throw fun _ ht => ⟨ht.narrows, h⟩

section

variable (hs : s.Proper) (hv : v.Created s)
include hs hv

theorem prunes_atLeast {bound : Int} (h : ∀ a, needed a → bound ≤ v.eval a) :
    Prunes s needed small (v.atLeast bound) fun _ => True :=
  .of_restricts (fun _ ht =>
    Store.restricts_atLeast (ht.proper hs) (hv.mono ht.numVariables_eq.ge) bound) h

theorem prunes_atMost {bound : Int} (h : ∀ a, needed a → v.eval a ≤ bound) :
    Prunes s needed small (v.atMost bound) fun _ => True :=
  .of_restricts (fun _ ht =>
    Store.restricts_atMost (ht.proper hs) (hv.mono ht.numVariables_eq.ge) bound) h

theorem prunes_remove {value : Int} (h : ∀ a, needed a → v.eval a ≠ value) :
    Prunes s needed small (v.remove value) fun _ => True :=
  .of_restricts (fun _ ht =>
    Store.restricts_remove (ht.proper hs) (hv.mono ht.numVariables_eq.ge) value) h

theorem prunes_fix {value : Int} (h : ∀ a, needed a → v.eval a = value) :
    Prunes s needed small (v.fix value) fun _ => True :=
  .of_restricts (fun _ ht =>
    Store.restricts_fix (ht.proper hs) (hv.mono ht.numVariables_eq.ge) value) h

end

section

variable (hs : s.Proper) (hv : v.Exact s)
include hs hv

theorem prunes_lowerBound :
    Prunes s needed small (ask (·.lowerBound v)) fun l => ∀ a, needed a → l ≤ v.eval a :=
  .ask fun _ ht a ha => Store.lowerBound_le_eval (ht.narrows.proper hs) (hv.mono ht.narrows.le)
    (ht.admits a ha)

theorem prunes_upperBound :
    Prunes s needed small (ask (·.upperBound v)) fun u => ∀ a, needed a → v.eval a ≤ u :=
  .ask fun _ ht a ha => Store.eval_le_upperBound (ht.narrows.proper hs) (hv.mono ht.narrows.le)
    (ht.admits a ha)

theorem prunes_value? :
    Prunes s needed small (ask (·.value? v)) fun value =>
      ∀ w, value = some w → ∀ a, needed a → v.eval a = w :=
  .ask fun _ ht _ hw a ha =>
    (Store.value?_eq_some_iff (ht.narrows.proper hs) (hv.mono ht.narrows.le)).mp hw a
      (ht.admits a ha)

end

/-! ## Checking fixed views -/

/-- Below the given store the action either fails or establishes a result. -/
abbrev Checks (s : Store) (action : Narrowing α) (result : α → Prop) : Prop :=
  Obeys s.Narrows (fun _ _ => True) action result

/-- The view has the same value in all valuations of the store as in the given one. -/
structure Pinned (s : Store) (a : Valuation) (v : View) : Prop where
  created : v.Created s
  eval_eq : ∀ b, s.Admits b → v.eval b = v.eval a

/-- The view is exact, and has the same value in all valuations of the store as in the given one. -/
structure FixedTo (s : Store) (a : Valuation) (v : View) : Prop where
  exact : v.Exact s
  eval_eq : ∀ b, s.Admits b → v.eval b = v.eval a

theorem FixedTo.pinned {a : Valuation} (h : FixedTo s a v) : Pinned s a v :=
  ⟨h.exact.created, h.eval_eq⟩

theorem Checks.of_restricts {action : Narrowing Unit} {p : Valuation → Prop} (hs : s.Proper)
    (h : ∀ t, s.Narrows t → t.Restricts p (action t)) :
    Checks s action fun _ => ∃ b, s.Admits b ∧ p b := by
  intro t ht
  match hr : action t, h t ht with
  | .ok _ u, h =>
    have hsu := ht.trans h.1
    have hu := Store.admits_least (hsu.proper hs)
    exact ⟨hsu, u.least, hsu.admits hu, ((h.2 _).mp hu).2⟩
  | .error .conflict u, h => trivial

/-- What only loses values may be part of a check. -/
theorem Prunes.checks {action : Narrowing α} {p : α → Prop}
    (h : Prunes s (fun _ => False) True action p) : Checks s action p := by
  intro t ht
  match hr : action t, h t ⟨ht, fun _ => False.elim⟩ with
  | .ok _ u, h => exact ⟨h.1.narrows, h.2⟩
  | .error _ u, h => trivial

theorem checks_conflict {p : α → Prop} : Checks s (throw .conflict : Narrowing α) p :=
  .throw fun _ _ => trivial

section

variable {a : Valuation} (hs : s.Proper) (hv : Pinned s a v)
include hs hv

/-- What holds of the value in all valuations holds of the one value. -/
theorem Pinned.forall_eval_iff {t : Store} (ht : s.Narrows t) (q : Int → Prop) :
    (∀ b, t.Admits b → q (v.eval b)) ↔ q (v.eval a) := by
  constructor
  · intro h
    have hb := Store.admits_least (ht.proper hs)
    exact hv.eval_eq _ (ht.admits hb) ▸ h _ hb
  · intro h b hb
    rwa [hv.eval_eq b (ht.admits hb)]

theorem Pinned.isTrue_iff {t : Store} (ht : s.Narrows t) : t.isTrue v = true ↔ v.eval a ≠ 0 :=
  (Store.isTrue_iff (ht.proper hs) (hv.created.mono ht.numVariables_eq.ge)).trans
    (hv.forall_eval_iff hs ht (· ≠ 0))

theorem Pinned.isFalse_iff {t : Store} (ht : s.Narrows t) : t.isFalse v = true ↔ v.eval a = 0 :=
  (Store.isFalse_iff (ht.proper hs) (hv.created.mono ht.numVariables_eq.ge)).trans
    (hv.forall_eval_iff hs ht (· = 0))

theorem checks_atLeast (bound : Int) : Checks s (v.atLeast bound) fun _ => bound ≤ v.eval a := by
  refine (Checks.of_restricts hs fun t ht =>
    Store.restricts_atLeast (ht.proper hs) (hv.created.mono ht.numVariables_eq.ge) bound).weaken ?_
  rintro _ ⟨b, hb, h⟩
  exact hv.eval_eq b hb ▸ h

theorem checks_atMost (bound : Int) : Checks s (v.atMost bound) fun _ => v.eval a ≤ bound := by
  refine (Checks.of_restricts hs fun t ht =>
    Store.restricts_atMost (ht.proper hs) (hv.created.mono ht.numVariables_eq.ge) bound).weaken ?_
  rintro _ ⟨b, hb, h⟩
  exact hv.eval_eq b hb ▸ h

theorem checks_remove (value : Int) : Checks s (v.remove value) fun _ => v.eval a ≠ value := by
  refine (Checks.of_restricts hs fun t ht =>
    Store.restricts_remove (ht.proper hs) (hv.created.mono ht.numVariables_eq.ge) value).weaken ?_
  rintro _ ⟨b, hb, h⟩
  exact hv.eval_eq b hb ▸ h

theorem checks_fix (value : Int) : Checks s (v.fix value) fun _ => v.eval a = value := by
  refine (Checks.of_restricts hs fun t ht =>
    Store.restricts_fix (ht.proper hs) (hv.created.mono ht.numVariables_eq.ge) value).weaken ?_
  rintro _ ⟨b, hb, h⟩
  exact hv.eval_eq b hb ▸ h

end

section

variable {a : Valuation} (hs : s.Proper) (hv : FixedTo s a v)
include hs hv

theorem FixedTo.value?_eq {t : Store} (ht : s.Narrows t) : t.value? v = some (v.eval a) :=
  (Store.value?_eq_some_iff (ht.proper hs) (hv.exact.mono ht.le)).mpr fun b hb =>
    hv.eval_eq b (ht.admits hb)

theorem FixedTo.lowerBound_eq {t : Store} (ht : s.Narrows t) : t.lowerBound v = v.eval a := by
  obtain ⟨b, hb, heq⟩ := Store.exists_eval_eq_lowerBound (ht.proper hs) (hv.exact.mono ht.le)
  rw [← heq, hv.eval_eq b (ht.admits hb)]

theorem FixedTo.upperBound_eq {t : Store} (ht : s.Narrows t) : t.upperBound v = v.eval a := by
  obtain ⟨b, hb, heq⟩ := Store.exists_eval_eq_upperBound (ht.proper hs) (hv.exact.mono ht.le)
  rw [← heq, hv.eval_eq b (ht.admits hb)]

theorem checks_lowerBound : Checks s (ask (·.lowerBound v)) fun l => l = v.eval a :=
  .ask fun _ ht => hv.lowerBound_eq hs ht

theorem checks_upperBound : Checks s (ask (·.upperBound v)) fun u => u = v.eval a :=
  .ask fun _ ht => hv.upperBound_eq hs ht

theorem checks_value? : Checks s (ask (·.value? v)) fun value => value = some (v.eval a) :=
  .ask fun _ ht => hv.value?_eq hs ht

end

/-! ## Acting on a fixed view -/

/-- Runs an action on the value of a view, once it is fixed. -/
def whenFixed (v : View) (action : Int → Narrowing Unit) : Narrowing Unit := do
  if let some value ← ask (·.value? v) then
    action value

/-- What follows an action on a fixed view may be moved behind it. -/
theorem whenFixed_bind (v : View) (action : Int → Narrowing Unit) (next : Narrowing α) :
    (do whenFixed v action; next) = (do
      match ← ask (·.value? v) with
      | some value => do action value; next
      | none => next) := by
  simp only [whenFixed, bind_assoc]
  refine bind_congr fun value => ?_
  cases value <;> simp

theorem prunes_whenFixed {action : Int → Narrowing Unit} (hs : s.Proper) (hv : v.Exact s)
    (h : ∀ w, (∀ a, needed a → v.eval a = w) → Prunes s needed small (action w) fun _ => True) :
    Prunes s needed small (whenFixed v action) fun _ => True := by
  refine (prunes_value? hs hv).bind fun value hvalue => ?_
  cases value with
  | none => exact .pure trivial
  | some w => exact h w (hvalue w rfl)

theorem checks_whenFixed {a : Valuation} {action : Int → Narrowing Unit} {p : Prop}
    (hs : s.Proper) (hv : FixedTo s a v) (h : Checks s (action (v.eval a)) fun _ => p) :
    Checks s (whenFixed v action) fun _ => p := by
  refine (checks_value? hs hv).bind fun value hvalue => ?_
  subst hvalue
  exact h

/-! ## Testing -/

/-- The test leaves the store as it is, and a positive answer excludes the valuations. -/
def Tests (s : Store) (test : Narrowing Bool) (excluded : Valuation → Prop) : Prop :=
  ∃ b, test s = .ok b s ∧ (b = true → ∀ a, s.Admits a → ¬ excluded a)

theorem Tests.ask {f : Store → Bool} {excluded : Valuation → Prop}
    (h : f s = true → ∀ a, s.Admits a → ¬ excluded a) : Tests s (ask f) excluded :=
  ⟨f s, rfl, h⟩

/-- The store in which an action is tried. -/
def trial (s : Store) : Store := { s.openCheckpoint with modified := #[] }

/-- The store after a trial which led to the second one. -/
def restored (s t : Store) : Store := { t.backtrack s.depth with modified := s.modified }

theorem proper_trial (hs : s.Proper) : (trial s).Proper := hs

theorem exact_trial (hv : v.Exact s) : v.Exact (trial s) := hv.mono (Store.le_of_sets rfl)

/-- Whatever the trial lost is given back. -/
theorem restored_of_narrows {t : Store} (ht : (trial s).Narrows t) : restored s t = s := by
  have hback : t.backtrack s.depth = { s with modified := #[] } :=
    Store.backtrack_of_narrows_openCheckpoint (s := { s with modified := #[] }) ht
  rw [restored, hback]

theorem wouldFail_eq (action : Narrowing Unit) (s : Store) :
    wouldFail action s =
      match action (trial s) with
      | .ok _ t => .ok false (restored s t)
      | .error .conflict t => .ok true (restored s t)
      | .error .overflow t => .error .overflow t := rfl

/-- Trying an action tells whether it fails, and takes back what it lost. -/
theorem Tests.wouldFail {action : Narrowing Unit} {excluded : Valuation → Prop}
    (h : Prunes (trial s) (fun a => s.Admits a ∧ excluded a) True action fun _ => True) :
    Tests s (wouldFail action) excluded := by
  have h := h (trial s) ⟨.refl, fun a ha => ha.1⟩
  rw [Tests, wouldFail_eq]
  match action (trial s), h with
  | .ok _ t, h => exact ⟨false, by simp [restored_of_narrows h.1.narrows], by simp⟩
  | .error .conflict t, h =>
    exact ⟨true, by simp [restored_of_narrows h.1], fun _ a ha hex => h.2 a ⟨ha, hex⟩⟩
  | .error .overflow t, h => exact absurd trivial h

end Narrowing

end Engine

end FiniteDomain
