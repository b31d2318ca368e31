import FiniteDomain.Proofs.Engine.Posting

/-!
# Requests to an engine

An engine is used by a sequence of requests, each of which creates a variable, posts a
constraint or sets the objective. What a sequence asks for is said apart from the engine: the
domains of the created variables, and the constraints demanded of their values. Requests are
admissible if no view leaves the 64-bit range, the antecedents of implications are 0 or 1, and
the terms of linear equalities are small. After admissible requests the engine tracks exactly
what was asked for.

Truth values need less. A view that is used as a Boolean may leave the range, and an antecedent may
have any values, though what is enforced of an implication then is not what was demanded: its
antecedent is read through the view `1 - x`, which is zero at 1 only.
-/

namespace FiniteDomain.Engine

/-- What can be asked of an engine before it solves. -/
inductive Request where
  | boolean (name : String)
  | interval (lower upper : Int) (name : String)
  | oneOf (values : List Int) (name : String)
  | rule (rule : Rule) (condition : Option View)
  | implication (antecedent consequent : View) (condition : Option View)
  | linear (terms : List View) (coefficients : List Int) (constant : Int)
  | objective (direction : Direction) (v : View)

namespace Request

/-- The engine after a creation; one that is refused changes nothing. -/
def created (e : Engine) : Except Error (View × Engine) → Engine
  | .error _ => e
  | .ok (_, e') => e'

/-- Posts a rule, always or under a condition. -/
def enforce (rule : Rule) : Option View → Running Unit
  | none => Running.postRule rule
  | some condition => Running.postIf rule condition

/-- What the engine does at a request. -/
def perform : Request → Running Unit
  | boolean name => modify fun e => (e.createBoolean name).2
  | interval lower upper name => modify fun e => created e (e.createInterval lower upper name)
  | oneOf values name => modify fun e => created e (e.createValues values name)
  | rule r condition => enforce r condition
  | implication antecedent consequent condition => enforce (.implies antecedent consequent) condition
  | linear terms coefficients constant => discard (Running.postLinear terms coefficients constant)
  | objective direction v => modify (·.setObjective direction v)

/-- The values that a created variable may take. -/
def domain? : Request → Option (Int → Prop)
  | boolean _ => some fun value => value = 0 ∨ value = 1
  | interval lower upper _ =>
    if upper < lower then none else some fun value => lower ≤ value ∧ value ≤ upper
  | oneOf values _ => if values = [] then none else some (· ∈ values)
  | _ => none

/-- The objective that is set. -/
def objective? : Request → Option (Direction × View)
  | objective direction v => some (direction, v)
  | _ => none

/-- The constraint that a valuation of the created variables has to satisfy. A linear equality
with a wrong number of coefficients is refused and demands nothing. -/
def Demands (a : Valuation) : Request → Prop
  | rule r condition => (∀ c ∈ condition, c.eval a ≠ 0) → r.Holds a
  | implication antecedent consequent condition =>
    (∀ c ∈ condition, c.eval a ≠ 0) → antecedent.eval a ≠ 0 → consequent.eval a ≠ 0
  | linear terms coefficients constant => terms.length = coefficients.length →
    (List.zipWith (fun c v => c * v.eval a) coefficients terms).sum = constant
  | _ => True

instance (a : Valuation) (r : Request) : Decidable (r.Demands a) := by
  unfold Demands
  split <;> infer_instance

/-- The constraint that the engine enforces: an implication is about antecedents that are 1. -/
def Enforces (a : Valuation) : Request → Prop
  | implication antecedent consequent condition =>
    (∀ c ∈ condition, c.eval a ≠ 0) → antecedent.eval a = 1 → consequent.eval a ≠ 0
  | r => r.Demands a

instance (a : Valuation) (r : Request) : Decidable (r.Enforces a) := by
  unfold Enforces
  split <;> infer_instance

/-- The store of the created variables before any value is lost. -/
def declare (declared : Store) : Request → Store
  | boolean _ => declared.addVariable (.interval 0 1)
  | interval lower upper _ =>
    if upper < lower then declared else declared.addVariable (.interval lower upper)
  | oneOf values _ => match ValueSet.ofValues? values with
    | none => declared
    | some d => declared.addVariable d
  | _ => declared

/-- Values of variables have 32 bits, views do not leave the 64-bit range on the declared
variables, antecedents of implications are 0 or 1, and the terms of a linear equality are
small. Linear equalities are posted by a request of their own. -/
def Admissible (declared : Store) : Request → Prop
  | boolean _ => True
  | interval lower upper _ => word32.Fits lower ∧ word32.Fits upper
  | oneOf values _ => ∀ value ∈ values, word32.Fits value
  | rule (.linear _ _) _ => False
  | rule r condition => r.Exact declared ∧ ∀ c ∈ condition, c.Exact declared
  | implication antecedent consequent condition =>
    (antecedent.Exact declared ∧
      ∀ a, declared.Admits a → antecedent.eval a = 0 ∨ antecedent.eval a = 1) ∧
    consequent.Exact declared ∧ ∀ c ∈ condition, c.Exact declared
  | linear terms coefficients constant => (∀ v ∈ terms, v.Exact declared) ∧
    word64.Fits constant ∧
    ((coefficients.zip terms).map (Linear.magnitude declared)).sum < 2 ^ 126
  | objective _ v => v.Exact declared

/-- Values of variables have 32 bits, truth values are views of declared variables, what is compared
or added up does not leave the 64-bit range, and the terms of a linear equality are small. -/
def Lawful (declared : Store) : Request → Prop
  | rule (.linear _ _) _ => False
  | rule r condition => r.Readable declared ∧ ∀ c ∈ condition, c.Created declared
  | implication antecedent consequent condition =>
    antecedent.Created declared ∧ consequent.Created declared ∧ ∀ c ∈ condition, c.Created declared
  | r => r.Admissible declared

/-- The propagators that are posted for a request. -/
def posts : Request → List Propagator
  | rule r condition => [{ rule := r, condition := condition }]
  | implication antecedent consequent condition =>
    [{ rule := .implies antecedent consequent, condition := condition }]
  | linear terms coefficients constant =>
    if terms.length ≠ coefficients.length then []
    else [{ rule := .ofTerms (coefficients.zip terms) constant }]
  | _ => []

/-- The values of a created variable have 32 bits. -/
def Fits : Request → Prop
  | interval lower upper _ => word32.Fits lower ∧ word32.Fits upper
  | oneOf values _ => ∀ value ∈ values, word32.Fits value
  | _ => True

/-- Values of variables have 32 bits, views do not leave the 64-bit range on the declared
variables, and the terms of what is posted are small. -/
structure Sound (declared : Store) (r : Request) : Prop where
  fits : r.Fits
  exact : ∀ p ∈ r.posts, p.Exact declared
  small : ∀ p ∈ r.posts, p.Small declared
  objective : ∀ direction v, r.objective? = some (direction, v) → v.Exact declared

/-- Values of variables have 32 bits, what is posted reads its views as they are, and its terms are
small. -/
structure Clear (declared : Store) (r : Request) : Prop where
  fits : r.Fits
  readable : ∀ p ∈ r.posts, p.Readable declared
  small : ∀ p ∈ r.posts, p.Small declared
  objective : ∀ direction v, r.objective? = some (direction, v) → v.Exact declared

/-- What a request comes down to. -/
inductive Effect where
  | nothing
  | create (d : ValueSet) (name : String)
  | post (p : Propagator)
  | aim (direction : Direction) (v : View)

/-- The one thing that the engine does at a request. -/
def effect : Request → Effect
  | boolean name => .create (.interval 0 1) name
  | interval lower upper name =>
    if upper < lower then .nothing else .create (.interval lower upper) name
  | oneOf values name => match ValueSet.ofValues? values with
    | none => .nothing
    | some d => .create d name
  | rule r condition => .post { rule := r, condition := condition }
  | implication antecedent consequent condition =>
    .post { rule := .implies antecedent consequent, condition := condition }
  | linear terms coefficients constant =>
    if terms.length ≠ coefficients.length then .nothing
    else .post { rule := .ofTerms (coefficients.zip terms) constant }
  | objective direction v => .aim direction v

namespace Effect

/-- What the engine does for an effect. -/
def perform : Effect → Running Unit
  | nothing => pure ()
  | create d name => modify fun e => (e.addVariable d name).2
  | post p => Running.post p
  | aim direction v => modify (·.setObjective direction v)

/-- What is declared after an effect. -/
def declare (declared : Store) : Effect → Store
  | create d _ => declared.addVariable d
  | _ => declared

/-- What is posted. -/
def posts : Effect → List Propagator
  | post p => [p]
  | _ => []

/-- The objective that is set. -/
def objective? : Effect → Option (Direction × View)
  | aim direction v => some (direction, v)
  | _ => none

end Effect

end Request

open Request

/-- What the engine does at a sequence of requests. -/
def run (requests : List Request) : Running Unit := requests.forM perform

/-- The store of the variables created by a sequence of requests. -/
def declaredStore (requests : List Request) : Store := requests.foldl declare {}

/-- The objective that is set last. -/
def lastObjective (requests : List Request) : Option (Direction × View) :=
  (requests.filterMap objective?).getLast?

/-- Every request is admissible for the variables created before it. -/
def Valid : Store → List Request → Prop
  | _, [] => True
  | declared, r :: rs => r.Admissible declared ∧ Valid (r.declare declared) rs

/-- Every request is lawful for the variables created before it. -/
def Lawful : Store → List Request → Prop
  | _, [] => True
  | declared, r :: rs => r.Lawful declared ∧ Lawful (r.declare declared) rs

/-- Every created variable has a value of its domain, and every demand is met. -/
def Satisfies (requests : List Request) (a : Valuation) : Prop :=
  (∀ (x : VarIndex) (domain : Int → Prop),
    (requests.filterMap domain?)[x]? = some domain → domain (a x)) ∧
    ∀ r ∈ requests, r.Demands a

/-- Every created variable has a value of its domain, and all that is enforced holds. -/
def Enforced (requests : List Request) (a : Valuation) : Prop :=
  (∀ (x : VarIndex) (domain : Int → Prop),
    (requests.filterMap domain?)[x]? = some domain → domain (a x)) ∧
    ∀ r ∈ requests, r.Enforces a

variable {e e' : Engine} {declared : Store} {posted : List Propagator} {r : Request}
  {requests : List Request} {a : Valuation} {v w : View}

/-! ## Views and rules as they are posted -/

namespace View

/-- The complement of a view is zero where the view is 1, even if it leaves the range. -/
theorem complement_eval_eq_zero_iff {s : Store} (hs : s.Proper) (hv : v.Created s) (ha : s.Admits a) :
    v.complement.eval a = 0 ↔ v.eval a = 1 := by
  cases v with
  | constant c =>
      have h1 := word64.clamp_cases (-c)
      have h2 := word64.clamp_cases (word64.clamp (-c) + 1)
      simp only [word64] at h1 h2
      change word64.clamp (word64.clamp (-c) + 1) = 0 ↔ c = 1
      simp only [word64]
      omega
  | affine x negated offset =>
      have hfits := ha.fits hs (hv x rfl)
      have h1 := word64.clamp_cases (-offset)
      have h2 := word64.clamp_cases (word64.clamp (-offset) + 1)
      simp only [Word.Fits, word32] at hfits
      simp only [word64] at h1 h2
      simp only [complement, negate, shift, eval_affine, raw_affine, word64]
      cases negated <;> simp only [Bool.not_true, Bool.not_false, if_true, if_false,
        Bool.false_eq_true] <;> omega

/-- The complement of a view that is 0 or 1 is exact. -/
theorem exact_complement {s : Store} (hs : s.Proper) (hv : v.Exact s)
    (hbool : ∀ a, s.Admits a → v.eval a = 0 ∨ v.eval a = 1) : v.complement.Exact s ∧
      ∀ a, s.Admits a → v.complement.eval a = 1 - v.eval a := by
  cases v with
  | constant c =>
      have hfits : word64.Fits 0 ∧ word64.Fits 1 := by decide
      rcases hbool s.least (s.admits_least hs) with rfl | rfl
      · exact ⟨hfits.2, fun _ _ => rfl⟩
      · exact ⟨hfits.1, fun _ _ => rfl⟩
  | affine x negated offset =>
      have hraw : ∀ w ∈ s.set x,
          (affine x negated offset).raw w = 0 ∨ (affine x negated offset).raw w = 1 := by
        intro w hw
        simpa using hbool _ (Store.admits_update_least hs hw)
      have hoffset : word64.clamp (word64.clamp (-offset) + 1) = 1 - offset := by
        have hlower := hraw _ (hs x hv.1).lower_mem
        have hfits := (hs x hv.1).fits (hs x hv.1).lower_mem
        have h1 := word64.clamp_cases (-offset)
        have h2 := word64.clamp_cases (word64.clamp (-offset) + 1)
        simp only [raw_affine, Word.Fits, word32] at hlower hfits
        simp only [word64] at h1 h2 ⊢
        split at hlower <;> omega
      have heval : ∀ w, (affine x (!negated) (1 - offset)).raw w =
          1 - (affine x negated offset).raw w := by
        intro w
        cases negated <;> simp [raw_affine] <;> omega
      simp only [complement, negate, shift, hoffset]
      refine ⟨⟨hv.1, fun w hw => ?_⟩, fun a _ => heval (a x)⟩
      rw [heval]
      rcases hraw w hw with h | h <;> rw [h] <;> decide

end View

namespace Linear

/-- Terms with coefficient zero do not contribute to the sum. -/
theorem sum_filter (a : Valuation) (terms : List Term) :
    sum a (terms.filter (·.1 != 0)) = sum a terms := by
  induction terms with
  | nil => rfl
  | cons t ts ih =>
      by_cases ht : t.1 = 0
      · simp [ht, ih, sum]
      · simp [ht, ih, sum]

theorem sum_zip (a : Valuation) (coefficients : List Int) (terms : List View) :
    sum a (coefficients.zip terms) =
      (List.zipWith (fun c v => c * v.eval a) coefficients terms).sum := by
  rw [sum_eq, List.zip, List.map_zipWith]
  rfl

/-- Without its zero terms a linear equality is small if the magnitudes are. -/
theorem small_filter {s : Store} {terms : List Term} {rhs : Int} (hrhs : word64.Fits rhs)
    (h : (terms.map (magnitude s)).sum < 2 ^ 126) : Small s (terms.filter (·.1 != 0)) rhs where
  rhs_fits := hrhs
  ne_zero := fun t ht => by simpa using (List.mem_filter.mp ht).2
  magnitudes := by
    refine lt_of_le_of_lt (List.Sublist.sum_le_sum (List.filter_sublist.map _) ?_) h
    intro m hm
    obtain ⟨t, -, rfl⟩ := List.mem_map.mp hm
    exact mul_nonneg (abs_nonneg _) (le_max_of_le_left (abs_nonneg _))

end Linear

/-! ## Creating variables -/

/-- A request creates at most one variable, which may take the values of its domain. -/
theorem declare_cases (hr : r.Fits) :
    r.domain? = none ∧ r.declare declared = declared ∨
      ∃ d domain, r.domain? = some domain ∧ r.declare declared = declared.addVariable d ∧
        d.Proper ∧ ∀ value, value ∈ d ↔ domain value := by
  cases r with
  | boolean name =>
      refine .inr ⟨_, _, rfl, rfl, ValueSet.proper_interval (by decide) (by decide) (by decide),
        fun value => ?_⟩
      rw [ValueSet.mem_interval]
      omega
  | interval lower upper name =>
      by_cases h : upper < lower
      · exact .inl ⟨if_pos h, if_pos h⟩
      · exact .inr ⟨_, _, if_neg h, if_neg h,
          ValueSet.proper_interval (by omega) hr.1 hr.2, fun value => ValueSet.mem_interval⟩
  | oneOf values name =>
      simp only [domain?, declare]
      cases hd : ValueSet.ofValues? values with
      | none => exact .inl ⟨if_pos (ValueSet.ofValues?_eq_none_iff.mp hd), rfl⟩
      | some d =>
          have hne : values ≠ [] := fun h => by
            rw [ValueSet.ofValues?_eq_none_iff.mpr h] at hd
            cases hd
          exact .inr ⟨d, _, if_neg hne, rfl, ValueSet.proper_ofValues? hd hr,
            fun value => ValueSet.mem_ofValues? hd⟩
  | _ => exact .inl ⟨rfl, rfl⟩

theorem extends_declare (r : Request) (declared : Store) : declared.Extends (r.declare declared) := by
  cases r with
  | boolean name => exact declared.extends_addVariable _
  | interval lower upper name =>
      simp only [declare]
      split
      · exact .refl _
      · exact declared.extends_addVariable _
  | oneOf values name =>
      simp only [declare]
      split
      · exact .refl _
      · exact declared.extends_addVariable _
  | _ => exact .refl _

theorem extends_foldl_declare (requests : List Request) (declared : Store) :
    declared.Extends (requests.foldl declare declared) := by
  induction requests generalizing declared with
  | nil => exact .refl _
  | cons r rs ih => exact (extends_declare r declared).trans (ih _)

theorem Request.Lawful.fits (h : r.Lawful declared) : r.Fits := by
  cases r <;> first | exact h | trivial

theorem proper_declare (hs : declared.Proper) (hr : r.Fits) : (r.declare declared).Proper := by
  rcases declare_cases hr with ⟨-, heq⟩ | ⟨d, _, -, heq, hd, -⟩
  · rwa [heq]
  · rw [heq]
    exact Store.proper_addVariable hs hd

/-- The store of the created variables admits the valuations that respect the domains. -/
theorem admits_foldl_declare (hlawful : Lawful declared requests) :
    (requests.foldl declare declared).Admits a ↔ declared.Admits a ∧
      ∀ (i : Nat) (domain : Int → Prop), (requests.filterMap domain?)[i]? = some domain →
        domain (a (declared.numVariables + i)) := by
  induction requests generalizing declared with
  | nil => simp
  | cons r rs ih =>
      rw [List.foldl_cons, ih hlawful.2]
      rcases declare_cases hlawful.1.fits with
        ⟨hnone, hdeclare⟩ | ⟨d, domain, hsome, hdeclare, -, hmem⟩
      · rw [hdeclare, List.filterMap_cons_none hnone]
      · rw [hdeclare, List.filterMap_cons_some hsome, Store.admits_addVariable, hmem, and_assoc,
          Store.numVariables_addVariable]
        refine and_congr_right fun _ => ⟨fun ⟨hfirst, hrest⟩ i dom hi => ?_, fun h => ⟨?_, ?_⟩⟩
        · cases i with
          | zero =>
              obtain rfl := Option.some.inj hi
              exact hfirst
          | succ i =>
              have := hrest i dom hi
              rwa [show declared.numVariables + 1 + i = declared.numVariables + (i + 1) by omega]
                at this
        · exact h 0 domain rfl
        · intro i dom hi
          have := h (i + 1) dom hi
          rwa [show declared.numVariables + 1 + i = declared.numVariables + (i + 1) by omega]

/-! ## Posting constraints -/

theorem enforce_eq (rule : Rule) (condition : Option View) :
    enforce rule condition = Running.post { rule := rule, condition := condition } := by
  cases condition <;> rfl

/-- Admissible requests are lawful. -/
theorem Request.Admissible.lawful (hr : r.Admissible declared) : r.Lawful declared := by
  cases r with
  | rule r condition =>
      have hexact : r.Exact declared ∧ ∀ c ∈ condition, c.Exact declared := by
        cases r <;> first | exact hr | exact hr.elim
      have hreadable : r.Readable declared ∧ ∀ c ∈ condition, c.Created declared :=
        ⟨hexact.1.readable, fun c hc => (hexact.2 c hc).created⟩
      cases r <;> first | exact hreadable | exact hr.elim
  | implication antecedent consequent condition =>
      exact ⟨hr.1.1.created, hr.2.1.created, fun c hc => (hr.2.2 c hc).created⟩
  | _ => exact hr

/-- A lawful request posts propagators that read their views as they are. -/
theorem readable_posts (hr : r.Lawful declared) : ∀ p ∈ r.posts, p.Readable declared := by
  cases r with
  | rule r condition =>
      have hreadable : r.Readable declared ∧ ∀ c ∈ condition, c.Created declared := by
        cases r <;> first | exact hr | exact hr.elim
      intro p hp
      obtain rfl := List.mem_singleton.mp hp
      exact ⟨hreadable.1, hreadable.2⟩
  | implication antecedent consequent condition =>
      obtain ⟨hante, hcons, hcond⟩ := hr
      intro p hp
      obtain rfl := List.mem_singleton.mp hp
      refine ⟨fun v hv => ?_, hcond⟩
      rcases List.mem_pair.mp hv with rfl | rfl
      · exact hante.complement
      · exact hcons
  | linear terms coefficients constant =>
      intro p hp
      simp only [posts] at hp
      split at hp
      · cases hp
      · obtain rfl := List.mem_singleton.mp hp
        refine ⟨fun v hv => ?_, by simp⟩
        obtain ⟨t, ht, rfl⟩ := List.mem_map.mp hv
        exact hr.1 _ (List.of_mem_zip (List.mem_filter.mp ht).1).2
  | _ => simp [posts]

/-- What a lawful request posts is small. -/
theorem small_posts (hr : r.Lawful declared) : ∀ p ∈ r.posts, p.Small declared := by
  cases r with
  | rule r condition =>
      intro p hp
      obtain rfl := List.mem_singleton.mp hp
      cases r <;> first | exact hr.elim | trivial
  | implication antecedent consequent condition =>
      intro p hp
      obtain rfl := List.mem_singleton.mp hp
      trivial
  | linear terms coefficients constant =>
      intro p hp
      simp only [posts] at hp
      split at hp
      · cases hp
      · obtain rfl := List.mem_singleton.mp hp
        exact Linear.small_filter hr.2.1 hr.2.2
  | _ => simp [posts]

theorem Request.Lawful.clear (hr : r.Lawful declared) : r.Clear declared where
  fits := hr.fits
  readable := readable_posts hr
  small := small_posts hr
  objective := by
    cases r with
    | objective direction v =>
        intro direction' v' hv
        obtain ⟨-, rfl⟩ := Prod.mk.inj (Option.some.inj hv)
        exact hr
    | _ => exact nofun

/-- What a lawful request posts holds exactly if what it enforces does. -/
theorem posts_hold_iff_enforces (hs : declared.Proper) (hr : r.Lawful declared)
    (ha : declared.Admits a) : (∀ p ∈ r.posts, p.Holds a) ↔ r.Enforces a := by
  have hholds : ∀ (rule : Rule) (condition : Option View),
      (Propagator.mk rule condition).Holds a ↔
        ((∀ c ∈ condition, c.eval a ≠ 0) → rule.Holds a) := by
    intro rule condition
    cases condition <;> simp [Propagator.Holds]
  cases r with
  | rule r condition => simp only [posts, List.forall_mem_singleton, hholds, Enforces, Demands]
  | implication antecedent consequent condition =>
      have hcompl := View.complement_eval_eq_zero_iff hs hr.1 ha
      have himplies : (Rule.implies antecedent consequent).Holds a ↔
          (antecedent.eval a = 1 → consequent.eval a ≠ 0) := by
        simp only [Rule.implies, Rule.Holds, List.exists_mem_cons_iff, List.not_mem_nil, false_and,
          exists_false, or_false, ne_eq, hcompl]
        tauto
      simp only [posts, List.forall_mem_singleton, hholds, himplies, Enforces]
  | linear terms coefficients constant =>
      by_cases h : terms.length = coefficients.length
      · simp [posts, h, hholds, Enforces, Demands, Rule.ofTerms, Rule.Holds, Linear.sum_filter,
          Linear.sum_zip]
      · simp [posts, h, Enforces, Demands]
  | _ => simp [posts, Enforces, Demands]

/-- What is demanded is enforced. -/
theorem Request.Demands.enforces (h : r.Demands a) : r.Enforces a := by
  cases r with
  | implication antecedent consequent condition =>
      exact fun hcond hone => h hcond (hone ▸ one_ne_zero)
  | _ => exact h

/-- What is enforced was demanded, unless it is an implication with an antecedent beyond 0 and 1. -/
theorem Request.Enforces.demands (h : r.Enforces a)
    (hante : ∀ antecedent consequent condition, r = .implication antecedent consequent condition →
      antecedent.eval a = 0 ∨ antecedent.eval a = 1) : r.Demands a := by
  cases r with
  | implication antecedent consequent condition =>
      exact fun hcond hne => h hcond ((hante _ _ _ rfl).resolve_left hne)
  | _ => exact h

theorem Request.Admissible.enforces_iff (hr : r.Admissible declared) (ha : declared.Admits a) :
    r.Enforces a ↔ r.Demands a := by
  refine ⟨fun h => h.demands fun antecedent consequent condition heq => ?_, fun h => h.enforces⟩
  subst heq
  exact hr.1.2 a ha

/-- One more valid request. -/
theorem valid_concat :
    Valid declared (requests ++ [r]) ↔
      Valid declared requests ∧ r.Admissible (requests.foldl declare declared) := by
  induction requests generalizing declared with
  | nil => simp [Valid]
  | cons q rs ih => simp [Valid, ih, and_assoc]

/-! ## Performing requests -/

theorem perform_linear (terms : List View) (coefficients : List Int) (constant : Int) (e : Engine) :
    (linear terms coefficients constant).perform e =
      if terms.length ≠ coefficients.length then .ok () e
      else Running.post { rule := .ofTerms (coefficients.zip terms) constant } e := by
  simp only [perform, Running.postLinear]
  split
  · rfl
  · change EStateM.map (fun _ => ()) (EStateM.bind (Running.post _) fun _ => EStateM.pure _) e = _
    simp only [EStateM.map, EStateM.bind]
    generalize Running.post _ e = r
    cases r <;> rfl

namespace Request

theorem perform_eq (r : Request) (e : Engine) : r.perform e = r.effect.perform e := by
  cases r with
  | boolean name => rfl
  | interval lower upper name =>
      change EStateM.Result.ok () (created e (e.createInterval lower upper name)) = _
      simp only [effect, createInterval]
      split <;> rfl
  | oneOf values name =>
      change EStateM.Result.ok () (created e (e.createValues values name)) = _
      simp only [effect, createValues]
      cases ValueSet.ofValues? values <;> rfl
  | rule r condition => rw [perform, enforce_eq]; rfl
  | implication antecedent consequent condition => rw [perform, enforce_eq]; rfl
  | linear terms coefficients constant =>
      rw [perform_linear]
      simp only [effect]
      split <;> rfl
  | objective direction v => rfl

theorem declare_eq (r : Request) (declared : Store) :
    r.declare declared = r.effect.declare declared := by
  cases r with
  | interval lower upper name =>
      simp only [declare, effect]
      split <;> rfl
  | oneOf values name =>
      simp only [declare, effect]
      cases ValueSet.ofValues? values <;> rfl
  | linear terms coefficients constant =>
      simp only [declare, effect]
      split <;> rfl
  | _ => rfl

theorem posts_eq (r : Request) : r.posts = r.effect.posts := by
  cases r with
  | interval lower upper name =>
      simp only [posts, effect]
      split <;> rfl
  | oneOf values name =>
      simp only [posts, effect]
      cases ValueSet.ofValues? values <;> rfl
  | linear terms coefficients constant =>
      simp only [posts, effect]
      split <;> rfl
  | _ => rfl

theorem objective?_eq (r : Request) : r.objective? = r.effect.objective? := by
  cases r with
  | interval lower upper name =>
      simp only [objective?, effect]
      split <;> rfl
  | oneOf values name =>
      simp only [objective?, effect]
      cases ValueSet.ofValues? values <;> rfl
  | linear terms coefficients constant =>
      simp only [objective?, effect]
      split <;> rfl
  | _ => rfl

/-- A created variable has a proper value set. -/
theorem proper_of_effect {d : ValueSet} {name : String} (hr : r.Fits)
    (heffect : r.effect = .create d name) : d.Proper := by
  cases r with
  | boolean name =>
      cases heffect
      exact ValueSet.proper_interval (by decide) (by decide) (by decide)
  | interval lower upper name =>
      simp only [effect] at heffect
      split at heffect
      · cases heffect
      · cases heffect
        exact ValueSet.proper_interval (by omega) hr.1 hr.2
  | oneOf values name =>
      simp only [effect] at heffect
      split at heffect
      · cases heffect
      · next hd =>
        cases heffect
        exact ValueSet.proper_ofValues? hd hr
  | linear terms coefficients constant =>
      simp only [effect] at heffect
      split at heffect <;> cases heffect
  | _ => cases heffect

theorem Sound.clear (hr : r.Sound declared) : r.Clear declared where
  fits := hr.fits
  readable := fun p hp => (hr.exact p hp).readable
  small := hr.small
  objective := hr.objective

end Request

/-- A clear request is performed, and the engine recalls it. -/
theorem recalled (h : Recalls e declared posted) (hsmall : ∀ p ∈ posted, p.Small declared)
    (hr : r.Clear declared) :
    ∃ e', r.perform e = .ok () e' ∧ Recalls e' (r.declare declared) (posted ++ r.posts) ∧
      (∀ p ∈ posted ++ r.posts, p.Small (r.declare declared)) ∧
      e'.objective = r.objective?.or e.objective := by
  have hsmall' : ∀ p ∈ posted ++ r.posts, p.Small (r.declare declared) := fun p hp => by
    obtain ⟨hreadable, hsmall⟩ : p.Readable declared ∧ p.Small declared :=
      (List.mem_append.mp hp).elim (fun hp => ⟨h.readable p hp, hsmall p hp⟩)
        fun hp => ⟨hr.readable p hp, hr.small p hp⟩
    exact (hreadable.small_extend_iff (extends_declare r declared)).mpr hsmall
  have hreadable := hr.readable
  have hobjective := hr.objective
  rw [posts_eq] at hreadable hsmall'
  rw [objective?_eq] at hobjective
  rw [declare_eq] at hsmall'
  rw [perform_eq, declare_eq, posts_eq, objective?_eq]
  cases heffect : r.effect with
  | nothing =>
      rw [heffect] at hsmall'
      exact ⟨e, rfl, by simpa [Effect.posts, Effect.declare] using h, hsmall', rfl⟩
  | create d name =>
      rw [heffect] at hsmall'
      refine ⟨_, rfl, ?_, hsmall', rfl⟩
      simpa [Effect.posts, Effect.declare] using
        h.addVariable (proper_of_effect hr.fits heffect) name
  | post p =>
      rw [heffect] at hreadable hsmall'
      match hrun : Running.post p e, h.post (hreadable p (List.mem_singleton_self p)) with
      | .ok _ e', ⟨hrecalls, hobj⟩ => exact ⟨e', hrun, hrecalls, hsmall', hobj⟩
      | .error f _, ⟨_, hlarge⟩ => exact absurd hsmall' hlarge
  | aim direction v =>
      rw [heffect] at hobjective hsmall'
      refine ⟨_, rfl, ?_, hsmall', rfl⟩
      simpa [Effect.posts, Effect.declare] using
        h.setObjective direction (hobjective direction v rfl)

/-- A sound request is performed, and the engine keeps track of it. -/
theorem performed (h : Tracks e declared posted) (hsmall : ∀ p ∈ posted, p.Small declared)
    (hr : r.Sound declared) :
    ∃ e', r.perform e = .ok () e' ∧ Tracks e' (r.declare declared) (posted ++ r.posts) ∧
      (∀ p ∈ posted ++ r.posts, p.Small (r.declare declared)) ∧
      e'.objective = r.objective?.or e.objective := by
  obtain ⟨e', hrun, hrecalls, hsmall', hobj⟩ := recalled h.recalls hsmall hr.clear
  have hexact : ∀ p ∈ posted ++ r.posts, p.Exact (r.declare declared) := fun p hp =>
    ((List.mem_append.mp hp).elim (h.exact p) (hr.exact p)).extend (extends_declare r declared)
  exact ⟨e', hrun, hrecalls.tracks hexact, hsmall', hobj⟩

theorem run_cons (r : Request) (rs : List Request) (e : Engine) :
    run (r :: rs) e = match r.perform e with
      | .ok _ e' => run rs e'
      | .error f e' => .error f e' := by
  simp only [run, List.forM_eq_forM, List.forM_cons, bind, EStateM.bind]
  cases r.perform e <;> rfl

/-- Lawful requests are performed, and the engine recalls them. -/
theorem recalls_run (h : Recalls e declared posted) (hsmall : ∀ p ∈ posted, p.Small declared)
    (hlawful : Lawful declared requests) :
    ∃ e', run requests e = .ok () e' ∧
      Recalls e' (requests.foldl declare declared) (posted ++ requests.flatMap posts) ∧
      (∀ p ∈ posted ++ requests.flatMap posts, p.Small (requests.foldl declare declared)) ∧
      e'.objective = (lastObjective requests).or e.objective := by
  induction requests generalizing e declared posted with
  | nil => exact ⟨e, rfl, by simpa using h, by simpa using hsmall, rfl⟩
  | cons r rs ih =>
      obtain ⟨e₁, hrun, hrecalls, hsmall₁, hobj⟩ := recalled h hsmall hlawful.1.clear
      obtain ⟨e₂, hrun', hrecalls', hsmall₂, hobj'⟩ := ih hrecalls hsmall₁ hlawful.2
      refine ⟨e₂, ?_, ?_, ?_, ?_⟩
      · rw [run_cons, hrun]
        exact hrun'
      · simpa using hrecalls'
      · simpa using hsmall₂
      · rw [hobj', hobj, ← Option.or_assoc]
        congr 1
        cases hr : r.objective? with
        | none => simp [lastObjective, hr]
        | some o => simp [lastObjective, hr, List.getLast?_cons]

/-- What the requests have posted holds exactly if all that is enforced holds. -/
theorem all_posts_hold_iff (hs : declared.Proper) (hlawful : Lawful declared requests)
    (ha : (requests.foldl declare declared).Admits a) :
    (∀ p ∈ requests.flatMap posts, p.Holds a) ↔ ∀ r ∈ requests, r.Enforces a := by
  induction requests generalizing declared with
  | nil => simp
  | cons r rs ih =>
      have hdecl := (extends_foldl_declare (r :: rs) declared).admits ha
      have hproper := proper_declare hs hlawful.1.fits
      simp only [List.flatMap_cons, List.forall_mem_append, List.forall_mem_cons,
        posts_hold_iff_enforces hs hlawful.1 hdecl, ih hproper hlawful.2 ha]

/-- The solutions of what was declared and posted are the valuations that respect what is enforced. -/
theorem solves_iff_enforced (hlawful : Lawful {} requests) :
    Solves (declaredStore requests) (requests.flatMap posts) a ↔ Enforced requests a := by
  have hempty : Store.Proper {} := fun x hx => by simp [Store.numVariables] at hx
  have hadmits := admits_foldl_declare (a := a) hlawful
  have hnone : Store.Admits {} a := fun x hx => by simp [Store.numVariables] at hx
  have hzero : Store.numVariables {} = 0 := rfl
  simp only [hnone, true_and, hzero, Nat.zero_add] at hadmits
  rw [Solves, Enforced, declaredStore]
  constructor
  · rintro ⟨ha, hposts⟩
    exact ⟨hadmits.mp ha, (all_posts_hold_iff hempty hlawful ha).mp hposts⟩
  · rintro ⟨ha, henforced⟩
    have ha' := hadmits.mpr ha
    exact ⟨ha', (all_posts_hold_iff hempty hlawful ha').mpr henforced⟩

/-! ## Valid requests -/

/-- Valid requests are lawful. -/
theorem Valid.lawful (h : Valid declared requests) : Lawful declared requests := by
  induction requests generalizing declared with
  | nil => trivial
  | cons r rs ih => exact ⟨h.1.lawful, ih h.2⟩

/-- What valid requests enforce is what they demand. -/
theorem Valid.enforces_iff (hvalid : Valid declared requests)
    (ha : (requests.foldl declare declared).Admits a) :
    (∀ r ∈ requests, r.Enforces a) ↔ ∀ r ∈ requests, r.Demands a := by
  induction requests generalizing declared with
  | nil => simp
  | cons r rs ih =>
      have hdecl := (extends_foldl_declare (r :: rs) declared).admits ha
      simp only [List.forall_mem_cons, hvalid.1.enforces_iff hdecl, ih hvalid.2 ha]

/-- The solutions of what was declared and posted are the valuations that satisfy valid requests. -/
theorem solves_iff_satisfies (hvalid : Valid {} requests) :
    Solves (declaredStore requests) (requests.flatMap posts) a ↔ Satisfies requests a := by
  constructor
  · intro h
    obtain ⟨hdomains, henforces⟩ := (solves_iff_enforced hvalid.lawful).mp h
    exact ⟨hdomains, (hvalid.enforces_iff h.1).mp henforces⟩
  · rintro ⟨hdomains, hdemands⟩
    exact (solves_iff_enforced hvalid.lawful).mpr ⟨hdomains, fun r hr => (hdemands r hr).enforces⟩

end FiniteDomain.Engine
