import FiniteDomain.Proofs.InProcess.Lowering
import FiniteDomain.Proofs.Session.Histories

/-!
# What stays from command to command

Whatever a session does, and whether it succeeds or not, what was posted before still stands, and
what was known to have a view still has one. Posting a constraint supplies views for the variables
that it binds, and setting an objective supplies views for its variables. Solving and enumerating
track no variables.
-/

namespace FiniteDomain

namespace InProcess

variable {s s' : Lowering.State InProcess} {x : Variable}

/-- The variable has a view, or no solution is found any more. -/
def Supplied (s : Lowering.State InProcess) (x : Variable) : Prop := Met s x ∨ Doomed s

theorem Later.supplied (h : Later s s') (hx : Supplied s x) : Supplied s' x :=
  hx.imp h.met h.doomed

theorem supplied_of_post {c : Constraint} (hs : Ready s) (h : post c s = .ok () s') :
    ∀ x ∈ c.bound, Supplied s' x := fun x hx => by
  have hlowered := lowered_post hs c
  rw [h] at hlowered
  exact hlowered.2.2 x (.inr ⟨c, List.mem_cons_self, hx⟩)

end InProcess

namespace Session

open InProcess (Ready Later Leads Supplied Ended)

variable {α β : Type} {s s' s'' : Session InProcess} {action : Action InProcess α}
  {c : Constraint} {e objective : Expr} {direction : Direction} {xs ys : List Variable}

/-- The session goes on to a state in which everything still stands. -/
structure Onward (s s' : Session InProcess) : Prop where
  ready : Ready s'.lowering
  later : Later s.lowering s'.lowering

theorem Onward.trans (h : Onward s s') (h' : Onward s' s'') : Onward s s'' :=
  ⟨h'.ready, h.later.trans h'.later⟩

theorem onward_of_leads {cs : List Constraint} (h : Leads cs s.lowering s'.lowering) : Onward s s' :=
  ⟨h.ready, h.later⟩

/-- Nothing happens to the engine. -/
theorem onward_of_backend (hs : Ready s.lowering)
    (h : s'.lowering.backend = s.lowering.backend) : Onward s s' :=
  ⟨hs.of_backend h, InProcess.later_of_backend h⟩

/-! ## Actions that track nothing -/

/-- The same variables are tracked as well. -/
structure Remains (s s' : Session InProcess) : Prop extends Onward s s' where
  tracked_eq : s'.tracked = s.tracked

theorem Remains.trans (h : Remains s s') (h' : Remains s' s'') : Remains s s'' :=
  ⟨h.toOnward.trans h'.toOnward, h'.tracked_eq.trans h.tracked_eq⟩

theorem remains_of_backend (hs : Ready s.lowering)
    (h : s'.lowering.backend = s.lowering.backend) (htracked : s'.tracked = s.tracked) :
    Remains s s' :=
  ⟨onward_of_backend hs h, htracked⟩

/-- The session remains what it was, with an error or without one. -/
def Settles {σ : Type} (session : σ → Session InProcess) (s : Session InProcess) :
    EStateM.Result Stop σ α → Prop
  | .ok _ t | .error (.error _) t => Remains s (session t)
  | .error .overflow _ => True

theorem Settles.after {σ : Type} {session : σ → Session InProcess} {r : EStateM.Result Stop σ α}
    (h : Remains s s') (hr : Settles session s' r) : Settles session s r := by
  match r, hr with
  | .ok _ _, hr => exact h.trans hr
  | .error (.error _) _, hr => exact h.trans hr
  | .error .overflow _, _ => trivial

/-- From every state between two calls. -/
def Settling (action : Action InProcess α) : Prop :=
  ∀ s, Ready s.lowering → Settles id s (action s)

theorem Settling.pure {a : α} : Settling (Pure.pure a) := fun _ hs => remains_of_backend hs rfl rfl

theorem Settling.get : Settling (get : Action InProcess (Session InProcess)) := fun _ hs =>
  remains_of_backend hs rfl rfl

theorem Settling.bind {next : α → Action InProcess β} (h : Settling action)
    (hnext : ∀ a, Settling (next a)) : Settling (action >>= next) := by
  intro s hs
  have hfirst := h s hs
  simp only [Bind.bind, EStateM.bind]
  generalize action s = r at hfirst
  match r, hfirst with
  | .ok a s', hfirst => exact .after hfirst (hnext a s' hfirst.ready)
  | .error (.error _) _, hfirst => exact hfirst
  | .error .overflow _, _ => trivial

theorem Settling.modify {f : Session InProcess → Session InProcess}
    (hf : ∀ s, (f s).lowering.backend = s.lowering.backend ∧ (f s).tracked = s.tracked) :
    Settling (modify f) := fun s hs => remains_of_backend hs (hf s).1 (hf s).2

theorem Settling.onBackend {action : InProcess.Action α} {cs : List Constraint}
    (h : ∀ {s s'}, Ready s → Ended action s s' → Leads cs s s') :
    Settling (onBackend action) := by
  intro s hs
  simp only [Session.onBackend]
  generalize hrun : action s.lowering = r
  rcases r with ⟨a, lowering⟩ | ⟨e | _, lowering⟩
  · exact ⟨onward_of_leads (h hs (.inl ⟨a, hrun⟩)), rfl⟩
  · exact ⟨onward_of_leads (h hs (.inr ⟨e, hrun⟩)), rfl⟩
  · trivial

theorem Settling.note {event : Event} : Settling (note event) := fun _ hs =>
  remains_of_backend hs rfl rfl

theorem settling_postUntracked (c : Constraint) :
    Settling (postUntracked c : Action InProcess Unit) :=
  .bind .note fun _ => .onBackend fun hs h => InProcess.leads_post hs h

theorem settling_aim : Settling (aim e objective direction) :=
  .bind (.onBackend fun hs h => InProcess.leads_setObjective hs h) fun _ =>
    .bind .note fun _ => .modify fun _ => ⟨rfl, rfl⟩

theorem settling_readValues (xs : List Variable) :
    Settling (readValues xs : Action InProcess Unit) := fun s hs => by
  obtain ⟨journal, hrun⟩ := readValues_apply xs s
  rw [hrun]
  exact remains_of_backend hs rfl rfl

/-- What is set is the state that was read. -/
theorem settling_readObjective : Settling (readObjective : Action InProcess Unit) := fun s hs => by
  simp only [readObjective, Bind.bind, EStateM.bind, get_apply]
  cases s.objective with
  | none => exact remains_of_backend hs rfl rfl
  | some aim =>
      simp only
      cases aim.1.evaluate s.value with
      | ok v => exact remains_of_backend hs rfl rfl
      | error e =>
          cases e with
          | undefined => exact remains_of_backend hs rfl rfl
          | overflow => trivial

theorem settling_conclude (status : SolverStatus) :
    Settling (conclude status : Action InProcess Bool) := by
  refine .bind (.modify fun _ => ⟨rfl, rfl⟩) fun _ => .bind .note fun _ => ?_
  split
  · exact .pure
  · exact .bind .get fun s => .bind (settling_readValues s.tracked) fun _ =>
      .bind settling_readObjective fun _ => .pure

theorem settling_solve (options : SolveOptions) :
    Settling (solve options : Action InProcess Bool) := fun s hs => by
  rw [solve_inProcess]
  match hrun : InProcess.solve options s.lowering with
  | .ok status lowering =>
      have hsolved : Remains s { s.cleared with lowering, runtime := some .measured } :=
        ⟨onward_of_leads (InProcess.leads_solve hs (.inl ⟨status, hrun⟩)), rfl⟩
      exact .after hsolved (settling_conclude status.unify _ hsolved.ready)
  | .error (.error e) lowering =>
      exact ⟨onward_of_leads (InProcess.leads_solve hs (.inr ⟨e, hrun⟩)), rfl⟩
  | .error .overflow lowering => trivial

end Session

namespace Iteration

open InProcess (Ready announce)
open Session (Remains Settles Settling)

variable {it it' : Iteration InProcess}

theorem settling_announce (cs : List Constraint) :
    Settling (Session.onBackend (cs.forM announce)) := by
  induction cs with
  | nil => exact .pure
  | cons c cs ih =>
      have hfirst : Session.onBackend (announce c) = Session.postUntracked c :=
        onBackend_bind (Lowering.note _) fun _ => InProcess.post c
      rw [List.forM_eq_forM] at ih
      rw [List.forM_eq_forM, List.forM_cons, onBackend_bind, hfirst]
      exact (Session.settling_postUntracked c).bind fun _ => ih

theorem settles_seek (hs : Ready it.session.lowering) :
    Settles Iteration.session it.session (seek it) := by
  have hsolve := Session.settling_solve it.options it.session hs
  rw [seek_eq]
  match Session.solve it.options it.session, hsolve with
  | .ok true _, hsolve => exact hsolve.trans (Session.remains_of_backend hsolve.ready rfl rfl)
  | .ok false _, hsolve => exact hsolve
  | .error (.error _) _, hsolve => exact hsolve
  | .error .overflow _, _ => trivial

theorem settles_next (hs : Ready it.session.lowering) :
    Settles Iteration.session it.session (next it) := by
  have hposted := settling_announce it.exclusion it.session hs
  rw [next_eq]
  match Session.onBackend (it.exclusion.forM announce) it.session, hposted with
  | .ok _ session, hposted => exact .after hposted (settles_seek hposted.ready)
  | .error (.error _) _, hposted => exact hposted
  | .error .overflow _, _ => trivial

theorem remains_of_advance {steps : Nat} (hs : Ready it.session.lowering)
    (h : it.advance steps = some it') : Remains it.session it'.session := by
  induction steps generalizing it with
  | zero =>
      obtain rfl := Option.some.inj h
      exact Session.remains_of_backend hs rfl rfl
  | succ steps ih =>
      have hnext := settles_next hs
      rw [advance] at h
      generalize next it = r at hnext h
      rcases r with ⟨reply, it₁⟩ | ⟨_ | _, it₁⟩
      · exact hnext.trans (ih hnext.ready h)
      · exact hnext.trans (ih hnext.ready h)
      · cases h

theorem settles_collect (count : Nat) (found : List (List (VarId × Int)))
    (hs : Ready it.session.lowering) :
    Settles Iteration.session it.session (collect count found it) := by
  induction count generalizing it found with
  | zero => exact Session.remains_of_backend hs rfl rfl
  | succ count ih =>
      have hnext := settles_next hs
      rw [collect_succ]
      generalize next it = r at hnext
      rcases r with ⟨reply, it₁⟩ | ⟨_ | _, it₁⟩
      · cases reply with
        | solution values => exact .after hnext (ih _ hnext.ready)
        | _ => exact hnext
      · exact hnext
      · trivial

end Iteration

namespace Session

open InProcess (Ready Supplied)

variable {s s' : Session InProcess} {c : Constraint} {e objective : Expr} {direction : Direction}
  {xs ys zs : List Variable}

theorem settling_enumerate (limit : Option Nat) (options : SolveOptions) :
    Settling (enumerate limit options : Action InProcess _) := fun s hs => by
  rw [enumerate]
  cases hit : s.iteration? options with
  | error e => exact remains_of_backend hs rfl rfl
  | ok it =>
      obtain ⟨-, rfl⟩ := iteration?_eq_ok_iff.mp hit
      have hcollect : Settles Iteration.session s (Iteration.collect
          (limit.getD (Backend.solveBound s.lowering.backend s.tracked)) []
          { session := s, options }) := Iteration.settles_collect _ [] hs
      simp only
      generalize Iteration.collect (limit.getD (Backend.solveBound s.lowering.backend s.tracked)) []
        { session := s, options } = r at hcollect
      rcases r with ⟨⟨found, _ | e⟩, it'⟩ | ⟨_ | _, it'⟩
      · exact hcollect.trans (remains_of_backend hcollect.ready rfl rfl)
      · exact hcollect
      · exact hcollect
      · trivial

/-! ## Actions that track variables -/

/-- The action goes on. If it succeeds then the second variables are supplied, and it tracks only
the first variables and others that are supplied. -/
def Supplies (xs ys : List Variable) (s : Session InProcess) :
    EStateM.Result Stop (Session InProcess) Unit → Prop
  | .ok _ s' => Onward s s' ∧ (∀ x ∈ ys, Supplied s'.lowering x) ∧
      ∀ x ∈ s'.tracked, x ∈ s.tracked ∨ x ∈ xs ∨ Supplied s'.lowering x
  | .error (.error _) s' => Onward s s'
  | .error .overflow _ => True

/-- A session posts a constraint as its backend does, and tracks its variables. -/
theorem post_apply (c : Constraint) (s : Session InProcess) : ∃ journal,
    post c s = onBackend (InProcess.post c) { s with
      lowering := { s.lowering with journal }
      tracked := c.vars.foldl (fun tracked x => x.addTo tracked) s.tracked } :=
  ⟨s.lowering.journal.push (.posting c "api"), rfl⟩

theorem supplies_post (hs : Ready s.lowering) (c : Constraint) :
    Supplies c.occurrences c.bound s (post c s) := by
  obtain ⟨journal, hpost⟩ := post_apply c s
  have hnoted : Ready { s.lowering with journal } := hs.of_backend rfl
  have hlater : InProcess.Later s.lowering { s.lowering with journal } :=
    InProcess.later_of_backend rfl
  rw [hpost, onBackend]
  simp only
  generalize hrun : InProcess.post c { s.lowering with journal } = r
  rcases r with ⟨_, lowering⟩ | ⟨e | _, lowering⟩
  · have hleads := InProcess.leads_post hnoted (.inl ⟨_, hrun⟩)
    exact ⟨⟨hleads.ready, hlater.trans hleads.later⟩, InProcess.supplied_of_post hnoted hrun,
      fun x hx => (mem_foldl_addTo hx).imp_right fun hx => .inl (mem_of_collected hx)⟩
  · have hleads := InProcess.leads_post hnoted (.inr ⟨e, hrun⟩)
    exact ⟨hleads.ready, hlater.trans hleads.later⟩
  · trivial

theorem supplied_of_aim (hs : Ready s.lowering) (h : aim e objective direction s = .ok () s') :
    ∀ x ∈ e.occurrences, Supplied s'.lowering x := by
  simp only [aim, Bind.bind, EStateM.bind, onBackend] at h
  cases hrun : InProcess.setObjective e direction s.lowering with
  | ok _ lowering =>
      rw [hrun] at h
      cases h
      exact fun x hx => .inl (InProcess.met_of_setObjective hs hrun x hx)
  | error stop lowering =>
      rw [hrun] at h
      cases h

theorem supplies_aim (hs : Ready s.lowering) :
    Supplies [] e.occurrences s (aim e objective direction s) := by
  have hsettles : Settles id s (aim e objective direction s) := settling_aim s hs
  match hrun : aim e objective direction s, hsettles with
  | .ok _ s', hsettles =>
    exact ⟨hsettles.toOnward, supplied_of_aim hs hrun, fun x hx => .inl (hsettles.tracked_eq ▸ hx)⟩
  | .error (.error _) s', hsettles => exact hsettles.toOnward
  | .error .overflow _, _ => trivial

/-- An action that goes on after others have supplied variables. -/
theorem Supplies.after {r : EStateM.Result Stop (Session InProcess) Unit} (h : Onward s s')
    (hsupplied : ∀ x ∈ ys, x ∈ zs ∨ Supplied s'.lowering x)
    (htracked : ∀ x ∈ s'.tracked, x ∈ s.tracked ∨ x ∈ xs ∨ Supplied s'.lowering x)
    (hr : Supplies [] zs s' r) : Supplies xs ys s r := by
  match r, hr with
  | .ok _ s'', ⟨honward, hsupplied', htracked'⟩ =>
    refine ⟨h.trans honward, fun x hx => ?_, fun x hx => ?_⟩
    · exact (hsupplied x hx).elim (hsupplied' x) honward.later.supplied
    · rcases htracked' x hx with hx | hx | hx
      · exact (htracked x hx).imp_right (Or.imp_right honward.later.supplied)
      · cases hx
      · exact .inr (.inr hx)
  | .error (.error _) _, honward => exact h.trans honward
  | .error .overflow _, _ => trivial

/-- An expression that is not an atom is named by a variable that is supplied with it. -/
theorem supplies_aimNamed (hs : Ready s.lowering) :
    Supplies [] e.occurrences s (aimNamed e direction s) := by
  let name := e.auxiliaryVar s.lowering.nextId
  let s₁ : Session InProcess := { s with
    lowering := { s.lowering with nextId := s.lowering.nextId + 1 } }
  have hnamed : Onward s s₁ := onward_of_backend hs rfl
  have hpost := supplies_post hnamed.ready (.eq e (.ofInt name))
  have hrun : aimNamed e direction s = (do
      post (.eq e (.ofInt name))
      track [.int name]
      aim (.ofInt name) e direction : Action InProcess Unit) s₁ := rfl
  rw [hrun]
  simp only [Bind.bind, EStateM.bind]
  match post (.eq e (.ofInt name)) s₁, hpost with
  | .ok _ s₂, ⟨honward, hsupplied, htracked⟩ =>
    -- the definition binds the name, which is tracked already when it is tracked by itself
    let s₃ : Session InProcess := { s₂ with
      tracked := [Variable.int name].foldl (fun tracked x => x.addTo tracked) s₂.tracked }
    have hlast : Onward s₂ s₃ := onward_of_backend honward.ready rfl
    refine Supplies.after ((hnamed.trans honward).trans hlast)
      (fun x hx => .inr (hsupplied x (List.mem_append_left _ hx))) (fun x hx => ?_)
      (supplies_aim hlast.ready)
    have hname : Supplied s₂.lowering (.int name) :=
      hsupplied _ (List.mem_append_right _ List.mem_cons_self)
    rcases mem_foldl_addTo hx with hx | hx
    · refine (htracked x hx).imp_right fun hx => .inr (hx.elim (fun hx => hsupplied x hx) id)
    · exact .inr (.inr (List.mem_singleton.mp hx ▸ hname))
  | .error (.error _) _, honward => exact hnamed.trans honward
  | .error .overflow _, _ => trivial

theorem supplies_setObjective (hs : Ready s.lowering) (hnormalizer : s.normalizer = .canonical) :
    Supplies e.occurrences e.occurrences s (setObjective e direction s) := by
  let s₁ : Session InProcess := { s with
    tracked := e.vars.foldl (fun tracked x => x.addTo tracked) s.tracked }
  have hrun : setObjective e direction s =
      (if e.isAtom then aim e e direction else aimNamed e direction : Action InProcess Unit) s₁ :=
    setObjective_eq hnormalizer
  have hbegun : Onward s s₁ := onward_of_backend hs rfl
  rw [hrun]
  refine .after hbegun (fun _ hx => .inl hx)
    (fun x hx => (mem_foldl_addTo hx).imp_right fun hx => .inl (mem_of_collected hx)) ?_
  split
  · exact supplies_aim hbegun.ready
  · exact supplies_aimNamed hbegun.ready

end Session

end FiniteDomain
