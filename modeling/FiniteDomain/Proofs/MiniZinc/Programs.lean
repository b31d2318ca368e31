import FiniteDomain.MiniZinc.Program
import FiniteDomain.Proofs.Collection
import FiniteDomain.Proofs.Text.Scanning
import Mathlib.Data.List.Nodup
import Mathlib.Logic.Function.Iterate
import Mathlib.Tactic.Push

/-!
# Names and declarations of a program

The name of a variable is the first of its candidates that no declared variable has. There are
more candidates than declared variables, so one of them is free. A declaration stays, and with
it the name of its variable; and the text of an expression or a constraint uses the names of
the variables that are written in it only.
-/

namespace FiniteDomain.MiniZinc

open Text

/-! ## Free names -/

/-- The name after the suffix was appended a number of times. -/
def appended (suffix name : String) (count : Nat) : String := (· ++ suffix)^[count] name

theorem appended_succ (suffix name : String) (count : Nat) :
    appended suffix name (count + 1) = appended suffix (name ++ suffix) count := rfl

theorem length_appended (suffix name : String) (count : Nat) :
    (appended suffix name count).length = name.length + count * suffix.length := by
  induction count generalizing name with
  | zero => simp [appended]
  | succ count ih =>
      rw [appended_succ, ih, String.length_append, Nat.succ_mul]
      omega

/-- A suffix that is not empty makes another name each time. -/
theorem appended_injective {suffix : String} (hsuffix : 0 < suffix.length) (name : String) :
    Function.Injective (appended suffix name) := by
  intro i j h
  have hlength := congrArg String.length h
  simp only [length_appended, Nat.add_left_cancel_iff] at hlength
  exact Nat.eq_of_mul_eq_mul_right hsuffix hlength

/-- The search takes the first name that is free, or the last one that it looks at. -/
theorem firstFree_eq (taken : List String) (suffix name : String) (count : Nat) :
    ∃ k ≤ count, firstFree taken suffix count name = appended suffix name k ∧
      (∀ j < k, appended suffix name j ∈ taken) ∧
      (k < count → appended suffix name k ∉ taken) := by
  induction count generalizing name with
  | zero => exact ⟨0, Nat.le_refl 0, rfl, by simp, by simp⟩
  | succ count ih =>
      rw [firstFree]
      split
      · next htaken =>
        obtain ⟨k, hk, heq, hbefore, hfree⟩ := ih (name ++ suffix)
        refine ⟨k + 1, by omega, heq, fun j hj => ?_, fun hlt => hfree (by omega)⟩
        cases j with
        | zero => exact List.contains_iff_mem.mp htaken
        | succ j => exact hbefore j (by omega)
      · next hfree =>
        exact ⟨0, Nat.zero_le _, rfl, by simp, fun _ h => hfree (List.contains_iff_mem.mpr h)⟩

/-! ## Candidates -/

/-- What a character that is not left out becomes. -/
def sanitized (c : Char) : Char :=
  if c == ',' || c == '.' || c == ' ' || c == '[' then '_' else c

theorem toList_sanitize (name : String) :
    (sanitize name).toList = (name.toList.filter (· != ']')).map sanitized := String.toList_ofList

/-- The candidates for the name of a variable, in the order in which they are tried. -/
def candidate (x : Variable) (count : Nat) : String :=
  appended ("_" ++ toString x.id) (sanitize x.name) count

theorem candidate_zero (x : Variable) : candidate x 0 = sanitize x.name := rfl

theorem toList_candidate_succ (x : Variable) (count : Nat) :
    (candidate x (count + 1)).toList = (candidate x count).toList ++ '_' :: numeral x.id := by
  rw [candidate, appended, Function.iterate_succ_apply', String.toList_append,
    String.toList_append, toList_toString_nat]
  rfl

/-- A candidate with a number ends in a digit. -/
theorem candidate_succ_ne {name : String} (hname : ∀ c ∈ name.toList.getLast?, c.isDigit = false)
    (x : Variable) (count : Nat) : candidate x (count + 1) ≠ name := by
  rintro rfl
  have hlast : numeral x.id ≠ [] := numeral_ne_nil x.id
  have hdigit := isDigit_of_mem_numeral (List.getLast_mem hlast)
  rw [hname ((numeral x.id).getLast hlast)] at hdigit
  · exact Bool.false_ne_true hdigit
  · rw [toList_candidate_succ, List.getLast?_append_cons, List.getLast?_cons,
      List.getLast?_eq_some_getLast hlast]
    rfl

/-- The name is the first of the candidates for the variable that is not taken. -/
def IsFirstFree (taken : List String) (x : Variable) (name : String) : Prop :=
  ∃ k, name = candidate x k ∧ name ∉ taken ∧ ∀ j < k, candidate x j ∈ taken

theorem candidate_injective (x : Variable) : Function.Injective (candidate x) := by
  refine appended_injective ?_ _
  rw [String.length_append]
  exact Nat.lt_of_lt_of_le Nat.zero_lt_one (Nat.le_add_right 1 _)

/-- Not all of the candidates up to the number of taken names can be taken. -/
theorem exists_free_candidate (taken : List String) (x : Variable) :
    ∃ k ≤ taken.length, candidate x k ∉ taken := by
  by_contra hall
  push Not at hall
  have hnodup : ((List.range (taken.length + 1)).map (candidate x)).Nodup :=
    List.Nodup.map (candidate_injective x) List.nodup_range
  have hsubset : (List.range (taken.length + 1)).map (candidate x) ⊆ taken := by
    intro name hname
    obtain ⟨k, hk, rfl⟩ := List.mem_map.mp hname
    exact hall k (Nat.le_of_lt_succ (List.mem_range.mp hk))
  have hlength := List.Nodup.length_le_of_subset hnodup hsubset
  rw [List.length_map, List.length_range] at hlength
  omega

/-! ## Variables in the order in which they are met -/

variable {x y : Variable}

/-- The variables of the second list are appended to the first one, unless they are in it. -/
def met (xs ys : List Variable) : List Variable := ys.foldl (fun xs x => x.addTo xs) xs

/-- Every variable is met, or another one with its number. -/
theorem exists_mem_met (xs : List Variable) {ys : List Variable} (hy : y ∈ ys) :
    ∃ x ∈ met xs ys, x.id = y.id := exists_mem_foldl_addTo xs hy

theorem mem_of_mem_met {xs ys : List Variable} (hx : x ∈ met xs ys) : x ∈ xs ∨ x ∈ ys :=
  mem_foldl_addTo hx

namespace Program

variable {p q : Program} {id : VarId} {name : String}

/-- As many candidates are looked at as it takes to find a free one. -/
theorem isFirstFree_freeName (p : Program) (x : Variable) :
    IsFirstFree p.taken x (p.freeName x) := by
  obtain ⟨k, hk, heq, hbefore, hfree⟩ :=
    firstFree_eq p.taken ("_" ++ toString x.id) (sanitize x.name) p.taken.length
  refine ⟨k, heq, ?_, hbefore⟩
  -- The search stops at the first free candidate, so it gets no further than to this one.
  obtain ⟨j, hj, hjfree⟩ := exists_free_candidate p.taken x
  have hle : k ≤ j := Nat.le_of_not_lt fun hlt => hjfree (hbefore j hlt)
  rw [freeName, heq]
  rcases Nat.lt_or_eq_of_le (Nat.le_trans hle hj) with hlt | rfl
  · exact hfree hlt
  · obtain rfl : j = p.taken.length := Nat.le_antisymm hj hle
    exact hjfree

/-! ## Declarations -/

/-- The declared variables, in order. -/
def declared (p : Program) : List Variable := p.declarations.toList.map (·.var)

theorem name?_eq (p : Program) (id : VarId) :
    p.name? id = (p.declarations.toList.find? (·.var.id == id)).map (·.name) := by
  rw [name?, Array.find?_toList]

theorem isSome_name?_iff : (p.name? id).isSome ↔ ∃ x ∈ p.declared, x.id = id := by
  simp [name?_eq, declared]

/-- The second program has the declarations of the first one, and more after them. -/
def Extends (p q : Program) : Prop := p.declarations.toList <+: q.declarations.toList

theorem Extends.refl (p : Program) : p.Extends p := List.prefix_refl _

theorem Extends.trans {r : Program} (hpq : p.Extends q) (hqr : q.Extends r) : p.Extends r :=
  List.IsPrefix.trans hpq hqr

/-- A declared variable keeps its name. -/
theorem Extends.name?_eq (h : p.Extends q) (hname : p.name? id = some name) :
    q.name? id = some name := by
  obtain ⟨later, hlater⟩ := h
  rw [Program.name?_eq, Option.map_eq_some_iff] at hname ⊢
  obtain ⟨d, hd, hname⟩ := hname
  exact ⟨d, by rw [← hlater, List.find?_append, hd, Option.some_or], hname⟩

theorem Extends.names_eq (h : p.Extends q) (hid : (p.name? id).isSome) :
    q.names id = p.names id := by
  obtain ⟨name, hname⟩ := Option.isSome_iff_exists.mp hid
  rw [names, names, hname, h.name?_eq hname]

/-- The numbers of the declared variables differ, and each name was the first that was free. -/
structure Orderly (p : Program) : Prop where
  ids_nodup : (p.declared.map (·.id)).Nodup
  first_free : ∀ before d after, p.declarations.toList = before ++ d :: after →
    IsFirstFree (before.map (·.name)) d.var d.name

/-- The name of a declared variable is the one in its declaration. -/
theorem Orderly.names_eq (h : p.Orderly) {d : Declaration} (hd : d ∈ p.declarations.toList) :
    p.names d.var.id = d.name := by
  obtain ⟨before, after, hsplit⟩ := List.append_of_mem hd
  have hnodup := h.ids_nodup
  rw [declared, hsplit] at hnodup
  have hnotMem : ∀ e ∈ before, ¬ (e.var.id == d.var.id) = true := by
    intro e he heq
    simp only [List.map_append, List.map_cons, List.nodup_append] at hnodup
    exact hnodup.2.2 e.var.id (List.mem_map_of_mem (List.mem_map_of_mem he)) d.var.id
      List.mem_cons_self (beq_iff_eq.mp heq)
  rw [names, name?_eq, hsplit, List.find?_append, List.find?_eq_none.mpr hnotMem]
  simp

theorem Orderly.declarations_eq (h : p.Orderly) :
    p.declarations.toList = p.declared.map fun x => ⟨x, p.names x.id⟩ := by
  rw [declared, List.map_map]
  refine (List.map_id' _).symm.trans (List.map_congr_left fun d hd => ?_)
  rw [Function.comp_apply, h.names_eq hd]

/-- Two declarations with the same name are the same. -/
theorem Orderly.eq_of_name_eq (h : p.Orderly) {d e : Declaration}
    (hd : d ∈ p.declarations.toList) (he : e ∈ p.declarations.toList) (hname : d.name = e.name) :
    d = e := by
  have hlater : ∀ before d after, p.declarations.toList = before ++ d :: after →
      ∀ e ∈ before, e.name ≠ d.name := by
    intro before d after hsplit e he heq
    obtain ⟨k, -, hfree, -⟩ := h.first_free before d after hsplit
    exact hfree (heq ▸ List.mem_map_of_mem he)
  obtain ⟨before, after, hsplit⟩ := List.append_of_mem hd
  rw [hsplit, List.mem_append, List.mem_cons] at he
  rcases he with he | rfl | he
  · exact absurd hname.symm (hlater before d after hsplit e he)
  · rfl
  · obtain ⟨between, rest, rfl⟩ := List.append_of_mem he
    rw [← List.cons_append, ← List.append_assoc] at hsplit
    exact absurd hname (hlater _ e rest hsplit d (by simp))

/-- Two declarations of variables with the same number are the same. -/
theorem Orderly.eq_of_id_eq (h : p.Orderly) {d e : Declaration} (hd : d ∈ p.declarations.toList)
    (he : e ∈ p.declarations.toList) (hid : d.var.id = e.var.id) : d = e :=
  h.eq_of_name_eq hd he (by rw [← h.names_eq hd, ← h.names_eq he, hid])

/-- Who has a name that does not end in a digit asked for it. -/
theorem Orderly.sanitize_eq_of_name_eq (h : p.Orderly) {d : Declaration}
    (hd : d ∈ p.declarations.toList) (hname : ∀ c ∈ d.name.toList.getLast?, c.isDigit = false) :
    sanitize d.var.name = d.name := by
  obtain ⟨before, after, hsplit⟩ := List.append_of_mem hd
  obtain ⟨k, hk, -, -⟩ := h.first_free before d after hsplit
  cases k with
  | zero => rw [hk, candidate_zero]
  | succ k => exact absurd hk.symm (candidate_succ_ne hname d.var k)

/-- Such a name belongs to the first of those that ask for it. -/
theorem Orderly.name_eq_iff (h : p.Orderly) {d : Declaration} (hd : d ∈ p.declarations.toList)
    (hname : ∀ c ∈ name.toList.getLast?, c.isDigit = false) :
    d.name = name ↔ p.declarations.toList.find? (sanitize ·.var.name == name) = some d := by
  have hfirst : ∀ e, p.declarations.toList.find? (sanitize ·.var.name == name) = some e →
      e.name = name := by
    intro e he
    obtain ⟨hsanitize, before, after, hsplit, hbefore⟩ := List.find?_eq_some_iff_append.mp he
    obtain ⟨k, hk, -, htaken⟩ := h.first_free before e after hsplit
    cases k with
    | zero => rw [hk, candidate_zero, beq_iff_eq.mp hsanitize]
    | succ k =>
        obtain ⟨e', he', heq⟩ := List.mem_map.mp (htaken 0 (Nat.succ_pos k))
        rw [candidate_zero, beq_iff_eq.mp hsanitize] at heq
        have hasked := h.sanitize_eq_of_name_eq (d := e') (by rw [hsplit]; simp [he'])
          (heq ▸ hname)
        have hother := hbefore e' he'
        simp [hasked, heq] at hother
  constructor
  · rintro rfl
    cases hfind : p.declarations.toList.find? (sanitize ·.var.name == d.name) with
    | none =>
        exact absurd (h.sanitize_eq_of_name_eq hd hname)
          (by simpa using List.find?_eq_none.mp hfind d hd)
    | some e => rw [h.eq_of_name_eq (List.mem_of_find?_eq_some hfind) hd (hfirst e hfind)]
  · exact hfirst d

/-! ## Declaring variables -/

theorem declare_of_declared (h : (p.name? x.id).isSome) : p.declare x = p := by
  rw [declare, if_pos h]

theorem declarations_declare (h : ¬ (p.name? x.id).isSome) :
    (p.declare x).declarations.toList = p.declarations.toList ++ [⟨x, p.freeName x⟩] := by
  rw [declare, if_neg h, Array.toList_push]

theorem declared_declare (p : Program) (x : Variable) :
    (p.declare x).declared = x.addTo p.declared := by
  have hany : p.declared.any (·.id == x.id) = (p.name? x.id).isSome := by
    rw [Bool.eq_iff_iff, isSome_name?_iff]
    simp
  rw [Variable.addTo, hany]
  split
  · next h => rw [declare_of_declared h]
  · next h =>
    simp only [declared]
    rw [declarations_declare h, List.map_append]
    rfl

theorem extends_declare (p : Program) (x : Variable) : p.Extends (p.declare x) := by
  by_cases h : (p.name? x.id).isSome
  · rw [declare_of_declared h]
    exact .refl p
  · rw [Extends, declarations_declare h]
    exact List.prefix_append _ _

theorem Orderly.declare (h : p.Orderly) (x : Variable) : (p.declare x).Orderly := by
  by_cases hx : (p.name? x.id).isSome
  · rwa [declare_of_declared hx]
  refine ⟨?_, fun before d after hsplit => ?_⟩
  · have hnotMem : ∀ y ∈ p.declared, y.id ≠ x.id := fun y hy hid =>
      hx (isSome_name?_iff.mpr ⟨y, hy, hid⟩)
    rw [declared, declarations_declare hx, List.map_append, List.map_append, List.nodup_append]
    refine ⟨h.ids_nodup, List.nodup_singleton _, fun id hid last hlast => ?_⟩
    obtain ⟨y, hy, rfl⟩ := List.mem_map.mp hid
    obtain rfl := List.mem_singleton.mp hlast
    exact hnotMem y hy
  · rw [declarations_declare hx] at hsplit
    rcases List.eq_nil_or_concat after with rfl | ⟨rest, last, rfl⟩
    · obtain ⟨rfl, hlast⟩ := List.append_inj' hsplit rfl
      obtain rfl := List.singleton_inj.mp hlast
      exact isFirstFree_freeName p x
    · rw [List.concat_eq_append, ← List.cons_append, ← List.append_assoc] at hsplit
      exact h.first_free before d rest (List.append_inj' hsplit rfl).1

theorem declareAll_cons (p : Program) (x : Variable) (xs : List Variable) :
    p.declareAll (x :: xs) = (p.declare x).declareAll xs := rfl

theorem declared_declareAll (p : Program) (xs : List Variable) :
    (p.declareAll xs).declared = met p.declared xs := by
  induction xs generalizing p with
  | nil => rfl
  | cons x xs ih => rw [declareAll_cons, ih, declared_declare, met, met, List.foldl_cons]

theorem extends_declareAll (p : Program) (xs : List Variable) : p.Extends (p.declareAll xs) := by
  induction xs generalizing p with
  | nil => exact .refl p
  | cons x xs ih => exact (extends_declare p x).trans (ih (p.declare x))

theorem Orderly.declareAll (h : p.Orderly) (xs : List Variable) : (p.declareAll xs).Orderly := by
  induction xs generalizing p with
  | nil => exact h
  | cons x xs ih => exact ih (h.declare x)

end Program

end FiniteDomain.MiniZinc
