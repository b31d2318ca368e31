import FiniteDomain.Variable

/-!
# Collecting variables

A list of variables takes up the members of another list, one after the other. What it has stays
where it is. Behind it come the members whose numbers it does not have yet, in their order, and each
number once; so afterwards it has a variable for every number of either list.
-/

namespace FiniteDomain

variable {x y : Variable} {before occurring added : List Variable}

/-- What a list of variables grows by when it takes up those that occur somewhere. -/
structure Additions (before occurring added : List Variable) : Prop where
  /-- Only variables that occur are added, in their order. -/
  sublist : added.Sublist occurring
  /-- No number is added twice. -/
  distinct : (added.map Variable.id).Nodup
  /-- No number is added that the list has. -/
  fresh : ∀ x ∈ added, ∀ y ∈ before, y.id ≠ x.id
  /-- Afterwards the list has every number that occurs. -/
  complete : ∀ x ∈ occurring, ∃ y ∈ before ++ added, y.id = x.id

namespace Additions

theorem nil : Additions before [] [] where
  sublist := List.Sublist.refl []
  distinct := List.nodup_nil
  fresh := by simp
  complete := by simp

/-- A variable whose number the list has is passed over. -/
theorem skip (h : Additions before occurring added) (hx : ∃ y ∈ before, y.id = x.id) :
    Additions before (x :: occurring) added where
  sublist := h.sublist.cons x
  distinct := h.distinct
  fresh := h.fresh
  complete := by
    refine List.forall_mem_cons.mpr ⟨?_, h.complete⟩
    obtain ⟨y, hy, hid⟩ := hx
    exact ⟨y, List.mem_append_left added hy, hid⟩

/-- A variable whose number the list does not have is the first to be added. -/
theorem cons (h : Additions (before ++ [x]) occurring added) (hx : ∀ y ∈ before, y.id ≠ x.id) :
    Additions before (x :: occurring) (x :: added) where
  sublist := h.sublist.cons_cons x
  distinct := by
    rw [List.map_cons, List.nodup_cons]
    refine ⟨fun hmem => ?_, h.distinct⟩
    obtain ⟨y, hy, hid⟩ := List.mem_map.mp hmem
    exact h.fresh y hy x (by simp) hid.symm
  fresh := List.forall_mem_cons.mpr
    ⟨hx, fun y hy z hz => h.fresh y hy z (List.mem_append_left _ hz)⟩
  complete := by
    rw [List.append_cons]
    exact List.forall_mem_cons.mpr ⟨⟨x, by simp, rfl⟩, h.complete⟩

end Additions

/-- Taking up variables one after the other adds those that are new. -/
theorem exists_additions (before occurring : List Variable) : ∃ added,
    occurring.foldl (fun xs x => x.addTo xs) before = before ++ added ∧
      Additions before occurring added := by
  induction occurring generalizing before with
  | nil => exact ⟨[], (List.append_nil before).symm, .nil⟩
  | cons x occurring ih =>
      rw [List.foldl_cons, Variable.addTo]
      split
      · next hany =>
        obtain ⟨added, heq, h⟩ := ih before
        exact ⟨added, heq, h.skip (by simpa using hany)⟩
      · next hnone =>
        obtain ⟨added, heq, h⟩ := ih (before ++ [x])
        exact ⟨x :: added, heq.trans (List.append_cons before x added).symm,
          h.cons (by simpa using hnone)⟩

theorem prefix_foldl_addTo : before <+: occurring.foldl (fun xs x => x.addTo xs) before := by
  obtain ⟨added, heq, -⟩ := exists_additions before occurring
  exact ⟨added, heq.symm⟩

theorem mem_foldl_addTo (hx : x ∈ occurring.foldl (fun xs x => x.addTo xs) before) :
    x ∈ before ∨ x ∈ occurring := by
  obtain ⟨added, heq, h⟩ := exists_additions before occurring
  rw [heq] at hx
  exact (List.mem_append.mp hx).imp_right fun hx => h.sublist.subset hx

theorem mem_of_collected (hx : x ∈ occurring.foldl (fun xs x => x.addTo xs) []) : x ∈ occurring :=
  (mem_foldl_addTo hx).resolve_left List.not_mem_nil

/-- Every variable that occurs is in the list afterwards, or another one with its number. -/
theorem exists_mem_foldl_addTo (before : List Variable) (hx : x ∈ occurring) :
    ∃ y ∈ occurring.foldl (fun xs x => x.addTo xs) before, y.id = x.id := by
  obtain ⟨added, heq, h⟩ := exists_additions before occurring
  rw [heq]
  exact h.complete x hx

end FiniteDomain
