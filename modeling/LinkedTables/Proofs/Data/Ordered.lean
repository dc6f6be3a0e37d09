import Mathlib

/-!
# Lists in order of dependence

A list is in order if each thing in it comes after all that it depends on. It stays so with one more
thing at the end that depends on things of the list only (`InOrder.concat`). A list in order has
everything that its things rest on (`InOrder.mem_of_leads`), and without repetition none of them
rests on itself (`InOrder.not_cyclic`).
-/

namespace LinkedTables

variable {α : Type} {R : α → α → Prop} {xs : List α}

/-- Each thing of a list comes after all that it depends on. -/
def InOrder (R : α → α → Prop) (xs : List α) : Prop :=
  ∀ before x rest, xs = before ++ x :: rest → ∀ y, R x y → y ∈ before

theorem inOrder_nil : InOrder R [] := by simp [InOrder]

theorem InOrder.concat (h : InOrder R xs) {x : α} (hx : ∀ y, R x y → y ∈ xs) :
    InOrder R (xs ++ [x]) := by
  intro before z rest heq y hy
  rcases List.eq_nil_or_concat rest with rfl | ⟨rest', last, rfl⟩
  · obtain ⟨rfl, hlast⟩ := List.append_inj' heq rfl
    obtain rfl : x = z := by simpa using hlast
    exact hx y hy
  · have hsplit : xs ++ [x] = (before ++ z :: rest') ++ [last] := by simpa using heq
    obtain ⟨rfl, -⟩ := List.append_inj' hsplit rfl
    exact h before z rest' rfl y hy

/-- What a thing of the list rests on stands before it. -/
theorem InOrder.mem_before (h : InOrder R xs) {before rest : List α} {x y : α}
    (hxs : xs = before ++ x :: rest) (hy : Relation.TransGen R x y) : y ∈ before := by
  induction hy with
  | single hy => exact h before x rest hxs _ hy
  | tail _ hread ih =>
    obtain ⟨front, back, rfl⟩ := List.append_of_mem ih
    exact List.mem_append_left _ (h front _ (back ++ x :: rest) (by simp [hxs]) _ hread)

theorem InOrder.mem_of_leads (h : InOrder R xs) {x y : α} (hx : x ∈ xs)
    (hy : Relation.ReflTransGen R x y) : y ∈ xs := by
  obtain ⟨before, rest, hxs⟩ := List.append_of_mem hx
  rcases Relation.reflTransGen_iff_eq_or_transGen.1 hy with rfl | hy
  · exact hx
  · exact hxs ▸ List.mem_append_left _ (h.mem_before hxs hy)

theorem InOrder.not_cyclic (h : InOrder R xs) (hnodup : xs.Nodup) {x : α} (hx : x ∈ xs) :
    ¬ Relation.TransGen R x x := by
  intro hcycle
  obtain ⟨before, rest, hxs⟩ := List.append_of_mem hx
  rw [hxs] at hnodup
  exact List.disjoint_of_nodup_append hnodup (h.mem_before hxs hcycle) List.mem_cons_self

end LinkedTables
