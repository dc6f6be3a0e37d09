import LinkedTables.Json.Fields
import LinkedTables.Proofs.Json.RoundTrip
import Mathlib.Data.List.Perm.Lattice

/-!
# The order of fields does not matter

An object whose field names differ is read from its fields by their names, in whatever order they
stand (`record?_of_perm`). So a reader of records is indifferent to how the fields of an object are
arranged, as long as they are kept and what is in them is arranged in the same way
(`Json.Arrangement`). Leaving everything as it was written is one arrangement; sorting the fields of
every object is another (`arrangement_sorted`).
-/

namespace LinkedTables

namespace Json

section Objects

theorem eraseDups_of_nodup : ∀ {names : List String}, names.Nodup → names.eraseDups = names
  | [], _ => rfl
  | name :: names, h => by
    rw [List.nodup_cons] at h
    have hkeep : names.filter (fun n => !n == name) = names :=
      List.filter_eq_self.2 fun n hn => by
        simp only [Bool.not_eq_true', beq_eq_false_iff_ne]
        rintro rfl
        exact h.1 hn
    rw [List.eraseDups_cons, hkeep, eraseDups_of_nodup h.2]

theorem lookup_of_mem : ∀ {fields : List (String × Json)}, (fields.map Prod.fst).Nodup →
    ∀ f ∈ fields, fields.lookup f.1 = some f.2
  | [], _, f, hf => by cases hf
  | g :: fields, h, f, hf => by
    rw [List.map_cons, List.nodup_cons] at h
    rcases List.mem_cons.1 hf with rfl | hf
    · exact List.lookup_cons_self
    · have hne : f.1 ≠ g.1 := by
        intro heq
        exact h.1 (heq ▸ List.mem_map_of_mem hf)
      rw [List.lookup_cons, beq_eq_false_iff_ne.2 hne]
      exact lookup_of_mem h.2 f hf

/-- An object has the fields that were written, in any order, if their names differ. -/
theorem record?_of_perm {fields written : List (String × Json)} {names : List String}
    (hperm : fields.Perm written) (hnames : written.map Prod.fst = names) (h : names.Nodup) :
    (object fields).record? names = some (written.map fun f => some f.2) := by
  subst hnames
  have hpermNames : (fields.map Prod.fst).Perm (written.map Prod.fst) := hperm.map Prod.fst
  have hnodup : (fields.map Prod.fst).Nodup := hpermNames.nodup_iff.2 h
  have hknown : (fields.map Prod.fst).filter (written.map Prod.fst).contains =
      fields.map Prod.fst :=
    List.filter_eq_self.2 fun n hn => List.contains_iff_mem.2 (hpermNames.mem_iff.1 hn)
  have hlookup : (written.map Prod.fst).map (fun n => fields.lookup n) =
      written.map fun f => some f.2 := by
    rw [List.map_map]
    exact List.map_congr_left fun f hf => lookup_of_mem hnodup f (hperm.mem_iff.2 hf)
  simp only [record?, hknown, eraseDups_of_nodup hnodup, beq_self_eq_true, if_true, hlookup]

end Objects

section Arrange

/-- A way to arrange the fields of objects that readers of records are indifferent to. -/
structure Arrangement (arranged : Json → Json) : Prop where
  text_eq : ∀ s, arranged (.text s) = .text s
  nat_eq : ∀ n, arranged (.nat n) = .nat n
  list_eq : ∀ items, arranged (.list items) = .list (items.map arranged)
  plain_object : ∀ {fields : List (String × Json)}, (∀ f ∈ fields, (arranged f.2).Plain) →
    (arranged (.object fields)).Plain
  record?_object : ∀ {fields : List (String × Json)} {names : List String},
    fields.map Prod.fst = names → names.Nodup →
      (arranged (.object fields)).record? names = some (fields.map fun f => some (arranged f.2))

theorem arrangement_written : Arrangement fun j => j where
  text_eq _ := rfl
  nat_eq _ := rfl
  list_eq items := by rw [List.map_id']
  plain_object := .object
  record?_object := record?_of_perm (.refl _)

end Arrange

section Sorted

theorem sorted_text (s : String) : sorted (.text s) = .text s := by simp [sorted]

theorem sorted_nat (n : Nat) : sorted (nat n) = nat n := by simp [sorted, nat]

theorem sortedItems_eq_map : ∀ items : List Json, sortedItems items = items.map sorted
  | [] => by rw [sortedItems, List.map_nil]
  | j :: items => by rw [sortedItems, List.map_cons, sortedItems_eq_map items]

theorem insertField_perm (f : String × Json) : ∀ fields : List (String × Json),
    (insertField f fields).Perm (f :: fields)
  | [] => .refl _
  | g :: fields => by
    rw [insertField]
    split_ifs with hle
    · exact .refl _
    · exact ((insertField_perm f fields).cons g).trans (.swap f g fields)

/-- Sorting moves the fields of an object and sorts what is in them. -/
theorem sortedFields_perm : ∀ fields : List (String × Json),
    (sortedFields fields).Perm (fields.map fun f => (f.1, sorted f.2))
  | [] => by rw [sortedFields]; exact .refl _
  | (name, j) :: fields => by
    rw [sortedFields, List.map_cons]
    exact (insertField_perm (name, sorted j) _).trans ((sortedFields_perm fields).cons _)

theorem arrangement_sorted : Arrangement sorted where
  text_eq := sorted_text
  nat_eq := sorted_nat
  list_eq items := by rw [sorted, sortedItems_eq_map]
  plain_object := by
    intro fields h
    rw [sorted]
    refine .object fun f hf => ?_
    obtain ⟨g, hg, rfl⟩ := List.mem_map.1 ((sortedFields_perm fields).mem_iff.1 hf)
    exact h g hg
  record?_object := by
    intro fields names hnames hnodup
    rw [sorted, record?_of_perm (sortedFields_perm fields) (by rw [List.map_map]; exact hnames) hnodup,
      List.map_map]
    rfl

end Sorted

end Json

end LinkedTables
