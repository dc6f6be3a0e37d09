import LinkedTables.Proofs.Data.Datasets
import LinkedTables.Proofs.Data.Loops

/-!
# What a variable takes

A variable needs a name and dimensions that are there, each named once (`fits_of_withVariable`). Over
them it takes one number of values, the number of their positions in 64 bits, and with any other it is
refused, both numbers being told (`Fits.withVariable_eq`). It is put in under its name and no other
variable is found differently (`lookup_insert`); the variables stay in the order of their names, so
that a name has only one of them (`Built.sorted`).

So the steps that extend a dataset keep it valid, and each of them changes what it names and nothing
else (`steps_exact`). Below `2 ^ 64` positions the number of values is the exact product of the sizes.
From there on it is not: a variable with no values is taken over two dimensions with `2 ^ 64`
positions (`withVariable_wraps`).
-/

namespace LinkedTables

namespace Dataset

/-- The number of positions over some dimensions, however large it is. -/
def positions (ds : Dataset) (dims : List String) : Nat :=
  (dims.map fun d => ((ds.dim? d).map Dimension.size).getD 0).prod

/-- A name and dimensions for a variable: they are there, each named once. -/
structure Fits (ds : Dataset) (name : String) (dims : List String) : Prop where
  named : Text.isName name.toList = true
  nodup : dims.Nodup
  known : ∀ d ∈ dims, d ∈ ds.dims.map Dimension.name

/-- The variables stand in the order of their names, each of which they have once. -/
def Sorted (vars : List (String × Variable)) : Prop := vars.Pairwise fun p q => p.1 < q.1

section Named

/-- One variable is put in, and all others are found as before. -/
theorem lookup_insert (name other : String) (v : Variable) : ∀ vars : List (String × Variable),
    (insert name v vars).lookup other = if other = name then some v else vars.lookup other
  | [] => by rw [insert, lookup_cons]
  | (n, w) :: rest => by
    by_cases heq : n = name
    · subst heq
      simp only [insert, beq_self_eq_true, if_true, lookup_cons]
      split_ifs <;> rfl
    · simp only [insert, beq_eq_false_iff_ne.2 heq, Bool.false_eq_true, if_false]
      by_cases hlt : name < n
      · rw [if_pos hlt, lookup_cons]
      · rw [if_neg hlt, lookup_cons, lookup_insert name other v rest, lookup_cons]
        by_cases hother : other = name
        · rw [if_pos hother, if_pos hother, if_neg (hother ▸ Ne.symm heq)]
        · rw [if_neg hother, if_neg hother]

theorem sorted_insert {name : String} {v : Variable} : ∀ {vars : List (String × Variable)},
    Sorted vars → Sorted (insert name v vars)
  | [], _ => by simp [insert, Sorted]
  | (n, w) :: rest, h => by
    obtain ⟨hfirst, hrest⟩ := List.pairwise_cons.1 h
    simp only [insert]
    split_ifs with heq hlt
    · obtain rfl : n = name := by simpa using heq
      exact List.pairwise_cons.2 ⟨hfirst, hrest⟩
    · refine List.pairwise_cons.2 ⟨fun p hp => ?_, h⟩
      rcases List.mem_cons.1 hp with rfl | hp
      · exact hlt
      · exact hlt.trans (hfirst p hp)
    · have hgt : n < name := lt_of_le_of_ne (not_lt.1 hlt) (by simpa using heq)
      refine List.pairwise_cons.2 ⟨fun p hp => ?_, sorted_insert hrest⟩
      rcases mem_insert hp with rfl | hp
      · exact hgt
      · exact hfirst p hp

theorem Built.sorted {ds : Dataset} (h : ds.Built) : Sorted ds.vars := by
  induction h with
  | empty => exact List.Pairwise.nil
  | withDim _ step ih =>
    obtain ⟨-, -, rfl⟩ := withDim_ok step
    exact ih
  | withVariable _ step ih =>
    obtain ⟨-, _, rfl, -⟩ := withVariable_ok step
    exact sorted_insert ih

end Named

section Count

variable {ds : Dataset}

/-- The sizes of dimensions by their positions are those by their names. -/
theorem Valid.extent_eq (hv : ds.Valid) {indices : List Nat}
    (hlt : ∀ i ∈ indices, i < ds.dims.length) :
    ds.extent indices = ds.positions (ds.dimNames indices) := by
  rw [extent, positions, Dataset.dimNames, List.map_map]
  refine congrArg List.prod (List.map_congr_left fun i hi => ?_)
  have hd := List.getElem?_eq_getElem (hlt i hi)
  simp [dimSize_of_getElem? hd, dimName_of_getElem? hd, dim?_of_getElem? hv hd]

/-- Distinct positions have distinct names. -/
theorem Valid.nodup_dimNames (hv : ds.Valid) {indices : List Nat} (hnd : indices.Nodup)
    (hlt : ∀ i ∈ indices, i < ds.dims.length) :
    (ds.dimNames indices).Nodup := by
  refine hnd.map_on fun i hi j hj hij => ?_
  rw [dimName_of_getElem? (List.getElem?_eq_getElem (hlt i hi)),
    dimName_of_getElem? (List.getElem?_eq_getElem (hlt j hj))] at hij
  have hi' : i < (ds.dims.map Dimension.name).length := by simpa using hlt i hi
  have hj' : j < (ds.dims.map Dimension.name).length := by simpa using hlt j hj
  have heq : (ds.dims.map Dimension.name)[i] = (ds.dims.map Dimension.name)[j] := by simpa using hij
  exact hv.distinct.getElem_inj_iff.1 heq

theorem dimName_mem {i : Nat} (hi : i < ds.dims.length) :
    ds.dimName i ∈ ds.dims.map Dimension.name := by
  rw [dimName_of_getElem? (List.getElem?_eq_getElem hi)]
  exact List.mem_map_of_mem (List.getElem_mem hi)

/-- Dimensions that are there are laid out, if none of them is named twice. -/
theorem layOut_of_known {var : String} : ∀ {dims : List String} {found : List Nat}
    {count : UInt64}, dims.Nodup → (∀ d ∈ dims, d ∈ ds.dims.map Dimension.name) →
      (∀ i ∈ found, ds.dimName i ∉ dims) → ∃ laid, ds.layOut var found count dims = .ok laid
  | [], found, count, _, _, _ => ⟨(found, count), rfl⟩
  | d :: dims, found, count, hnd, hknown, hfound => by
    obtain ⟨hd, hnd⟩ := List.nodup_cons.1 hnd
    obtain ⟨i, hi⟩ : ∃ i, ds.dimIndex? d = some i := by
      rcases h : ds.dimIndex? d with _ | i
      · exact absurd (hknown d (by simp)) (dimIndex?_eq_none (by simp [h]))
      · exact ⟨i, rfl⟩
    have hname := (dimIndex?_eq_some hi).2
    have hnew : i ∉ found := fun hmem => hfound i hmem (by simp [hname])
    simp only [layOut, hi, List.contains_iff_mem, hnew, if_false]
    refine layOut_of_known hnd (fun e he => hknown e (by simp [he])) fun j hj => ?_
    rcases List.mem_append.1 hj with hj | hj
    · exact fun hmem => hfound j hj (by simp [hmem])
    · rw [List.mem_singleton.1 hj, hname]
      exact hd

/-- What the names of dimensions are laid out to. -/
theorem Fits.layOut {name : String} {dims : List String} (hv : ds.Valid) (h : ds.Fits name dims) :
    ∃ indices, ds.layOut name [] 1 dims =
        .ok (indices, UInt64.ofNat (ds.positions dims)) ∧
      ds.dimNames indices = dims := by
  obtain ⟨⟨indices, expected⟩, hlaid⟩ : ∃ laid, ds.layOut name [] 1 dims = .ok laid :=
    layOut_of_known h.nodup h.known (by simp)
  obtain ⟨-, hlt, new, hnew, hnames, hcount⟩ := layOut_ok (by simp) (by simp) hlaid
  obtain rfl : indices = new := by simpa using hnew
  rw [UInt64.one_mul, hv.extent_eq hlt, hnames] at hcount
  exact ⟨indices, hcount ▸ hlaid, hnames⟩

end Count

section Add

theorem checkName_of_isName {name : String} (h : Text.isName name.toList = true) :
    checkName name = .ok () := by
  rw [checkName, if_pos h]

/-- What fits is put in its place with the number of values that its dimensions take, and refused with
any other number. -/
theorem Fits.withVariable_eq {ds : Dataset} {name : String} {dims : List String} (hv : ds.Valid)
    (h : ds.Fits name dims) (values : Values) : ∃ indices,
      ds.withVariable name dims values =
        (if values.size = ds.positions dims % 2 ^ 64 then
          .ok { ds with vars := insert name ⟨indices, values⟩ ds.vars }
        else .error (.wrongCount name values.size dims (ds.positions dims % 2 ^ 64))) ∧
      ds.dimNames indices = dims := by
  obtain ⟨indices, hlaid, hnames⟩ := h.layOut hv
  refine ⟨indices, ?_, hnames⟩
  simp only [withVariable, checkName_of_isName h.named, hlaid, bind, Except.bind,
    UInt64.toNat_ofNat', bne_iff_ne, ne_eq, ite_not]
  rfl

/-- Only what fits is taken. -/
theorem fits_of_withVariable {ds ds' : Dataset} {name : String} {dims : List String}
    {values : Values} (hv : ds.Valid) (h : ds.withVariable name dims values = .ok ds') :
    ds.Fits name dims ∧ values.size = ds.positions dims % 2 ^ 64 := by
  obtain ⟨hname, indices, -, hcarries, rfl⟩ := withVariable_ok h
  refine ⟨⟨hname, hv.nodup_dimNames hcarries.nodup hcarries.lt, fun d hd => ?_⟩, ?_⟩
  · obtain ⟨i, hi, rfl⟩ := List.mem_map.1 hd
    exact dimName_mem (hcarries.lt i hi)
  · rw [hcarries.size, hv.extent_eq hcarries.lt]

end Add

section Built

/-- A dataset to begin with: the empty one or a table. -/
def Starts (ds : Dataset) : Prop :=
  ds = empty ∨ ∃ dim coords columns, ofTable dim coords columns = .ok ds

/-- A dataset with one more dimension, or with a variable more or another one in its place. -/
def Step (ds ds' : Dataset) : Prop :=
  (∃ name coords, ds.withDim name coords = .ok ds') ∨
    ∃ name dims values, ds.withVariable name dims values = .ok ds'

/-- A table is made by the steps that make other datasets. -/
theorem Starts.built {ds : Dataset} (h : ds.Starts) : ds.Built := by
  obtain rfl | ⟨dim, coords, columns, h⟩ := h
  · exact .empty
  · obtain ⟨start, hstart, h⟩ := bind_eq_ok h
    exact foldlM_invariant (fun hb step => hb.withVariable step) (Built.empty.withDim hstart) h

theorem built_of_steps {start ds : Dataset} (hstart : start.Starts)
    (h : Relation.ReflTransGen Step start ds) : ds.Built := by
  induction h with
  | refl => exact hstart.built
  | tail _ step ih =>
    obtain ⟨_, _, step⟩ | ⟨_, _, _, step⟩ := step
    · exact ih.withDim step
    · exact ih.withVariable step

/-- Whatever steps are made, the dataset is valid, with the variables in the order of their names and
as many values in each as there are positions, in 64 bits. It takes a variable that fits with that
number of values, all dimensions and other variables being as before, and refuses all else. -/
theorem steps_exact {start ds : Dataset} (hstart : start.Starts)
    (hsteps : Relation.ReflTransGen Step start ds) :
    ds.Valid ∧ Sorted ds.vars ∧
      (∀ n v, ds.var? n = some v →
        v.values.size = ds.positions (ds.dimNames v.dims) % 2 ^ 64) ∧
      ∀ name dims values,
        (¬ ds.Fits name dims → ∃ fault, ds.withVariable name dims values = .error fault) ∧
        (ds.Fits name dims → values.size ≠ ds.positions dims % 2 ^ 64 →
          ds.withVariable name dims values =
            .error (.wrongCount name values.size dims (ds.positions dims % 2 ^ 64))) ∧
        (ds.Fits name dims → values.size = ds.positions dims % 2 ^ 64 →
          ∃ ds' indices, ds.withVariable name dims values = .ok ds' ∧
            ds'.dims = ds.dims ∧ ds'.var? name = some ⟨indices, values⟩ ∧
            ds'.dimNames indices = dims ∧
            ∀ other, other ≠ name → ds'.var? other = ds.var? other) := by
  have hb := built_of_steps hstart hsteps
  have hv := hb.valid
  refine ⟨hv, hb.sorted, fun n v hfound => ?_, fun name dims values => ⟨fun hfit => ?_,
    fun hfit hsize => ?_, fun hfit hsize => ?_⟩⟩
  · have hcarries := hv.carries_of_var? hfound
    rw [hcarries.size, hv.extent_eq hcarries.lt]
  · rcases h : ds.withVariable name dims values with fault | ds'
    · exact ⟨fault, rfl⟩
    · exact absurd (fits_of_withVariable hv h).1 hfit
  · obtain ⟨indices, heq, -⟩ := hfit.withVariable_eq hv values
    rw [heq, if_neg hsize]
  · obtain ⟨indices, heq, hnames⟩ := hfit.withVariable_eq hv values
    rw [if_pos hsize] at heq
    refine ⟨_, indices, heq, rfl, ?_, hnames, fun other hother => ?_⟩
    · rw [var?, lookup_insert, if_pos rfl]
    · rw [var?, lookup_insert, if_neg hother, ← var?]

/-- Two rows with a text each. -/
def texts : Dataset := ⟨[⟨"row", .range 2⟩], [("x", ⟨[0], .strings #["p", "q"]⟩)]⟩

/-- The same with three columns. -/
def grid : Dataset :=
  { texts with dims := texts.dims ++ [⟨"column", .strings #["u", "v", "w"]⟩] }

theorem texts_starts : texts.Starts := Or.inr ⟨"row", .range 2, [("x", .strings #["p", "q"])], rfl⟩

theorem grid_step : Step texts grid := Or.inl ⟨"column", .strings #["u", "v", "w"], rfl⟩

theorem grid_fits : grid.Fits "x" ["column", "row"] := ⟨rfl, by decide, by decide⟩

/-- The texts of the rows are replaced by texts of the cells, six and no other number. -/
theorem steps_exact_grid : texts.Starts ∧ Relation.ReflTransGen Step texts grid ∧
    (∃ ds' indices, grid.withVariable "x" ["column", "row"]
        (.strings #["a", "b", "c", "d", "e", "f"]) = .ok ds' ∧ ds'.dims = grid.dims ∧
      ds'.var? "x" = some ⟨indices, .strings #["a", "b", "c", "d", "e", "f"]⟩ ∧
      ds'.dimNames indices = ["column", "row"] ∧
      ∀ other, other ≠ "x" → ds'.var? other = grid.var? other) ∧
    grid.withVariable "x" ["column", "row"] (.strings #["a", "b"]) =
      .error (.wrongCount "x" 2 ["column", "row"] 6) := by
  obtain ⟨-, -, -, hvariables⟩ := steps_exact texts_starts (.single grid_step)
  exact ⟨texts_starts, .single grid_step, (hvariables _ _ _).2.2 grid_fits rfl,
    (hvariables _ _ _).2.1 grid_fits (by decide)⟩

/-- Dimensions of 2 ^ 32 positions each. -/
def vast : Dataset := ⟨[⟨"a", .range 4294967296⟩, ⟨"b", .range 4294967296⟩], []⟩

theorem withVariable_wraps : Relation.ReflTransGen Step empty vast ∧
    vast.positions ["a", "b"] = 2 ^ 64 ∧ vast.withVariable "x" ["a", "b"] (.numbers #[]) =
      .ok { vast with vars := [("x", ⟨[0, 1], .numbers #[]⟩)] } := by
  have ha : Step empty ⟨[⟨"a", .range 4294967296⟩], []⟩ := Or.inl ⟨"a", .range 4294967296, rfl⟩
  have hb : Step ⟨[⟨"a", .range 4294967296⟩], []⟩ vast := Or.inl ⟨"b", .range 4294967296, rfl⟩
  exact ⟨(Relation.ReflTransGen.single ha).tail hb, rfl, rfl⟩

end Built

end Dataset

end LinkedTables
