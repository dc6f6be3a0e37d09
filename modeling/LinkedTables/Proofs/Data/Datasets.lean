import LinkedTables.Data.Dataset
import Mathlib

/-!
# What holds of every dataset

A dataset that was built step by step from the empty one is valid (`Built.valid`): its dimensions
have distinct names, and every variable has a name, lies over dimensions that are there, each once,
and has as many values as the product of their sizes taken in 64 bits. Each step keeps this
(`valid_withDim`, `valid_withVariable`), because a dimension is only ever added behind the others:
no variable sees its dimensions change.
-/

namespace LinkedTables

/-- What stands first under a name is found. -/
theorem lookup_cons {β : Type} (n other : String) (b : β) (rest : List (String × β)) :
    ((n, b) :: rest).lookup other = if other = n then some b else rest.lookup other := by
  by_cases h : other = n
  · simp [h]
  · rw [List.lookup_cons, beq_eq_false_iff_ne.2 h, if_neg h]

namespace Dataset

/-- What the public steps make of the empty dataset. -/
inductive Built : Dataset → Prop
  | empty : Built empty
  | withDim {ds ds' : Dataset} {name : String} {coords : Coords} : Built ds →
      ds.withDim name coords = .ok ds' → Built ds'
  | withVariable {ds ds' : Dataset} {name : String} {dims : List String} {values : Values} :
      Built ds → ds.withVariable name dims values = .ok ds' → Built ds'

/-- The product of the sizes of some dimensions. -/
def extent (ds : Dataset) (dims : List Nat) : Nat := (dims.map ds.dimSize).prod

/-- A variable over the dimensions of a dataset, with a value for each position. -/
structure Carries (ds : Dataset) (v : Variable) : Prop where
  nodup : v.dims.Nodup
  lt : ∀ i ∈ v.dims, i < ds.dims.length
  size : v.values.size = ds.extent v.dims % 2 ^ 64

structure Valid (ds : Dataset) : Prop where
  dimNames : ∀ d ∈ ds.dims, Text.isName d.name.toList = true
  distinct : (ds.dims.map Dimension.name).Nodup
  varNames : ∀ p ∈ ds.vars, Text.isName p.1.toList = true
  carries : ∀ p ∈ ds.vars, ds.Carries p.2

@[simp] theorem extent_nil (ds : Dataset) : ds.extent [] = 1 := rfl

@[simp] theorem extent_cons (ds : Dataset) (d : Nat) (dims : List Nat) :
    ds.extent (d :: dims) = ds.dimSize d * ds.extent dims := by
  simp [extent]

theorem checkName_ok {name : String} (h : checkName name = .ok ()) :
    Text.isName name.toList = true := by
  simp only [checkName] at h
  split at h
  · assumption
  · cases h

section Lookup

variable {ds : Dataset}

theorem dimIndex?_eq_some {name : String} {i : Nat} (h : ds.dimIndex? name = some i) :
    i < ds.dims.length ∧ ds.dimName i = name := by
  obtain ⟨hlt, hname, -⟩ := List.findIdx?_eq_some_iff_getElem.1 h
  exact ⟨hlt, by simpa [dimName, hlt] using hname⟩

theorem dimIndex?_eq_none {name : String} (h : (ds.dimIndex? name).isSome = false) :
    name ∉ ds.dims.map Dimension.name := by
  simp only [dimIndex?, Option.isSome_eq_false_iff, Option.isNone_iff_eq_none,
    List.findIdx?_eq_none_iff, beq_eq_false_iff_ne] at h
  simpa using h

theorem dim?_of_getElem? (hv : ds.Valid) {i : Nat} {d : Dimension} (h : ds.dims[i]? = some d) :
    ds.dim? d.name = some d := by
  have hmem : d ∈ ds.dims := List.mem_of_getElem? h
  obtain ⟨e, he⟩ : ∃ e, ds.dim? d.name = some e :=
    Option.isSome_iff_exists.1 (List.find?_isSome.2 ⟨d, hmem, by simp⟩)
  have hname : e.name = d.name := by simpa using List.find?_some he
  rw [he, List.inj_on_of_nodup_map hv.distinct (List.mem_of_find?_eq_some he) hmem hname]

theorem mem_of_var? {name : String} {v : Variable} (h : ds.var? name = some v) :
    (name, v) ∈ ds.vars := by
  obtain ⟨before, after, hvars, -⟩ := List.lookup_eq_some_iff.1 h
  simp [hvars]

theorem Valid.carries_of_var? (hv : ds.Valid) {name : String} {v : Variable}
    (h : ds.var? name = some v) : ds.Carries v :=
  hv.carries _ (mem_of_var? h)

theorem Valid.isName_of_var? (hv : ds.Valid) {name : String} {v : Variable}
    (h : ds.var? name = some v) : Text.isName name.toList = true :=
  hv.varNames _ (mem_of_var? h)

theorem Carries.isSome_getElem? {v : Variable} (h : ds.Carries v) {i : Nat} (hi : i ∈ v.dims) :
    ∃ d, ds.dims[i]? = some d :=
  ⟨_, List.getElem?_eq_getElem (h.lt i hi)⟩

theorem dimSize_of_getElem? {i : Nat} {d : Dimension} (h : ds.dims[i]? = some d) :
    ds.dimSize i = d.size := by
  simp [dimSize, h]

theorem dimName_of_getElem? {i : Nat} {d : Dimension} (h : ds.dims[i]? = some d) :
    ds.dimName i = d.name := by
  simp [dimName, h]

end Lookup

section Steps

variable {ds ds' : Dataset} {name : String}

theorem valid_empty : empty.Valid :=
  ⟨by simp [empty], by simp [empty], by simp [empty], by simp [empty]⟩

theorem extent_append_dim {dims : List Nat} (h : ∀ i ∈ dims, i < ds.dims.length)
    (d : Dimension) : ({ ds with dims := ds.dims ++ [d] } : Dataset).extent dims = ds.extent dims := by
  refine congrArg List.prod (List.map_congr_left fun i hi => ?_)
  simp [dimSize, List.getElem?_append_left (h i hi)]

/-- What a step that adds a dimension adds. -/
theorem withDim_ok {coords : Coords} (h : ds.withDim name coords = .ok ds') :
    Text.isName name.toList = true ∧
      name ∉ ds.dims.map Dimension.name ∧ ds' = { ds with dims := ds.dims ++ [⟨name, coords⟩] } := by
  simp only [withDim, bind, Except.bind] at h
  split at h
  · cases h
  · rename_i hname
    split_ifs at h with hnew
    cases h
    exact ⟨checkName_ok hname, dimIndex?_eq_none (by simpa using hnew), rfl⟩

theorem valid_withDim {coords : Coords} (hv : ds.Valid) (h : ds.withDim name coords = .ok ds') :
    ds'.Valid := by
  obtain ⟨hname, hnew, rfl⟩ := withDim_ok h
  refine ⟨?_, ?_, hv.varNames, fun p hp => ?_⟩
  · simp only [List.mem_append, List.mem_singleton]
    rintro d (hd | rfl)
    · exact hv.dimNames d hd
    · exact hname
  · rw [List.map_append, List.nodup_append]
    refine ⟨hv.distinct, by simp, ?_⟩
    rintro n hn m hm rfl
    obtain rfl : n = name := by simpa using hm
    exact hnew hn
  · have hc := hv.carries p hp
    refine ⟨hc.nodup, fun i hi => ?_, ?_⟩
    · have := hc.lt i hi
      simp only [List.length_append, List.length_singleton]
      omega
    · rw [extent_append_dim hc.lt, hc.size]

/-- The positions laid out are those of the names, all distinct, and the count is the product of
the sizes in 64 bits. -/
theorem layOut_ok {var : String} : ∀ {dims : List String} {found indices : List Nat}
    {count expected : UInt64}, found.Nodup → (∀ i ∈ found, i < ds.dims.length) →
    ds.layOut var found count dims = .ok (indices, expected) →
      indices.Nodup ∧ (∀ i ∈ indices, i < ds.dims.length) ∧
        ∃ new, indices = found ++ new ∧ ds.dimNames new = dims ∧
          expected = count * UInt64.ofNat (ds.extent new)
  | [], found, indices, count, expected, hnd, hlt, h => by
    simp only [layOut, Except.ok.injEq, Prod.mk.injEq] at h
    obtain ⟨rfl, rfl⟩ := h
    exact ⟨hnd, hlt, [], by simp, rfl, by simp⟩
  | d :: dims, found, indices, count, expected, hnd, hlt, h => by
    simp only [layOut] at h
    split at h
    · cases h
    · rename_i i hi
      split_ifs at h with hmem
      obtain ⟨hi, hname⟩ := dimIndex?_eq_some hi
      have hnd' : (found ++ [i]).Nodup := by
        rw [List.nodup_append]
        refine ⟨hnd, by simp, fun a ha b hb => ?_⟩
        obtain rfl := List.mem_singleton.1 hb
        rintro rfl
        exact hmem (by simpa using ha)
      have hlt' : ∀ j ∈ found ++ [i], j < ds.dims.length := by
        simp only [List.mem_append, List.mem_singleton]
        rintro j (hj | rfl)
        · exact hlt j hj
        · exact hi
      obtain ⟨hn, hl, new, rfl, hnames, rfl⟩ := layOut_ok hnd' hlt' h
      refine ⟨hn, hl, i :: new, by simp, ?_, ?_⟩
      · simp only [dimNames, List.map_cons] at hnames ⊢
        rw [hname, hnames]
      · rw [extent_cons, UInt64.ofNat_mul, UInt64.mul_assoc]

theorem mem_insert {v : Variable} {p : String × Variable} :
    ∀ {vars : List (String × Variable)}, p ∈ insert name v vars → p = (name, v) ∨ p ∈ vars
  | [], h => by simpa [insert] using h
  | (n, w) :: rest, h => by
    simp only [insert] at h
    split_ifs at h
    · rcases List.mem_cons.1 h with h | h
      · exact Or.inl h
      · exact Or.inr (List.mem_cons_of_mem _ h)
    · rcases List.mem_cons.1 h with h | h
      · exact Or.inl h
      · exact Or.inr h
    · rcases List.mem_cons.1 h with h | h
      · exact Or.inr (by simp [h])
      · rcases mem_insert h with h | h
        · exact Or.inl h
        · exact Or.inr (List.mem_cons_of_mem _ h)

/-- What a step that adds a variable adds. -/
theorem withVariable_ok {dims : List String} {values : Values}
    (h : ds.withVariable name dims values = .ok ds') : Text.isName name.toList = true ∧
      ∃ indices, ds' = { ds with vars := insert name ⟨indices, values⟩ ds.vars } ∧
        ds.Carries ⟨indices, values⟩ ∧ ds.dimNames indices = dims := by
  simp only [withVariable, bind, Except.bind] at h
  split at h
  · cases h
  · rename_i hname
    split at h
    · cases h
    · rename_i laid hlaid
      obtain ⟨indices, expected⟩ := laid
      obtain ⟨hnd, hlt, new, hnew, hnames, hcount⟩ := layOut_ok (by simp) (by simp) hlaid
      obtain rfl : indices = new := by simpa using hnew
      simp only at h
      split_ifs at h with hsize
      · cases h
        refine ⟨checkName_ok hname, indices, rfl, ⟨hnd, hlt, ?_⟩, hnames⟩
        have hsize' : values.size = expected.toNat := by simpa using hsize
        rw [hsize', hcount, UInt64.one_mul, UInt64.toNat_ofNat']

theorem valid_withVariable {dims : List String} {values : Values} (hv : ds.Valid)
    (h : ds.withVariable name dims values = .ok ds') : ds'.Valid := by
  obtain ⟨hname, indices, rfl, hnew, -⟩ := withVariable_ok h
  refine ⟨hv.dimNames, hv.distinct, fun p hp => ?_, fun p hp => ?_⟩
  · rcases mem_insert hp with rfl | hp
    · exact hname
    · exact hv.varNames p hp
  · rcases mem_insert hp with rfl | hp
    · exact ⟨hnew.nodup, hnew.lt, hnew.size⟩
    · exact ⟨(hv.carries p hp).nodup, (hv.carries p hp).lt, (hv.carries p hp).size⟩

theorem Built.valid (h : ds.Built) : ds.Valid := by
  induction h with
  | empty => exact valid_empty
  | withDim _ step ih => exact valid_withDim ih step
  | withVariable _ step ih => exact valid_withVariable ih step

end Steps

end Dataset

end LinkedTables
