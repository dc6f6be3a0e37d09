import LinkedTables.Data.Coords
import LinkedTables.Proofs.Number.Positions

/-!
# What entries and labels are compared by

Entries and labels are compared by their marks, a whole number or a text. A double that is no whole
number has none. So what it means that an entry is a label does not depend on how labels are looked
up.
-/

namespace LinkedTables

open Number (whole?)

/-- What entries and labels are compared by. -/
inductive Mark where
  | whole (n : Int)
  | text (s : String)
  deriving DecidableEq

def Coords.marks : Coords → List Mark
  | .range n => (List.range n.toNat).map fun i : Nat => .whole i
  | .integers labels => labels.toList.map fun label => .whole label.toInt
  | .strings labels => labels.toList.map .text

def Values.marks : Values → List (Option Mark)
  | .numbers xs => xs.toList.map fun x => (whole? x).map .whole
  | .strings xs => xs.toList.map fun s => some (.text s)

/-- No label stands twice, and every entry is a label. -/
def Coords.Labels (c : Coords) (values : Values) : Prop :=
  c.marks.Nodup ∧ ∀ m ∈ values.marks, ∃ mark ∈ c.marks, m = some mark

instance (c : Coords) (values : Values) : Decidable (c.Labels values) :=
  inferInstanceAs (Decidable (_ ∧ _))

/-- Every entry is a position below a size. -/
def Values.Positions (values : Values) (size : Nat) : Prop :=
  ∀ m ∈ values.marks, ∃ p < size, m = some (.whole (p : Nat))

/-- Some entry is `2 ^ 63` and the greatest number of 64 bits is a label, which the entry is taken for
when it is clamped. -/
def Coords.Clamps : Coords → Values → Prop
  | .integers labels, values =>
    Int64.maxValue ∈ labels ∧ some (Mark.whole (2 ^ 63)) ∈ values.marks
  | _, _ => False

instance : ∀ (c : Coords) (values : Values), Decidable (c.Clamps values)
  | .integers _, _ => inferInstanceAs (Decidable (_ ∧ _))
  | .range _, _ | .strings _, _ => inferInstanceAs (Decidable False)

/-- Doubles tell the labels apart from all other whole numbers. -/
def Coords.Exact : Coords → Prop
  | .integers labels => ∀ label ∈ labels, label.toInt.natAbs < 2 ^ 53
  | _ => True

instance : ∀ c : Coords, Decidable c.Exact
  | .integers labels => decidable_of_iff
      (labels.all (fun label => decide (label.toInt.natAbs < 2 ^ 53)) = true)
      (by rw [Array.all_eq_true']; simp [Coords.Exact])
  | .range _ | .strings _ => inferInstanceAs (Decidable True)

namespace Coords

section Nodup

theorem nodup_range (n : UInt64) : (Coords.range n).marks.Nodup :=
  List.nodup_range.map fun i j hij => by simpa using hij

theorem nodup_integers {labels : Array Int64} :
    (Coords.integers labels).marks.Nodup ↔ labels.toList.Nodup :=
  List.nodup_map_iff fun i j hij => Int64.toInt_inj.1 (by simpa using hij)

theorem nodup_strings {labels : Array String} :
    (Coords.strings labels).marks.Nodup ↔ labels.toList.Nodup :=
  List.nodup_map_iff fun i j hij => by simpa using hij

/-- Among labels of which none stands twice, a label has one position. -/
theorem marks_getElem?_iff {c : Coords} (hnodup : c.marks.Nodup) {mark : Mark} {position : Nat}
    (h : c.marks[position]? = some mark) (q : Nat) : c.marks[q]? = some mark ↔ q = position := by
  constructor
  · intro hq
    exact (List.getElem?_inj (List.getElem?_eq_some_iff.1 hq).1 hnodup).1 (hq.trans h.symm)
  · rintro rfl
    exact h

end Nodup

theorem length_marks (c : Coords) : c.marks.length = c.size := by
  rcases c with n | labels | labels <;> simp [marks, size]

theorem Exact.not_clamps {c : Coords} (h : c.Exact) (values : Values) : ¬ c.Clamps values := by
  rcases c with n | labels | labels
  · exact id
  · exact fun hclamps => absurd (h _ hclamps.1) (by decide)
  · exact id

theorem labels_range {n : UInt64} {xs : Array Float} :
    (Coords.range n).Labels (.numbers xs) ↔ ∀ x ∈ xs, ∃ p < n.toNat, whole? x = some (p : Int) := by
  rw [Labels, and_iff_right (nodup_range n)]
  simp [Values.marks, marks]

theorem labels_integers {labels : Array Int64} {xs : Array Float} :
    (Coords.integers labels).Labels (.numbers xs) ↔
      labels.toList.Nodup ∧ ∀ x ∈ xs, ∃ label ∈ labels, whole? x = some label.toInt := by
  rw [Labels, nodup_integers]
  simp [Values.marks, marks]

theorem labels_strings {labels xs : Array String} :
    (Coords.strings labels).Labels (.strings xs) ↔ labels.toList.Nodup ∧ ∀ x ∈ xs, x ∈ labels := by
  rw [Labels, nodup_strings]
  simp [Values.marks, marks]

end Coords

namespace Values

theorem length_marks (values : Values) : values.marks.length = values.size := by
  rcases values with xs | xs <;> simp [marks, size]

theorem whole_mem_marks {xs : Array Float} {k : Int} :
    some (Mark.whole k) ∈ (Values.numbers xs).marks ↔ ∃ x ∈ xs, whole? x = some k := by
  simp [marks]

theorem positions_numbers {xs : Array Float} {size : Nat} :
    (Values.numbers xs).Positions size ↔ ∀ x ∈ xs, ∃ p < size, whole? x = some (p : Int) := by
  simp [Positions, marks]

end Values

end LinkedTables
