import LinkedTables.Proofs.Data.Loops
import LinkedTables.Proofs.Data.Marks
import LinkedTables.Proofs.Links.Sample
import LinkedTables.Run.Bound

/-!
# Looking labels up is exact

Labels of the right kind are replaced by positions just if no label stands twice and every entry is
one, and then the position of an entry is the only one whose label the entry is; all else is a fault of
the data (`labelPositions_exact`). Entries and labels are compared by their marks, so a double passes as
a label only if it is that whole number: no fraction does, nor an infinity, nor a number that is merely
rounded to the label.

There is one exception. A double is clamped to 64 bits before it is looked up, and the clamped number is
compared with it as a double. The double `2 ^ 63` is clamped to `2 ^ 63 - 1`, which as a double is
`2 ^ 63` again: it passes as a label that it is not (`integerPosition?_clamped`).
-/

namespace LinkedTables

open Number (whole?)

namespace Coords

/-- Each entry has, in the table, the only position whose label it is, if a word numbers it. -/
structure Located (c : Coords) (values : Values) (table : Array UInt32) : Prop where
  size : table.size = values.size
  entry : ∀ (k : Nat) (word : UInt32), table[k]? = some word → ∃ mark position,
    values.marks[k]? = some (some mark) ∧ (∀ q, c.marks[q]? = some mark ↔ q = position) ∧
      (position < 2 ^ 32 → word.toNat = position)

end Coords

namespace BoundData

theorem toNat_ofNat_of_lt {n : Nat} (h : n < 2 ^ 32) : (UInt32.ofNat n).toNat = n :=
  UInt32.toNat_ofNat_of_lt' h

theorem toUInt32_le_of_whole {x : Float} {n : Nat} (h : whole? x = some (n : Int)) :
    x.toUInt32.toNat ≤ n := by
  rcases Nat.lt_or_ge n (2 ^ 32) with hlt | hge
  · exact (Number.toUInt32_of_whole h hlt).le
  · exact (x.toUInt32.toNat_lt.trans_le hge).le

theorem toNat_ofNat_le (n : Nat) : (UInt32.ofNat n).toNat ≤ n := Nat.mod_le n _

section Repeated
variable {α : Type} [BEq α] [LawfulBEq α]

theorem firstRepeated?_eq_none : ∀ {xs seen : List α},
    firstRepeated? seen xs = none ↔ xs.Nodup ∧ ∀ x ∈ xs, x ∉ seen
  | [], _ => by simp [firstRepeated?]
  | x :: xs, seen => by
    rw [firstRepeated?]
    split_ifs with hseen
    · simp [List.contains_iff_mem.1 hseen]
    · rw [List.contains_iff_mem] at hseen
      rw [firstRepeated?_eq_none, List.nodup_cons]
      refine ⟨fun ⟨hnodup, hnew⟩ => ⟨⟨fun hx => hnew x hx (by simp), hnodup⟩, fun y hy => ?_⟩,
        fun ⟨⟨hx, hnodup⟩, hnew⟩ => ⟨hnodup, fun y hy => ?_⟩⟩
      · rcases List.mem_cons.1 hy with rfl | hy
        · exact hseen
        · exact fun hmem => hnew y hy (List.mem_cons_of_mem x hmem)
      · rw [List.mem_cons, not_or]
        exact ⟨fun heq => hx (heq ▸ hy), hnew y (List.mem_cons_of_mem x hy)⟩

theorem firstRepeated?_nil {xs : List α} :
    firstRepeated? [] xs = none ↔ xs.Nodup := by
  simp [firstRepeated?_eq_none]

end Repeated

section LookUpAll
variable {α : Type} {l : Link} {f : BindFault} {shown : α → String} {position? : α → Option UInt32}
  {values : Array α} {found : Array UInt32}

theorem lookUpAll_ok (h : lookUpAll l shown position? values = .ok found) :
    found.size = values.size ∧ ∀ (i : Nat) (p : UInt32), found[i]? = some p →
      ∃ x, values[i]? = some x ∧ position? x = some p := by
  simp only [lookUpAll, Bind.bind, Except.bind] at h
  split at h
  · cases h
  rename_i ps hps
  cases h
  have hall := forall₂_of_mapM hps
  refine ⟨by simpa using hall.length_eq.symm, fun i p hp => ?_⟩
  have hlt : i < ps.length := (List.getElem?_eq_some_iff.1 (by simpa using hp)).1
  have hlt' : i < values.toList.zipIdx.length := hall.length_eq ▸ hlt
  have hget := hall.get hlt' hlt
  simp only [List.get_eq_getElem, List.getElem_zipIdx, Array.getElem_toList, Nat.zero_add] at hget
  have hi : i < values.size := by simpa using hlt'
  have hpi : ps[i] = p := by simpa [hlt] using hp
  refine ⟨values[i], by simp [hi], ?_⟩
  split at hget
  · rename_i q hq
    rw [hq, ← hpi]
    exact congrArg some (Except.ok.inj hget)
  · cases hget

/-- Values of which each has a position are looked up. -/
theorem exists_lookUpAll (h : ∀ x ∈ values, ∃ p, position? x = some p) :
    ∃ found, lookUpAll l shown position? values = .ok found := by
  rcases hok : lookUpAll l shown position? values with fault | found
  · rcases bind_eq_error hok with hloop | ⟨ps, hps, hpure⟩
    · obtain ⟨⟨x, i⟩, hmem, hx⟩ := exists_error_of_mapM hloop
      obtain ⟨p, hp⟩ := h x (Array.mem_toList_iff.1 (List.fst_mem_of_mem_zipIdx hmem))
      simp [hp] at hx
    · cases hpure
  · exact ⟨found, rfl⟩

/-- All values are looked up just if each of them has a position. -/
theorem exists_lookUpAll_iff : (∃ found, lookUpAll l shown position? values = .ok found) ↔
      ∀ x ∈ values, (position? x).isSome = true := by
  constructor
  · rintro ⟨found, h⟩ x hx
    obtain ⟨i, hi, rfl⟩ := Array.mem_iff_getElem.1 hx
    obtain ⟨hsize, hfound⟩ := lookUpAll_ok h
    have hlt : i < found.size := hsize ▸ hi
    obtain ⟨y, hy, hp⟩ := hfound i found[i] (by simp)
    rw [Array.getElem?_eq_getElem hi, Option.some.injEq] at hy
    rw [hy, hp]
    rfl
  · exact fun h => exists_lookUpAll fun x hx => Option.isSome_iff_exists.1 (h x hx)

theorem lookUpAll_error (h : lookUpAll l shown position? values = .error f) : f.kind = .domain := by
  rcases bind_eq_error h with hloop | ⟨ps, -, hpure⟩
  · obtain ⟨⟨x, i⟩, -, hx⟩ := exists_error_of_mapM hloop
    dsimp only at hx
    split at hx <;> cases hx
    rfl
  · cases hpure

theorem lookUpAll_lt {size : Nat} (hlt : ∀ x word, position? x = some word → word.toNat < size)
    (h : lookUpAll l shown position? values = .ok found) : ∀ word ∈ found, word.toNat < size := by
  intro word hword
  obtain ⟨k, hk⟩ := Array.getElem?_of_mem hword
  obtain ⟨x, -, hx⟩ := (lookUpAll_ok h).2 k word hk
  exact hlt x word hx

end LookUpAll

section IntegerPosition
variable {labels : Array Int64} {x : Float} {n : Nat}

/-- A number that is found among labels was converted to the label there, and passes as it. -/
theorem integerPosition?_ok (h : integerPosition? labels x = some n) :
    labels[n]? = some (Number.toInt64 x) ∧ (Number.ofInt64 (Number.toInt64 x) == x) = true := by
  simp only [integerPosition?] at h
  split_ifs at h with hbeq
  obtain ⟨hlt, hkey, -⟩ := Array.findIdx?_eq_some_iff_getElem.1 h
  have hkey : labels[n] = Number.toInt64 x := by simpa using hkey
  exact ⟨by simp [hlt, hkey], hbeq⟩

/-- Unless it is clamped, it is the label there. -/
theorem whole_of_integerPosition? (hclear : Int64.maxValue ∈ labels → whole? x ≠ some (2 ^ 63))
    (h : integerPosition? labels x = some n) :
    ∃ label, labels[n]? = some label ∧ whole? x = some label.toInt := by
  obtain ⟨hlabel, hbeq⟩ := integerPosition?_ok h
  refine ⟨_, hlabel, (Number.beq_toInt64_iff fun hbad => ?_).1 hbeq⟩
  rw [Number.toInt64_of_exception hbad] at hlabel
  exact hclear (Array.mem_of_getElem? hlabel) hbad

/-- A number that is not clamped has a position among labels just if it is one of them. -/
theorem integerPosition?_isSome (hclear : Int64.maxValue ∈ labels → whole? x ≠ some (2 ^ 63)) :
    (integerPosition? labels x).isSome = true ↔ ∃ label ∈ labels, whole? x = some label.toInt := by
  constructor
  · intro h
    obtain ⟨n, hn⟩ := Option.isSome_iff_exists.1 h
    obtain ⟨label, hlabel, hwhole⟩ := whole_of_integerPosition? hclear hn
    exact ⟨label, Array.mem_of_getElem? hlabel, hwhole⟩
  · rintro ⟨label, hmem, hwhole⟩
    have hkey := Number.toInt64_of_whole hwhole
    have hbeq : (Number.ofInt64 (Number.toInt64 x) == x) = true := by
      rw [hkey]
      exact Number.beq_ofInt_of_whole hwhole
    simp only [integerPosition?]
    rw [if_pos hbeq, Array.findIdx?_isSome, Array.any_eq_true']
    exact ⟨label, hmem, by rw [hkey, beq_self_eq_true]⟩

/-- The double `2 ^ 63` is looked up as the greatest number of 64 bits. -/
theorem integerPosition?_clamped {x : Float} (h : whole? x = some (2 ^ 63)) (labels : Array Int64) :
    integerPosition? labels x = labels.findIdx? (· == Int64.maxValue) := by
  rw [integerPosition?, Number.toInt64_of_exception h]
  exact if_pos (Number.beq_of_whole Number.whole?_ofInt64_maxValue h)

end IntegerPosition

section LabelPositions
variable {l : Link} {f : BindFault} {values : Values} {coords : Coords} {table : Array UInt32}

/-- Labels that are numbers are looked up only if none of them stands twice. -/
theorem labelPositions_integers {l : Link} {xs : Array Float} {labels : Array Int64}
    {positions : Array UInt32} (h : labelPositions l (.numbers xs) (.integers labels) = .ok positions) :
    labels.toList.Nodup ∧ lookUpAll l Number.text
      (fun x => (integerPosition? labels x).map UInt32.ofNat) xs = .ok positions := by
  unfold labelPositions at h
  dsimp only at h
  split at h
  · cases h
  · rename_i hrepeated
    exact ⟨firstRepeated?_nil.1 hrepeated, h⟩

/-- So are texts. -/
theorem labelPositions_strings {l : Link} {xs labels : Array String} {positions : Array UInt32}
    (h : labelPositions l (.strings xs) (.strings labels) = .ok positions) :
    labels.toList.Nodup ∧ lookUpAll l Text.quoted
      (fun x => (labels.findIdx? (· == x)).map UInt32.ofNat) xs = .ok positions := by
  unfold labelPositions at h
  dsimp only at h
  split at h
  · cases h
  · rename_i hrepeated
    exact ⟨firstRepeated?_nil.1 hrepeated, h⟩

/-- Entries that are not clamped are replaced by positions just if no label stands twice and every
entry is one of them. -/
theorem exists_labelPositions_iff (hfits : values.kind.fits coords.kind = true)
    (hclear : ¬ coords.Clamps values) :
    (∃ positions, labelPositions l values coords = .ok positions) ↔ coords.Labels values := by
  rcases values with xs | xs <;> rcases coords with n | labels | labels <;> try cases hfits
  · rw [Coords.labels_range, labelPositions]
    refine exists_lookUpAll_iff.trans (forall₂_congr fun x _ => ?_)
    rw [Option.isSome_ite, Number.isIndexBelow_iff n.toNat_lt]
    simp only [and_comm]
  · rw [Coords.labels_integers, labelPositions]
    rcases hrepeated : firstRepeated? [] labels.toList with _ | label
    · have hnodup := firstRepeated?_nil.1 hrepeated
      have hclear' : ∀ x ∈ xs, Int64.maxValue ∈ labels → whole? x ≠ some (2 ^ 63) :=
        fun x hx hmax hbad => hclear ⟨hmax, Values.whole_mem_marks.2 ⟨x, hx, hbad⟩⟩
      rw [exists_lookUpAll_iff, and_iff_right hnodup]
      refine forall₂_congr fun x hx => ?_
      rw [Option.isSome_map, integerPosition?_isSome (hclear' x hx)]
    · have hnodup : ¬ labels.toList.Nodup := by simp [← firstRepeated?_nil, hrepeated]
      simp [hnodup]
  · rw [Coords.labels_strings, labelPositions]
    rcases hrepeated : firstRepeated? [] labels.toList with _ | label
    · have hnodup := firstRepeated?_nil.1 hrepeated
      refine exists_lookUpAll_iff.trans ?_
      simp only [Option.isSome_map, Array.findIdx?_isSome, Array.any_eq_true', beq_iff_eq,
        exists_eq_right, hnodup, true_and]
    · have hnodup : ¬ labels.toList.Nodup := by simp [← firstRepeated?_nil, hrepeated]
      simp [hnodup]

/-- Labels of the right kind are refused only because of the data. -/
theorem labelPositions_error (hfits : values.kind.fits coords.kind = true)
    (h : labelPositions l values coords = .error f) : f.kind = .domain := by
  rcases values with xs | xs <;> rcases coords with n | labels | labels <;> try cases hfits
  all_goals unfold labelPositions at h
  · exact lookUpAll_error h
  all_goals
    dsimp only at h
    split at h
    · cases h
      rfl
    · exact lookUpAll_error h

/-- There is a position for each entry, and it lies within the coordinates. -/
theorem labelPositions_ok (h : labelPositions l values coords = .ok table) :
    table.size = values.size ∧ ∀ word ∈ table, word.toNat < coords.size := by
  rcases values with xs | xs <;> rcases coords with n | labels | labels <;> try cases h
  · unfold labelPositions at h
    refine ⟨(lookUpAll_ok h).1, lookUpAll_lt (fun x word hword => ?_) h⟩
    split_ifs at hword with hbelow
    cases hword
    obtain ⟨p, hp, hlt⟩ := (Number.isIndexBelow_iff n.toNat_lt).1 hbelow
    exact (toUInt32_le_of_whole hp).trans_lt hlt
  · obtain ⟨-, h⟩ := labelPositions_integers h
    refine ⟨(lookUpAll_ok h).1, lookUpAll_lt (fun x word hword => ?_) h⟩
    obtain ⟨n, hn, rfl⟩ := Option.map_eq_some_iff.1 hword
    exact (toNat_ofNat_le n).trans_lt (Array.getElem?_eq_some_iff.1 (integerPosition?_ok hn).1).1
  · obtain ⟨-, h⟩ := labelPositions_strings h
    refine ⟨(lookUpAll_ok h).1, lookUpAll_lt (fun x word hword => ?_) h⟩
    obtain ⟨n, hn, rfl⟩ := Option.map_eq_some_iff.1 hword
    exact (toNat_ofNat_le n).trans_lt (Array.findIdx?_eq_some_iff_getElem.1 hn).1

end LabelPositions

section Located
variable {l : Link} {values : Values} {coords : Coords} {table : Array UInt32}

/-- A table is exact if each entry was given a word for a position whose label it is. -/
theorem located_of_lookUpAll {α : Type} {shown : α → String} {position? : α → Option UInt32}
    {xs : Array α} {mark? : α → Option Mark}
    (hmarks : values.marks = xs.toList.map mark?) (hsize : values.size = xs.size)
    (hnodup : coords.marks.Nodup)
    (hposition : ∀ x ∈ xs, ∀ word, position? x = some word → ∃ mark position, mark? x = some mark ∧
      coords.marks[position]? = some mark ∧ (position < 2 ^ 32 → word.toNat = position))
    (h : lookUpAll l shown position? xs = .ok table) :
    coords.Located values table := by
  obtain ⟨hlength, hfound⟩ := lookUpAll_ok h
  refine ⟨hlength.trans hsize.symm, fun k word hword => ?_⟩
  obtain ⟨x, hx, hgiven⟩ := hfound k word hword
  obtain ⟨mark, position, hmark, hlabel, hnumber⟩ :=
    hposition x (Array.mem_of_getElem? hx) word hgiven
  refine ⟨mark, position, ?_, Coords.marks_getElem?_iff hnodup hlabel, hnumber⟩
  rw [hmarks, List.getElem?_map, Array.getElem?_toList, hx, Option.map_some, hmark]

/-- Positions that are their own labels. -/
theorem located_range {n : UInt64} {xs : Array Float}
    (h : labelPositions l (.numbers xs) (.range n) = .ok table) :
    (Coords.range n).Located (.numbers xs) table := by
  unfold labelPositions at h
  refine located_of_lookUpAll rfl rfl (Coords.nodup_range n) (fun x hx word hword => ?_) h
  split_ifs at hword with hbelow
  cases hword
  obtain ⟨p, hp, hlt⟩ := (Number.isIndexBelow_iff n.toNat_lt).1 hbelow
  refine ⟨.whole p, p, by rw [hp, Option.map_some], ?_, Number.toUInt32_of_whole hp⟩
  simp [Coords.marks, hlt]

/-- Labels that are numbers. -/
theorem located_integers {labels : Array Int64} {xs : Array Float}
    (hclear : ¬ (Coords.integers labels).Clamps (.numbers xs))
    (h : labelPositions l (.numbers xs) (.integers labels) = .ok table) :
    (Coords.integers labels).Located (.numbers xs) table := by
  obtain ⟨hdistinct, h⟩ := labelPositions_integers h
  refine located_of_lookUpAll rfl rfl (Coords.nodup_integers.2 hdistinct)
    (fun x hx word hword => ?_) h
  obtain ⟨position, hfound, rfl⟩ := Option.map_eq_some_iff.1 hword
  have hclear' : Int64.maxValue ∈ labels → whole? x ≠ some (2 ^ 63) :=
    fun hmax hbad => hclear ⟨hmax, Values.whole_mem_marks.2 ⟨x, hx, hbad⟩⟩
  obtain ⟨label, hlabel, hwhole⟩ := whole_of_integerPosition? hclear' hfound
  refine ⟨.whole label.toInt, position, by rw [hwhole, Option.map_some], ?_, toNat_ofNat_of_lt⟩
  simp [Coords.marks, hlabel]

/-- Labels that are texts. -/
theorem located_strings {labels xs : Array String}
    (h : labelPositions l (.strings xs) (.strings labels) = .ok table) :
    (Coords.strings labels).Located (.strings xs) table := by
  obtain ⟨hdistinct, h⟩ := labelPositions_strings h
  refine located_of_lookUpAll rfl rfl (Coords.nodup_strings.2 hdistinct)
    (fun x hx word hword => ?_) h
  obtain ⟨position, hfound, rfl⟩ := Option.map_eq_some_iff.1 hword
  obtain ⟨hlt, hlabel, -⟩ := Array.findIdx?_eq_some_iff_getElem.1 hfound
  refine ⟨.text x, position, rfl, ?_, toNat_ofNat_of_lt⟩
  simp [Coords.marks, hlt, beq_iff_eq.1 hlabel]

/-- Unless an entry is clamped, a table that is made is exact. -/
theorem located_of_labelPositions (hclear : ¬ coords.Clamps values)
    (h : labelPositions l values coords = .ok table) : coords.Located values table := by
  rcases values with xs | xs <;> rcases coords with n | labels | labels <;> try cases h
  · exact located_range h
  · exact located_integers hclear h
  · exact located_strings h

/-- Labels of a kind that the entries can be compared with are looked up exactly, unless an entry is
clamped: the table has the only position whose label each entry is, if no label stands twice and every
entry is one, and all else is a fault of the data. -/
theorem labelPositions_exact
    (hfits : values.kind.fits coords.kind = true) (hclear : ¬ coords.Clamps values) :
    (coords.Labels values →
      ∃ table, labelPositions l values coords = .ok table ∧ coords.Located values table) ∧
    (¬ coords.Labels values →
      ∃ f, labelPositions l values coords = .error f ∧ f.kind = .domain) := by
  have hiff := exists_labelPositions_iff (l := l) hfits hclear
  constructor
  · intro hlabels
    obtain ⟨table, htable⟩ := hiff.2 hlabels
    exact ⟨table, htable, located_of_labelPositions hclear htable⟩
  · intro hbad
    rcases htable : labelPositions l values coords with f | table
    · exact ⟨f, rfl, labelPositions_error hfits htable⟩
    · exact absurd (hiff.1 ⟨table, htable⟩) hbad

/-- Labels at the edges of 64 bits are found, and a double next to a label that is no double is not. -/
theorem labelPositions_exact_sample :
    (∃ table, labelPositions Sample.homeLink (.numbers #[-9223372036854775808, -0])
        (.integers #[9223372036854775807, 0, -9223372036854775808]) = .ok table ∧
      (Coords.integers #[9223372036854775807, 0, -9223372036854775808]).Located
        (.numbers #[-9223372036854775808, -0]) table) ∧
    ∃ f, labelPositions Sample.homeLink (.numbers #[9007199254740992])
      (.integers #[9007199254740993]) = .error f ∧ f.kind = .domain :=
  ⟨(labelPositions_exact (by decide) (by decide +kernel)).1 (by decide +kernel),
    (labelPositions_exact (by decide) (by decide +kernel)).2 (by decide +kernel)⟩

/-- An entry that is no label passes as the greatest one, and a position that no word numbers is
replaced by the greatest word. -/
theorem labelPositions_inexact :
    (labelPositions Sample.homeLink (.numbers #[9223372036854775808])
        (.integers #[9223372036854775807]) = .ok #[0] ∧
      ¬ (Coords.integers #[9223372036854775807]).Labels (.numbers #[9223372036854775808])) ∧
    labelPositions Sample.homeLink (.numbers #[4294967296]) (.range 4294967297) =
      .ok #[4294967295] :=
  ⟨⟨eq_ok_of_toOption (by decide +kernel), by decide +kernel⟩, eq_ok_of_toOption (by decide +kernel)⟩

end Located

end BoundData

end LinkedTables
