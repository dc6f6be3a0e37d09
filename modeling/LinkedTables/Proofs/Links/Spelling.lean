import LinkedTables.Links.Link
import LinkedTables.Proofs.Text.Numerals

/-!
# A link as it is spelled

The text of a link between named things is three words (`toList_text`), and reading it gives the
link back (`read_text`): the mark is the only place where the text can be cut (`Named.mark_of_mem`), and
each side is two names with one point between them.
-/

namespace LinkedTables

open Text (IsPlain IsWord)

namespace Link

/-- Two names with a point between them. -/
def dotted (table member : String) : List Char := table.toList ++ '.' :: member.toList

/-- All four parts of the link are names. -/
structure Named (l : Link) : Prop where
  sourceTable : Text.isName l.sourceTable.toList = true
  sourceVar : Text.isName l.sourceVar.toList = true
  targetTable : Text.isName l.targetTable.toList = true
  targetDim : Text.isName l.targetDim.toList = true

theorem mem_dotted {table member : String} (ht : Text.isName table.toList = true)
    (hm : Text.isName member.toList = true) {c : Char} (hc : c ∈ dotted table member) :
    c = '.' ∨ IsPlain c := by
  simp only [dotted, List.mem_append, List.mem_cons] at hc
  rcases hc with hc | hc | hc
  · exact Or.inr (Text.isPlain_of_isName ht hc)
  · exact Or.inl hc
  · exact Or.inr (Text.isPlain_of_isName hm hc)

theorem isWord_dotted {table member : String} (ht : Text.isName table.toList = true)
    (hm : Text.isName member.toList = true) : IsWord (dotted table member) := by
  refine ⟨by simp [dotted], fun c hc => ?_⟩
  rcases mem_dotted ht hm hc with rfl | hc
  · rfl
  · exact hc.isBlank_eq_false

theorem toList_text (l : Link) : l.text.toList =
    Text.joined [dotted l.sourceTable l.sourceVar, l.mode.mark.toList,
      dotted l.targetTable l.targetDim] := by
  cases hmode : l.mode <;>
    simp [text, hmode, Text.joined, dotted, LinkMode.mark, toString]

/-- A side is cut at its only point, and what stands on either side of it is trimmed. -/
theorem endpoint_of_cut {side a b : List Char} {table member : String}
    (ht : Text.isName table.toList = true) (hm : Text.isName member.toList = true)
    (hside : Text.trim side = a ++ '.' :: b) (ha : Text.trim a = table.toList)
    (hb : Text.trim b = member.toList) (hpoint : ∀ c ∈ a ++ b, c ≠ '.') :
    endpoint side = .ok (table, member) := by
  have hpieces : Text.pieces (· == '.') (a ++ '.' :: b) = [a, b] := by
    rw [Text.pieces_append rfl b fun c hc => beq_eq_false_iff_ne.2 (hpoint c (by simp [hc])),
      Text.pieces_of_none fun c hc => beq_eq_false_iff_ne.2 (hpoint c (by simp [hc]))]
  simp [endpoint, hside, hpieces, ha, hb, ht, hm]

theorem isWord_name {name : String} (h : Text.isName name.toList = true) : IsWord name.toList :=
  Text.isWord_of_isPlain (Text.isName_ne_nil h) fun _ hc => Text.isPlain_of_isName h hc

theorem trim_name {name : String} (h : Text.isName name.toList = true) :
    Text.trim name.toList = name.toList :=
  Text.trim_word (isWord_name h)

theorem endpoint_of_trim {side : List Char} {table member : String}
    (ht : Text.isName table.toList = true) (hm : Text.isName member.toList = true)
    (hside : Text.trim side = dotted table member) : endpoint side = .ok (table, member) := by
  refine endpoint_of_cut ht hm hside (trim_name ht) (trim_name hm) fun c hc => ?_
  rcases List.mem_append.1 hc with hc | hc
  · exact (Text.isPlain_of_isName ht hc).ne rfl
  · exact (Text.isPlain_of_isName hm hc).ne rfl

/-- What stands before the mark. -/
def left (l : Link) : List Char := dotted l.sourceTable l.sourceVar ++ [' ']

/-- What stands behind the mark. -/
def right (l : Link) : List Char := ' ' :: dotted l.targetTable l.targetDim

theorem toList_text_eq_append (l : Link) : l.text.toList = l.left ++ l.mode.mark.toList ++ l.right := by
  rw [toList_text]
  simp [Text.joined, left, right]

theorem Named.ofSides {l : Link} (h : l.Named) : ofSides l.mode l.left l.right = .ok l := by
  have hleft : endpoint l.left = .ok (l.sourceTable, l.sourceVar) :=
    endpoint_of_trim h.sourceTable h.sourceVar
      ((Text.trim_append_blank (c := ' ') rfl _).trans
        (Text.trim_word (isWord_dotted h.sourceTable h.sourceVar)))
  have hright : endpoint l.right = .ok (l.targetTable, l.targetDim) :=
    endpoint_of_trim h.targetTable h.targetDim
      ((Text.trim_cons_blank (c := ' ') rfl _).trans
        (Text.trim_word (isWord_dotted h.targetTable h.targetDim)))
  simp [Link.ofSides, hleft, hright, bind, Except.bind, pure, Except.pure]

/-- What is no part of a path stands only in the mark. -/
theorem Named.mark_of_mem {l : Link} (h : l.Named) {m : Char} (hm : Text.continuesName m = false)
    (hpoint : m ≠ '.') (hblank : m ≠ ' ') : (∀ c ∈ l.left, c ≠ m) ∧ ∀ c ∈ l.right, c ≠ m := by
  have hdotted : ∀ {a b : String}, Text.isName a.toList = true → Text.isName b.toList = true →
      ∀ c ∈ dotted a b, c ≠ m := by
    intro a b ha hb c hc
    rcases mem_dotted ha hb hc with rfl | hc
    · exact hpoint.symm
    · exact hc.ne hm
  constructor
  · intro c hc
    rcases List.mem_append.1 hc with hc | hc
    · exact hdotted h.sourceTable h.sourceVar c hc
    · rw [List.mem_singleton.1 hc]
      exact hblank.symm
  · intro c hc
    rcases List.mem_cons.1 hc with rfl | hc
    · exact hblank.symm
    · exact hdotted h.targetTable h.targetDim c hc

/-- Between sides without marks, a text is cut at its mark: the other mark is not found. -/
theorem read_eq_ofSides (mode : LinkMode) {left right : List Char}
    (hat : ∀ c ∈ left ++ right, c ≠ '@') (hdash : ∀ c ∈ left ++ right, c ≠ '-') :
    read (left ++ mode.mark.toList ++ right) = ofSides mode left right := by
  have hleft : ∀ c ∈ left, c ≠ '@' ∧ c ≠ '-' := fun c hc =>
    ⟨hat c (List.mem_append_left right hc), hdash c (List.mem_append_left right hc)⟩
  have hright : ∀ c ∈ right, c ≠ '@' ∧ c ≠ '-' := fun c hc =>
    ⟨hat c (List.mem_append_right left hc), hdash c (List.mem_append_right left hc)⟩
  cases mode with
  | label =>
    have hposition : Text.cutAt? ['-', '>'] (left ++ ['@'] ++ right) = none := by
      refine Text.cutAt?_of_none fun c hc => ?_
      simp only [List.mem_append, List.mem_singleton] at hc
      rcases hc with (hc | rfl) | hc
      · exact (hleft c hc).2
      · decide
      · exact (hright c hc).2
    have hlabel : Text.cut? (· == '@') (left ++ ['@'] ++ right) = some (left, right) := by
      rw [List.append_assoc]
      exact Text.cut?_append rfl _ fun c hc => beq_eq_false_iff_ne.2 (hleft c hc).1
    change read (left ++ ['@'] ++ right) = _
    rw [read, hposition, hlabel]
  | position =>
    have hposition : Text.cutAt? ['-', '>'] (left ++ ['-', '>'] ++ right) = some (left, right) :=
      Text.cutAt?_append fun c hc => (hleft c hc).2
    have hlabel : Text.cut? (· == '@') (left ++ ['-', '>'] ++ right) = none := by
      refine Text.cut?_of_none fun c hc => beq_eq_false_iff_ne.2 ?_
      simp only [List.mem_append, List.mem_cons, List.not_mem_nil, or_false] at hc
      rcases hc with (hc | rfl | rfl) | hc
      · exact (hleft c hc).1
      · decide
      · decide
      · exact (hright c hc).1
    change read (left ++ ['-', '>'] ++ right) = _
    rw [read, hposition, hlabel]

/-- A link is read back from its text, since neither mark stands anywhere else in it. -/
theorem read_text {l : Link} (h : l.Named) : read l.text.toList = .ok l := by
  obtain ⟨hleftAt, hrightAt⟩ := h.mark_of_mem (m := '@') rfl (by decide) (by decide)
  obtain ⟨hleftDash, hrightDash⟩ := h.mark_of_mem (m := '-') rfl (by decide) (by decide)
  have hat : ∀ c ∈ l.left ++ l.right, c ≠ '@' := List.forall_mem_append.2 ⟨hleftAt, hrightAt⟩
  have hdash : ∀ c ∈ l.left ++ l.right, c ≠ '-' :=
    List.forall_mem_append.2 ⟨hleftDash, hrightDash⟩
  rw [toList_text_eq_append, read_eq_ofSides l.mode hat hdash]
  exact h.ofSides

end Link

end LinkedTables
