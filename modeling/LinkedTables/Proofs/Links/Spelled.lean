import LinkedTables.Proofs.Data.Loops
import LinkedTables.Proofs.Links.Spelling

/-!
# Which texts spell a link

A text spells a link if it is made of seven pieces in order, two names with a point between them, the
mark and two names with a point between them, with any blanks before, between and behind the pieces.
Reading a text gives a link exactly if the text spells it (`Link.read_eq_ok_iff`): what is cut off,
trimmed and split by the way is put together again, and a text that spells a link has no point, no
mark and no part of a mark but those that are pieces.
-/

namespace LinkedTables

namespace Text

/-- Blanks and nothing else. -/
def IsGap (cs : List Char) : Prop := ∀ c ∈ cs, isBlank c = true

theorem IsGap.append {a b : List Char} (ha : IsGap a) (hb : IsGap b) : IsGap (a ++ b) :=
  List.forall_mem_append.2 ⟨ha, hb⟩

/-- Some pieces in order, with any blanks before, between and behind them. -/
inductive Spaced : List (List Char) → List Char → Prop
  | nil {gap : List Char} : IsGap gap → Spaced [] gap
  | cons {gap piece rest : List Char} {pieces : List (List Char)} : IsGap gap →
      Spaced pieces rest → Spaced (piece :: pieces) (gap ++ piece ++ rest)

namespace Spaced

variable {ps qs : List (List Char)} {piece cs : List Char}

theorem append {a b : List Char} (ha : Spaced ps a) (hb : Spaced qs b) :
    Spaced (ps ++ piece :: qs) (a ++ piece ++ b) := by
  induction ha with
  | nil hgap => exact .cons hgap hb
  | @cons gap p rest ps hgap _ ih =>
    have h : Spaced (p :: (ps ++ piece :: qs)) (gap ++ p ++ (rest ++ piece ++ b)) := .cons hgap ih
    simpa only [List.cons_append, List.append_assoc] using h

/-- What stands before a piece and what stands behind it are spaced too. -/
theorem split (ps : List (List Char)) (h : Spaced (ps ++ piece :: qs) cs) :
    ∃ a b, cs = a ++ piece ++ b ∧ Spaced ps a ∧ Spaced qs b := by
  induction ps generalizing cs with
  | nil =>
    cases h with
    | cons hgap hrest => exact ⟨_, _, rfl, .nil hgap, hrest⟩
  | cons p ps ih =>
    cases h with
    | @cons gap _ rest _ hgap hrest =>
      obtain ⟨a, b, rfl, ha, hb⟩ := ih hrest
      exact ⟨gap ++ p ++ a, b, by simp only [List.append_assoc], .cons hgap ha, hb⟩

theorem singleton (h : Spaced [piece] cs) : ∃ a b, IsGap a ∧ IsGap b ∧ cs = a ++ piece ++ b := by
  obtain ⟨a, b, rfl, ha, hb⟩ := split [] h
  cases ha with
  | nil ha =>
    cases hb with
    | nil hb => exact ⟨a, b, ha, hb, rfl⟩

theorem mem {c : Char} (h : Spaced ps cs) (hc : c ∈ cs) :
    isBlank c = true ∨ ∃ p ∈ ps, c ∈ p := by
  induction h with
  | nil hgap => exact Or.inl (hgap c hc)
  | @cons gap p rest ps hgap _ ih =>
    rcases List.mem_append.1 hc with hc | hc
    · rcases List.mem_append.1 hc with hc | hc
      · exact Or.inl (hgap c hc)
      · exact Or.inr ⟨p, by simp, hc⟩
    · exact (ih hc).imp_right fun ⟨q, hq, hmem⟩ => ⟨q, List.mem_cons_of_mem p hq, hmem⟩

end Spaced

section Trim

theorem trim_gap_append {gap : List Char} (h : IsGap gap) (cs : List Char) :
    trim (gap ++ cs) = trim cs := by
  induction gap with
  | nil => rfl
  | cons c gap ih =>
    rw [List.cons_append, trim_cons_blank (h c List.mem_cons_self)]
    exact ih fun d hd => h d (List.mem_cons_of_mem c hd)

theorem trim_append_gap {gap : List Char} (h : IsGap gap) (cs : List Char) :
    trim (cs ++ gap) = trim cs := by
  induction gap generalizing cs with
  | nil => rw [List.append_nil]
  | cons c gap ih =>
    rw [List.append_cons, ih (fun d hd => h d (List.mem_cons_of_mem c hd)),
      trim_append_blank (h c List.mem_cons_self)]

theorem isGap_takeWhile (cs : List Char) : IsGap (cs.takeWhile isBlank) := by
  intro c hc
  exact List.all_eq_true.1 List.all_takeWhile c hc

/-- Trimming takes blanks away at both ends. -/
theorem exists_gaps (cs : List Char) :
    ∃ a b, IsGap a ∧ IsGap b ∧ cs = a ++ trim cs ++ b := by
  have hleft : cs = cs.takeWhile isBlank ++ trimLeft cs := List.takeWhile_append_dropWhile.symm
  have hright : trimLeft cs = trim cs ++ ((trimLeft cs).reverse.takeWhile isBlank).reverse := by
    unfold trim trimRight
    rw [← List.reverse_append, List.takeWhile_append_dropWhile, List.reverse_reverse]
  refine ⟨cs.takeWhile isBlank, ((trimLeft cs).reverse.takeWhile isBlank).reverse,
    isGap_takeWhile cs, fun c hc => ?_, ?_⟩
  · exact isGap_takeWhile (trimLeft cs).reverse c (List.mem_reverse.1 hc)
  · rw [List.append_assoc, ← hright, ← hleft]

end Trim

section Cut

theorem cut?_eq_some {p : Char → Bool} : ∀ {cs a b : List Char}, cut? p cs = some (a, b) →
    ∃ c, p c = true ∧ cs = a ++ c :: b
  | [], _, _, h => by cases h
  | c :: cs, a, b, h => by
    unfold cut? at h
    split_ifs at h with hc
    · cases h
      exact ⟨c, hc, rfl⟩
    · obtain ⟨⟨a', b'⟩, hcut, heq⟩ := Option.map_eq_some_iff.1 h
      cases heq
      obtain ⟨d, hd, rfl⟩ := cut?_eq_some hcut
      exact ⟨d, hd, rfl⟩

theorem cutAt?_eq_some {mark : List Char} : ∀ {cs a b : List Char},
    cutAt? mark cs = some (a, b) → cs = a ++ mark ++ b
  | [], a, b, h => by
    unfold cutAt? at h
    split_ifs at h with hmark
    cases h
    simpa using hmark
  | c :: cs, a, b, h => by
    unfold cutAt? at h
    split at h
    · rename_i rest hrest
      cases h
      exact (List.isPrefixOf?_eq_some_iff_append_eq.1 hrest).symm
    · obtain ⟨⟨a', b'⟩, hcut, heq⟩ := Option.map_eq_some_iff.1 h
      cases heq
      rw [cutAt?_eq_some hcut]
      rfl

theorem pieces_ne_nil (p : Char → Bool) (cs : List Char) : pieces p cs ≠ [] := by
  cases cs with
  | nil => simp [pieces]
  | cons c cs =>
    unfold pieces
    split_ifs
    · simp
    · split <;> simp

/-- A text in one piece is that piece. -/
theorem pieces_eq_singleton {p : Char → Bool} : ∀ {cs w : List Char}, pieces p cs = [w] → cs = w
  | [], w, h => by simpa [pieces] using h
  | c :: cs, w, h => by
    unfold pieces at h
    split_ifs at h with hc
    · cases hrest : pieces p cs with
      | nil => exact absurd hrest (pieces_ne_nil p cs)
      | cons v vs => simp [hrest] at h
    · split at h
      · rename_i hnil
        exact absurd hnil (pieces_ne_nil p cs)
      · rename_i v vs hcons
        simp only [List.cons.injEq] at h
        obtain ⟨rfl, rfl⟩ := h
        rw [pieces_eq_singleton hcons]

/-- A text in two pieces is made of them and the character between them. -/
theorem pieces_eq_pair {p : Char → Bool} : ∀ {cs a b : List Char}, pieces p cs = [a, b] →
    ∃ c, p c = true ∧ cs = a ++ c :: b
  | [], a, b, h => by simp [pieces] at h
  | c :: cs, a, b, h => by
    unfold pieces at h
    split_ifs at h with hc
    · simp only [List.cons.injEq] at h
      obtain ⟨rfl, h⟩ := h
      exact ⟨c, hc, by rw [pieces_eq_singleton h]; rfl⟩
    · split at h
      · simp at h
      · rename_i v vs hcons
        simp only [List.cons.injEq] at h
        obtain ⟨rfl, rfl⟩ := h
        obtain ⟨d, hd, rfl⟩ := pieces_eq_pair hcons
        exact ⟨d, hd, rfl⟩

end Cut

end Text

namespace Link

open Text (IsGap Spaced)

/-- The seven pieces of a link. -/
def spelling (l : Link) : List (List Char) :=
  [l.sourceTable.toList, ['.'], l.sourceVar.toList, l.mode.mark.toList,
    l.targetTable.toList, ['.'], l.targetDim.toList]

/-- The text is made of the pieces of the link, with any blanks before, between and behind them. -/
structure Spells (cs : List Char) (l : Link) : Prop where
  named : l.Named
  spaced : Spaced l.spelling cs

section Sides

theorem endpoint_sound {side : List Char} {table member : String}
    (h : endpoint side = .ok (table, member)) :
    Text.isName table.toList = true ∧ Text.isName member.toList = true ∧
      Spaced [table.toList, ['.'], member.toList] side := by
  unfold endpoint at h
  dsimp only at h
  split at h
  · rename_i a b hpieces
    split_ifs at h with hnames
    simp only [Except.ok.injEq, Prod.mk.injEq] at h
    obtain ⟨rfl, rfl⟩ := h
    simp only [Bool.and_eq_true] at hnames
    simp only [String.toList_ofList]
    refine ⟨hnames.1, hnames.2, ?_⟩
    obtain ⟨c, hc, hcut⟩ := Text.pieces_eq_pair hpieces
    obtain rfl : c = '.' := by simpa using hc
    obtain ⟨g, g', hg, hg', hside⟩ := Text.exists_gaps side
    obtain ⟨ga, ga', hga, hga', ha⟩ := Text.exists_gaps a
    obtain ⟨gb, gb', hgb, hgb', hb⟩ := Text.exists_gaps b
    have hspaced : Spaced [Text.trim a, ['.'], Text.trim b]
        ((g ++ ga) ++ Text.trim a ++ (ga' ++ ['.'] ++ (gb ++ Text.trim b ++ (gb' ++ g')))) :=
      .cons (hg.append hga) (.cons hga' (.cons hgb (.nil (hgb'.append hg'))))
    have hjoined : side = (g ++ ga) ++ Text.trim a ++
        (ga' ++ ['.'] ++ (gb ++ Text.trim b ++ (gb' ++ g'))) := by
      calc side = g ++ (a ++ '.' :: b) ++ g' := by rw [← hcut, ← hside]
        _ = g ++ ((ga ++ Text.trim a ++ ga') ++ '.' :: (gb ++ Text.trim b ++ gb')) ++ g' := by
          rw [← ha, ← hb]
        _ = _ := by simp only [List.append_assoc, List.cons_append, List.nil_append]
    rw [hjoined]
    exact hspaced
  · cases h

theorem endpoint_complete {side : List Char} {table member : String}
    (ht : Text.isName table.toList = true) (hm : Text.isName member.toList = true)
    (h : Spaced [table.toList, ['.'], member.toList] side) :
    endpoint side = .ok (table, member) := by
  obtain ⟨left, right, rfl, hleft, hright⟩ := Spaced.split [table.toList] h
  obtain ⟨g, ga, hg, hga, rfl⟩ := hleft.singleton
  obtain ⟨gb, g', hgb, hg', rfl⟩ := hright.singleton
  have htable := isWord_name ht
  have hmember := isWord_name hm
  have hside : Text.trim (g ++ table.toList ++ ga ++ ['.'] ++ (gb ++ member.toList ++ g')) =
      (table.toList ++ ga) ++ '.' :: (gb ++ member.toList) := by
    calc Text.trim (g ++ table.toList ++ ga ++ ['.'] ++ (gb ++ member.toList ++ g'))
        = Text.trim (g ++ ((table.toList ++ ga) ++ '.' :: (gb ++ member.toList) ++ g')) := by
          simp only [List.append_assoc, List.cons_append, List.nil_append]
      _ = Text.trim ((table.toList ++ ga) ++ '.' :: (gb ++ member.toList)) := by
          rw [Text.trim_gap_append hg, Text.trim_append_gap hg']
      _ = _ := by
          refine Text.trim_of_ends (fun c hc => ?_) fun c hc => ?_
          · rw [List.append_assoc, List.head?_append_of_ne_nil _ htable.1] at hc
            exact htable.2 c (List.mem_of_mem_head? hc)
          · rw [← List.cons_append, ← List.append_assoc,
              List.getLast?_append_of_ne_nil _ hmember.1] at hc
            exact hmember.2 c (List.mem_of_mem_getLast? hc)
  refine endpoint_of_cut ht hm hside ?_ ?_ fun c hc => ?_
  · rw [Text.trim_append_gap hga, trim_name ht]
  · rw [Text.trim_gap_append hgb, trim_name hm]
  · have hplain : Text.isBlank c = true ∨ Text.IsPlain c := by
      simp only [List.mem_append] at hc
      rcases hc with (hc | hc) | hc | hc
      · exact Or.inr (Text.isPlain_of_isName ht hc)
      · exact Or.inl (hga c hc)
      · exact Or.inl (hgb c hc)
      · exact Or.inr (Text.isPlain_of_isName hm hc)
    rintro rfl
    rcases hplain with h | h <;> cases h

theorem ofSides_eq_ok_iff {mode : LinkMode} {left right : List Char} {l : Link} :
    ofSides mode left right = .ok l ↔ l.mode = mode ∧
      endpoint left = .ok (l.sourceTable, l.sourceVar) ∧
      endpoint right = .ok (l.targetTable, l.targetDim) := by
  constructor
  · intro h
    obtain ⟨⟨table, var⟩, hleft, h⟩ := bind_eq_ok h
    obtain ⟨⟨target, dim⟩, hright, h⟩ := bind_eq_ok h
    cases h
    exact ⟨rfl, hleft, hright⟩
  · rintro ⟨rfl, hleft, hright⟩
    unfold ofSides
    rw [hleft, hright]
    rfl

end Sides

section Whole

/-- The mark stands between two sides. -/
theorem exists_sides {cs : List Char} {l : Link} (h : read cs = .ok l) :
    ∃ left right, cs = left ++ l.mode.mark.toList ++ right ∧ ofSides l.mode left right = .ok l := by
  unfold read at h
  split at h
  · rename_i left right hcut _
    obtain ⟨hmode, -⟩ := ofSides_eq_ok_iff.1 h
    refine ⟨left, right, ?_, hmode ▸ h⟩
    rw [hmode]
    exact Text.cutAt?_eq_some hcut
  · rename_i left right _ hcut
    obtain ⟨hmode, -⟩ := ofSides_eq_ok_iff.1 h
    obtain ⟨c, hc, rfl⟩ := Text.cut?_eq_some hcut
    obtain rfl : c = '@' := by simpa using hc
    refine ⟨left, right, ?_, hmode ▸ h⟩
    rw [hmode]
    simp [LinkMode.mark]
  · cases h
  · cases h

theorem spells_of_read {cs : List Char} {l : Link} (h : read cs = .ok l) : Spells cs l := by
  obtain ⟨left, right, rfl, hsides⟩ := exists_sides h
  obtain ⟨-, hleft, hright⟩ := ofSides_eq_ok_iff.1 hsides
  obtain ⟨hsourceTable, hsourceVar, hleft⟩ := endpoint_sound hleft
  obtain ⟨htargetTable, htargetDim, hright⟩ := endpoint_sound hright
  exact ⟨⟨hsourceTable, hsourceVar, htargetTable, htargetDim⟩, hleft.append hright⟩

/-- A side has blanks, points and characters of names, so no part of a mark. -/
theorem ne_of_spaced {table member : String} {side : List Char} {m c : Char}
    (ht : Text.isName table.toList = true) (hm : Text.isName member.toList = true)
    (h : Spaced [table.toList, ['.'], member.toList] side) (hname : Text.continuesName m = false)
    (hblank : Text.isBlank m = false) (hpoint : m ≠ '.') (hc : c ∈ side) : c ≠ m := by
  rintro rfl
  rcases h.mem hc with hc | ⟨p, hp, hc⟩
  · rw [hc] at hblank
    cases hblank
  · simp only [List.mem_cons, List.not_mem_nil, or_false] at hp
    rcases hp with rfl | rfl | rfl
    · exact (Text.isPlain_of_isName ht hc).ne hname rfl
    · exact hpoint (List.mem_singleton.1 hc)
    · exact (Text.isPlain_of_isName hm hc).ne hname rfl

theorem Spells.read {cs : List Char} {l : Link} (h : Spells cs l) : read cs = .ok l := by
  obtain ⟨hst, hsv, htt, htd⟩ := h.named
  obtain ⟨left, right, rfl, hleft, hright⟩ :=
    Spaced.split [l.sourceTable.toList, ['.'], l.sourceVar.toList] h.spaced
  have hfree : ∀ m, Text.continuesName m = false → Text.isBlank m = false → m ≠ '.' →
      ∀ c ∈ left ++ right, c ≠ m := by
    intro m hname hblank hpoint c hc
    rcases List.mem_append.1 hc with hc | hc
    · exact ne_of_spaced hst hsv hleft hname hblank hpoint hc
    · exact ne_of_spaced htt htd hright hname hblank hpoint hc
  rw [read_eq_ofSides l.mode (hfree '@' rfl rfl (by decide)) (hfree '-' rfl rfl (by decide))]
  exact ofSides_eq_ok_iff.2
    ⟨rfl, endpoint_complete hst hsv hleft, endpoint_complete htt htd hright⟩

/-- Reading a text gives a link exactly if the text spells it: the four names, the two points and the
mark in order, with any blanks around them. A link is read back from the text that it is written as
exactly if its four parts are names. -/
theorem read_eq_ok_iff (text : String) (l : Link) :
    (read text.toList = .ok l ↔ Spells text.toList l) ∧
      (read l.text.toList = .ok l ↔ l.Named) := by
  have hread : ∀ cs, read cs = .ok l ↔ Spells cs l := fun cs => ⟨spells_of_read, Spells.read⟩
  refine ⟨hread text.toList, fun h => ((hread _).1 h).named, read_text⟩

end Whole

end Link

end LinkedTables
