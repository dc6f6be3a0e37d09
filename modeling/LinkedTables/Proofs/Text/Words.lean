import LinkedTables.Text.Blank
import Mathlib

/-!
# Words with one blank between them

A line that is written as words with one blank between them is read back word by word: it has no
blanks at its ends (`trim_joined`), its first word ends at the first blank (`cut?_joined_cons`), and its
longest stretches without a blank are the words (`words_joined`). A text without the characters that
it is cut at stays in one piece.
-/

namespace LinkedTables

namespace Text

/-- Something between two blanks. -/
def IsWord (w : List Char) : Prop := w ≠ [] ∧ ∀ c ∈ w, isBlank c = false

/-- Words with one blank between them. -/
def joined (ws : List (List Char)) : List Char := [' '].intercalate ws

@[simp] theorem joined_nil : joined [] = [] := rfl

@[simp] theorem joined_singleton (w : List Char) : joined [w] = w := by simp [joined]

theorem joined_cons_cons (w v : List Char) (ws : List (List Char)) :
    joined (w :: v :: ws) = w ++ ' ' :: joined (v :: ws) := by
  simp [joined]

theorem joined_append : ∀ (ws : List (List Char)) {vs : List (List Char)}, ws ≠ [] → vs ≠ [] →
    joined (ws ++ vs) = joined ws ++ ' ' :: joined vs
  | [w], v :: vs, _, _ => by simp [joined_cons_cons]
  | w :: u :: ws, vs, _, hv => by
    have ih := joined_append (u :: ws) (by simp) hv
    simp only [List.cons_append] at ih ⊢
    simp [joined_cons_cons, ih]

theorem joined_ne_nil {ws : List (List Char)} (hne : ws ≠ []) (h : ∀ w ∈ ws, IsWord w) :
    joined ws ≠ [] := by
  match ws, hne with
  | [w], _ => simpa using (h w (by simp)).1
  | w :: v :: ws, _ => simp [joined_cons_cons]

theorem mem_intercalate {sep c : Char} : ∀ {ws : List (List Char)}, c ∈ [sep].intercalate ws →
    c = sep ∨ ∃ w ∈ ws, c ∈ w
  | [], h => by simp at h
  | [w], h => Or.inr ⟨w, by simp, by simpa using h⟩
  | w :: v :: ws, h => by
    rw [List.intercalate_cons_cons, List.mem_append, List.mem_append] at h
    rcases h with (h | h) | h
    · exact Or.inr ⟨w, by simp, h⟩
    · exact Or.inl (by simpa using h)
    · rcases mem_intercalate h with h | ⟨u, hu, hc⟩
      · exact Or.inl h
      · exact Or.inr ⟨u, List.mem_cons_of_mem w hu, hc⟩

theorem mem_joined {c : Char} {ws : List (List Char)} (h : c ∈ joined ws) :
    c = ' ' ∨ ∃ w ∈ ws, c ∈ w :=
  mem_intercalate h

section Trim

variable {c : Char}

theorem trimLeft_of_head (cs : List Char) (h : isBlank c = false) :
    trimLeft (c :: cs) = c :: cs := by
  simp [trimLeft, h]

/-- A text whose first and last characters are no blanks has nothing to trim. -/
theorem trim_of_ends {cs : List Char} (hfirst : ∀ c ∈ cs.head?, isBlank c = false)
    (hlast : ∀ c ∈ cs.getLast?, isBlank c = false) : trim cs = cs := by
  have hleft : trimLeft cs = cs := by
    rcases cs with _ | ⟨c, cs⟩
    · rfl
    · exact trimLeft_of_head cs (hfirst c (by simp))
  rw [trim, hleft, trimRight]
  rcases hrev : cs.reverse with _ | ⟨c, rest⟩
  · simp_all
  · have hc : isBlank c = false := hlast c (by simp [← List.head?_reverse, hrev])
    rw [List.dropWhile_cons_of_neg (by simp [hc]), ← hrev, List.reverse_reverse]

theorem trimRight_append_blank (hc : isBlank c = true) (cs : List Char) :
    trimRight (cs ++ [c]) = trimRight cs := by
  simp [trimRight, hc]

theorem trim_cons_blank (hc : isBlank c = true) (cs : List Char) : trim (c :: cs) = trim cs := by
  simp [trim, trimLeft, hc]

theorem trim_append_blank (hc : isBlank c = true) (cs : List Char) :
    trim (cs ++ [c]) = trim cs := by
  induction cs with
  | nil => simp [trim, trimLeft, trimRight, hc]
  | cons d cs ih =>
    by_cases hd : isBlank d = true
    · rw [List.cons_append, trim_cons_blank hd, trim_cons_blank hd, ih]
    · rw [Bool.not_eq_true] at hd
      rw [List.cons_append, trim, trimLeft_of_head _ hd, ← List.cons_append,
        trimRight_append_blank hc, trim, trimLeft_of_head _ hd]

theorem head?_joined {ws : List (List Char)} (h : ∀ w ∈ ws, IsWord w) :
    ∀ c ∈ (joined ws).head?, isBlank c = false := by
  intro c hc
  match ws with
  | [] => simp at hc
  | [] :: _ => exact absurd rfl (h [] (by simp)).1
  | (d :: w) :: ws =>
    have : (joined ((d :: w) :: ws)).head? = some d := by
      cases ws <;> simp [joined_cons_cons]
    rw [this, Option.mem_some_iff] at hc
    exact hc ▸ (h (d :: w) (by simp)).2 d (by simp)

theorem getLast?_joined : ∀ {ws : List (List Char)}, (∀ w ∈ ws, IsWord w) →
    ∀ c ∈ (joined ws).getLast?, isBlank c = false
  | [], _, c, hc => by simp at hc
  | [w], h, c, hc => (h w (by simp)).2 c (List.mem_of_getLast? (by simpa using hc))
  | w :: v :: ws, h, c, hc => by
    have htail : ∀ u ∈ v :: ws, IsWord u := fun u hu => h u (List.mem_cons_of_mem _ hu)
    obtain ⟨d, hd⟩ : ∃ d, (joined (v :: ws)).getLast? = some d :=
      ⟨_, List.getLast?_eq_some_getLast (joined_ne_nil (by simp) htail)⟩
    rw [joined_cons_cons] at hc
    simp only [List.getLast?_append, List.getLast?_cons, hd] at hc
    exact getLast?_joined htail c (by simpa [hd] using hc)

theorem trim_joined {ws : List (List Char)} (h : ∀ w ∈ ws, IsWord w) :
    trim (joined ws) = joined ws :=
  trim_of_ends (head?_joined h) (getLast?_joined h)

theorem trim_word {w : List Char} (h : IsWord w) : trim w = w := by
  have hone : ∀ v ∈ [w], IsWord v := by simpa using h
  simpa using trim_joined hone

end Trim

section Cut

theorem cut?_of_none {p : Char → Bool} : ∀ {cs : List Char}, (∀ c ∈ cs, p c = false) →
    cut? p cs = none
  | [], _ => rfl
  | c :: cs, h => by
    have ih : cut? p cs = none := cut?_of_none fun d hd => h d (List.mem_cons_of_mem _ hd)
    simp [cut?, h c (by simp), ih]

theorem cut?_append {p : Char → Bool} {c : Char} (hc : p c = true) (rest : List Char) :
    ∀ {cs : List Char}, (∀ d ∈ cs, p d = false) → cut? p (cs ++ c :: rest) = some (cs, rest)
  | [], _ => by simp [cut?, hc]
  | d :: cs, h => by
    have ih : cut? p (cs ++ c :: rest) = some (cs, rest) :=
      cut?_append hc rest fun e he => h e (List.mem_cons_of_mem _ he)
    simp [cut?, h d (by simp), ih]

/-- The first word of a line, and the other words. -/
theorem cut?_joined_cons {w v : List Char} {ws : List (List Char)} (hw : IsWord w) :
    cut? isBlank (joined (w :: v :: ws)) = some (w, joined (v :: ws)) := by
  rw [joined_cons_cons]
  exact cut?_append rfl _ hw.2

/-- A text is cut at a mark that no other part of it starts with. -/
theorem cutAt?_append {m : Char} {mark rest : List Char} : ∀ {cs : List Char}, (∀ d ∈ cs, d ≠ m) →
    cutAt? (m :: mark) (cs ++ (m :: mark) ++ rest) = some (cs, rest)
  | [], _ => by
    have : (m :: mark).isPrefixOf? (m :: mark ++ rest) = some rest :=
      List.isPrefixOf?_eq_some_iff_append_eq.mpr rfl
    rw [List.nil_append, List.cons_append, cutAt?, ← List.cons_append, this]
  | d :: cs, h => by
    have hd : (m == d) = false := by simpa using (h d (by simp)).symm
    have ih : cutAt? (m :: mark) (cs ++ (m :: mark) ++ rest) = some (cs, rest) :=
      cutAt?_append fun e he => h e (List.mem_cons_of_mem _ he)
    simp only [List.cons_append, List.append_assoc] at ih ⊢
    simp [cutAt?, List.isPrefixOf?, hd, ih]

theorem cutAt?_of_none {m : Char} {mark : List Char} : ∀ {cs : List Char}, (∀ d ∈ cs, d ≠ m) →
    cutAt? (m :: mark) cs = none
  | [], _ => by simp [cutAt?]
  | d :: cs, h => by
    have hd : (m == d) = false := by simpa using (h d (by simp)).symm
    have ih : cutAt? (m :: mark) cs = none :=
      cutAt?_of_none fun e he => h e (List.mem_cons_of_mem _ he)
    simp [cutAt?, List.isPrefixOf?, hd, ih]

end Cut

section Pieces

theorem pieces_of_none {p : Char → Bool} : ∀ {cs : List Char}, (∀ c ∈ cs, p c = false) →
    pieces p cs = [cs]
  | [], _ => rfl
  | c :: cs, h => by
    have ih : pieces p cs = [cs] := pieces_of_none fun d hd => h d (List.mem_cons_of_mem _ hd)
    simp [pieces, h c (by simp), ih]

theorem pieces_append {p : Char → Bool} {c : Char} (hc : p c = true) (rest : List Char) :
    ∀ {cs : List Char}, (∀ d ∈ cs, p d = false) → pieces p (cs ++ c :: rest) = cs :: pieces p rest
  | [], _ => by simp [pieces, hc]
  | d :: cs, h => by
    have ih : pieces p (cs ++ c :: rest) = cs :: pieces p rest :=
      pieces_append hc rest fun e he => h e (List.mem_cons_of_mem _ he)
    simp [pieces, h d (by simp), ih]

theorem pieces_intercalate {p : Char → Bool} {c : Char} (hc : p c = true) :
    ∀ {ws : List (List Char)}, ws ≠ [] → (∀ w ∈ ws, ∀ d ∈ w, p d = false) →
      pieces p ([c].intercalate ws) = ws
  | [w], _, h => by simpa using pieces_of_none (h w (by simp))
  | w :: v :: ws, _, h => by
    have ih : pieces p ([c].intercalate (v :: ws)) = v :: ws :=
      pieces_intercalate hc (by simp) fun u hu => h u (List.mem_cons_of_mem _ hu)
    rw [List.intercalate_cons_cons, List.append_assoc, List.singleton_append,
      pieces_append hc _ (h w (by simp)), ih]

theorem words_joined {ws : List (List Char)} (h : ∀ w ∈ ws, IsWord w) : words (joined ws) = ws := by
  rcases hws : ws with _ | ⟨w, rest⟩
  · rfl
  · rw [← hws, words, joined, pieces_intercalate rfl (by simp [hws]) fun w hw => (h w hw).2,
      List.filter_eq_self]
    intro w hw
    simpa using (h w hw).1

end Pieces

end Text

end LinkedTables
