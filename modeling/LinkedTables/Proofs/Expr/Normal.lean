import LinkedTables.Expr.Token
import LinkedTables.Proofs.Text.Numerals

/-!
# The normal form tells lexemes apart

A lexeme is a pair of characters, a number, a name or a single character (`isLexeme_take`). None of them
has a blank in it (`IsLexeme.isWord`), so the words of a normal form are the lexemes again
(`words_normal`). What token a lexeme is depends on the lexeme alone (`scanFrom_ok`). So texts with one
normal form are the same tokens, apart from where these stand (`kinds_of_normal`).
-/

namespace LinkedTables

namespace Token

open Text (IsPlain IsWord)

theorem take_takeWhile (p : Char → Bool) (cs : List Char) :
    cs.take (cs.takeWhile p).length = cs.takeWhile p :=
  (List.prefix_iff_eq_take.1 (List.takeWhile_prefix p)).symm

section Kinds

/-- The end of a number: nothing, or a letter, perhaps a sign, and digits. -/
inductive IsExponent : List Char → Prop where
  | none : IsExponent []
  | some {e : Char} {sign ds : List Char} (letter : e = 'e' ∨ e = 'E')
      (sign_mem : sign ∈ [[], ['+'], ['-']]) (ne_nil : ds ≠ [])
      (digits : ∀ d ∈ ds, d.isDigit = true) : IsExponent (e :: (sign ++ ds))

inductive IsLexeme : List Char → Prop where
  | pair {c d : Char} {k : TokenKind} (h : pair? c d = some k) : IsLexeme [c, d]
  | number {mantissa exponent : List Char} (starts : startsNumber mantissa = true)
      (hmantissa : ∀ c ∈ mantissa, inMantissa c = true) (hexponent : IsExponent exponent) :
      IsLexeme (mantissa ++ exponent)
  | name {c : Char} {cs : List Char} (starts : Text.startsName c = true)
      (continues : ∀ d ∈ cs, Text.continuesName d = true) : IsLexeme (c :: cs)
  | single {c : Char} {k : TokenKind} (h : single? c = some k) : IsLexeme [c]

theorem exponentLength_of_ne {c : Char} (h : ¬ (c = 'e' ∨ c = 'E')) (cs : List Char) :
    exponentLength (c :: cs) = 0 := by
  simp_all [exponentLength]

/-- An exponent is as long as its digits and what stands before them. -/
theorem exponentLength_signed {e : Char} {sign ds : List Char} (he : e = 'e' ∨ e = 'E')
    (hsign : sign ∈ [[], ['+'], ['-']]) (hds : sign = [] → ∀ d ∈ ds.head?, d ≠ '+' ∧ d ≠ '-') :
    exponentLength (e :: (sign ++ ds)) = if ds.takeWhile Char.isDigit = [] then 0
      else 1 + sign.length + (ds.takeWhile Char.isDigit).length := by
  simp only [List.mem_cons, List.not_mem_nil, or_false] at hsign
  rcases hsign with rfl | rfl | rfl
  · rcases ds with _ | ⟨d, ds⟩
    · simp [exponentLength]
    · obtain ⟨hplus, hminus⟩ := hds rfl d (by simp)
      cases hdigits : (d :: ds).takeWhile Char.isDigit
      · simp [exponentLength, hplus, hminus, hdigits]
      · simp [exponentLength, he, hplus, hminus, hdigits]
        omega
  all_goals
    cases hdigits : ds.takeWhile Char.isDigit
    · simp [exponentLength, hdigits]
    · simp [exponentLength, he, hdigits]
      omega

/-- The characters after the letter of an exponent, with the sign set apart. -/
theorem exists_sign : ∀ cs : List Char, ∃ sign ds, cs = sign ++ ds ∧ sign ∈ [[], ['+'], ['-']] ∧
    (sign = [] → ∀ d ∈ ds.head?, d ≠ '+' ∧ d ≠ '-')
  | [] => ⟨[], [], rfl, by simp, by simp⟩
  | c :: cs => by
    by_cases hplus : c = '+'
    · exact ⟨['+'], cs, by simp [hplus], by simp, by simp⟩
    · by_cases hminus : c = '-'
      · exact ⟨['-'], cs, by simp [hminus], by simp, by simp⟩
      · exact ⟨[], c :: cs, rfl, by simp, by simp [hplus, hminus]⟩

theorem isExponent_take (cs : List Char) : IsExponent (cs.take (exponentLength cs)) := by
  rcases cs with _ | ⟨e, cs⟩
  · exact .none
  by_cases he : e = 'e' ∨ e = 'E'
  · obtain ⟨sign, ds, rfl, hsign, hds⟩ := exists_sign cs
    rw [exponentLength_signed he hsign hds]
    split_ifs with hnil
    · exact .none
    · rw [Nat.add_assoc, Nat.add_comm, List.take_succ_cons, List.take_length_add_append,
        take_takeWhile]
      exact .some he hsign hnil fun d hd => List.mem_takeWhile_imp hd
  · rw [exponentLength_of_ne he]
    exact .none

theorem startsNumber_of_isDigit {c : Char} (h : c.isDigit = true) (cs : List Char) :
    startsNumber (c :: cs) = true := by
  unfold startsNumber
  split
  · rename_i heq
    cases heq
    cases h
  · rename_i heq
    cases heq
    exact h
  · rename_i heq
    cases heq

theorem startsNumber_append {cs : List Char} (h : startsNumber cs = true) (rest : List Char) :
    startsNumber (cs ++ rest) = true := by
  fun_cases startsNumber cs with
  | case1 d cs => exact h
  | case2 c cs hpoint =>
    rw [startsNumber.eq_2 c cs hpoint] at h
    exact startsNumber_of_isDigit h _
  | case3 => cases h

/-- Whether a text starts a number is seen from its mantissa. -/
theorem startsNumber_takeWhile {cs : List Char} (h : startsNumber cs = true) :
    startsNumber (cs.takeWhile inMantissa) = true := by
  fun_cases startsNumber cs with
  | case1 d cs =>
    have hd : inMantissa d = true := by simp_all [inMantissa, startsNumber]
    rw [List.takeWhile_cons_of_pos rfl, List.takeWhile_cons_of_pos hd]
    exact h
  | case2 c cs hpoint =>
    rw [startsNumber.eq_2 c cs hpoint] at h
    rw [List.takeWhile_cons_of_pos (by simp [inMantissa, h])]
    exact startsNumber_of_isDigit h _
  | case3 => cases h

theorem isLexeme_take {cs : List Char} {k : TokenKind}
    (h : kind? (cs.take (lexemeLength cs)) = some k) : IsLexeme (cs.take (lexemeLength cs)) := by
  match cs with
  | [] => cases h
  | c :: cs =>
    simp only [lexemeLength] at h ⊢
    split_ifs at h ⊢ with hpair hnumber hname
    · obtain ⟨k', hk'⟩ := Option.isSome_iff_exists.1 hpair
      obtain ⟨d, hd, hpair'⟩ := Option.bind_eq_some_iff.1 hk'
      obtain ⟨rest, rfl⟩ := List.head?_eq_some_iff.1 hd
      exact .pair hpair'
    · rw [numberLength]
      nth_rewrite 3 [← List.takeWhile_append_dropWhile (p := inMantissa) (l := c :: cs)]
      rw [List.take_length_add_append]
      exact .number (startsNumber_takeWhile hnumber) (fun c hc => List.mem_takeWhile_imp hc)
        (isExponent_take _)
    · rw [Nat.add_comm, List.take_succ_cons, take_takeWhile]
      exact .name hname fun d hd => List.mem_takeWhile_imp hd
    · simp only [List.take_succ_cons, List.take_zero] at h ⊢
      have hone : startsNumber [c] = false := by
        rw [Bool.eq_false_iff]
        exact fun hstart => hnumber (startsNumber_append hstart cs)
      rw [kind?, if_neg (by simp [hone]), if_neg (by simp [hname])] at h
      exact .single h

end Kinds

section Blanks

variable {c : Char}

theorem isBlank_of_isDigit (h : c.isDigit = true) : Text.isBlank c = false := by
  refine IsPlain.isBlank_eq_false ?_
  simp [IsPlain, Text.continuesName, Char.isAlphanum, h]

theorem isBlank_of_continuesName (h : Text.continuesName c = true) : Text.isBlank c = false :=
  IsPlain.isBlank_eq_false h

theorem isBlank_of_inMantissa (h : inMantissa c = true) : Text.isBlank c = false := by
  rcases Bool.or_eq_true_iff.1 h with h | h
  · exact isBlank_of_isDigit h
  · rw [beq_iff_eq.1 h]
    rfl

theorem IsExponent.isBlank_eq_false {cs : List Char} (h : IsExponent cs) :
    ∀ c ∈ cs, Text.isBlank c = false := by
  intro c hc
  rcases h with _ | ⟨letter, sign_mem, -, digits⟩
  · cases hc
  rcases List.mem_cons.1 hc with rfl | hc
  · rcases letter with rfl | rfl <;> rfl
  rcases List.mem_append.1 hc with hc | hc
  · simp only [List.mem_cons, List.not_mem_nil, or_false] at sign_mem
    rcases sign_mem with rfl | rfl | rfl <;> simp_all [Text.isBlank]
  · exact isBlank_of_isDigit (digits c hc)

theorem isBlank_of_pair? {c d : Char} {k : TokenKind} (h : pair? c d = some k) :
    Text.isBlank c = false ∧ Text.isBlank d = false := by
  unfold pair? at h
  split at h <;> first | exact ⟨rfl, rfl⟩ | cases h

theorem isBlank_of_single? {k : TokenKind} (h : single? c = some k) : Text.isBlank c = false := by
  unfold single? at h
  split at h <;> first | rfl | cases h

theorem continuesName_of_startsName (h : Text.startsName c = true) :
    Text.continuesName c = true := by
  rcases Bool.or_eq_true_iff.1 h with h | h
  · simp [Text.continuesName, Char.isAlphanum, h]
  · simp [Text.continuesName, h]

theorem IsLexeme.isWord {w : List Char} (h : IsLexeme w) : IsWord w := by
  cases h with
  | pair h =>
    obtain ⟨hc, hd⟩ := isBlank_of_pair? h
    exact ⟨by simp, by simp [hc, hd]⟩
  | number starts hmantissa hexponent =>
    refine ⟨?_, fun c hc => ?_⟩
    · rintro hnil
      rw [List.append_eq_nil_iff] at hnil
      rw [hnil.1] at starts
      cases starts
    · rcases List.mem_append.1 hc with hc | hc
      · exact isBlank_of_inMantissa (hmantissa c hc)
      · exact hexponent.isBlank_eq_false c hc
  | name starts continues =>
    refine ⟨by simp, fun d hd => isBlank_of_continuesName ?_⟩
    rcases List.mem_cons.1 hd with rfl | hd
    · exact continuesName_of_startsName starts
    · exact continues d hd
  | single h => exact ⟨by simp, by simp [isBlank_of_single? h]⟩

end Blanks

section Scan

/-- Every token is the one of its lexeme. -/
theorem scanFrom_ok : ∀ {fuel pos : Nat} {cs : List Char} {ts : List Token},
    scanFrom fuel pos cs = .ok ts → ∀ t ∈ ts, kind? t.text = some t.kind ∧ IsLexeme t.text
  | 0, _, [], _, h | _ + 1, _, [], _, h | 0, _, _ :: _, _, h => by
    cases h
    simp
  | fuel + 1, pos, c :: cs, ts, h => by
    rw [scanFrom] at h
    split_ifs at h
    · exact scanFrom_ok h
    · simp only at h
      split at h
      · cases h
      rename_i k hk
      simp only [bind, Except.bind] at h
      split at h
      · cases h
      rename_i rest hrest
      cases h
      intro t ht
      rcases List.mem_cons.1 ht with rfl | ht
      · exact ⟨hk, isLexeme_take hk⟩
      · exact scanFrom_ok hrest t ht

theorem toList_normal (ts : List Token) :
    (normal ts).toList = Text.joined (ts.map Token.text) := by
  simp [normal, Text.joined, String.toList_intercalate, Function.comp_def]

theorem words_normal {cs : List Char} {ts : List Token} (h : scan cs = .ok ts) :
    Text.words (normal ts).toList = ts.map Token.text := by
  rw [toList_normal, Text.words_joined fun w hw => ?_]
  obtain ⟨t, ht, rfl⟩ := List.mem_map.1 hw
  exact (scanFrom_ok h t ht).2.isWord

/-- One normal form means the same tokens, wherever they stand. -/
theorem kinds_of_normal {cs cs' : List Char} {ts ts' : List Token} (h : scan cs = .ok ts)
    (h' : scan cs' = .ok ts') (heq : normal ts = normal ts') :
    ts.map Token.kind = ts'.map Token.kind := by
  have htexts : ts.map Token.text = ts'.map Token.text := by
    rw [← words_normal h, ← words_normal h', heq]
  have hkinds : ∀ {cs : List Char} {ts : List Token}, scan cs = .ok ts →
      ts.map (some ∘ Token.kind) = (ts.map Token.text).map kind? := fun {cs ts} hscan => by
    rw [List.map_map]
    exact List.map_congr_left fun t ht => (scanFrom_ok hscan t ht).1.symm
  have hsome := (hkinds h).trans (htexts ▸ (hkinds h').symm)
  rw [← List.map_map, ← List.map_map] at hsome
  exact List.map_injective_iff.2 (Option.some_injective _) hsome

end Scan

end Token

end LinkedTables
