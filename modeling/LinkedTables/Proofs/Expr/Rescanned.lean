import LinkedTables.Proofs.Expr.Bare
import LinkedTables.Proofs.Run.View

/-!
# The normal form is read as the text

A lexeme ends where it ended if a space comes after it, or nothing (`IsLexeme.lexemeLength_append`): no
lexeme goes on with a space, and a sign or a digit that a longer lexeme would need does not come any
more. So the lexemes of a text with one space between them are scanned one by one
(`scanFrom_joined`), and the normal form has the tokens of the text, its own normal form, and its tree
or the cause why it has none (`Expr.read_normal`).
-/

namespace LinkedTables

namespace Token

/-- What may come after a lexeme in a normal form: nothing, or a space. -/
def Ends (rest : List Char) : Prop := ∀ c ∈ rest.head?, c = ' '

theorem Ends.takeWhile {rest : List Char} (h : Ends rest) {p : Char → Bool} (hp : p ' ' = false) :
    rest.takeWhile p = [] := by
  rcases rest with _ | ⟨c, rest⟩
  · rfl
  · rw [h c (by simp)]
    exact List.takeWhile_cons_of_neg (by simp [hp])

section Ends

variable {rest : List Char} {c : Char}

theorem IsExponent.exponentLength_append {cs : List Char} (h : IsExponent cs) (hrest : Ends rest) :
    exponentLength (cs ++ rest) = cs.length := by
  cases h with
  | none =>
    rcases rest with _ | ⟨c, rest⟩
    · rfl
    · rw [hrest c (by simp)]
      exact exponentLength_of_ne (by decide) rest
  | @some e sign ds letter sign_mem ne_nil digits =>
    have hdigits : (ds ++ rest).takeWhile Char.isDigit = ds := by
      rw [List.takeWhile_append_of_pos digits, hrest.takeWhile rfl, List.append_nil]
    have hsign : sign = [] → ∀ d ∈ (ds ++ rest).head?, d ≠ '+' ∧ d ≠ '-' := fun _ d hd => by
      rw [List.head?_append_of_ne_nil _ ne_nil] at hd
      have := digits d (List.mem_of_mem_head? hd)
      constructor <;> rintro rfl <;> cases this
    rw [List.cons_append, List.append_assoc, exponentLength_signed letter sign_mem hsign, hdigits,
      if_neg ne_nil]
    simp
    omega

/-- No exponent starts like a mantissa. -/
theorem IsExponent.takeWhile_append {cs : List Char} (h : IsExponent cs) (hrest : Ends rest) :
    (cs ++ rest).takeWhile inMantissa = [] := by
  cases h with
  | none => exact hrest.takeWhile rfl
  | some letter => rcases letter with rfl | rfl <;> rfl

theorem numberLength_append {mantissa exponent : List Char}
    (hmantissa : ∀ c ∈ mantissa, inMantissa c = true) (hexponent : IsExponent exponent)
    (hrest : Ends rest) :
    numberLength (mantissa ++ (exponent ++ rest)) = mantissa.length + exponent.length := by
  have hstop := hexponent.takeWhile_append hrest
  have hdrop : (exponent ++ rest).dropWhile inMantissa = exponent ++ rest := by
    simpa [hstop] using List.takeWhile_append_dropWhile (p := inMantissa) (l := exponent ++ rest)
  rw [numberLength, List.takeWhile_append_of_pos hmantissa, List.dropWhile_append_of_pos hmantissa,
    hstop, hdrop, hexponent.exponentLength_append hrest, List.append_nil]

theorem pair?_eq_none_of_inMantissa (h : inMantissa c = true) (d : Char) : pair? c d = none := by
  unfold pair?
  split <;> first | rfl | cases h

theorem pair?_eq_none_of_startsName (h : Text.startsName c = true) (d : Char) :
    pair? c d = none := by
  unfold pair?
  split <;> first | rfl | cases h

theorem inMantissa_of_startsNumber {cs : List Char} (h : startsNumber (c :: cs) = true) :
    inMantissa c = true := by
  by_cases hpoint : c = '.'
  · rw [hpoint]
    rfl
  · rw [startsNumber.eq_2 c cs fun _ _ hc => absurd hc hpoint] at h
    simp [inMantissa, h]

theorem inMantissa_of_startsName (h : Text.startsName c = true) : inMantissa c = false := by
  simp [Text.startsName, Char.isAlpha, Char.isUpper, Char.isLower, inMantissa, Char.isDigit,
    UInt32.le_iff_toNat_le, Char.ext_iff, UInt32.ext_iff] at h ⊢
  omega

theorem lexemeLength_single {k : TokenKind} (h : single? c = some k) {rest : List Char}
    (hrest : Ends rest) : lexemeLength (c :: rest) = 1 := by
  rcases rest with _ | ⟨d, rest⟩
  · unfold single? at h
    split at h <;> first | rfl | cases h
  · rw [hrest d (by simp)]
    unfold single? at h
    split at h <;> first | rfl | cases h

theorem IsLexeme.lexemeLength_append {w : List Char} (h : IsLexeme w) (hrest : Ends rest) :
    lexemeLength (w ++ rest) = w.length := by
  cases h with
  | pair h => simp [lexemeLength, h]
  | @number mantissa exponent starts hmantissa hexponent =>
    have hstarts := startsNumber_append starts (exponent ++ rest)
    obtain ⟨c, mantissa, rfl⟩ := List.exists_cons_of_ne_nil
      (show mantissa ≠ [] by rintro rfl; cases starts)
    have hpair : pair? c = fun _ => none :=
      funext fun d => pair?_eq_none_of_inMantissa (hmantissa c (by simp)) d
    rw [List.append_assoc]
    simp only [List.cons_append] at hstarts ⊢
    rw [lexemeLength, hpair, if_neg (by simp), if_pos hstarts, ← List.cons_append,
      numberLength_append hmantissa hexponent hrest, ← List.length_append, List.cons_append]
  | @name c cs starts continues =>
    have hnumber : startsNumber (c :: (cs ++ rest)) = false := by
      rw [Bool.eq_false_iff]
      intro hstarts
      cases (inMantissa_of_startsNumber hstarts).symm.trans (inMantissa_of_startsName starts)
    have hpair : pair? c = fun _ => none := funext fun d => pair?_eq_none_of_startsName starts d
    have hcontinues : (cs ++ rest).takeWhile Text.continuesName = cs := by
      rw [List.takeWhile_append_of_pos continues, hrest.takeWhile rfl, List.append_nil]
    rw [List.cons_append, lexemeLength, hpair, if_neg (by simp), if_neg (by simp [hnumber]),
      if_pos starts, hcontinues, Nat.add_comm, List.length_cons]
  | single h => exact lexemeLength_single h hrest

end Ends

section Scan

theorem isBlank_eq_false {c : Char} (h : Text.isBlank c = false) : isBlank c = false := by
  rw [Bool.eq_false_iff]
  intro hc
  simp only [isBlank, Bool.or_eq_true, beq_iff_eq] at hc
  rcases hc with (((rfl | rfl) | rfl) | rfl) | rfl <;> cases h

theorem scanFrom_space (fuel pos : Nat) (cs : List Char) :
    scanFrom (fuel + 1) pos (' ' :: cs) = scanFrom fuel (pos + 1) cs := by
  rw [scanFrom, if_pos (by rfl)]
  rfl

theorem isLexeme_of_whole {w rest : List Char} {k : TokenKind}
    (whole : lexemeLength (w ++ rest) = w.length) (hk : kind? w = some k) : IsLexeme w := by
  have htake : (w ++ rest).take (lexemeLength (w ++ rest)) = w := by rw [whole, List.take_left]
  rw [← htake]
  exact isLexeme_take (htake.symm ▸ hk)

/-- One step of a scan, at a lexeme that is a token. -/
theorem scanFrom_token {w cs : List Char} {k : TokenKind} (fuel pos : Nat)
    (whole : lexemeLength (w ++ cs) = w.length) (hk : kind? w = some k) :
    scanFrom (fuel + 1) pos (w ++ cs) = (scanFrom fuel (pos + byteLength w) cs).map
      (⟨k, w, ⟨pos, pos + byteLength w⟩⟩ :: ·) := by
  have hword := (isLexeme_of_whole whole hk).isWord
  obtain ⟨c, w, rfl⟩ := List.exists_cons_of_ne_nil hword.1
  have hblank : isBlank c = false := isBlank_eq_false (hword.2 c List.mem_cons_self)
  rw [List.cons_append, scanFrom, if_neg (by simp [hblank]), ← List.cons_append]
  simp only [whole, List.take_left, List.drop_left, hk]
  rfl

theorem scanFrom_append {w rest : List Char} {k : TokenKind} (hw : IsLexeme w)
    (hk : kind? w = some k) (hrest : Ends rest) (fuel pos : Nat) :
    scanFrom (fuel + 1) pos (w ++ rest) = (do
      let ts ← scanFrom fuel (pos + byteLength w) rest
      return ⟨k, w, ⟨pos, pos + byteLength w⟩⟩ :: ts) := by
  rw [scanFrom_token fuel pos (hw.lexemeLength_append hrest) hk]
  rcases scanFrom fuel (pos + byteLength w) rest <;> rfl

/-- The lexemes of tokens with one space between them are scanned one by one. -/
theorem scanFrom_joined : ∀ {ts : List Token} (fuel pos : Nat),
    (∀ t ∈ ts, kind? t.text = some t.kind ∧ IsLexeme t.text) →
    (Text.joined (ts.map Token.text)).length ≤ fuel →
    ∃ ts', scanFrom fuel pos (Text.joined (ts.map Token.text)) = .ok ts' ∧
      List.Forall₂ (fun t' t => t'.kind = t.kind ∧ t'.text = t.text) ts' ts
  | [], fuel, pos, _, _ => ⟨[], by cases fuel <;> rfl, .nil⟩
  | [t], fuel, pos, h, hfuel => by
    obtain ⟨hk, hw⟩ := h t (by simp)
    simp only [List.map_cons, List.map_nil, Text.joined_singleton] at hfuel ⊢
    have hpos := List.length_pos_of_ne_nil hw.isWord.1
    obtain ⟨fuel, rfl⟩ : ∃ n, fuel = n + 1 := ⟨fuel - 1, by omega⟩
    have hnil : scanFrom fuel (pos + byteLength t.text) [] = .ok [] := by cases fuel <;> rfl
    have hscan := @scanFrom_append _ [] _ hw hk (by simp [Ends]) fuel pos
    rw [hnil, List.append_nil] at hscan
    exact ⟨_, hscan, .cons ⟨rfl, rfl⟩ .nil⟩
  | t :: u :: ts, fuel, pos, h, hfuel => by
    obtain ⟨hk, hw⟩ := h t (by simp)
    have htail : ∀ v ∈ u :: ts, kind? v.text = some v.kind ∧ IsLexeme v.text :=
      fun v hv => h v (List.mem_cons_of_mem t hv)
    simp only [List.map_cons, Text.joined_cons_cons, List.length_append, List.length_cons]
      at hfuel ⊢
    have hpos := List.length_pos_of_ne_nil hw.isWord.1
    obtain ⟨fuel, rfl⟩ : ∃ n, fuel = n + 2 := ⟨fuel - 2, by omega⟩
    obtain ⟨ts', hscan, hsame⟩ := scanFrom_joined fuel (pos + byteLength t.text + 1) htail
      (by simp only [List.map_cons]; omega)
    rw [scanFrom_append hw hk (by simp [Ends]), scanFrom_space]
    simp only [List.map_cons] at hscan
    rw [hscan]
    exact ⟨_, rfl, .cons ⟨rfl, rfl⟩ hsame⟩

/-- A normal form has the tokens that it was made of, and is its own normal form. -/
theorem scan_normal {cs : List Char} {ts : List Token} (h : scan cs = .ok ts) :
    ∃ ts', scan (normal ts).toList = .ok ts' ∧ ts'.map Token.kind = ts.map Token.kind ∧
      normal ts' = normal ts := by
  obtain ⟨ts', hscan, hsame⟩ := scanFrom_joined (Text.joined (ts.map Token.text)).length 0
    (scanFrom_ok h) le_rfl
  have htexts : ts'.map Token.text = ts.map Token.text := by
    rw [← List.forall₂_eq_eq_eq, List.forall₂_map_left_iff, List.forall₂_map_right_iff]
    exact hsame.imp fun _ _ h => h.2
  refine ⟨ts', by rw [toList_normal, scan, hscan], ?_, ?_⟩
  · rw [← List.forall₂_eq_eq_eq, List.forall₂_map_left_iff, List.forall₂_map_right_iff]
    exact hsame.imp fun _ _ h => h.1
  · rw [← String.toList_inj, toList_normal, toList_normal, htexts]

end Scan

end Token

theorem Expr.value?_bare (v : RowView) (constants : List (String × UInt64)) :
    ∀ e : Expr, e.bare.value? v constants = e.value? v constants
  | .number _ | .bool _ | .name .. => rfl
  | .unary _ a _ => by simp only [bare, value?, value?_bare v constants a]
  | .binary _ a b _ => by
    simp only [bare, value?, value?_bare v constants a, value?_bare v constants b]
  | .ternary _ a b c _ => by
    simp only [bare, value?, value?_bare v constants a, value?_bare v constants b,
      value?_bare v constants c]

/-- The normal form of a text has its tokens and is read as the text is: with the same tree, apart from
places, or it is refused for the same cause. So is every text with this normal form, and the trees of
all of them have the same values in every row. -/
theorem Expr.read_normal {text : String} {ts : List Token} (h : Token.scan text.toList = .ok ts) :
    ∃ ts', Token.scan (Token.normal ts).toList = .ok ts' ∧
      ts'.map Token.kind = ts.map Token.kind ∧ Token.normal ts' = Token.normal ts ∧
      Grammar.Agree (fun r r' => r.1.bare = r'.1.bare ∧ r.2 = ts ∧ r'.2 = ts')
        (Expr.read text) (Expr.read (Token.normal ts)) ∧
      ∀ text₂ ts₂, Token.scan text₂.toList = .ok ts₂ → Token.normal ts₂ = Token.normal ts →
        Grammar.Agree (fun r r₂ => r.1.bare = r₂.1.bare ∧
            ∀ v constants, r.1.value? v constants = r₂.1.value? v constants)
          (Expr.read text) (Expr.read text₂) := by
  obtain ⟨ts', hscan, hkinds, hnormal⟩ := Token.scan_normal h
  refine ⟨ts', hscan, hkinds, hnormal, Expr.read_agrees h hscan hnormal.symm,
    fun text₂ ts₂ hscan₂ hnormal₂ => (Expr.read_agrees h hscan₂ hnormal₂.symm).imp ?_⟩
  rintro ⟨e, _⟩ ⟨e₂, _⟩ ⟨hbare, -⟩
  refine ⟨hbare, fun v constants => ?_⟩
  rw [← Expr.value?_bare, ← Expr.value?_bare v constants e₂]
  simp only [hbare]

/-- A text where blanks come between lexemes that stood side by side. -/
theorem Expr.read_normal_spaced : ∃ ts, Token.scan "1.-x .y**-.5e1".toList = .ok ts ∧
    Token.normal ts = "1. - x . y ** - .5e1" ∧
    Grammar.Agree (fun r r' => r.1.bare = r'.1.bare)
      (Expr.read "1.-x .y**-.5e1") (Expr.read "1. - x . y ** - .5e1") := by
  obtain ⟨ts, hscan, hnormal⟩ : ∃ ts, Token.scan "1.-x .y**-.5e1".toList = .ok ts ∧
      Token.normal ts = "1. - x . y ** - .5e1" :=
    ⟨((Token.scan "1.-x .y**-.5e1".toList).toOption.getD []), by decide +kernel, by decide +kernel⟩
  obtain ⟨ts', -, -, -, hagree, -⟩ := Expr.read_normal hscan
  exact ⟨ts, hscan, hnormal, hnormal ▸ hagree.imp fun _ _ h => h.1⟩

end LinkedTables
