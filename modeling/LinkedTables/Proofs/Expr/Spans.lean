import LinkedTables.Proofs.Expr.Rescanned

/-!
# Tokens cover a text

A scan goes through a text from left to right, over blanks and over lexemes that are tokens (`Cut`), and it
ends at the end of the text or at a lexeme that is no token (`scanFrom_outcome`). What comes after a
lexeme does not make it longer or shorter as long as the lexeme stays whole (`lexemeLength_take`), so
what stands before a fault can be scanned alone (`Cut.scan_eq`). The places of the tokens are those of
their characters (`Cut.parts`), one after the other (`Cut.ordered`), and between them are blanks only
(`Cut.blank_outside`).
-/

namespace LinkedTables

/-- What a fault says stands at the start of a text. -/
def LexCause.StartsAt (cs : List Char) : LexCause → Prop
  | .badNumber w => w <+: cs ∧ Token.startsNumber w = true
  | .badChar c => cs.head? = some c

namespace Token

section Take

variable {cs : List Char} {k : Nat}

theorem dropWhile_take {p : Char → Bool} : ∀ {cs : List Char} {k : Nat},
    (cs.takeWhile p).length ≤ k →
    (cs.take k).dropWhile p = (cs.dropWhile p).take (k - (cs.takeWhile p).length)
  | [], k, _ => by simp
  | c :: cs, k, h => by
    by_cases hc : p c = true
    · rw [List.takeWhile_cons_of_pos hc, List.length_cons] at h ⊢
      obtain ⟨k, rfl⟩ : ∃ n, k = n + 1 := ⟨k - 1, by omega⟩
      rw [List.take_succ_cons, List.dropWhile_cons_of_pos hc, List.dropWhile_cons_of_pos hc,
        dropWhile_take (by omega), Nat.add_sub_add_right]
    · rw [List.takeWhile_cons_of_neg hc, List.dropWhile_cons_of_neg hc]
      rcases k with _ | k
      · simp
      · rw [List.take_succ_cons, List.dropWhile_cons_of_neg hc]
        rfl

theorem exponentLength_take (h : exponentLength cs ≤ k) :
    exponentLength (cs.take k) = exponentLength cs := by
  rcases cs with _ | ⟨e, cs⟩
  · simp
  rcases k with _ | k
  · exact (Nat.le_zero.1 h).symm
  rw [List.take_succ_cons]
  by_cases he : e = 'e' ∨ e = 'E'
  · obtain ⟨sign, ds, rfl, hsign, hds⟩ := exists_sign cs
    rw [exponentLength_signed he hsign hds] at h ⊢
    by_cases hk : sign.length ≤ k
    · have hhead : sign = [] → ∀ d ∈ (ds.take (k - sign.length)).head?, d ≠ '+' ∧ d ≠ '-' := by
        intro hnil d hd
        rw [List.head?_take] at hd
        split_ifs at hd
        · cases hd
        · exact hds hnil d hd
      rw [List.take_append, List.take_of_length_le hk, exponentLength_signed he hsign hhead,
        ← List.take_takeWhile]
      split_ifs at h with hnil
      · simp [hnil]
      · rw [List.take_of_length_le (by omega)]
    · -- only the sign is left out, so there were no digits
      have hlen : sign.length ≤ 1 := by
        simp only [List.mem_cons, List.not_mem_nil, or_false] at hsign
        rcases hsign with rfl | rfl | rfl <;> simp
      obtain rfl : k = 0 := by omega
      split_ifs at h ⊢ with hnil
      · simp [exponentLength]
      · omega
  · rw [exponentLength_of_ne he, exponentLength_of_ne he]

theorem numberLength_take (h : numberLength cs ≤ k) :
    numberLength (cs.take k) = numberLength cs := by
  unfold numberLength at h ⊢
  rw [dropWhile_take (by omega), exponentLength_take (by omega), ← List.take_takeWhile,
    List.take_of_length_le (by omega)]

theorem lexemeLength_pos (c : Char) (cs : List Char) : 0 < lexemeLength (c :: cs) := by
  rw [lexemeLength]
  split_ifs with hpair hnumber hname
  · omega
  · have hmantissa := inMantissa_of_startsNumber hnumber
    rw [numberLength, List.takeWhile_cons_of_pos hmantissa, List.length_cons]
    omega
  · omega
  · omega

theorem exponentLength_le (cs : List Char) : exponentLength cs ≤ cs.length := by
  rcases cs with _ | ⟨e, cs⟩
  · simp [exponentLength]
  by_cases he : e = 'e' ∨ e = 'E'
  · obtain ⟨sign, ds, rfl, hsign, hds⟩ := exists_sign cs
    have hdigits := (List.takeWhile_prefix Char.isDigit (l := ds)).length_le
    rw [exponentLength_signed he hsign hds, List.length_cons, List.length_append]
    split_ifs <;> omega
  · rw [exponentLength_of_ne he]
    omega

theorem lexemeLength_le (cs : List Char) : lexemeLength cs ≤ cs.length := by
  rcases cs with _ | ⟨c, cs⟩
  · simp [lexemeLength]
  rw [lexemeLength, List.length_cons]
  split_ifs with hpair hnumber hname
  · rcases cs with _ | ⟨d, cs⟩
    · simp at hpair
    · simp
  · have hlen := congrArg List.length
      (List.takeWhile_append_dropWhile (p := inMantissa) (l := c :: cs))
    have hexponent := exponentLength_le ((c :: cs).dropWhile inMantissa)
    rw [List.length_append, List.length_cons] at hlen
    rw [numberLength]
    omega
  · have hcontinues := (List.takeWhile_prefix Text.continuesName (l := cs)).length_le
    omega
  · omega

/-- Whether a text starts a number is seen from the number. -/
theorem startsNumber_take (h : startsNumber cs = true → numberLength cs ≤ k) :
    startsNumber (cs.take k) = startsNumber cs := by
  by_cases hstarts : startsNumber cs = true
  · have hk : (cs.takeWhile inMantissa).length ≤ k := by
      have hlen := h hstarts
      unfold numberLength at hlen
      omega
    have hmantissa : (cs.take k).takeWhile inMantissa = cs.takeWhile inMantissa := by
      rw [← List.take_takeWhile, List.take_of_length_le hk]
    rw [hstarts, ← List.takeWhile_append_dropWhile (p := inMantissa) (l := cs.take k), hmantissa]
    exact startsNumber_append (startsNumber_takeWhile hstarts) _
  · rw [Bool.eq_false_iff.2 hstarts, Bool.eq_false_iff]
    intro htake
    exact hstarts (List.take_append_drop k cs ▸ startsNumber_append htake (cs.drop k))

/-- A lexeme is as long with less text behind it. -/
theorem lexemeLength_take (h : lexemeLength cs ≤ k) :
    lexemeLength (cs.take k) = lexemeLength cs := by
  rcases cs with _ | ⟨c, cs⟩
  · simp
  have hpos := lexemeLength_pos c cs
  obtain ⟨k, rfl⟩ : ∃ n, k = n + 1 := ⟨k - 1, by omega⟩
  rw [List.take_succ_cons]
  rw [lexemeLength] at h ⊢
  rw [lexemeLength]
  by_cases hpair : (cs.head?.bind (pair? c)).isSome = true
  · rw [if_pos hpair] at h
    have hhead : (cs.take k).head? = cs.head? := by rw [List.head?_take, if_neg (by omega)]
    rw [hhead, if_pos hpair, if_pos hpair]
  · rw [if_neg hpair] at h ⊢
    have hhead : ¬ ((cs.take k).head?.bind (pair? c)).isSome = true := by
      rw [List.head?_take]
      split_ifs
      · simp
      · exact hpair
    have hstarts : startsNumber (c :: cs.take k) = startsNumber (c :: cs) := by
      rw [← List.take_succ_cons]
      refine startsNumber_take fun hnumber => ?_
      rwa [if_pos hnumber] at h
    rw [if_neg hhead, hstarts]
    split_ifs at h ⊢ with hnumber hname
    · rw [← List.take_succ_cons, numberLength_take h]
    · rw [← List.take_takeWhile, List.take_of_length_le (by omega)]
    · rfl

end Take

section Lengths

theorem byteLength_eq_sum (cs : List Char) : byteLength cs = (cs.map Char.utf8Size).sum := by
  have hfold : ∀ (cs : List Char) (n : Nat),
      cs.foldl (fun n c => n + c.utf8Size) n = n + (cs.map Char.utf8Size).sum := by
    intro cs
    induction cs with
    | nil => exact fun n => rfl
    | cons c cs ih =>
      intro n
      rw [List.foldl_cons, ih, List.map_cons, List.sum_cons, Nat.add_assoc]
  unfold byteLength
  rw [hfold, Nat.zero_add]

theorem byteLength_cons (c : Char) (cs : List Char) :
    byteLength (c :: cs) = c.utf8Size + byteLength cs := by
  rw [byteLength_eq_sum, byteLength_eq_sum, List.map_cons, List.sum_cons]

theorem byteLength_append (cs ds : List Char) :
    byteLength (cs ++ ds) = byteLength cs + byteLength ds := by
  rw [byteLength_eq_sum, byteLength_eq_sum, byteLength_eq_sum, List.map_append, List.sum_append]

theorem byteLength_pos {cs : List Char} (h : cs ≠ []) : 0 < byteLength cs := by
  obtain ⟨c, cs, rfl⟩ := List.exists_cons_of_ne_nil h
  rw [byteLength_cons]
  exact Nat.add_pos_left c.utf8Size_pos _

end Lengths

section Outcome

/-- The lexeme at the start of a text. -/
def firstLexeme (cs : List Char) : List Char := cs.take (lexemeLength cs)

theorem exists_firstLexeme (cs : List Char) : ∃ w rest, cs = w ++ rest ∧ firstLexeme cs = w ∧
    lexemeLength cs = w.length := by
  refine ⟨_, _, (List.take_append_drop (lexemeLength cs) cs).symm, rfl, ?_⟩
  rw [List.length_take, Nat.min_eq_left (lexemeLength_le cs)]

/-- The tokens of a text, which starts at a place and has other text behind it. -/
inductive Cut (behind : List Char) : Nat → List Char → List Token → Prop where
  | nil {pos : Nat} : Cut behind pos [] []
  | blank {pos : Nat} {c : Char} {cs : List Char} {ts : List Token} (hblank : isBlank c = true)
      (rest : Cut behind (pos + c.utf8Size) cs ts) : Cut behind pos (c :: cs) ts
  | token {pos : Nat} {w cs : List Char} {k : TokenKind} {ts : List Token}
      (whole : lexemeLength (w ++ (cs ++ behind)) = w.length) (hk : kind? w = some k)
      (rest : Cut behind (pos + byteLength w) cs ts) :
      Cut behind pos (w ++ cs) (⟨k, w, ⟨pos, pos + byteLength w⟩⟩ :: ts)

/-- A text starts with a lexeme that is no token. -/
structure Stuck (cs : List Char) : Prop where
  ne_nil : cs ≠ []
  blank : ∀ c ∈ cs.head?, isBlank c = false
  no_token : kind? (firstLexeme cs) = none

/-- Where a scan ends: behind the last token, or at a lexeme that is no token. -/
def Outcome (pos : Nat) (cs : List Char) : Except LexFault (List Token) → Prop
  | .ok ts => Cut [] pos cs ts
  | .error f => ∃ front rest ts, cs = front ++ rest ∧ Cut rest pos front ts ∧ Stuck rest ∧
      f = ⟨pos + byteLength front, cause (firstLexeme rest)⟩

theorem Outcome.of_blank {pos : Nat} {c : Char} {cs : List Char} (hblank : isBlank c = true)
    {r : Except LexFault (List Token)} (h : Outcome (pos + c.utf8Size) cs r) :
    Outcome pos (c :: cs) r := by
  rcases r with f | ts
  · obtain ⟨front, rest, ts, hcs, hcut, hstuck, hf⟩ := h
    refine ⟨c :: front, rest, ts, by rw [hcs]; rfl, .blank hblank hcut, hstuck, ?_⟩
    rw [hf, byteLength_cons, Nat.add_assoc]
  · exact Cut.blank hblank h

theorem Outcome.of_token {pos : Nat} {w cs : List Char} {k : TokenKind}
    (whole : lexemeLength (w ++ cs) = w.length) (hk : kind? w = some k)
    {r : Except LexFault (List Token)} (h : Outcome (pos + byteLength w) cs r) :
    Outcome pos (w ++ cs) (r.map (⟨k, w, ⟨pos, pos + byteLength w⟩⟩ :: ·)) := by
  rcases r with f | ts
  · obtain ⟨front, rest, ts, hcs, hcut, hstuck, hf⟩ := h
    subst hcs
    refine ⟨w ++ front, rest, _, (List.append_assoc ..).symm, .token whole hk hcut, hstuck, ?_⟩
    rw [hf, byteLength_append, Nat.add_assoc]
  · exact Cut.token (by rwa [List.append_nil]) hk h

end Outcome

section Steps

theorem scanFrom_stuck {cs : List Char} (fuel pos : Nat) (h : Stuck cs) :
    scanFrom (fuel + 1) pos cs = .error ⟨pos, cause (firstLexeme cs)⟩ := by
  obtain ⟨c, cs, rfl⟩ := List.exists_cons_of_ne_nil h.ne_nil
  have hblank := h.blank c rfl
  have hnone := h.no_token
  unfold firstLexeme at hnone ⊢
  rw [scanFrom, if_neg (by simp [hblank])]
  simp only [hnone]

/-- The characters of a text are fuel enough. -/
theorem scanFrom_outcome : ∀ {fuel pos : Nat} {cs : List Char}, cs.length ≤ fuel →
    Outcome pos cs (scanFrom fuel pos cs)
  | fuel, pos, [], _ => by
    have hscan : scanFrom fuel pos [] = .ok [] := by cases fuel <;> rfl
    rw [hscan]
    exact Cut.nil
  | fuel + 1, pos, c :: cs, hfuel => by
    have hfuel : cs.length ≤ fuel := Nat.le_of_succ_le_succ hfuel
    by_cases hblank : isBlank c = true
    · rw [scanFrom, if_pos hblank]
      exact (scanFrom_outcome hfuel).of_blank hblank
    rcases hk : kind? (firstLexeme (c :: cs)) with _ | k
    · have hstuck : Stuck (c :: cs) := ⟨by simp, by simpa using hblank, hk⟩
      rw [scanFrom_stuck fuel pos hstuck]
      exact ⟨[], c :: cs, [], rfl, .nil, hstuck, rfl⟩
    · have hpos := lexemeLength_pos c cs
      obtain ⟨w, rest, hsplit, hw, hlen⟩ := exists_firstLexeme (c :: cs)
      have hrest := congrArg List.length hsplit
      rw [List.length_cons, List.length_append] at hrest
      rw [hw] at hk
      rw [hlen] at hpos
      rw [hsplit] at hlen ⊢
      rw [scanFrom_token fuel pos hlen hk]
      exact (scanFrom_outcome (by omega)).of_token hlen hk

/-- What comes behind a text may be left out. -/
theorem Cut.front {behind : List Char} {pos : Nat} {cs : List Char} {ts : List Token}
    (h : Cut behind pos cs ts) : Cut [] pos cs ts := by
  induction h with
  | nil => exact .nil
  | blank hblank _ ih => exact .blank hblank ih
  | @token pos w cs k ts whole hk _ ih =>
    refine .token ?_ hk ih
    have hlen : lexemeLength (w ++ (cs ++ behind)) ≤ (w ++ cs).length := by
      rw [whole, List.length_append]
      omega
    have hfront := lexemeLength_take hlen
    rw [← List.append_assoc, List.take_left, List.append_assoc, whole] at hfront
    rw [List.append_nil, hfront]

/-- A text that is cut into tokens is scanned. -/
theorem Cut.scan_eq {pos : Nat} {cs : List Char} {ts : List Token} (h : Cut [] pos cs ts) :
    ∀ fuel, cs.length ≤ fuel → scanFrom fuel pos cs = .ok ts := by
  induction h with
  | nil => exact fun fuel _ => by cases fuel <;> rfl
  | @blank pos c cs ts hblank _ ih =>
    intro fuel hfuel
    rw [List.length_cons] at hfuel
    obtain ⟨fuel, rfl⟩ : ∃ n, fuel = n + 1 := ⟨fuel - 1, by omega⟩
    rw [scanFrom, if_pos hblank]
    exact ih fuel (by omega)
  | @token pos w cs k ts whole hk _ ih =>
    intro fuel hfuel
    have hpos := List.length_pos_of_ne_nil (isLexeme_of_whole whole hk).isWord.1
    rw [List.length_append] at hfuel
    obtain ⟨fuel, rfl⟩ : ∃ n, fuel = n + 1 := ⟨fuel - 1, by omega⟩
    rw [List.append_nil] at whole
    rw [scanFrom_token fuel pos whole hk, ih fuel (by omega)]
    rfl

end Steps

section Places

variable {behind cs : List Char} {pos : Nat} {ts : List Token}

/-- A token has the place of its characters, and is the token that these are. -/
theorem Cut.parts (h : Cut behind pos cs ts) : ∀ t ∈ ts, ∃ front back,
    cs = front ++ (t.text ++ back) ∧
    t.span = ⟨pos + byteLength front, pos + byteLength front + byteLength t.text⟩ ∧
    kind? t.text = some t.kind ∧ IsLexeme t.text := by
  induction h with
  | nil => simp
  | @blank pos c cs ts _ _ ih =>
    intro t ht
    obtain ⟨front, back, hcs, hspan, hkind⟩ := ih t ht
    refine ⟨c :: front, back, by rw [hcs]; rfl, ?_, hkind⟩
    rw [hspan, byteLength_cons, Nat.add_assoc]
  | @token pos w cs k ts whole hk _ ih =>
    intro t ht
    rcases List.mem_cons.1 ht with rfl | ht
    · exact ⟨[], cs, rfl, rfl, hk, isLexeme_of_whole whole hk⟩
    · obtain ⟨front, back, hcs, hspan, hkind⟩ := ih t ht
      refine ⟨w ++ front, back, by rw [hcs, List.append_assoc], ?_, hkind⟩
      rw [hspan, byteLength_append, Nat.add_assoc]

theorem Cut.ordered (h : Cut behind pos cs ts) :
    ts.Pairwise fun t u => t.span.stop ≤ u.span.start := by
  induction h with
  | nil => exact .nil
  | blank _ _ ih => exact ih
  | token _ _ rest ih =>
    refine List.pairwise_cons.2 ⟨fun u hu => ?_, ih⟩
    obtain ⟨front, back, -, hspan, -⟩ := rest.parts u hu
    rw [hspan]
    exact Nat.le_add_right _ _

/-- The bytes of the blanks. -/
def blankBytes : List UInt8 := [0x20, 0x09, 0x0a, 0x0c, 0x0d]

/-- The bytes of characters in UTF-8. -/
def bytes (cs : List Char) : List UInt8 := cs.flatMap String.utf8EncodeChar

theorem bytes_cons (c : Char) (cs : List Char) :
    bytes (c :: cs) = String.utf8EncodeChar c ++ bytes cs := List.flatMap_cons

theorem bytes_append (cs ds : List Char) : bytes (cs ++ ds) = bytes cs ++ bytes ds :=
  List.flatMap_append

theorem length_bytes : ∀ cs : List Char, (bytes cs).length = byteLength cs
  | [] => rfl
  | c :: cs => by
    rw [bytes_cons, List.length_append, String.length_utf8EncodeChar, length_bytes cs,
      byteLength_cons]

theorem utf8EncodeChar_blank {c : Char} (h : isBlank c = true) :
    ∃ b ∈ blankBytes, String.utf8EncodeChar c = [b] ∧ c.utf8Size = 1 := by
  simp only [isBlank, Bool.or_eq_true, beq_iff_eq] at h
  rcases h with (((rfl | rfl) | rfl) | rfl) | rfl
  · exact ⟨0x20, by decide, by decide, by decide⟩
  · exact ⟨0x09, by decide, by decide, by decide⟩
  · exact ⟨0x0a, by decide, by decide, by decide⟩
  · exact ⟨0x0d, by decide, by decide, by decide⟩
  · exact ⟨0x0c, by decide, by decide, by decide⟩

/-- A byte that belongs to no token is the one of a blank. -/
theorem Cut.blank_outside (h : Cut behind pos cs ts) : ∀ i b, (bytes cs)[i]? = some b →
    (∀ t ∈ ts, pos + i < t.span.start ∨ t.span.stop ≤ pos + i) → b ∈ blankBytes := by
  induction h with
  | nil => simp [bytes]
  | @blank pos c cs ts hblank _ ih =>
    obtain ⟨b₀, hb₀, hencode, hsize⟩ := utf8EncodeChar_blank hblank
    intro i b hb hout
    rw [bytes_cons, hencode, List.singleton_append] at hb
    rcases i with _ | i
    · obtain rfl : b₀ = b := by simpa using hb
      exact hb₀
    · rw [List.getElem?_cons_succ] at hb
      refine ih i b hb fun t ht => ?_
      have := hout t ht
      omega
  | @token pos w cs k ts _ _ _ ih =>
    intro i b hb hout
    rw [bytes_append] at hb
    rw [List.forall_mem_cons] at hout
    dsimp only at hout
    have hi : byteLength w ≤ i := by omega
    rw [List.getElem?_append_right (by rwa [length_bytes]), length_bytes] at hb
    refine ih (i - byteLength w) b hb fun t ht => ?_
    have := hout.2 t ht
    omega

end Places

section Whole

/-- The part of a text between two places, which have to be boundaries of characters. -/
def slice? (text : String) (start stop : Nat) : Option (List Char) :=
  if String.Pos.Raw.isValid text ⟨start⟩ && String.Pos.Raw.isValid text ⟨stop⟩ &&
      decide (start ≤ stop) then
    some (String.Pos.Raw.extract text ⟨start⟩ ⟨stop⟩).toList
  else none

theorem byteLength_eq_utf8Len : ∀ cs : List Char, byteLength cs = String.utf8Len cs
  | [] => rfl
  | c :: cs => by
    rw [byteLength_cons, byteLength_eq_utf8Len cs, String.utf8Len, Nat.add_comm]

theorem isValid_byteLength {text : String} {front back : List Char}
    (h : text.toList = front ++ back) : String.Pos.Raw.IsValid text ⟨byteLength front⟩ := by
  rw [String.Pos.Raw.isValid_iff_exists_append]
  refine ⟨String.ofList front, String.ofList back, ?_, ?_⟩
  · rw [← String.ofList_append, ← h, String.ofList_toList]
  · rw [byteLength_eq_utf8Len, ← String.utf8ByteSize_ofList]
    rfl

theorem slice?_append {text : String} {front w back : List Char}
    (h : text.toList = front ++ (w ++ back)) :
    slice? text (byteLength front) (byteLength front + byteLength w) = some w := by
  have hstart := isValid_byteLength h
  have hstop : String.Pos.Raw.IsValid text ⟨byteLength front + byteLength w⟩ := by
    rw [← byteLength_append]
    exact isValid_byteLength (h.trans (List.append_assoc ..).symm)
  unfold slice?
  rw [String.Pos.Raw.isValid_eq_true_iff.2 hstart, String.Pos.Raw.isValid_eq_true_iff.2 hstop]
  rw [if_pos (by simp), ← String.ofList_toList (s := text), h, ← List.append_assoc,
    byteLength_eq_utf8Len, byteLength_eq_utf8Len, String.extract_of_valid, String.toList_ofList]

/-- The tokens of a text: parts of it one after the other, with blanks only between them. -/
structure Tiles (text : String) (ts : List Token) : Prop where
  nonempty : ∀ t ∈ ts, t.span.start < t.span.stop
  inside : ∀ t ∈ ts, t.span.stop ≤ text.utf8ByteSize
  ordered : ts.Pairwise fun t u => t.span.stop ≤ u.span.start
  boundaries : ∀ t ∈ ts, String.Pos.Raw.IsValid text ⟨t.span.start⟩ ∧
    String.Pos.Raw.IsValid text ⟨t.span.stop⟩
  blank : ∀ (i : Nat) (hi : i < text.toByteArray.size),
    (∀ t ∈ ts, i < t.span.start ∨ t.span.stop ≤ i) → text.toByteArray[i] ∈ blankBytes
  /-- The characters of a token are the part of the text at its place, and scanned alone they are this
  token. -/
  alone : ∀ t ∈ ts, slice? text t.span.start t.span.stop = some t.text ∧
    scan t.text = .ok [⟨t.kind, t.text, ⟨0, byteLength t.text⟩⟩]

/-- A scan fails at a boundary of a character inside the text, where the cause stands, and what comes
before it can be scanned. -/
structure Refused (text : String) (f : LexFault) : Prop where
  inside : f.pos < text.utf8ByteSize
  boundary : String.Pos.Raw.IsValid text ⟨f.pos⟩
  before : ∃ front rest ts, text = front ++ rest ∧ front.utf8ByteSize = f.pos ∧
    scan front.toList = .ok ts ∧ f.cause.StartsAt rest.toList

def Lossless (text : String) : Except LexFault (List Token) → Prop
  | .ok ts => Tiles text ts
  | .error f => Refused text f

theorem utf8ByteSize_eq (text : String) : text.utf8ByteSize = byteLength text.toList := by
  rw [byteLength_eq_utf8Len, ← String.utf8ByteSize_ofList, String.ofList_toList]

/-- A lexeme that is a token is scanned as this token. -/
theorem scan_isLexeme {w : List Char} {k : TokenKind} (hw : IsLexeme w) (hk : kind? w = some k) :
    scan w = .ok [⟨k, w, ⟨0, byteLength w⟩⟩] := by
  have hlen : lexemeLength (w ++ []) = w.length := hw.lexemeLength_append (by simp [Ends])
  have hcut : Cut [] 0 (w ++ []) [⟨k, w, ⟨0, 0 + byteLength w⟩⟩] := .token hlen hk .nil
  rw [List.append_nil, Nat.zero_add] at hcut
  exact hcut.scan_eq _ le_rfl

theorem Cut.tiles {text : String} (h : Cut [] 0 text.toList ts) : Tiles text ts where
  nonempty t ht := by
    obtain ⟨front, back, -, hspan, -, hw⟩ := h.parts t ht
    have hpos := byteLength_pos hw.isWord.1
    rw [hspan]
    dsimp only
    omega
  inside t ht := by
    obtain ⟨front, back, htext, hspan, -⟩ := h.parts t ht
    rw [utf8ByteSize_eq, htext, hspan, byteLength_append, byteLength_append]
    dsimp only
    omega
  ordered := h.ordered
  boundaries t ht := by
    obtain ⟨front, back, htext, hspan, -⟩ := h.parts t ht
    rw [hspan, Nat.zero_add]
    refine ⟨isValid_byteLength htext, ?_⟩
    rw [← byteLength_append]
    exact isValid_byteLength (htext.trans (List.append_assoc ..).symm)
  blank i hi hout := by
    have hbytes : text.toByteArray = (bytes text.toList).toByteArray := String.utf8Encode_toList.symm
    refine h.blank_outside i _ ?_ (by simpa using hout)
    simp only [hbytes] at hi ⊢
    rw [List.getElem_toByteArray]
    exact List.getElem?_eq_getElem _
  alone t ht := by
    obtain ⟨front, back, htext, hspan, hk, hw⟩ := h.parts t ht
    rw [hspan, Nat.zero_add]
    exact ⟨slice?_append htext, scan_isLexeme hw hk⟩

theorem cause_firstLexeme {c : Char} {cs : List Char}
    (h : startsNumber (firstLexeme (c :: cs)) = false) :
    cause (firstLexeme (c :: cs)) = .badChar c := by
  obtain ⟨n, hn⟩ : ∃ n, lexemeLength (c :: cs) = n + 1 :=
    ⟨_, (Nat.succ_pred_eq_of_pos (lexemeLength_pos c cs)).symm⟩
  rw [cause, h, if_neg (by simp), firstLexeme, hn]
  rfl

theorem Stuck.startsAt (h : Stuck cs) : (cause (firstLexeme cs)).StartsAt cs := by
  obtain ⟨c, cs, rfl⟩ := List.exists_cons_of_ne_nil h.ne_nil
  by_cases hnumber : startsNumber (firstLexeme (c :: cs)) = true
  · rw [cause, if_pos hnumber]
    exact ⟨List.take_prefix _ _, hnumber⟩
  · rw [cause_firstLexeme (Bool.eq_false_iff.2 hnumber)]
    rfl

/-- The tokens of a text cover it but for blanks, or the scan ends at what is no token. -/
theorem scan_covers (text : String) : Lossless text (scan text.toList) := by
  have houtcome : Outcome 0 text.toList (scanFrom text.toList.length 0 text.toList) :=
    scanFrom_outcome le_rfl
  unfold scan
  rcases hscan : scanFrom text.toList.length 0 text.toList with f | ts
  all_goals rw [hscan] at houtcome
  · obtain ⟨front, rest, ts, htext, hcut, hstuck, rfl⟩ := houtcome
    rw [Nat.zero_add]
    have hpos := byteLength_pos hstuck.ne_nil
    have hsplit : text = String.ofList front ++ String.ofList rest := by
      rw [← String.ofList_append, ← htext, String.ofList_toList]
    refine ⟨?_, isValid_byteLength htext, String.ofList front, String.ofList rest, ts, hsplit, ?_, ?_, ?_⟩
    · rw [utf8ByteSize_eq, htext, byteLength_append]
      dsimp only
      omega
    · rw [utf8ByteSize_eq, String.toList_ofList]
    · rw [String.toList_ofList]
      exact hcut.front.scan_eq _ le_rfl
    · rw [String.toList_ofList]
      exact hstuck.startsAt
  · exact Cut.tiles houtcome

end Whole

end Token

end LinkedTables
