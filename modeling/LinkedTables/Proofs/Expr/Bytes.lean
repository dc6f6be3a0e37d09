import LinkedTables.Proofs.Expr.Spans

/-!
# Scanning the bytes of a text

A text can be scanned byte by byte, each byte taken for a character (`scanBytes`): lexemes are measured on
the bytes, and only numbers and names are cut out of the text, at places that have to be boundaries of
characters. All characters of a lexeme but perhaps the first one are ASCII (`ascii_firstLexeme`), and the
bytes of any other character are not, so lexemes are as long in bytes as in characters and no cut goes
through a character: the scan of the bytes has the result of the scan of the text, whatever it is
(`scan_lossless`).
-/

namespace LinkedTables

namespace Token

/-- The bytes of a text in UTF-8, each of them taken for a character. -/
def byteChars (text : String) : List Char := text.toByteArray.data.toList.map Char.ofUInt8

/-- The lexeme at a place, where these bytes begin. A number or a name is cut out of the text, any other
lexeme is told by its bytes. -/
def lexemeAt? (text : String) (pos : Nat) (bs : List Char) : Option (List Char) :=
  if startsNumber bs || Text.startsName (bs.headD ' ') then slice? text pos (pos + lexemeLength bs)
  else some (firstLexeme bs)

/-- What is wrong with a lexeme that is no token. The text is cut to see the character at the place. -/
def faultAt? (text : String) (pos : Nat) (w : List Char) : Option LexFault :=
  if startsNumber w then some ⟨pos, .badNumber w⟩
  else (slice? text pos text.utf8ByteSize).map fun rest => ⟨pos, .badChar (rest.headD '?')⟩

/-- The scan of a text by its bytes. There is no result without fuel, or where the text is cut within a
character. -/
def scanBytes (text : String) : Nat → Nat → Option (Except LexFault (List Token))
  | 0, _ => none
  | fuel + 1, pos =>
    match (byteChars text).drop pos with
    | [] => some (.ok [])
    | b :: bs =>
      if isBlank b then scanBytes text fuel (pos + 1)
      else (lexemeAt? text pos (b :: bs)).bind fun w =>
        let stop := pos + lexemeLength (b :: bs)
        match kind? w with
        | some k => (scanBytes text fuel stop).map (Except.map (⟨k, w, ⟨pos, stop⟩⟩ :: ·))
        | none => (faultAt? text pos w).map .error

section Ascii

variable {c : Char}

def IsAscii (c : Char) : Prop := c.toNat < 128

instance : DecidablePred IsAscii := fun c => Nat.decLt c.toNat 128

theorem IsAscii.utf8Size (h : IsAscii c) : c.utf8Size = 1 := by
  rw [Char.utf8Size_eq_one_iff, UInt32.le_iff_toNat_le]
  exact Nat.le_of_lt_succ h

theorem byteLength_ascii : ∀ {cs : List Char}, (∀ c ∈ cs, IsAscii c) → byteLength cs = cs.length
  | [], _ => rfl
  | c :: cs, h => by
    rw [List.forall_mem_cons] at h
    rw [byteLength_cons, h.1.utf8Size, byteLength_ascii h.2, List.length_cons, Nat.add_comm]

theorem ascii_of_isPlain (h : Text.IsPlain c) : IsAscii c := by
  simp only [Text.IsPlain, Text.continuesName, Char.isAlphanum, Char.isAlpha, Char.isUpper,
    Char.isLower, Char.isDigit, Bool.or_eq_true, Bool.and_eq_true, decide_eq_true_eq, beq_iff_eq,
    UInt32.le_iff_toNat_le] at h
  unfold IsAscii
  rcases h with ((h | h) | h) | rfl
  · exact lt_of_le_of_lt h.2 (by decide)
  · exact lt_of_le_of_lt h.2 (by decide)
  · exact lt_of_le_of_lt h.2 (by decide)
  · decide

theorem ascii_of_isDigit (h : c.isDigit = true) : IsAscii c :=
  ascii_of_isPlain (by simp [Text.IsPlain, Text.continuesName, Char.isAlphanum, h])

theorem ascii_of_inMantissa (h : inMantissa c = true) : IsAscii c := by
  rcases Bool.or_eq_true_iff.1 h with h | h
  · exact ascii_of_isDigit h
  · rw [beq_iff_eq.1 h]
    decide

theorem IsExponent.ascii {cs : List Char} (h : IsExponent cs) : ∀ c ∈ cs, IsAscii c := by
  intro c hc
  rcases h with _ | ⟨letter, sign_mem, -, digits⟩
  · cases hc
  rcases List.mem_cons.1 hc with rfl | hc
  · rcases letter with rfl | rfl <;> decide
  rcases List.mem_append.1 hc with hc | hc
  · simp only [List.mem_cons, List.not_mem_nil, or_false] at sign_mem
    rcases sign_mem with rfl | rfl | rfl <;> simp_all [IsAscii]
  · exact ascii_of_isDigit (digits c hc)

theorem ascii_of_pair? {c d : Char} (h : (pair? c d).isSome = true) : IsAscii d := by
  unfold pair? at h
  split at h <;> first | decide | cases h

/-- A lexeme that starts in ASCII stays there. -/
theorem ascii_firstLexeme (hc : IsAscii c) (cs : List Char) :
    ∀ d ∈ firstLexeme (c :: cs), IsAscii d := by
  unfold firstLexeme
  rw [lexemeLength]
  split_ifs with hpair hnumber hname
  · rcases cs with _ | ⟨d, cs⟩
    · simp at hpair
    · simp [hc, ascii_of_pair? hpair]
  · rw [numberLength]
    nth_rewrite 3 [← List.takeWhile_append_dropWhile (p := inMantissa) (l := c :: cs)]
    rw [List.take_length_add_append]
    exact List.forall_mem_append.2 ⟨fun d hd => ascii_of_inMantissa (List.mem_takeWhile_imp hd),
      (isExponent_take _).ascii⟩
  · rw [Nat.add_comm, List.take_succ_cons, take_takeWhile]
    exact List.forall_mem_cons.2 ⟨hc, fun d hd => ascii_of_isPlain (List.mem_takeWhile_imp hd)⟩
  · simp [hc]

/-- Other characters start no lexeme but themselves, and are no token. -/
structure Foreign (c : Char) : Prop where
  blank : isBlank c = false
  pair : ∀ d, pair? c d = none
  number : ∀ cs, startsNumber (c :: cs) = false
  name : Text.startsName c = false
  single : single? c = none

theorem foreign_of_not_ascii (h : ¬ IsAscii c) : Foreign c := by
  have hne : ∀ d, IsAscii d → c ≠ d := fun d hd heq => h (heq ▸ hd)
  have hplain : ¬ Text.IsPlain c := fun hc => h (ascii_of_isPlain hc)
  have hdigit : c.isDigit = false := Bool.eq_false_iff.2 fun hc => h (ascii_of_isDigit hc)
  refine ⟨?_, fun d => ?_, fun cs => ?_, ?_, ?_⟩
  · unfold isBlank
    simp [hne ' ' (by decide), hne '\t' (by decide), hne '\n' (by decide), hne '\r' (by decide),
      hne '\x0c' (by decide)]
  · unfold pair?
    split <;> first | rfl | exact absurd rfl (hne _ (by decide))
  · rw [startsNumber.eq_2 c cs fun _ _ hc => absurd hc (hne '.' (by decide))]
    exact hdigit
  · exact Bool.eq_false_iff.2 fun hc => hplain (continuesName_of_startsName hc)
  · unfold single?
    split <;> first | rfl | exact absurd rfl (hne _ (by decide))

theorem Foreign.lexemeLength (h : Foreign c) (cs : List Char) :
    Token.lexemeLength (c :: cs) = 1 := by
  have hpair : pair? c = fun _ => none := funext h.pair
  rw [Token.lexemeLength, hpair, if_neg (by simp), h.number, if_neg (by simp), h.name, if_neg (by simp)]

theorem Foreign.stuck (h : Foreign c) (cs : List Char) : Stuck (c :: cs) := by
  refine ⟨by simp, by simpa using h.blank, ?_⟩
  rw [firstLexeme, h.lexemeLength, List.take_succ_cons, List.take_zero, kind?, h.number,
    if_neg (by simp), h.name, if_neg (by simp)]
  exact h.single

theorem Foreign.startsNumber_firstLexeme (h : Foreign c) (cs : List Char) :
    startsNumber (firstLexeme (c :: cs)) = false := by
  rw [firstLexeme, h.lexemeLength]
  exact h.number []

/-- A lexeme ends before a character that is not ASCII. -/
theorem lexemeLength_foreign {w rest : List Char} (hc : IsAscii c)
    (hrest : ∀ d ∈ rest.head?, ¬ IsAscii d) :
    lexemeLength (c :: (w ++ rest)) = lexemeLength (c :: w) := by
  have hle : lexemeLength (c :: (w ++ rest)) ≤ (c :: w).length := by
    by_contra hlt
    rcases rest with _ | ⟨d, rest⟩
    · have hlen := lexemeLength_le (c :: (w ++ []))
      rw [List.append_nil] at hlt hlen
      exact hlt hlen
    · obtain ⟨m, hm⟩ : ∃ m, lexemeLength (c :: (w ++ d :: rest)) = (c :: w).length + (m + 1) :=
        ⟨lexemeLength (c :: (w ++ d :: rest)) - (c :: w).length - 1, by omega⟩
      have hmem : d ∈ firstLexeme (c :: (w ++ d :: rest)) := by
        unfold firstLexeme
        rw [hm, ← List.cons_append, List.take_length_add_append]
        simp
      exact hrest d rfl (ascii_firstLexeme hc _ d hmem)
  have htake := lexemeLength_take hle
  rw [← List.cons_append, List.take_left] at htake
  exact htake.symm

end Ascii

section Latin

variable {c : Char}

theorem toNat_ofUInt8 (b : UInt8) : (Char.ofUInt8 b).toNat = b.toNat := by
  simp [Char.ofUInt8, Char.toNat]

/-- The bytes of some characters, each of them taken for a character. -/
def latin (cs : List Char) : List Char := (bytes cs).map Char.ofUInt8

theorem byteChars_eq (text : String) : byteChars text = latin text.toList := by
  have hbytes : text.toByteArray = (bytes text.toList).toByteArray := String.utf8Encode_toList.symm
  rw [byteChars, hbytes, List.data_toByteArray, latin]

theorem latin_append (cs ds : List Char) : latin (cs ++ ds) = latin cs ++ latin ds := by
  rw [latin, bytes_append, List.map_append]
  rfl

theorem length_latin (cs : List Char) : (latin cs).length = byteLength cs := by
  rw [latin, List.length_map, length_bytes]

theorem latin_cons (c : Char) (cs : List Char) :
    latin (c :: cs) = (String.utf8EncodeChar c).map Char.ofUInt8 ++ latin cs := by
  rw [latin, bytes_cons, List.map_append]
  rfl

theorem latin_ascii (h : IsAscii c) (cs : List Char) : latin (c :: cs) = c :: latin cs := by
  have hv : c.val.toNat < 128 := h
  have hencode : String.utf8EncodeChar c = [UInt8.ofNat c.val.toNat] := by
    unfold String.utf8EncodeChar
    rw [if_pos (by omega)]
  have hc : Char.ofUInt8 (UInt8.ofNat c.val.toNat) = c := by
    refine Char.ext (UInt32.toNat_inj.1 ?_)
    have htoNat := toNat_ofUInt8 (UInt8.ofNat c.val.toNat)
    rw [UInt8.toNat_ofNat', Nat.mod_eq_of_lt (by omega)] at htoNat
    exact htoNat
  rw [latin_cons, hencode, List.map_singleton, hc, List.singleton_append]

theorem latin_ascii_append : ∀ {w : List Char}, (∀ c ∈ w, IsAscii c) → ∀ cs,
    latin (w ++ cs) = w ++ latin cs
  | [], _, cs => rfl
  | c :: w, h, cs => by
    rw [List.forall_mem_cons] at h
    rw [List.cons_append, latin_ascii h.1, latin_ascii_append h.2, List.cons_append]

/-- The bytes of a character that is not ASCII are not ASCII. -/
theorem latin_foreign (h : ¬ IsAscii c) (cs : List Char) :
    ∃ b bs, latin (c :: cs) = b :: bs ∧ ¬ IsAscii b := by
  have hv : 128 ≤ c.val.toNat := Nat.le_of_not_lt h
  have hbytes : ∀ b ∈ String.utf8EncodeChar c, 128 ≤ b.toNat := by
    have hlt := c.val.toNat_lt
    unfold String.utf8EncodeChar
    dsimp only
    split_ifs <;> simp <;> omega
  obtain ⟨b, bs, hencode⟩ := List.exists_cons_of_ne_nil (String.utf8EncodeChar_ne_nil (c := c))
  refine ⟨Char.ofUInt8 b, bs.map Char.ofUInt8 ++ latin cs, ?_, ?_⟩
  · rw [latin_cons, hencode, List.map_cons, List.cons_append]
  · have hb := hbytes b (by rw [hencode]; exact List.mem_cons_self)
    rw [IsAscii, toNat_ofUInt8]
    omega

/-- A lexeme that starts in ASCII is as long in bytes as in characters. -/
theorem lexemeLength_latin (hc : IsAscii c) (cs : List Char) :
    lexemeLength (c :: latin cs) = lexemeLength (c :: cs) := by
  have hsplit := List.takeWhile_append_dropWhile (p := fun d => decide (IsAscii d)) (l := cs)
  have hascii : ∀ d ∈ cs.takeWhile fun d => decide (IsAscii d), IsAscii d := fun d hd => by
    simpa using List.mem_takeWhile_imp hd
  have hrest : ∀ d ∈ (cs.dropWhile fun d => decide (IsAscii d)).head?, ¬ IsAscii d := by
    intro d hd
    have hnot := List.head?_dropWhile_not (fun d => decide (IsAscii d)) cs
    rw [hd] at hnot
    simpa using hnot
  rw [← hsplit, latin_ascii_append hascii, lexemeLength_foreign hc hrest, lexemeLength_foreign hc]
  rcases hdrop : cs.dropWhile fun d => decide (IsAscii d) with _ | ⟨d, rest⟩
  · simp [latin, bytes]
  · rw [hdrop] at hrest
    obtain ⟨b, bs, hlatin, hb⟩ := latin_foreign (hrest d rfl) rest
    rw [hlatin]
    simpa using hb

/-- A lexeme that starts in ASCII has the same characters on the bytes. -/
theorem firstLexeme_latin (hc : IsAscii c) (cs : List Char) :
    firstLexeme (c :: latin cs) = firstLexeme (c :: cs) := by
  have hascii := ascii_firstLexeme hc cs
  obtain ⟨w, rest, hsplit, hw, hlen⟩ := exists_firstLexeme (c :: cs)
  rw [hw] at hascii ⊢
  rw [firstLexeme, lexemeLength_latin hc, hlen, ← latin_ascii hc, hsplit,
    latin_ascii_append hascii, List.take_left]

end Latin

section Scan

variable {text : String}

theorem drop_byteChars {front cs : List Char} (h : text.toList = front ++ cs) :
    (byteChars text).drop (byteLength front) = latin cs := by
  rw [byteChars_eq, h, latin_append, ← length_latin, List.drop_left]

theorem slice?_rest {front cs : List Char} (h : text.toList = front ++ cs) :
    slice? text (byteLength front) text.utf8ByteSize = some cs := by
  have hslice : slice? text (byteLength front) (byteLength front + byteLength cs) = some cs :=
    slice?_append (h.trans (by rw [List.append_nil]))
  rwa [← byteLength_append, ← h, ← utf8ByteSize_eq] at hslice

theorem lexemeAt?_ascii {front cs : List Char} {c : Char} (h : text.toList = front ++ c :: cs)
    (hc : IsAscii c) :
    lexemeAt? text (byteLength front) (c :: latin cs) = some (firstLexeme (c :: cs)) := by
  have hascii := ascii_firstLexeme hc cs
  obtain ⟨w, rest, hsplit, hw, hlen⟩ := exists_firstLexeme (c :: cs)
  rw [hw] at hascii
  rw [hsplit] at h
  rw [lexemeAt?, firstLexeme_latin hc, lexemeLength_latin hc, hlen, hw, ← byteLength_ascii hascii,
    slice?_append h, ite_self]

theorem lexemeAt?_foreign {b : Char} (hb : Foreign b) (text : String) (pos : Nat) (bs : List Char) :
    lexemeAt? text pos (b :: bs) = some (firstLexeme (b :: bs)) := by
  rw [lexemeAt?, hb.number, List.headD_cons, hb.name]
  rfl

/-- The fault at a lexeme is the one that its characters have, whatever stands for them. -/
theorem faultAt?_eq {front cs w : List Char} {c : Char} (h : text.toList = front ++ c :: cs)
    (hw : startsNumber w = true → w = firstLexeme (c :: cs))
    (hnumber : startsNumber w = startsNumber (firstLexeme (c :: cs))) :
    faultAt? text (byteLength front) w =
      some ⟨byteLength front, cause (firstLexeme (c :: cs))⟩ := by
  unfold faultAt?
  by_cases hstarts : startsNumber w = true
  · rw [if_pos hstarts, cause, if_pos (hnumber ▸ hstarts), hw hstarts]
  · rw [Bool.not_eq_true] at hstarts
    rw [cause_firstLexeme (hnumber ▸ hstarts), hstarts, slice?_rest h]
    rfl

theorem scanBytes_blank {front cs : List Char} {c : Char} (fuel : Nat)
    (h : text.toList = front ++ c :: cs) (hblank : isBlank c = true) :
    scanBytes text (fuel + 1) (byteLength front) =
      scanBytes text fuel (byteLength (front ++ [c])) := by
  have hc : IsAscii c := by
    by_contra hc
    rw [(foreign_of_not_ascii hc).blank] at hblank
    cases hblank
  have hnext : byteLength (front ++ [c]) = byteLength front + 1 := by
    rw [byteLength_append, byteLength_cons, hc.utf8Size]
    rfl
  rw [scanBytes, drop_byteChars h, latin_ascii hc, hnext]
  dsimp only
  rw [if_pos hblank]

theorem scanBytes_token {front w cs : List Char} {k : TokenKind} (fuel : Nat)
    (h : text.toList = front ++ (w ++ cs)) (whole : lexemeLength (w ++ cs) = w.length)
    (hk : kind? w = some k) :
    scanBytes text (fuel + 1) (byteLength front) =
      (scanBytes text fuel (byteLength (front ++ w))).map
        (Except.map (⟨k, w, ⟨byteLength front, byteLength front + byteLength w⟩⟩ :: ·)) := by
  have hword := (isLexeme_of_whole whole hk).isWord
  have hfirst : firstLexeme (w ++ cs) = w := by rw [firstLexeme, whole, List.take_left]
  obtain ⟨c, w, rfl⟩ := List.exists_cons_of_ne_nil hword.1
  have hblank : isBlank c = false := isBlank_eq_false (hword.2 c List.mem_cons_self)
  rw [List.cons_append] at h whole hfirst
  have hc : IsAscii c := by
    by_contra hc
    have hnone := ((foreign_of_not_ascii hc).stuck (w ++ cs)).no_token
    rw [hfirst, hk] at hnone
    cases hnone
  have hascii := ascii_firstLexeme hc (w ++ cs)
  rw [hfirst] at hascii
  rw [scanBytes, drop_byteChars h, latin_ascii hc]
  dsimp only
  rw [if_neg (by simp [hblank]), lexemeAt?_ascii h hc, Option.bind_some, lexemeLength_latin hc, whole,
    hfirst, hk, ← byteLength_ascii hascii, byteLength_append]

/-- A text is stuck where its bytes are: a character that is not ASCII is no token, and neither is its
first byte. -/
theorem scanBytes_stuck {front cs : List Char} (fuel : Nat) (h : text.toList = front ++ cs)
    (hstuck : Stuck cs) : scanBytes text (fuel + 1) (byteLength front) =
      some (.error ⟨byteLength front, cause (firstLexeme cs)⟩) := by
  obtain ⟨c, cs, rfl⟩ := List.exists_cons_of_ne_nil hstuck.ne_nil
  rw [scanBytes, drop_byteChars h]
  by_cases hc : IsAscii c
  · have hblank := hstuck.blank c rfl
    rw [latin_ascii hc]
    dsimp only
    rw [if_neg (by simp [hblank]), lexemeAt?_ascii h hc, Option.bind_some, hstuck.no_token]
    dsimp only
    rw [faultAt?_eq h (fun _ => rfl) rfl]
    rfl
  · obtain ⟨b, bs, hlatin, hb⟩ := latin_foreign hc cs
    have hb := foreign_of_not_ascii hb
    have hc := foreign_of_not_ascii hc
    rw [hlatin]
    dsimp only
    rw [hb.blank, if_neg (by simp), lexemeAt?_foreign hb, Option.bind_some, (hb.stuck bs).no_token]
    dsimp only
    rw [faultAt?_eq h (by simp [hb.startsNumber_firstLexeme])
      (by rw [hb.startsNumber_firstLexeme, hc.startsNumber_firstLexeme])]
    rfl

/-- Wherever it starts, the scan of the bytes has the result of the scan of the characters. -/
theorem scanBytes_rest : ∀ {fuel fuel' : Nat} {front cs : List Char}, text.toList = front ++ cs →
    byteLength cs < fuel → cs.length ≤ fuel' →
    scanBytes text fuel (byteLength front) = some (scanFrom fuel' (byteLength front) cs)
  | 0, _, _, _, _, hfuel, _ => by omega
  | fuel + 1, fuel', front, [], h, _, _ => by
    have hscan : scanFrom fuel' (byteLength front) [] = .ok [] := by cases fuel' <;> rfl
    rw [scanBytes, drop_byteChars h, hscan]
    rfl
  | fuel + 1, 0, front, c :: cs, h, _, hfuel' => by simp at hfuel'
  | fuel + 1, fuel' + 1, front, c :: cs, h, hfuel, hfuel' => by
    rw [byteLength_cons] at hfuel
    rw [List.length_cons] at hfuel'
    have hsize := c.utf8Size_pos
    by_cases hblank : isBlank c = true
    · have hnext : byteLength (front ++ [c]) = byteLength front + c.utf8Size := by
        rw [byteLength_append, byteLength_cons]
        rfl
      rw [scanBytes_blank fuel h hblank, scanFrom, if_pos hblank, ← hnext]
      exact scanBytes_rest (by rw [h]; simp) (by omega) (by omega)
    rcases hk : kind? (firstLexeme (c :: cs)) with _ | k
    · have hstuck : Stuck (c :: cs) := ⟨by simp, by simpa using hblank, hk⟩
      rw [scanFrom_stuck _ _ hstuck, scanBytes_stuck fuel h hstuck]
    · have hpos := lexemeLength_pos c cs
      obtain ⟨w, rest, hsplit, hw, hlen⟩ := exists_firstLexeme (c :: cs)
      have hlength := congrArg List.length hsplit
      have hbytes := congrArg byteLength hsplit
      rw [List.length_cons, List.length_append] at hlength
      rw [byteLength_cons, byteLength_append] at hbytes
      rw [hw] at hk
      rw [hlen] at hpos
      rw [hsplit] at h hlen ⊢
      have hwpos := byteLength_pos (List.length_pos_iff.1 hpos)
      have hrest : scanBytes text fuel (byteLength (front ++ w)) =
          some (scanFrom fuel' (byteLength (front ++ w)) rest) :=
        scanBytes_rest (by rw [h, List.append_assoc]) (by omega) (by omega)
      rw [scanBytes_token fuel h hlen hk, scanFrom_token _ _ hlen hk, hrest, byteLength_append]
      rfl

/-- The scan of the bytes ends, without a cut within a character, with the result of the scan of the text:
tokens that cover the text but for blanks, each of them the one of its own characters, or a fault at a
character before which everything can be scanned. More fuel changes nothing. -/
theorem scan_lossless (text : String) : Lossless text (scan text.toList) ∧ ∀ extra,
    scanBytes text (text.utf8ByteSize + 1 + extra) 0 = some (scan text.toList) ∧
    scanFrom (text.toList.length + extra) 0 text.toList = scan text.toList := by
  have hscan : ∀ {fuel fuel'}, text.utf8ByteSize < fuel → text.toList.length ≤ fuel' →
      scanBytes text fuel 0 = some (scanFrom fuel' 0 text.toList) := fun hfuel hfuel' =>
    @scanBytes_rest text _ _ [] _ rfl (utf8ByteSize_eq text ▸ hfuel) hfuel'
  refine ⟨scan_covers text, fun extra => ?_⟩
  have hbytes : scanBytes text (text.utf8ByteSize + 1 + extra) 0 = some (scan text.toList) :=
    hscan (by omega) le_rfl
  exact ⟨hbytes, Option.some.inj ((hscan (by omega) (by omega)).symm.trans hbytes)⟩

end Scan

end Token

end LinkedTables
