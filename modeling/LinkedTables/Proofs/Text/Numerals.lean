import LinkedTables.Proofs.Text.Words
import LinkedTables.Text.Name
import LinkedTables.Text.Numeral

/-!
# Numerals and names as words

The decimal and the hexadecimal text of a number are numerals of that number (`numeral?_decimal`,
`numeral?_hex`), so a bounded reader takes exactly the numbers below its bound. Names and numerals
have no blank and no punctuation in them.
-/

namespace LinkedTables

namespace Text

section Digits

variable {base : Nat}

theorem digit?_digitChar {base d : Nat} (hb : base ≤ 16) (hd : d < base) :
    digit? base (Nat.digitChar d) = some d := by
  have h16 : d < 16 := by omega
  have hval : (Nat.digitChar d).val.toNat = if d < 10 then 48 + d else 87 + d := by
    interval_cases d <;> rfl
  simp only [digit?, hval]
  split_ifs with h10 <;> simp_all <;> omega

theorem digitsValue?_append (ds : List Char) : ∀ (acc : Nat) (cs : List Char),
    digitsValue? base acc (cs ++ ds) = (digitsValue? base acc cs).bind (digitsValue? base · ds)
  | acc, [] => rfl
  | acc, c :: cs => by
    rcases hd : digit? base c with _ | d
    · simp [digitsValue?, hd]
    · simp only [List.cons_append, digitsValue?, hd, Option.bind_some]
      exact digitsValue?_append ds (acc * base + d) cs

/-- The digits of a number are read as the number. -/
theorem digitsValue?_toDigits (h1 : 1 < base) (h16 : base ≤ 16) (n : Nat) :
    digitsValue? base 0 (Nat.toDigits base n) = some n := by
  induction n using Nat.strong_induction_on with
  | _ n ih =>
    rw [Nat.toDigits_eq_if h1]
    split_ifs with h
    · simp [digitsValue?, digit?_digitChar h16 h]
    · rw [digitsValue?_append, ih (n / base) (Nat.div_lt_self (by omega) h1), Option.bind_some,
        digitsValue?, digit?_digitChar h16 (Nat.mod_lt n (by omega)), Option.bind_some,
        digitsValue?]
      congr 1
      rw [Nat.mul_comm]
      exact Nat.div_add_mod n base

theorem digitsValue?_zeros (h : 0 < base) (ds : List Char) : ∀ k : Nat,
    digitsValue? base 0 (List.replicate k '0' ++ ds) = digitsValue? base 0 ds
  | 0 => rfl
  | k + 1 => by
    have h0 : digit? base '0' = some 0 := by simp [digit?, h]
    simpa [List.replicate_succ, digitsValue?, h0] using digitsValue?_zeros h ds k

/-- What a reader makes of digits without a sign. -/
theorem numeral?_of_digits {base bound n : Nat} {cs : List Char} (hne : cs ≠ [])
    (hplus : cs.head? ≠ some '+') (h : digitsValue? base 0 cs = some n) :
    numeral? base bound cs = if n < bound then some n else none := by
  rcases cs with _ | ⟨c, cs⟩
  · exact absurd rfl hne
  · have hc : c ≠ '+' := fun hc => hplus (by simp [hc])
    simp only [numeral?]
    split
    · simp_all
    · simp [h, Option.filter_some]

/-- A digit is no blank and no punctuation. -/
def IsPlain (c : Char) : Prop := continuesName c = true

theorem isPlain_digitChar {d : Nat} (h : d < 16) : IsPlain (Nat.digitChar d) := by
  unfold IsPlain
  interval_cases d <;> rfl

theorem isPlain_of_mem_toDigits (h1 : 1 < base) (h16 : base ≤ 16) (n : Nat) {c : Char}
    (hc : c ∈ Nat.toDigits base n) : IsPlain c := by
  induction n using Nat.strong_induction_on with
  | _ n ih =>
    rw [Nat.toDigits_eq_if h1] at hc
    split_ifs at hc with h
    · obtain rfl := List.mem_singleton.1 hc
      exact isPlain_digitChar (by omega)
    · rcases List.mem_append.1 hc with hc | hc
      · exact ih (n / base) (Nat.div_lt_self (by omega) h1) hc
      · obtain rfl := List.mem_singleton.1 hc
        exact isPlain_digitChar (by have := Nat.mod_lt n (show 0 < base by omega); omega)

end Digits

section Names

/-- The characters of names are none of those that separate the parts of a text. -/
theorem IsPlain.ne {c d : Char} (hc : IsPlain c) (hd : continuesName d = false) : c ≠ d := by
  rintro rfl
  exact Bool.false_ne_true (hd.symm.trans hc)

theorem IsPlain.isBlank_eq_false {c : Char} (hc : IsPlain c) : isBlank c = false := by
  simp only [IsPlain, continuesName, Char.isAlphanum, Char.isAlpha, Char.isUpper, Char.isLower,
    Char.isDigit, Bool.or_eq_true, Bool.and_eq_true, decide_eq_true_eq, beq_iff_eq] at hc
  have hval : c.val.toNat ≤ 122 ∧ 48 ≤ c.val.toNat := by
    rcases hc with ((h | h) | h) | rfl
    · exact ⟨by have := UInt32.le_iff_toNat_le.1 h.2; simpa using this.trans (by decide),
        by have := UInt32.le_iff_toNat_le.1 h.1; exact le_trans (by decide) this⟩
    · exact ⟨by have := UInt32.le_iff_toNat_le.1 h.2; exact this,
        by have := UInt32.le_iff_toNat_le.1 h.1; exact le_trans (by decide) this⟩
    · exact ⟨by have := UInt32.le_iff_toNat_le.1 h.2; exact this.trans (by decide),
        by have := UInt32.le_iff_toNat_le.1 h.1; exact this⟩
    · decide
  have htoNat : c.toNat = c.val.toNat := rfl
  simp [isBlank]
  omega

theorem isPlain_of_isName {cs : List Char} (h : isName cs = true) {c : Char} (hc : c ∈ cs) :
    IsPlain c := by
  rcases cs with _ | ⟨d, cs⟩
  · simp at hc
  · simp only [isName, Bool.and_eq_true, List.all_eq_true] at h
    rcases List.mem_cons.1 hc with rfl | hc
    · have hstart := h.1
      simp only [startsName, Bool.or_eq_true] at hstart
      simp only [IsPlain, continuesName, Char.isAlphanum, Bool.or_eq_true]
      tauto
    · exact h.2 c hc

theorem isName_ne_nil {cs : List Char} (h : isName cs = true) : cs ≠ [] := by
  rintro rfl
  simp [isName] at h

theorem isWord_of_isPlain {cs : List Char} (hne : cs ≠ []) (h : ∀ c ∈ cs, IsPlain c) : IsWord cs :=
  ⟨hne, fun c hc => (h c hc).isBlank_eq_false⟩

end Names

section Numbers

theorem toList_toString (n : Nat) : (toString n).toList = Nat.toDigits 10 n := by
  simp [Nat.toString_eq_repr, Nat.toList_repr]

theorem head?_of_isPlain {cs : List Char} (h : ∀ c ∈ cs, IsPlain c) : cs.head? ≠ some '+' := by
  intro hhead
  exact (h '+' (List.mem_of_mem_head? hhead)).ne rfl rfl

/-- The decimal text of a number is a numeral of it. -/
theorem numeral?_decimal (bound n : Nat) :
    numeral? 10 bound (toString n).toList = if n < bound then some n else none := by
  rw [toList_toString]
  exact numeral?_of_digits Nat.toDigits_ne_nil
    (head?_of_isPlain fun c hc => isPlain_of_mem_toDigits (by omega) (by omega) n hc)
    (digitsValue?_toDigits (by omega) (by omega) n)

theorem toList_hex (width n : Nat) : (hex width n).toList =
    List.replicate (width - (Nat.toDigits 16 n).length) '0' ++ Nat.toDigits 16 n := by
  simp [hex]

theorem isPlain_of_mem_hex {width n : Nat} {c : Char} (hc : c ∈ (hex width n).toList) :
    IsPlain c := by
  rw [toList_hex, List.mem_append, List.mem_replicate] at hc
  rcases hc with ⟨-, rfl⟩ | hc
  · rfl
  · exact isPlain_of_mem_toDigits (by omega) (by omega) n hc

/-- So is the text in base sixteen, however many zeros it is filled with. -/
theorem numeral?_hex (bound width n : Nat) :
    numeral? 16 bound (hex width n).toList = if n < bound then some n else none := by
  refine numeral?_of_digits ?_ (head?_of_isPlain fun c hc => isPlain_of_mem_hex hc) ?_
  · simp [toList_hex, Nat.toDigits_ne_nil]
  · rw [toList_hex, digitsValue?_zeros (by omega), digitsValue?_toDigits (by omega) (by omega)]

end Numbers

end Text

end LinkedTables
