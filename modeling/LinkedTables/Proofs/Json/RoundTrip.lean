import LinkedTables.Json.Reader
import LinkedTables.Json.Writer
import LinkedTables.Proofs.Text.Numerals

/-!
# Written JSON is read back

What is written for a value is read as that value, whatever follows it, unless it follows a number and
goes on with its digits (`Plain.readBack`). An escape is read as the character that it was written
for, so a text ends at its own quote and nowhere before. The reader's fuel is twice the length of the
text: it goes down by one for every item and for every list or object that is entered, and each of
these has at least one character of its own.

Numbers are taken to be spelled as whole numbers are. A text with half of a surrogate pair is never
written.
-/

namespace LinkedTables

namespace Json

section Texts

/-- Four digits in base sixteen, filled with zeros, are read as the number. -/
theorem unit16?_hex {n : Nat} (h : n < 65536) (rest : List Char) :
    unit16? ((Text.hex 4 n).toList ++ rest) = some (n, rest) := by
  have hlen : (Nat.toDigits 16 n).length ≤ 4 :=
    (Nat.length_toDigits_le_iff (by omega) (by omega)).2 (by omega)
  have hvalue : Text.digitsValue? 16 0 (Text.hex 4 n).toList = some n := by
    rw [Text.toList_hex, Text.digitsValue?_zeros (by omega),
      Text.digitsValue?_toDigits (by omega) (by omega)]
  have hfour : (Text.hex 4 n).toList.length = 4 := by
    rw [Text.toList_hex]
    simp
    omega
  match hds : (Text.hex 4 n).toList, hfour with
  | [a, b, c, d], _ =>
    rw [hds] at hvalue
    simp only [List.cons_append, List.nil_append, unit16?, hvalue, Option.map_some]

theorem escapedUnit?_control {c : Char} (h : c.val < 0x20) (rest : List Char) :
    escapedUnit? ((Text.hex 4 c.val.toNat).toList ++ rest) = some (some c, rest) := by
  have hlt : c.val.toNat < 32 := UInt32.lt_iff_toNat_lt.1 h
  have hhigh : isHighUnit c.val.toNat = false := by
    simp only [isHighUnit, decide_eq_false_iff_not, Bool.and_eq_false_iff]
    omega
  have hlow : isLowUnit c.val.toNat = false := by
    simp only [isLowUnit, decide_eq_false_iff_not, Bool.and_eq_false_iff]
    omega
  have hchar : Char.ofNat c.val.toNat = c := Char.ofNat_toNat c
  simp only [escapedUnit?, unit16?_hex (show c.val.toNat < 65536 by omega), hhigh, hlow, hchar,
    Bool.false_eq_true, if_false]

/-- What a character is escaped to is read as the character. -/
theorem textRest?_escapedChar (c : Char) (fuel : Nat) (acc : List Char) (broken : Bool)
    (rest : List Char) : textRest? (fuel + 1) acc broken (escapedChar c ++ rest) =
      textRest? fuel (c :: acc) broken rest := by
  unfold escapedChar
  split
  case h_8 hquote hslash _ _ _ _ _ =>
    split_ifs with hcontrol
    · simp only [List.cons_append, List.nil_append]
      rw [textRest?, escapedUnit?_control hcontrol]
    · simp only [List.cons_append, List.nil_append]
      rw [textRest?]
      · simp only [hcontrol, decide_false, Bool.false_or, beq_iff_eq, if_neg hslash]
      · exact hquote
      · exact fun d more h _ => hslash h
  all_goals simp [textRest?]

theorem textRest?_escaped : ∀ (s : List Char) {fuel : Nat} (acc : List Char) (broken : Bool)
    (rest : List Char), s.length < fuel →
      textRest? fuel acc broken (s.flatMap escapedChar ++ '"' :: rest) =
        some (acc.reverse ++ s, broken, rest)
  | [], fuel + 1, acc, broken, rest, _ => by simp [textRest?]
  | c :: s, fuel + 1, acc, broken, rest, h => by
    rw [List.flatMap_cons, List.append_assoc, textRest?_escapedChar,
      textRest?_escaped s (c :: acc) broken rest (by simpa using h)]
    simp

theorem length_le_escaped : ∀ s : List Char, s.length ≤ (s.flatMap escapedChar).length
  | [] => Nat.le_refl 0
  | c :: s => by
    have hpos : 0 < (escapedChar c).length := by
      unfold escapedChar
      split <;> (try split_ifs) <;> simp
    have hrest := length_le_escaped s
    simp only [List.flatMap_cons, List.length_append, List.length_cons]
    omega

/-- A text is read up to the quote that was written behind it. -/
theorem textFrom?_written (s rest : List Char) :
    textFrom? (s.flatMap escapedChar ++ '"' :: rest) = some (s, false, rest) := by
  have hlen := length_le_escaped s
  rw [textFrom?, textRest?_escaped s [] false rest (by rw [List.length_append]; omega)]
  rfl

end Texts

section Numbers

/-- What follows does not go on with a whole number. -/
def EndsNumber (rest : List Char) : Prop :=
  ∀ c ∈ rest.head?, c.isDigit = false ∧ c ≠ '.' ∧ c ≠ 'e' ∧ c ≠ 'E'

theorem endsNumber_nil : EndsNumber [] := by simp [EndsNumber]

theorem isDigit_of_mem_toDigits {n : Nat} {c : Char} (h : c ∈ Nat.toDigits 10 n) :
    c.isDigit = true :=
  Nat.isDigit_of_mem_toDigits (by omega) (by omega) h

/-- Only zero is written with a zero in front. -/
theorem head?_toDigits_ne_zero {n : Nat} (h : 0 < n) : (Nat.toDigits 10 n).head? ≠ some '0' := by
  induction n using Nat.strong_induction_on with
  | _ n ih =>
    rw [Nat.toDigits_eq_if (by omega)]
    split_ifs with hlt
    · interval_cases n <;> simp [Nat.digitChar]
    · have hne : Nat.toDigits 10 (n / 10) ≠ [] := Nat.toDigits_ne_nil
      rw [List.head?_append_of_ne_nil _ hne]
      exact ih (n / 10) (by omega) (by omega)

theorem wholePart?_toDigits (n : Nat) {rest : List Char} (h : EndsNumber rest) :
    wholePart? (Nat.toDigits 10 n ++ rest) = some (Nat.toDigits 10 n, rest) := by
  rcases Nat.eq_zero_or_pos n with rfl | hpos
  · simp [wholePart?]
  · have hdigits : digitsFrom? (Nat.toDigits 10 n ++ rest) = some (Nat.toDigits 10 n, rest) := by
      have hall : ∀ c ∈ Nat.toDigits 10 n, c.isDigit = true := fun c => isDigit_of_mem_toDigits
      have hstop : rest.takeWhile Char.isDigit = [] ∧ rest.dropWhile Char.isDigit = rest := by
        rcases rest with _ | ⟨c, cs⟩
        · exact ⟨rfl, rfl⟩
        · have hc := (h c rfl).1
          simp [hc]
      rw [digitsFrom?, List.takeWhile_append_of_pos hall, List.dropWhile_append_of_pos hall,
        hstop.1, hstop.2]
      simp [Nat.toDigits_ne_nil]
    have hzero := head?_toDigits_ne_zero hpos
    rcases hds : Nat.toDigits 10 n with _ | ⟨c, cs⟩
    · exact absurd hds Nat.toDigits_ne_nil
    · rw [hds] at hzero hdigits
      rw [List.cons_append, wholePart?, ← List.cons_append, hdigits]
      intro more heq
      rw [List.cons.injEq] at heq
      exact hzero (by simp [heq.1])

theorem numberFrom?_nat (n : Nat) {rest : List Char} (h : EndsNumber rest) :
    numberFrom? (Nat.toDigits 10 n ++ rest) = some (nat n, rest) := by
  have hunsigned : ∀ more, Nat.toDigits 10 n ++ rest ≠ '-' :: more := by
    intro more heq
    rcases hds : Nat.toDigits 10 n with _ | ⟨c, cs⟩
    · exact Nat.toDigits_ne_nil hds
    · rw [hds, List.cons_append, List.cons.injEq] at heq
      have hc : c.isDigit = true := isDigit_of_mem_toDigits (n := n) (by simp [hds])
      rw [heq.1] at hc
      exact absurd hc (by decide)
  have hfraction : fractionPart? rest = some ([], rest) := by
    rcases rest with _ | ⟨c, cs⟩
    · rfl
    · have hc := (h c rfl).2.1
      simp [fractionPart?, hc]
  have hexponent : exponentPart? rest = some ([], rest) := by
    rcases rest with _ | ⟨c, cs⟩
    · rfl
    · have hc := (h c rfl).2.2
      simp [exponentPart?, hc]
  unfold numberFrom?
  split
  rename_i sign body hsign
  split at hsign
  · rename_i more heq
    exact absurd heq (hunsigned more)
  obtain ⟨rfl, rfl⟩ := Prod.mk.inj hsign
  simp [wholePart?_toDigits n h, hfraction, hexponent, nat]

end Numbers

section Values

/-- The values that are written for records: numbers are whole, and no text is halved. -/
inductive Plain : Json → Prop where
  | null : Plain .null
  | bool (b : Bool) : Plain (.bool b)
  | nat (n : Nat) : Plain (.nat n)
  | text (s : String) : Plain (.text s)
  | list {items : List Json} (h : ∀ j ∈ items, Plain j) : Plain (.list items)
  | object {fields : List (String × Json)} (h : ∀ f ∈ fields, Plain f.2) : Plain (.object fields)

/-- What is written for the value is read as the value. -/
def ReadBack (j : Json) : Prop :=
  ∀ (fuel : Nat) (rest : List Char), 2 * (write j).length < fuel → EndsNumber rest →
    valueFrom? fuel (write j ++ rest) = some (j, rest)

theorem skipSpace_cons {c : Char} (h : isSpace c = false) (cs : List Char) :
    skipSpace (c :: cs) = c :: cs := by
  simp [skipSpace, h]

/-- No value starts with a blank or with the end of a list. -/
theorem Plain.head {j : Json} (h : j.Plain) :
    ∃ c cs, write j = c :: cs ∧ isSpace c = false ∧ c ≠ ']' := by
  cases h with
  | null => exact ⟨_, _, rfl, rfl, by decide⟩
  | bool b => cases b <;> exact ⟨_, _, rfl, rfl, by decide⟩
  | nat n =>
    rcases hds : Nat.toDigits 10 n with _ | ⟨c, cs⟩
    · exact absurd hds Nat.toDigits_ne_nil
    · have hc : c.isDigit = true := isDigit_of_mem_toDigits (n := n) (by simp [hds])
      refine ⟨c, cs, by rw [Json.nat, write, hds], ?_, ?_⟩
      · simp only [isSpace, Bool.or_eq_false_iff, beq_eq_false_iff_ne]
        refine ⟨⟨⟨?_, ?_⟩, ?_⟩, ?_⟩ <;> rintro rfl <;> exact absurd hc (by decide)
      · rintro rfl
        exact absurd hc (by decide)
  | text s => exact ⟨_, _, rfl, rfl, by decide⟩
  | list _ => exact ⟨'[', _, by rw [write]; rfl, rfl, by decide⟩
  | object _ => exact ⟨'\x7b', _, by rw [write]; rfl, rfl, by decide⟩

theorem readBack_nat (n : Nat) : (nat n).ReadBack := by
  intro fuel rest hfuel hrest
  obtain ⟨fuel, rfl⟩ := Nat.exists_eq_succ_of_ne_zero (Nat.ne_of_gt (Nat.zero_lt_of_lt hfuel))
  obtain ⟨c, cs, hds, hspace, -⟩ := (Plain.nat n).head
  have hnumber := numberFrom?_nat n hrest
  have hc : c.isDigit = true :=
    isDigit_of_mem_toDigits (n := n) (by rw [nat, write] at hds; simp [hds])
  rw [hds, List.cons_append]
  rw [nat, write] at hds
  rw [hds, List.cons_append] at hnumber
  rw [valueFrom?, skipSpace_cons hspace]
  -- a digit opens nothing else
  split
  all_goals first
    | exact hnumber
    | (rename_i heq
       rw [List.cons.injEq] at heq
       rw [heq.1] at hc
       exact absurd hc (by decide))

theorem readBack_text (s : String) : (text s).ReadBack := by
  intro fuel rest hfuel _
  obtain ⟨fuel, rfl⟩ := Nat.exists_eq_succ_of_ne_zero (Nat.ne_of_gt (Nat.zero_lt_of_lt hfuel))
  have htext := textFrom?_written s.toList rest
  rw [write, writtenText, List.append_assoc, List.cons_append]
  simp [valueFrom?, skipSpace, isSpace, htext]

theorem writeItems_cons_cons (j k : Json) (js : List Json) :
    writeItems (j :: k :: js) = write j ++ ',' :: writeItems (k :: js) := by
  rw [writeItems]
  exact List.cons_ne_nil k js

/-- The items of a list are read up to the bracket behind them. -/
theorem itemsFrom?_written : ∀ {items : List Json} (fuel : Nat) (acc : List Json)
    (rest : List Char), items ≠ [] → (∀ j ∈ items, j.ReadBack) →
      2 * (writeItems items).length + 1 < fuel →
      itemsFrom? fuel acc (writeItems items ++ ']' :: rest) = some (acc.reverse ++ items, rest)
  | [], _, _, _, h, _, _ => absurd rfl h
  | [j], fuel + 1, acc, rest, _, hread, hfuel => by
    have hj := hread j (by simp) fuel (']' :: rest) (by rw [writeItems] at hfuel; omega) (by simp [EndsNumber])
    rw [writeItems, itemsFrom?, hj]
    simp [skipSpace, isSpace]
  | j :: k :: js, fuel + 1, acc, rest, _, hread, hfuel => by
    rw [writeItems_cons_cons, List.length_append, List.length_cons] at hfuel
    have hj := hread j (by simp) fuel (',' :: writeItems (k :: js) ++ ']' :: rest) (by omega)
      (by simp [EndsNumber])
    have hjs := itemsFrom?_written fuel (j :: acc) rest (List.cons_ne_nil k js)
      (fun i hi => hread i (List.mem_cons_of_mem j hi)) (by omega)
    rw [writeItems_cons_cons, List.append_assoc, itemsFrom?, hj]
    simp [skipSpace, isSpace, hjs]

theorem writeFields_cons_cons (f g : String × Json) (fs : List (String × Json)) :
    writeFields (f :: g :: fs) =
      writtenText f.1 ++ ':' :: write f.2 ++ ',' :: writeFields (g :: fs) := by
  rw [writeFields]
  exact List.cons_ne_nil g fs

/-- The fields of an object are read up to the brace behind them. -/
theorem fieldsFrom?_written : ∀ {fields : List (String × Json)} (fuel : Nat)
    (acc : List (String × Json)) (rest : List Char), fields ≠ [] → (∀ f ∈ fields, f.2.ReadBack) →
      2 * (writeFields fields).length + 1 < fuel →
      fieldsFrom? fuel acc false (writeFields fields ++ '\x7d' :: rest) =
        some (acc.reverse ++ fields, false, rest)
  | [], _, _, _, h, _, _ => absurd rfl h
  | [(name, j)], fuel + 1, acc, rest, _, hread, hfuel => by
    simp only [writeFields, List.length_append, List.length_cons] at hfuel
    have hread : j.ReadBack := hread (name, j) (by simp)
    have hj := hread fuel ('\x7d' :: rest) (by omega) (by simp [EndsNumber])
    have hname := textFrom?_written name.toList (':' :: (write j ++ '\x7d' :: rest))
    simp only [writeFields, writtenText, List.append_assoc, List.cons_append, List.nil_append]
    simp [fieldsFrom?, skipSpace, isSpace, hname, hj]
  | (name, j) :: g :: fs, fuel + 1, acc, rest, _, hread, hfuel => by
    rw [writeFields_cons_cons] at hfuel
    simp only [List.length_append, List.length_cons] at hfuel
    have hfirst : j.ReadBack := hread (name, j) (by simp)
    have hj := hfirst fuel (',' :: (writeFields (g :: fs) ++ '\x7d' :: rest)) (by omega)
      (by simp [EndsNumber])
    have hname := textFrom?_written name.toList
      (':' :: (write j ++ ',' :: (writeFields (g :: fs) ++ '\x7d' :: rest)))
    have hfs := fieldsFrom?_written fuel ((name, j) :: acc) rest (List.cons_ne_nil g fs)
      (fun f hf => hread f (List.mem_cons_of_mem _ hf)) (by omega)
    rw [writeFields_cons_cons]
    simp only [writtenText, List.append_assoc, List.cons_append, List.nil_append]
    simp [fieldsFrom?, skipSpace, isSpace, hname, hj, hfs]

theorem head_writeItems {items : List Json} (hne : items ≠ []) (h : ∀ j ∈ items, j.Plain) :
    ∃ c cs, writeItems items = c :: cs ∧ isSpace c = false ∧ c ≠ ']' := by
  match items, hne with
  | [j], _ =>
    rw [writeItems]
    exact (h j (by simp)).head
  | j :: k :: js, _ =>
    obtain ⟨c, cs, hj, hc⟩ := (h j (by simp)).head
    exact ⟨c, _, by rw [writeItems_cons_cons, hj, List.cons_append], hc⟩

theorem readBack_list {items : List Json} (hplain : ∀ j ∈ items, j.Plain)
    (hread : ∀ j ∈ items, j.ReadBack) : (list items).ReadBack := by
  intro fuel rest hfuel _
  obtain ⟨fuel, rfl⟩ := Nat.exists_eq_succ_of_ne_zero (Nat.ne_of_gt (Nat.zero_lt_of_lt hfuel))
  rw [write] at hfuel ⊢
  simp only [List.length_append, List.length_cons, List.length_nil] at hfuel
  simp only [List.append_assoc, List.cons_append, List.nil_append]
  rw [valueFrom?, skipSpace_cons (show isSpace '[' = false from rfl)]
  rcases eq_or_ne items [] with rfl | hne
  · simp [writeItems, skipSpace, isSpace]
  · obtain ⟨c, cs, hitems, hspace, hclose⟩ := head_writeItems hne hplain
    have hitems' := itemsFrom?_written fuel [] rest hne hread (by omega)
    rw [hitems, List.cons_append] at hitems' ⊢
    simp [skipSpace_cons hspace, hclose, hitems']

theorem head_writeFields : ∀ {fields : List (String × Json)}, fields ≠ [] →
    ∃ cs, writeFields fields = '"' :: cs
  | [], h => absurd rfl h
  | [(name, j)], _ => ⟨_, by rw [writeFields, writtenText]; rfl⟩
  | f :: g :: fs, _ => ⟨_, by rw [writeFields_cons_cons, writtenText]; rfl⟩

theorem readBack_object {fields : List (String × Json)} (hread : ∀ f ∈ fields, f.2.ReadBack) :
    (object fields).ReadBack := by
  intro fuel rest hfuel _
  obtain ⟨fuel, rfl⟩ := Nat.exists_eq_succ_of_ne_zero (Nat.ne_of_gt (Nat.zero_lt_of_lt hfuel))
  rw [write] at hfuel ⊢
  simp only [List.length_append, List.length_cons, List.length_nil] at hfuel
  simp only [List.append_assoc, List.cons_append, List.nil_append]
  rw [valueFrom?, skipSpace_cons (show isSpace '\x7b' = false from rfl)]
  rcases eq_or_ne fields [] with rfl | hne
  · simp [writeFields, skipSpace, isSpace]
  · obtain ⟨cs, hfields⟩ := head_writeFields hne
    have hfields' := fieldsFrom?_written fuel [] rest hne hread (by omega)
    rw [hfields, List.cons_append] at hfields' ⊢
    simp [skipSpace, isSpace, hfields']

/-- What is written for a plain value is read as the value. -/
theorem Plain.readBack {j : Json} (h : j.Plain) : j.ReadBack := by
  induction h with
  | null =>
    intro fuel rest hfuel _
    obtain ⟨fuel, rfl⟩ := Nat.exists_eq_succ_of_ne_zero (Nat.ne_of_gt (Nat.zero_lt_of_lt hfuel))
    simp [write, valueFrom?, skipSpace, isSpace]
  | bool b =>
    intro fuel rest hfuel _
    obtain ⟨fuel, rfl⟩ := Nat.exists_eq_succ_of_ne_zero (Nat.ne_of_gt (Nat.zero_lt_of_lt hfuel))
    cases b <;> simp [write, valueFrom?, skipSpace, isSpace]
  | nat n => exact readBack_nat n
  | text s => exact readBack_text s
  | list hplain hread => exact readBack_list hplain hread
  | object _ hread => exact readBack_object hread

/-- The text of a plain value spells that value and nothing else. -/
theorem Plain.read?_write {j : Json} (h : j.Plain) : read? (write j) = some j := by
  have hread := h.readBack (2 * (write j).length + 2) [] (by omega) endsNumber_nil
  rw [List.append_nil] at hread
  simp [read?, hread, skipSpace]

end Values

end Json

end LinkedTables
