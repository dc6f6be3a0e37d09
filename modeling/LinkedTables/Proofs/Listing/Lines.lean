import LinkedTables.Listing.Reader
import LinkedTables.Proofs.Links.Spelling
import LinkedTables.Proofs.Listing.Written

/-!
# Lines, written and read

Every line of a listing is words with one blank between them, and perhaps a remark after a semicolon.
Reading a line takes the words apart again. A line that says a number is read only if the number fits
into 32 bits, so a listing that can be read has no larger ones (`Reads`).
-/

namespace LinkedTables

namespace Listing

open Text (IsWord joined IsPlain bound32)

section Words

variable {w : List Char} {ws : List (List Char)}

/-- A word of a line: no blank and no semicolon. -/
structure IsPart (w : List Char) : Prop where
  ne_nil : w ≠ []
  chars : ∀ c ∈ w, Text.isBlank c = false ∧ c ≠ ';'

theorem IsPart.isWord (h : IsPart w) : IsWord w :=
  ⟨h.ne_nil, fun c hc => (h.chars c hc).1⟩

theorem isWord_of_isPart (h : ∀ w ∈ ws, IsPart w) : ∀ w ∈ ws, IsWord w :=
  fun w hw => (h w hw).isWord

theorem isPart_of_isPlain (hne : w ≠ []) (h : ∀ c ∈ w, IsPlain c) : IsPart w :=
  ⟨hne, fun c hc => ⟨(h c hc).isBlank_eq_false, (h c hc).ne rfl⟩⟩

theorem isPart_of_all (hne : w ≠ []) (h : w.all (fun c => !Text.isBlank c && c != ';') = true) :
    IsPart w :=
  ⟨hne, fun c hc => by simpa using List.all_eq_true.1 h c hc⟩

theorem not_mem_joined {m : Char} (hm : m ≠ ' ') {ws : List (List Char)} (h : ∀ w ∈ ws, m ∉ w) :
    m ∉ joined ws := fun hmem => by
  rcases Text.mem_joined hmem with rfl | ⟨w, hw, hmw⟩
  · exact hm rfl
  · exact h w hw hmw

theorem mark_not_mem (h : ∀ w ∈ ws, IsPart w) : ';' ∉ joined ws :=
  not_mem_joined (by decide) fun w hw hmem => ((h w hw).chars _ hmem).2 rfl

/-- A line without a remark. -/
theorem content_joined (h : ∀ w ∈ ws, IsPart w) : content (joined ws) = joined ws := by
  rw [content, Text.pieces_of_none fun c hc => ?_]
  · exact Text.trim_joined (isWord_of_isPart h)
  · exact beq_eq_false_iff_ne.2 fun heq => mark_not_mem h (heq ▸ hc)

/-- A line with a remark. -/
theorem content_remark (h : ∀ w ∈ ws, IsPart w) (remark : List Char) :
    content (joined ws ++ ' ' :: ';' :: remark) = joined ws := by
  have hsplit : joined ws ++ ' ' :: ';' :: remark = (joined ws ++ [' ']) ++ ';' :: remark := by simp
  rw [content, hsplit, Text.pieces_append (by rfl) _ fun c hc => ?_]
  · show Text.trim (joined ws ++ [' ']) = joined ws
    rw [Text.trim_append_blank rfl, Text.trim_joined (isWord_of_isPart h)]
  · refine beq_eq_false_iff_ne.2 fun heq => ?_
    subst heq
    rcases List.mem_append.1 hc with hc | hc
    · exact mark_not_mem h hc
    · simp at hc

theorem keyword_joined {v : List Char} (h : ∀ u ∈ w :: v :: ws, IsPart u) :
    keyword (joined (w :: v :: ws)) = (w, joined (v :: ws)) := by
  rw [keyword, Text.cut?_joined_cons (h w (by simp)).isWord]
  simp only [Text.trim_joined fun u hu => (h u (List.mem_cons_of_mem w hu)).isWord]

theorem splitWord?_joined {v : List Char} (h : ∀ u ∈ w :: v :: ws, IsPart u) :
    splitWord? (joined (w :: v :: ws)) = some (w, joined (v :: ws)) := by
  have hne : (joined (w :: v :: ws)).isEmpty = false := by
    simpa using Text.joined_ne_nil (by simp) (isWord_of_isPart h)
  rw [splitWord?, Text.trim_joined (isWord_of_isPart h), hne,
    Text.cut?_joined_cons (h w (by simp)).isWord]
  simp [Text.trim_joined fun u hu => (h u (List.mem_cons_of_mem w hu)).isWord]

theorem wordOr_joined (fault : LineCause) {w v : List Char} {ws : List (List Char)}
    (h : ∀ u ∈ w :: v :: ws, IsPart u) :
    wordOr fault (joined (w :: v :: ws)) = .ok (w, joined (v :: ws)) := by
  rw [wordOr, splitWord?_joined h]

end Words

section Indexed

def indexed (letter : Char) (n : Nat) : List Char := letter :: (toString n).toList

theorem mem_toString {n : Nat} {c : Char} (h : c ∈ (toString n).toList) : IsPlain c := by
  rw [Text.toList_toString] at h
  exact Text.isPlain_of_mem_toDigits (by decide) (by decide) n h

theorem isPlain_indexed {letter : Char} (hl : Text.continuesName letter = true) {n : Nat} {c : Char}
    (h : c ∈ indexed letter n) : IsPlain c := by
  rcases List.mem_cons.1 h with rfl | h
  · exact hl
  · exact mem_toString h

theorem isPart_indexed {letter : Char} (hl : Text.continuesName letter = true) (n : Nat) :
    IsPart (indexed letter n) :=
  isPart_of_isPlain (by simp [indexed]) fun _ h => isPlain_indexed hl h

theorem index?_indexed (letter : Char) (n : Nat) :
    index? letter (indexed letter n) = if n < bound32 then some (UInt32.ofNat n) else none := by
  rw [indexed, index?, if_pos (by simp), Text.numeral?_decimal]
  split_ifs <;> rfl

/-- A number is the one that is expected, provided that it fits. -/
theorem expectIndex_indexed (letter : Char) (n : Nat) :
    expectIndex letter n (indexed letter n) = if n < bound32 then .ok ()
      else .error (.wrongIndex letter n (String.ofList (indexed letter n))) := by
  rw [expectIndex, index?_indexed]
  split_ifs with h
  · have htoNat : (UInt32.ofNat n).toNat = n := UInt32.toNat_ofNat_of_lt h
    simp only [htoNat, if_pos]
  · rfl

end Indexed

section Paths

/-- The names of dimensions between brackets. -/
def bracketText (dims : List String) : List Char :=
  '[' :: [','].intercalate (dims.map String.toList) ++ [']']

theorem toList_bracketed (dims : List String) : (bracketed dims).toList = bracketText dims := by
  simp [bracketed, bracketText, String.toList_intercalate]

variable {dims : List String}

theorem mem_bracketText (h : ∀ d ∈ dims, Text.isName d.toList = true) {c : Char}
    (hc : c ∈ bracketText dims) : c = '[' ∨ c = ']' ∨ c = ',' ∨ IsPlain c := by
  rw [bracketText, List.mem_append, List.mem_cons, List.mem_singleton] at hc
  rcases hc with (rfl | hc) | rfl
  · exact Or.inl rfl
  · rcases Text.mem_intercalate hc with rfl | ⟨w, hw, hc⟩
    · exact Or.inr (Or.inr (Or.inl rfl))
    · obtain ⟨d, hd, rfl⟩ := List.mem_map.1 hw
      exact Or.inr (Or.inr (Or.inr (Text.isPlain_of_isName (h d hd) hc)))
  · exact Or.inr (Or.inl rfl)

theorem isPart_bracketText (h : ∀ d ∈ dims, Text.isName d.toList = true) :
    IsPart (bracketText dims) := by
  refine ⟨by simp [bracketText], fun c hc => ?_⟩
  rcases mem_bracketText h hc with rfl | rfl | rfl | hc
  · exact ⟨rfl, by decide⟩
  · exact ⟨rfl, by decide⟩
  · exact ⟨rfl, by decide⟩
  · exact ⟨hc.isBlank_eq_false, hc.ne rfl⟩

theorem dims?_bracketText (h : ∀ d ∈ dims, Text.isName d.toList = true) :
    dims? (bracketText dims) = some dims := by
  have hnames : ∀ w ∈ dims.map String.toList, IsWord w := fun w hw => by
    obtain ⟨d, hd, rfl⟩ := List.mem_map.1 hw
    exact Text.isWord_of_isPlain (Text.isName_ne_nil (h d hd)) fun c hc =>
      Text.isPlain_of_isName (h d hd) hc
  have hcut : ((Text.pieces (· == ',') ([','].intercalate (dims.map String.toList))).map
      Text.trim).filter (fun n => !n.isEmpty) = dims.map String.toList := by
    rcases hd : dims with _ | ⟨d, rest⟩
    · rfl
    · rw [← hd, Text.pieces_intercalate (by rfl) (by simp [hd]) fun w hw c hc => ?_]
      · rw [List.map_congr_left fun w hw => Text.trim_word (hnames w hw), List.map_id',
          List.filter_eq_self]
        exact fun w hw => by simpa using (hnames w hw).1
      · obtain ⟨e, he, rfl⟩ := List.mem_map.1 hw
        exact beq_eq_false_iff_ne.2 ((Text.isPlain_of_isName (h e he) hc).ne rfl)
  rw [bracketText, List.cons_append, dims?, if_pos (by simp), List.dropLast_concat]
  dsimp only
  rw [hcut]
  simp [Function.comp_def]

theorem pathOr_dotted (fault : LineCause) {table member : String}
    (ht : Text.isName table.toList = true) :
    pathOr fault (Link.dotted table member) = .ok (table, member) := by
  rw [pathOr, Link.dotted, Text.cut?_append (by rfl) _ fun c hc => ?_]
  · simp
  · exact beq_eq_false_iff_ne.2 ((Text.isPlain_of_isName ht hc).ne rfl)

end Paths

section Layout

/-- All parts of a column are names. -/
structure ColumnNamed (c : ColumnRef) : Prop where
  table : Text.isName c.table.toList = true
  var : Text.isName c.var.toList = true
  dims : ∀ d ∈ c.dims, Text.isName d.toList = true

structure TableNamed (t : TableRef) : Prop where
  link : t.link.Named
  dims : ∀ d ∈ t.dims, Text.isName d.toList = true

structure ShapeNamed (s : ShapeRef) : Prop where
  table : Text.isName s.table.toList = true
  dim : Text.isName s.dim.toList = true

def linkWords (l : Link) : List (List Char) :=
  [Link.dotted l.sourceTable l.sourceVar, l.mode.mark.toList, Link.dotted l.targetTable l.targetDim]

def rootWords (root : String) : List (List Char) := ["root".toList, root.toList]

def columnWords (i : Nat) (c : ColumnRef) : List (List Char) :=
  ["column".toList, indexed 'c' i, Link.dotted c.table c.var, bracketText c.dims]

def tableWords (i : Nat) (t : TableRef) : List (List Char) :=
  "table".toList :: indexed 't' i :: bracketText t.dims :: linkWords t.link

def checkWords (c : CheckRef) : List (List Char) :=
  "check".toList :: indexed 'c' c.column.toNat :: linkWords c.link

def shapeWords (s : ShapeRef) : List (List Char) :=
  ["shape".toList, Link.dotted s.table s.dim, (toString s.size.toNat).toList]

def outputWords (r : Nat) : List (List Char) := ["output".toList, indexed 'r' r]

theorem isPart_toString (n : Nat) : IsPart (toString n).toList := by
  refine isPart_of_isPlain ?_ fun c hc => mem_toString hc
  rw [Text.toList_toString]
  exact Nat.toDigits_ne_nil

theorem isPart_name {n : String} (h : Text.isName n.toList = true) : IsPart n.toList :=
  isPart_of_isPlain (Text.isName_ne_nil h) fun _ hc => Text.isPlain_of_isName h hc

theorem isPart_dotted {table member : String} (ht : Text.isName table.toList = true)
    (hm : Text.isName member.toList = true) : IsPart (Link.dotted table member) := by
  refine ⟨by simp [Link.dotted], fun c hc => ?_⟩
  rcases Link.mem_dotted ht hm hc with rfl | hc
  · exact ⟨rfl, by decide⟩
  · exact ⟨hc.isBlank_eq_false, hc.ne rfl⟩

theorem isPart_linkWords {l : Link} (h : l.Named) : ∀ w ∈ linkWords l, IsPart w := by
  simp only [linkWords, List.mem_cons, List.not_mem_nil, or_false]
  rintro w (rfl | rfl | rfl)
  · exact isPart_dotted h.sourceTable h.sourceVar
  · cases l.mode
    · exact ⟨by simp [LinkMode.mark], by simp [LinkMode.mark, Text.isBlank]⟩
    · exact ⟨by simp [LinkMode.mark], by simp [LinkMode.mark, Text.isBlank]⟩
  · exact isPart_dotted h.targetTable h.targetDim

theorem isPart_keyword {s : String} (h : s.toList ≠ [] ∧ s.toList.all Text.continuesName = true) :
    IsPart s.toList :=
  isPart_of_isPlain h.1 fun c hc => List.all_eq_true.1 h.2 c hc

theorem isPart_rootWords {root : String} (h : Text.isName root.toList = true) :
    ∀ w ∈ rootWords root, IsPart w := by
  simp only [rootWords, List.mem_cons, List.not_mem_nil, or_false]
  rintro w (rfl | rfl)
  · exact isPart_keyword (by decide)
  · exact isPart_name h

theorem isPart_columnWords (i : Nat) {c : ColumnRef} (h : ColumnNamed c) :
    ∀ w ∈ columnWords i c, IsPart w := by
  simp only [columnWords, List.mem_cons, List.not_mem_nil, or_false]
  rintro w (rfl | rfl | rfl | rfl)
  · exact isPart_keyword (by decide)
  · exact isPart_indexed rfl i
  · exact isPart_dotted h.table h.var
  · exact isPart_bracketText h.dims

theorem isPart_tableWords (i : Nat) {t : TableRef} (h : TableNamed t) :
    ∀ w ∈ tableWords i t, IsPart w := by
  simp only [tableWords, List.mem_cons]
  rintro w (rfl | rfl | rfl | hw)
  · exact isPart_keyword (by decide)
  · exact isPart_indexed rfl i
  · exact isPart_bracketText h.dims
  · exact isPart_linkWords h.link w hw

theorem isPart_checkWords {c : CheckRef} (h : c.link.Named) : ∀ w ∈ checkWords c, IsPart w := by
  simp only [checkWords, List.mem_cons]
  rintro w (rfl | rfl | hw)
  · exact isPart_keyword (by decide)
  · exact isPart_indexed rfl _
  · exact isPart_linkWords h w hw

theorem isPart_shapeWords {s : ShapeRef} (h : ShapeNamed s) : ∀ w ∈ shapeWords s, IsPart w := by
  simp only [shapeWords, List.mem_cons, List.not_mem_nil, or_false]
  rintro w (rfl | rfl | rfl)
  · exact isPart_keyword (by decide)
  · exact isPart_dotted h.table h.dim
  · exact isPart_toString _

theorem isPart_outputWords (r : Nat) : ∀ w ∈ outputWords r, IsPart w := by
  simp only [outputWords, List.mem_cons, List.not_mem_nil, or_false]
  rintro w (rfl | rfl)
  · exact isPart_keyword (by decide)
  · exact isPart_indexed rfl r

theorem link_joined {l : Link} (h : l.Named) : link (joined (linkWords l)) = .ok l := by
  rw [link, linkWords, ← Link.toList_text, Link.read_text h]

theorem readLine_root (p : Program) {root : String} (h : Text.isName root.toList = true) :
    readLine (some p) (joined (rootWords root)) =
      .ok (withLayout p fun l => { l with root := root }) := by
  rw [readLine, rootWords, keyword_joined (isPart_rootWords h)]
  simp

theorem readLine_column (p : Program) {c : ColumnRef} (hc : ColumnNamed c) :
    readLine (some p) (joined (columnWords p.layout.columns.length c)) =
      if p.layout.columns.length < bound32 then
        .ok (withLayout p fun l => { l with columns := l.columns ++ [c] })
      else .error (.wrongIndex 'c' p.layout.columns.length
        (String.ofList (indexed 'c' p.layout.columns.length))) := by
  have hwords := isPart_columnWords p.layout.columns.length hc
  rw [columnWords] at hwords ⊢
  rw [readLine, keyword_joined hwords]
  simp only [String.ofList_toList, columnLine, bind, Except.bind]
  have htail : ∀ u ∈ [indexed 'c' p.layout.columns.length, Link.dotted c.table c.var,
      bracketText c.dims], IsPart u := fun u hu => hwords u (List.mem_cons_of_mem _ hu)
  rw [wordOr_joined _ htail]
  simp only [expectIndex_indexed]
  split_ifs with hlt
  · simp only [wordOr_joined _ fun u hu => htail u (List.mem_cons_of_mem _ hu),
      pathOr_dotted _ hc.table, Text.joined_singleton, dimsOr, dims?_bracketText hc.dims]
    rfl
  · rfl

theorem readLine_table (p : Program) {t : TableRef} (ht : TableNamed t) :
    readLine (some p) (joined (tableWords p.layout.tables.length t)) =
      if p.layout.tables.length < bound32 then
        .ok (withLayout p fun l => { l with tables := l.tables ++ [t] })
      else .error (.wrongIndex 't' p.layout.tables.length
        (String.ofList (indexed 't' p.layout.tables.length))) := by
  have hwords := isPart_tableWords p.layout.tables.length ht
  rw [tableWords] at hwords ⊢
  rw [readLine, keyword_joined hwords]
  simp only [String.ofList_toList, tableLine, bind, Except.bind]
  have htail : ∀ u ∈ indexed 't' p.layout.tables.length :: bracketText t.dims :: linkWords t.link,
      IsPart u := fun u hu => hwords u (List.mem_cons_of_mem _ hu)
  rw [wordOr_joined _ htail]
  simp only [expectIndex_indexed]
  split_ifs with hlt
  · simp only
    rw [linkWords, wordOr_joined _ fun u hu => htail u (List.mem_cons_of_mem _ hu), ← linkWords]
    simp only [dimsOr, dims?_bracketText ht.dims, link_joined ht.link]
    rfl
  · rfl

theorem readLine_check (p : Program) {c : CheckRef} (hc : c.link.Named) :
    readLine (some p) (joined (checkWords c)) =
      .ok (withLayout p fun l => { l with checks := l.checks ++ [c] }) := by
  have hwords := isPart_checkWords hc
  rw [checkWords] at hwords ⊢
  rw [readLine, keyword_joined hwords]
  simp only [String.ofList_toList, checkLine, bind, Except.bind]
  rw [linkWords, wordOr_joined _ fun u hu => hwords u (List.mem_cons_of_mem _ hu), ← linkWords]
  simp only [index?_indexed, if_pos (show c.column.toNat < bound32 from c.column.toNat_lt),
    link_joined hc, UInt32.ofNat_toNat]
  rfl

theorem readLine_shape (p : Program) {s : ShapeRef} (hs : ShapeNamed s) :
    readLine (some p) (joined (shapeWords s)) =
      .ok (withLayout p fun l => { l with shapes := l.shapes ++ [s] }) := by
  have hwords := isPart_shapeWords hs
  rw [shapeWords] at hwords ⊢
  rw [readLine, keyword_joined hwords]
  simp only [String.ofList_toList, shapeLine, bind, Except.bind]
  rw [wordOr_joined _ fun u hu => hwords u (List.mem_cons_of_mem _ hu)]
  simp only [pathOr_dotted _ hs.table, Text.joined_singleton, Text.numeral?_decimal,
    if_pos (show s.size.toNat < Text.bound64 from s.size.toNat_lt), UInt64.ofNat_toNat]
  rfl

theorem readLine_output (p : Program) (r : Nat) :
    readLine (some p) (joined (outputWords r)) =
      if r < bound32 then .ok { p with outputs := p.outputs ++ [UInt32.ofNat r] }
      else .error (.badRegister (String.ofList (indexed 'r' r))) := by
  rw [readLine, outputWords, keyword_joined (isPart_outputWords r)]
  simp only [String.ofList_toList, outputLine, Text.joined_singleton, bind, Except.bind, register,
    index?_indexed]
  split_ifs <;> rfl

end Layout

end Listing

end LinkedTables
