import LinkedTables.Proofs.Analysis.Faithful
import LinkedTables.Proofs.Expr.Normal
import LinkedTables.Proofs.Listing.Instructions

/-!
# A listing is read as what it was written from

The lines of a listing add the parts of the program one after the other, and each of them adds what it
was written from (`Reads`). So the listing of an analysis is read as the program that has the layout of the
analysis, the instructions of its slots in the order of evaluation, and the registers of its outputs,
provided that all numbers fit into 32 bits (`Analysis.Written.read_eq`).
-/

namespace LinkedTables

namespace Number

section Texts

theorem isBlank_of_mem_positional {n : Nat} {k : Int} {c : Char} (h : c ∈ positional n k) :
    Text.isBlank c = false := by
  have hdigit : ∀ d ∈ Nat.toDigits 10 n, Text.isBlank d = false := fun d hd =>
    (Text.isPlain_of_mem_toDigits (by decide) (by decide) n hd).isBlank_eq_false
  have hpad : ∀ m, ∀ d ∈ List.replicate m '0' ++ Nat.toDigits 10 n, Text.isBlank d = false := by
    intro m d hd
    rcases List.mem_append.1 hd with hd | hd
    · rw [(List.mem_replicate.1 hd).2]
      rfl
    · exact hdigit d hd
  rw [positional] at h
  dsimp only at h
  split_ifs at h
  · rcases List.mem_append.1 h with h | h
    · exact hdigit c h
    · rw [(List.mem_replicate.1 h).2]
      rfl
  · exact hpad _ c (List.mem_of_mem_take h)
  · rcases List.mem_append.1 h with h | h
    · exact hpad _ c (List.mem_of_mem_take h)
    · rcases List.mem_cons.1 h with rfl | h
      · rfl
      · have h := (List.dropWhile_suffix _).subset (List.mem_reverse.1 h)
        exact hpad _ c (List.mem_of_mem_drop (List.mem_reverse.1 h))

theorem isBlank_of_mem_text {x : Float} {c : Char} (h : c ∈ (text x).toList) :
    Text.isBlank c = false := by
  have hsigned : ∀ {negative : Bool} {cs : List Char}, (∀ d ∈ cs, Text.isBlank d = false) →
      c ∈ (signed negative cs).toList → Text.isBlank c = false := by
    intro negative cs hcs hc
    rw [signed, String.toList_ofList] at hc
    split_ifs at hc
    · rcases List.mem_cons.1 hc with rfl | hc
      · rfl
      · exact hcs c hc
    · exact hcs c hc
  rw [text] at h
  split at h
  · rcases (by simpa using h : c = 'N' ∨ c = 'a' ∨ c = 'N') with rfl | rfl | rfl <;> rfl
  · exact hsigned (by simp [Text.isBlank]) h
  · exact hsigned (by simp [Text.isBlank]) h
  · exact hsigned (fun d hd => isBlank_of_mem_positional hd) h

end Texts

end Number

namespace Listing

open Text (IsWord joined IsPlain bound32)

section Lines

/-- The line consists of words without semicolons, and perhaps a remark behind a semicolon. -/
structure Line (line : String) (ws : List (List Char)) (remark : List Char) : Prop where
  text : line.toList = joined ws ++ remark ++ ['\n']
  parts : ∀ w ∈ ws, IsPart w
  remarked : remark = [] ∨ ∃ r, remark = ' ' :: ';' :: r
  single : '\n' ∉ remark

/-- A line without its end. -/
def body (line : String) : List Char := line.toList.dropLast

variable {line : String} {ws : List (List Char)} {remark : List Char}

theorem Line.body_eq (h : Line line ws remark) : body line = joined ws ++ remark := by
  rw [body, h.text, List.dropLast_concat]

theorem Line.content_eq (h : Line line ws remark) : content (body line) = joined ws := by
  rw [h.body_eq]
  rcases h.remarked with rfl | ⟨r, rfl⟩
  · rw [List.append_nil, content_joined h.parts]
  · exact content_remark h.parts r

theorem Line.toList_eq (h : Line line ws remark) : line.toList = body line ++ ['\n'] := by
  rw [h.body_eq, h.text]

theorem Line.newline_not_mem (h : Line line ws remark) : '\n' ∉ body line := by
  rw [h.body_eq, List.mem_append, not_or]
  refine ⟨not_mem_joined (by decide) fun w hw hmem => ?_, h.single⟩
  have := ((h.parts w hw).chars _ hmem).1
  simp [Text.isBlank] at this

/-- A line and its end. -/
structure Ended (line : String) : Prop where
  text : line.toList = body line ++ ['\n']
  single : '\n' ∉ body line

theorem Line.ended (h : Line line ws remark) : Ended line := ⟨h.toList_eq, h.newline_not_mem⟩

/-- The pieces of a text of lines are the lines, and nothing behind the last one. -/
theorem pieces_lines : ∀ {lines : List String}, (∀ l ∈ lines, Ended l) →
    Text.pieces (· == '\n') (String.join lines).toList = lines.map body ++ [[]]
  | [], _ => rfl
  | l :: lines, h => by
    have ih := pieces_lines fun m hm => h m (List.mem_cons_of_mem l hm)
    have hl : Ended l := h l (by simp)
    have hjoin : (String.join (l :: lines)).toList = body l ++ '\n' :: (String.join lines).toList := by
      rw [String.join_cons, String.toList_append, hl.text]
      simp
    rw [hjoin, Text.pieces_append (by rfl) _ fun c hc => ?_, ih]
    · rfl
    · exact beq_eq_false_iff_ne.2 fun heq => hl.single (heq ▸ hc)

end Lines

section Reads

variable {p q : Program}

/-- Lines behind a program lead to another program under a bound, and without it they cannot be
read. -/
structure Reads (p : Program) (lines : List String) (q : Program) (bound : Prop) : Prop where
  leads : bound → ∀ n rest, readLines n (some p) (lines.map body ++ rest) =
    readLines (n + lines.length) (some q) rest
  bounded : ∀ n rest r, readLines n (some p) (lines.map body ++ rest) = .ok r → bound

theorem Reads.nil (p : Program) : Reads p [] p True := ⟨fun _ _ _ => rfl, fun _ _ _ _ => trivial⟩

theorem Reads.append {p q r : Program} {lines lines' : List String} {bound bound' : Prop}
    (h : Reads p lines q bound) (h' : Reads q lines' r bound') :
    Reads p (lines ++ lines') r (bound ∧ bound') := by
  refine ⟨fun hbound n rest => ?_, fun n rest result hread => ?_⟩
  · rw [List.map_append, List.append_assoc, h.leads hbound.1, h'.leads hbound.2, List.length_append,
      Nat.add_assoc]
  · rw [List.map_append, List.append_assoc] at hread
    have hbound := h.bounded n _ result hread
    rw [h.leads hbound] at hread
    exact ⟨hbound, h'.bounded _ rest result hread⟩

theorem Reads.of_iff {lines : List String} {bound bound' : Prop} (h : Reads p lines q bound)
    (hiff : bound ↔ bound') : Reads p lines q bound' :=
  ⟨fun hbound => h.leads (hiff.2 hbound), fun n rest r hread => hiff.1 (h.bounded n rest r hread)⟩

theorem Reads.single (hline : Line line ws remark) (hne : ws ≠ []) {bound : Prop}
    [Decidable bound] {cause : LineCause}
    (h : readLine (some p) (joined ws) = if bound then .ok q else .error cause) :
    Reads p [line] q bound := by
  have hcontent : (content (body line)).isEmpty = false := by
    rw [hline.content_eq]
    simpa using Text.joined_ne_nil hne (isWord_of_isPart hline.parts)
  have hstep : ∀ n rest, readLines n (some p) ([line].map body ++ rest) =
      if bound then readLines (n + 1) (some q) rest
      else .error (.line n (String.ofList (joined ws)) cause) := by
    intro n rest
    rw [List.map_singleton, List.singleton_append, readLines, hcontent, if_neg Bool.false_ne_true,
      hline.content_eq, h]
    split_ifs <;> rfl
  refine ⟨fun hbound n rest => by rw [hstep, if_pos hbound]; rfl, fun n rest r hread => ?_⟩
  by_contra hbound
  rw [hstep, if_neg hbound] at hread
  cases hread

/-- A line that can be read whatever its number. -/
theorem Reads.always (hline : Line line ws remark) (hne : ws ≠ [])
    (h : readLine (some p) (joined ws) = .ok q) : Reads p [line] q True := by
  have hread : readLine (some p) (joined ws) = if True then .ok q else .error .noHeader := by
    rw [h, if_pos trivial]
  exact Reads.single hline hne hread

/-- Lines that add one thing each add all of them. -/
theorem Reads.stages {α : Type} {xs : List α} (line : Nat → α → String) (bound : Nat → Prop)
    (stage : List α → Program) (hstep : ∀ done x rest, xs = done ++ x :: rest →
      Reads (stage done) [line done.length x] (stage (done ++ [x])) (bound done.length)) :
    Reads (stage []) (xs.zipIdx.map fun (x, i) => line i x) (stage xs)
      (∀ i < xs.length, bound i) := by
  have hrest : ∀ rest done, xs = done ++ rest → Reads (stage done)
      ((rest.zipIdx done.length).map fun (x, i) => line i x) (stage xs)
      (∀ i, done.length ≤ i → i < xs.length → bound i) := by
    intro rest
    induction rest with
    | nil =>
      intro done heq
      rw [List.append_nil] at heq
      subst heq
      exact (Reads.nil (stage xs)).of_iff
        ⟨fun _ i hle hlt => absurd hlt (not_lt.2 hle), fun _ => trivial⟩
    | cons x rest ih =>
      intro done heq
      have hnext := ih (done ++ [x]) (by simpa using heq)
      rw [List.length_append, List.length_singleton] at hnext
      have hlt : done.length < xs.length := by
        rw [heq]
        simp
      refine ((hstep done x rest heq).append hnext).of_iff ⟨fun h i hle hi => ?_, fun h => ?_⟩
      · rcases hle.eq_or_lt with rfl | hlt'
        · exact h.1
        · exact h.2 i hlt' hi
      · exact ⟨h _ le_rfl hlt, fun i hi => h i (Nat.le_of_succ_le hi)⟩
  exact (hrest xs [] rfl).of_iff ⟨fun h i hi => h i (Nat.zero_le i) hi, fun h i _ hi => h i hi⟩

/-- The same for lines without numbers. -/
theorem Reads.each {α : Type} {xs : List α} (line : α → String) (stage : List α → Program)
    (hstep : ∀ done x rest, xs = done ++ x :: rest →
      Reads (stage done) [line x] (stage (done ++ [x])) True) :
    Reads (stage []) (xs.map line) (stage xs) True := by
  have hlines : xs.map line = xs.zipIdx.map fun (x, _) => line x := by
    conv_lhs => rw [← List.zipIdx_map_fst 0 xs]
    rw [List.map_map]
    rfl
  rw [hlines]
  exact (Reads.stages (fun _ => line) (fun _ => True) stage hstep).of_iff (by simp)

end Reads

section Written

/-- All that a layout names is spelled by names. -/
structure LayoutNamed (F : Layout) : Prop where
  root : Text.isName F.root.toList = true
  columns : ∀ c ∈ F.columns, ColumnNamed c
  tables : ∀ t ∈ F.tables, TableNamed t
  checks : ∀ c ∈ F.checks, c.link.Named
  shapes : ∀ s ∈ F.shapes, ShapeNamed s

theorem line_of_words {line : String} {ws : List (List Char)}
    (htext : line.toList = joined ws ++ ['\n']) (h : ∀ w ∈ ws, IsPart w) : Line line ws [] :=
  ⟨by simpa using htext, h, Or.inl rfl, by simp⟩

theorem line_header (mode : Mode) :
    Line s!"kernel mode={mode.name}\n" ["kernel".toList, "mode=".toList ++ mode.name.toList] [] := by
  refine line_of_words ?_ ?_
  · simp [joined, toString]
  · simp only [List.mem_cons, List.not_mem_nil, or_false]
    rintro w (rfl | rfl)
    · exact isPart_keyword (by decide)
    · cases mode
      · exact isPart_of_all (by decide) (by decide)
      · exact isPart_of_all (by decide) (by decide)
      · exact isPart_of_all (by decide) (by decide)

theorem line_root {root : String} (h : Text.isName root.toList = true) :
    Line s!"root {root}\n" (rootWords root) [] :=
  line_of_words (by simp [rootWords, joined, toString]) (isPart_rootWords h)

theorem line_column (i : Nat) {c : ColumnRef} (h : ColumnNamed c) :
    Line (writtenColumn i c) (columnWords i c) [] := by
  refine line_of_words ?_ (isPart_columnWords i h)
  -- the text is put in by `delta`: the equation of a long text takes long to make
  delta writtenColumn
  simp [columnWords, joined, toList_bracketed, indexed, Link.dotted, toString]

theorem line_table (i : Nat) {t : TableRef} (h : TableNamed t) :
    Line (writtenTable i t) (tableWords i t) [] := by
  refine line_of_words ?_ (isPart_tableWords i h)
  delta writtenTable
  simp [tableWords, linkWords, joined, toList_bracketed, indexed, Link.toList_text, toString]

theorem line_check {c : CheckRef} (h : c.link.Named) : Line (writtenCheck c) (checkWords c) [] := by
  refine line_of_words ?_ (isPart_checkWords h)
  simp [writtenCheck, checkWords, linkWords, joined, indexed, Link.toList_text, toString]

theorem line_shape {s : ShapeRef} (h : ShapeNamed s) : Line (writtenShape s) (shapeWords s) [] := by
  refine line_of_words ?_ (isPart_shapeWords h)
  delta writtenShape
  simp [shapeWords, joined, Link.dotted, toString]

theorem line_output (reg : SlotId → Nat) (i : SlotId) {normal : String} (h : '\n' ∉ normal.toList) :
    Line (outputText reg i normal) (outputWords (reg i)) (' ' :: ';' :: ' ' :: normal.toList) := by
  refine ⟨?_, isPart_outputWords _, Or.inr ⟨_, rfl⟩, by simp [h]⟩
  simp [outputText, outputWords, joined, indexed, toString]

theorem line_slot (reg : SlotId → Nat) (r : Nat) (s : Slot) :
    Line (slotText reg r s) (slotWords reg r s) (slotRemark s) := by
  refine ⟨?_, isPart_slotWords reg r s, ?_, ?_⟩
  · obtain ⟨op, args, operand⟩ := s
    rcases op with _ | _ | _ | _ | _ | op | op | op <;>
      simp [slotText, slotWords, slotRemark, operandTexts, operandWords, joined,
        String.toList_intercalate, indexed, Function.comp_def, toString]
  · rw [slotRemark]
    split
    · exact Or.inr ⟨_, rfl⟩
    · exact Or.inl rfl
  · rw [slotRemark]
    split
    · simp only [List.mem_cons, not_or]
      refine ⟨by decide, by decide, by decide, fun hmem => ?_⟩
      exact absurd (Number.isBlank_of_mem_text hmem) (by decide)
    · simp

theorem ended_of_mem_layout {F : Layout} (h : LayoutNamed F) :
    ∀ l ∈ writtenLayout F, Ended l := by
  intro l hl
  simp only [writtenLayout, List.mem_append, List.mem_singleton] at hl
  rcases hl with (((rfl | hl) | hl) | hl) | hl
  · exact (line_root h.root).ended
  · obtain ⟨⟨c, i⟩, hc, rfl⟩ := List.mem_map.1 hl
    exact (line_column i (h.columns c (List.fst_mem_of_mem_zipIdx hc))).ended
  · obtain ⟨⟨t, i⟩, ht, rfl⟩ := List.mem_map.1 hl
    exact (line_table i (h.tables t (List.fst_mem_of_mem_zipIdx ht))).ended
  · obtain ⟨c, hc, rfl⟩ := List.mem_map.1 hl
    exact (line_check (h.checks c hc)).ended
  · obtain ⟨s, hs, rfl⟩ := List.mem_map.1 hl
    exact (line_shape (h.shapes s hs)).ended

/-- A header is read as a program of its mode that is still empty. -/
theorem readLines_header (mode : Mode) (n : Nat) (rest : List (List Char)) :
    readLines n none (body s!"kernel mode={mode.name}\n" :: rest) =
      readLines (n + 1) (some ⟨mode, #[], [], .empty⟩) rest := by
  have hline := line_header mode
  have hread : readLine none
      (joined ["kernel".toList, "mode=".toList ++ mode.name.toList]) =
        .ok ⟨mode, #[], [], .empty⟩ := by
    rw [readLine, keyword_joined hline.parts]
    cases mode <;> rfl
  have hcontent : (content (body s!"kernel mode={mode.name}\n")).isEmpty = false := by
    rw [hline.content_eq]
    simpa using Text.joined_ne_nil (by simp) (isWord_of_isPart hline.parts)
  rw [readLines, hcontent, if_neg Bool.false_ne_true, hline.content_eq, hread]

end Written

section Groups

variable (mode : Mode) (root : String) {columns : List ColumnRef} {tables : List TableRef}
  {checks : List CheckRef} {shapes : List ShapeRef}

theorem reads_columns (h : ∀ c ∈ columns, ColumnNamed c) :
    Reads ⟨mode, #[], [], ⟨root, [], [], [], []⟩⟩ (columns.zipIdx.map fun (c, i) => writtenColumn i c)
      ⟨mode, #[], [], ⟨root, columns, [], [], []⟩⟩ (∀ i < columns.length, i < bound32) := by
  refine Reads.stages writtenColumn (· < bound32)
    (fun cs => ⟨mode, #[], [], ⟨root, cs, [], [], []⟩⟩) fun done c rest heq => ?_
  have hc : ColumnNamed c := h c (by simp [heq])
  exact Reads.single (line_column done.length hc) (by simp [columnWords]) (readLine_column _ hc)

theorem reads_tables (h : ∀ t ∈ tables, TableNamed t) :
    Reads ⟨mode, #[], [], ⟨root, columns, [], [], []⟩⟩
      (tables.zipIdx.map fun (t, i) => writtenTable i t)
      ⟨mode, #[], [], ⟨root, columns, tables, [], []⟩⟩ (∀ i < tables.length, i < bound32) := by
  refine Reads.stages writtenTable (· < bound32)
    (fun ts => ⟨mode, #[], [], ⟨root, columns, ts, [], []⟩⟩) fun done t rest heq => ?_
  have ht : TableNamed t := h t (by simp [heq])
  exact Reads.single (line_table done.length ht) (by simp [tableWords]) (readLine_table _ ht)

theorem reads_checks (h : ∀ c ∈ checks, c.link.Named) :
    Reads ⟨mode, #[], [], ⟨root, columns, tables, [], []⟩⟩ (checks.map writtenCheck)
      ⟨mode, #[], [], ⟨root, columns, tables, checks, []⟩⟩ True := by
  refine Reads.each writtenCheck (fun cs => ⟨mode, #[], [], ⟨root, columns, tables, cs, []⟩⟩)
    fun done c rest heq => ?_
  have hc : c.link.Named := h c (by simp [heq])
  exact Reads.always (line_check hc) (by simp [checkWords]) (readLine_check _ hc)

theorem reads_shapes (h : ∀ s ∈ shapes, ShapeNamed s) :
    Reads ⟨mode, #[], [], ⟨root, columns, tables, checks, []⟩⟩ (shapes.map writtenShape)
      ⟨mode, #[], [], ⟨root, columns, tables, checks, shapes⟩⟩ True := by
  refine Reads.each writtenShape (fun ss => ⟨mode, #[], [], ⟨root, columns, tables, checks, ss⟩⟩)
    fun done s rest heq => ?_
  have hs : ShapeNamed s := h s (by simp [heq])
  exact Reads.always (line_shape hs) (by simp [shapeWords]) (readLine_shape _ hs)

/-- The layout adds to a program without one. -/
theorem reads_layout {F : Layout} (h : LayoutNamed F) :
    Reads ⟨mode, #[], [], .empty⟩ (writtenLayout F) ⟨mode, #[], [], F⟩
      ((∀ i < F.columns.length, i < bound32) ∧ ∀ i < F.tables.length, i < bound32) := by
  have hroot : Reads ⟨mode, #[], [], .empty⟩ [s!"root {F.root}\n"]
      ⟨mode, #[], [], ⟨F.root, [], [], [], []⟩⟩ True :=
    Reads.always (line_root h.root) (by simp [rootWords]) (readLine_root _ h.root)
  exact ((((hroot.append (reads_columns mode F.root h.columns)).append
    (reads_tables mode F.root h.tables)).append (reads_checks mode F.root h.checks)).append
    (reads_shapes mode F.root h.shapes)).of_iff (by simp)

end Groups

/-- The slots add their instructions, if each of them reads slots with smaller numbers. -/
theorem reads_slots (mode : Mode) (F : Layout) (reg : SlotId → Nat) {slots : List Slot}
    (hfits : ∀ s ∈ slots, s.args.length = s.op.arity ∧
      (s.op = .load ∨ s.op = .label → s.operand.toNat < bound32))
    (hreg : ∀ done s rest, slots = done ++ s :: rest → ∀ j ∈ s.args, reg j < done.length) :
    Reads ⟨mode, #[], [], F⟩ (slots.zipIdx.map fun (s, r) => slotText reg r s)
      ⟨mode, (slots.map (Slot.instr reg)).toArray, [], F⟩ (∀ r < slots.length, r < bound32) := by
  refine Reads.stages (fun r s => slotText reg r s) (· < bound32)
    (fun ss => ⟨mode, (ss.map (Slot.instr reg)).toArray, [], F⟩) fun done s rest heq => ?_
  obtain ⟨harity, hoperand⟩ := hfits s (by simp [heq])
  have hsize : (⟨mode, (done.map (Slot.instr reg)).toArray, [], F⟩ : Program).size = done.length := by
    simp [Program.size]
  have hread := readLine_slot (p := ⟨mode, (done.map (Slot.instr reg)).toArray, [], F⟩) harity
    (by simpa [hsize] using hreg done s rest heq) hoperand
  rw [hsize] at hread
  have hcode : ((done ++ [s]).map (Slot.instr reg)).toArray =
      (done.map (Slot.instr reg)).toArray.push (s.instr reg) := by simp
  simp only [hcode]
  exact Reads.single (line_slot reg done.length s) (by simp [slotWords]) hread

/-- The outputs add their registers. -/
theorem reads_outputs (mode : Mode) (code : Array Instr) (F : Layout) (reg : SlotId → Nat)
    (outputs : List SlotId) {normal : Nat → String} (h : ∀ e, '\n' ∉ (normal e).toList) :
    Reads ⟨mode, code, [], F⟩ (outputs.zipIdx.map fun (i, e) => outputText reg i (normal e))
      ⟨mode, code, outputs.map fun i => UInt32.ofNat (reg i), F⟩ (∀ i ∈ outputs, reg i < bound32) := by
  have hreads := @Reads.stages _ outputs (fun e i => outputText reg i (normal e))
    (fun e => ∀ i ∈ outputs[e]?, reg i < bound32)
    (fun is => ⟨mode, code, is.map fun i => UInt32.ofNat (reg i), F⟩) fun done i rest heq => by
      have hread := readLine_output ⟨mode, code, done.map fun i => UInt32.ofNat (reg i), F⟩ (reg i)
      have hbound : reg i < bound32 ↔ ∀ j ∈ outputs[done.length]?, reg j < bound32 := by simp [heq]
      simp only [List.map_append, List.map_cons, List.map_nil]
      exact (Reads.single (line_output reg i (h done.length)) (by simp [outputWords]) hread).of_iff
        hbound
  refine hreads.of_iff ⟨fun hall i hi => ?_, fun hall e _ i hi => hall i (List.mem_of_getElem? hi)⟩
  obtain ⟨e, he, rfl⟩ := List.mem_iff_getElem.1 hi
  exact hall e he _ (by simp [he])

/-- What is faithful to a graph names what is in it. -/
theorem layoutNamed_of_faithful {F : Layout} {g : LinkGraph} (hv : g.Valid) (hF : F.Faithful g)
    (hroot : Text.isName F.root.toList = true) : LayoutNamed F where
  root := hroot
  columns c hc := by
    obtain ⟨htable, hvar, hdims⟩ := LinkGraph.isName_of_dimsOf? hv (hF.columns c hc)
    exact ⟨htable, hvar, hdims⟩
  tables t ht := by
    obtain ⟨hlink, hdims⟩ := hF.tables t ht
    exact ⟨hv.named (LinkGraph.into?_eq_some hlink).1, (LinkGraph.isName_of_dimsOf? hv hdims).2.2⟩
  checks c hc := hv.named (LinkGraph.into?_eq_some (hF.checks c hc)).1
  shapes s hs := by
    obtain ⟨d, hd, -⟩ := hF.shapes s hs
    obtain ⟨htable, hdim⟩ := LinkGraph.isName_of_dim? hv hd
    exact ⟨htable, hdim⟩

theorem newline_not_mem_normal {cs : List Char} {ts : List Token} (h : Token.scan cs = .ok ts) :
    '\n' ∉ (Token.normal ts).toList := by
  rw [Token.toList_normal]
  refine not_mem_joined (by decide) fun w hw hmem => ?_
  obtain ⟨t, ht, rfl⟩ := List.mem_map.1 hw
  exact absurd ((Token.scanFrom_ok h t ht).2.isWord.2 _ hmem) (by decide)

theorem newline_not_mem_getD {texts : List String} {other : String}
    (h : ∀ n ∈ texts, '\n' ∉ n.toList) (hother : '\n' ∉ other.toList) (e : Nat) :
    '\n' ∉ ((texts[e]?).getD other).toList := by
  rcases hget : texts[e]? with _ | n
  · exact hother
  · exact h n (List.mem_of_getElem? hget)

end Listing

namespace Analysis

/-- The program of the slots in an order of evaluation. -/
def program (a : Analysis) (mode : Mode) (order : List SlotId) (slots : List Slot) : Program where
  mode := mode
  code := (slots.map (Slot.instr fun j => order.idxOf j)).toArray
  outputs := a.outputs.map fun i => UInt32.ofNat (order.idxOf i)
  layout := a.layout

/-- All numbers in the listing fit into 32 bits. -/
structure Numbered (a : Analysis) (slots : List Slot) : Prop where
  columns : ∀ i < a.layout.columns.length, i < Text.bound32
  tables : ∀ i < a.layout.tables.length, i < Text.bound32
  registers : ∀ r < slots.length, r < Text.bound32

variable {a : Analysis} {mode : Mode} {order : List SlotId} {slots : List Slot}

/-- The numbers of the slots in the order fit. -/
theorem Numbered.idxOf_lt (hn : a.Numbered slots) (h : a.Written mode order slots) {i : SlotId}
    (hi : i ∈ order) : order.idxOf i < Text.bound32 :=
  hn.registers _ (h.inOrder.length_eq ▸ List.idxOf_lt_length_of_mem hi)

/-- A slot of the order reads slots with smaller numbers. -/
theorem Written.reg_lt (h : a.Written mode order slots) (hg : a.slots.Sound) {done rest : List Slot}
    {s : Slot} (heq : slots = done ++ s :: rest) : ∀ j ∈ s.args, order.idxOf j < done.length := by
  intro j hj
  obtain ⟨before, i, after, rfl, hbefore, hs⟩ := exists_of_append_right (heq ▸ h.inOrder)
  have hmem := h.placed.after before i after rfl j (by rwa [SlotGraph.parents_eq hg hs])
  rw [List.idxOf_append_of_mem hmem, ← hbefore]
  exact List.idxOf_lt_length_of_mem hmem

/-- The lines behind the header add all of the program, if its numbers fit. -/
theorem Written.reads (h : a.Written mode order slots) (hg : a.slots.Sound)
    (hnamed : Listing.LayoutNamed a.layout) (hnormal : ∀ n ∈ a.normalized, '\n' ∉ n.toList) :
    Listing.Reads ⟨mode, #[], [], .empty⟩ (a.lines order slots) (a.program mode order slots)
      (a.Numbered slots) := by
  have hfits : ∀ s ∈ slots, s.args.length = s.op.arity ∧
      (s.op = .load ∨ s.op = .label → s.operand.toNat < Text.bound32) := fun s hs => by
    obtain ⟨i, -, hget⟩ := exists_of_mem_right h.inOrder s hs
    exact ⟨(hg.fits i s hget).arity, (hg.fits i s hget).operand⟩
  have hslots := Listing.reads_slots mode a.layout (fun j => order.idxOf j) hfits
    fun done s rest heq => h.reg_lt hg heq
  have houtputs := Listing.reads_outputs mode (slots.map (Slot.instr fun j => order.idxOf j)).toArray
    a.layout (fun j => order.idxOf j) a.outputs
    (Listing.newline_not_mem_getD hnormal (show '\n' ∉ "".toList by simp))
  exact (((Listing.reads_layout mode hnamed).append hslots).append houtputs).of_iff
    ⟨fun hbound => ⟨hbound.1.1.1, hbound.1.1.2, hbound.1.2⟩,
      fun hn => ⟨⟨⟨hn.columns, hn.tables⟩, hn.registers⟩, fun i hi => hn.idxOf_lt h (h.covers i hi)⟩⟩

theorem ended_of_mem_lines (hnamed : Listing.LayoutNamed a.layout)
    (hnormal : ∀ n ∈ a.normalized, '\n' ∉ n.toList) : ∀ l ∈ a.lines order slots, Listing.Ended l := by
  intro l hl
  simp only [lines, List.mem_append] at hl
  rcases hl with (hl | hl) | hl
  · exact Listing.ended_of_mem_layout hnamed l hl
  · obtain ⟨⟨s, r⟩, -, rfl⟩ := List.mem_map.1 hl
    exact (Listing.line_slot _ r s).ended
  · obtain ⟨⟨i, e⟩, -, rfl⟩ := List.mem_map.1 hl
    exact (Listing.line_output _ i (Listing.newline_not_mem_getD hnormal (by simp) e)).ended

/-- A listing whose numbers fit is read as the program that it was written from, provided that the
program is sound; a listing that can be read is one of these. -/
theorem Written.read_eq (h : a.Written mode order slots) (hg : a.slots.Sound)
    (hnamed : Listing.LayoutNamed a.layout) (hnormal : ∀ n ∈ a.normalized, '\n' ∉ n.toList)
    {source : String} (hsource : a.listing mode = .ok source) {p : Program} :
    Listing.read source = .ok p ↔ a.Numbered slots ∧ p = a.program mode order slots ∧
      p.verify = .ok () := by
  rw [h.listing] at hsource
  cases hsource
  have hended : ∀ l ∈ s!"kernel mode={mode.name}\n" :: a.lines order slots, Listing.Ended l := by
    intro l hl
    rcases List.mem_cons.1 hl with rfl | hl
    · exact (Listing.line_header mode).ended
    · exact ended_of_mem_lines hnamed hnormal l hl
  have hreads := h.reads hg hnamed hnormal
  simp only [Listing.read, Listing.pieces_lines hended, List.map_cons, List.cons_append,
    Listing.readLines_header, bind, Except.bind, throw, throwThe, MonadExceptOf.throw]
  by_cases hn : a.Numbered slots
  · -- behind the last line there is a blank one
    have hblank : (Listing.content []).isEmpty = true := rfl
    rw [hreads.leads hn, Listing.readLines, hblank, if_pos rfl, Listing.readLines]
    simp only
    split <;> rename_i hverify
    · refine ⟨fun hp => ?_, fun ⟨_, hp, hok⟩ => ?_⟩
      · cases hp
      · rw [hp, hverify] at hok
        cases hok
    · refine ⟨fun hp => ?_, fun ⟨_, hp, _⟩ => by rw [hp]; rfl⟩
      cases hp
      exact ⟨hn, rfl, hverify⟩
  · refine ⟨fun hp => ?_, fun hp => absurd hp.1 hn⟩
    split at hp
    · cases hp
    rename_i result hresult
    exact absurd (hreads.bounded _ _ _ hresult) hn

end Analysis

end LinkedTables
