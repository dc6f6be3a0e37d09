import LinkedTables.Proofs.Cache.Answers

/-!
# What a directory can make a compiler answer

A compiler is asked again and again, each time with whatever is in the directory by then. An answer
that was not loaded is right: it has the mode, the layout and the number of outputs that were asked
for, if requests with one digest are equal (`Compiler.answer_traced`). One that was loaded is
verified, which ties its program to its own listing, and its request to the key.

Nothing ties the program to the request. What can be loaded under a key is all that is verified
(`Directory.exists_load?_iff`), so there is a file that answers a request with the program of any
listing that can be read (`Compiler.exists_forged`).
-/

namespace LinkedTables

namespace Directory

variable {key : String} {artifact : Artifact}

/-- A directory with one file, which holds the record of an artifact. -/
def holding (key : String) (artifact : Artifact) : Directory :=
  folder [(fileName key, .file artifact.record.text.toUTF8)]

theorem load?_holding (h : artifact.Verified key) : (holding key artifact).load? key = some artifact := by
  rw [load?_eq, holding, entry?, List.lookup_cons_self, Option.bind_some, Entry.artifact?,
    Record.ofBytes?_text, Option.bind_some, h.artifact?_record]

/-- What is loaded was verified. -/
theorem yields_verified (d : Directory) : d.Yields fun key artifact => artifact.Verified key := by
  intro key artifact hload
  unfold load? at hload
  split at hload
  · obtain ⟨r, -, hr⟩ := Option.bind_eq_some_iff.1 hload
    exact Record.verified_of_artifact? hr
  · cases hload

/-- Under a key, some directory holds an artifact just if it would be verified. -/
theorem exists_load?_iff : (∃ d : Directory, d.load? key = some artifact) ↔ artifact.Verified key :=
  ⟨fun ⟨d, h⟩ => d.yields_verified key artifact h, fun h => ⟨_, load?_holding h⟩⟩

end Directory

/-- A call, with what the directory is when it is made, and the time. -/
structure Asked where
  call : Call
  directory : Directory
  now : UInt64

/-- The artifact was loaded when one of the calls was made, or made for one of them. -/
def Traced (asked : List Asked) (key : String) (artifact : Artifact) : Prop :=
  (∃ x ∈ asked, x.directory.load? key = some artifact) ∨ Made (asked.map Asked.call) key artifact

theorem Traced.cons {asked : List Asked} {key : String} {artifact : Artifact}
    (h : Traced asked key artifact) (x : Asked) : Traced (x :: asked) key artifact := by
  rcases h with ⟨y, hy, hload⟩ | hmade
  · exact .inl ⟨y, List.mem_cons_of_mem x hy, hload⟩
  · exact .inr (hmade.mono (List.subset_cons_self _ _))

namespace Compiler

/-- What a compiler says to a call. -/
def reply (c : Compiler) (x : Asked) : Compiled :=
  c.compile x.directory x.now x.call.graph x.call.set x.call.mode

/-- A compiler after some calls, the last one first. -/
def after (c : Compiler) : List Asked → Compiler
  | [] => c
  | x :: earlier => ((c.after earlier).reply x).compiler

variable {c : Compiler} {asked : List Asked} {x : Asked} {k : Kernel}

/-- One more call keeps the table traced, and so is what its answer rests on. -/
theorem reply_traced (hc : c.Remembers (Traced asked)) (x : Asked) :
    (c.reply x).compiler.Remembers (Traced (x :: asked)) ∧
      Justified (Traced (x :: asked)) x.call.graph x.call.set x.call.mode (c.reply x).answer := by
  obtain ⟨hremembers, -, hjustified⟩ := compile_keeps x.call.built
    (fun key artifact hlookup => (hc key artifact hlookup).cons x)
    (fun key artifact hload => .inl ⟨x, List.mem_cons_self, hload⟩)
    fun a artifact ha hgen => .inr (made_of_generate List.mem_cons_self ha hgen)
  exact ⟨hremembers, hjustified⟩

theorem after_traced (hc : c.table = []) : ∀ asked, (c.after asked).Remembers (Traced asked)
  | [] => by simp [after, Remembers, hc]
  | x :: earlier => (reply_traced (after_traced hc earlier) x).1

/-- Whatever is in the directory at each call, a kernel that is answered was verified under the digest
of the request and has the names asked for. If it was loaded at none of the calls, then it has the
mode, the layout and the outputs asked for, unless two requests have one digest. -/
theorem answer_traced (hc : c.table = []) (hdigests : NoCollision ((x :: asked).map Asked.call))
    (hk : ((c.after asked).reply x).answer = .ok k) :
    ∃ a, analyze x.call.graph x.call.set = .ok a ∧ k.names = a.names ∧
      k.artifact.Verified (Request.ofAnalysis a x.call.mode).digest ∧
      ((∀ y ∈ x :: asked,
          y.directory.load? (Request.ofAnalysis a x.call.mode).digest ≠ some k.artifact) →
        k.mode = x.call.mode ∧ k.program.layout = a.layout ∧
          k.program.outputs.length = x.call.set.entries.length) := by
  have hjustified := (reply_traced (after_traced hc asked) x).2
  rw [hk] at hjustified
  cases hjustified with
  | @answered a _ ha htraced hnames =>
    refine ⟨a, ha, hnames, ?_, fun hfresh => ?_⟩
    · rcases htraced with ⟨y, -, hload⟩ | ⟨call, -, a', now, ha', hdigest, hgen⟩
      · exact y.directory.yields_verified _ _ hload
      · obtain ⟨hkey, hverified⟩ := generate_verified call.built ha' hgen
        rwa [hkey, hdigest] at hverified
    · rcases htraced with ⟨y, hy, hload⟩ | hmade
      · exact absurd hload (hfresh y hy)
      · have hgen := hmade.generate_eq hdigests (List.mem_cons_self ..) ha 0
        obtain ⟨-, sc, sources, plans, hplanned⟩ := Analysis.analyze_ok ha
        obtain ⟨hmode, order, slots, -, -, hprogram⟩ := hplanned.of_generate x.call.built hgen
        have hprogram : k.program = a.program x.call.mode order slots := hprogram
        refine ⟨hmode, by rw [hprogram]; rfl, ?_⟩
        rw [hprogram, ← hplanned.length_outputs]
        simp [Analysis.program]

/-- The second of two calls for one program, while nothing can be loaded or stored. -/
theorem answer_traced_sample : NoCollision [Sample.secondCall, Sample.firstCall] ∧ ∃ k,
    (((fresh .default).after [⟨Sample.firstCall, .blocked, 5⟩]).reply
      ⟨Sample.secondCall, .blocked, 6⟩).answer = .ok k ∧
    k.names = ["fare"] ∧ k.mode = .dot ∧ k.program.outputs.length = 1 := by
  obtain ⟨artifact, hgen⟩ := Sample.exists_generated
  have hgen' : generate (Sample.analysisNamed "fare") .dot 6 = _ :=
    (generate_at (Sample.analysisNamed "fare") .dot 0 6).trans
      (congrArg _ ((Analysis.generate_eq_of_request Sample.regrouped_built Sample.graph_built
        Sample.analyze_regrouped Sample.analyze_graph rfl 0).trans hgen))
  let earlier : Asked := ⟨Sample.firstCall, .blocked, 5⟩
  let later : Asked := ⟨Sample.secondCall, .blocked, 6⟩
  obtain ⟨k, hk⟩ : ∃ k, (((fresh .default).after [earlier]).reply later).answer = .ok k :=
    Analysis.exists_answer Sample.analyze_regrouped hgen' _ _
  have hdigests : NoCollision ([later, earlier].map Asked.call) := Sample.noCollision
  obtain ⟨a, ha, hnames, -, hasked⟩ :=
    answer_traced (show (fresh .default).table = [] from rfl) hdigests hk
  obtain ⟨hmode, -, hout⟩ := hasked fun y hy => by
    rw [List.mem_cons, List.mem_singleton] at hy
    rcases hy with rfl | rfl <;> simp [Directory.load?, Directory.entry?]
  rw [← Except.ok.inj (Sample.analyze_regrouped.symm.trans ha)] at hnames
  exact ⟨Sample.noCollision, k, hk, hnames, hmode, hout⟩

section Loaded

/-- What is not remembered, but loaded, is the answer. -/
theorem compile_of_load {g : LinkGraph} {set : ExprSet} {a : Analysis} (ha : analyze g set = .ok a)
    {mode : Mode} (hc : c.table = []) (huses : c.usesDirectory = true) {dir : Directory}
    {artifact : Artifact} (hload : dir.load? (Request.ofAnalysis a mode).digest = some artifact)
    (now : UInt64) :
    (c.compile dir now g set mode).answer = .ok (c.kernel artifact a.names) := by
  simp [compile, ha, answer, hc, stored?, huses, hload]

/-- Whatever is asked, the program of any listing that can be read can be the answer. -/
theorem exists_forged {g : LinkGraph} {set : ExprSet} {a : Analysis} (ha : analyze g set = .ok a)
    (mode : Mode) {source : String} {p : Program} (hread : Listing.read source = .ok p)
    {s : Settings} (hs : s.cacheDir.isSome = true) :
    ∃ dir, ∀ now, ∃ k, ((new s dir).1.compile (new s dir).2 now g set mode).answer = .ok k ∧
      k.names = a.names ∧ k.artifact.source = source ∧ k.program = p ∧ k.mode = p.mode := by
  let forged : Artifact :=
    ⟨(Request.ofAnalysis a mode).digest, p.mode, 0, Request.ofAnalysis a mode, source, p⟩
  let dir := Directory.holding forged.digest forged
  have hload : dir.load? (Request.ofAnalysis a mode).digest = some forged :=
    Directory.load?_holding ⟨rfl, rfl, hread, rfl⟩
  have huses : (new s dir).1.usesDirectory = true ∧ (new s dir).2 = dir := by
    simp [new, hs, dir, Directory.open?, Directory.holding]
  refine ⟨dir, fun now => ⟨(new s dir).1.kernel forged a.names, ?_, rfl, rfl, rfl, rfl⟩⟩
  rw [huses.2]
  exact compile_of_load ha rfl huses.1 hload now

/-- A file that answers the request of the sample in another mode, over another layout, and with an
output too many. -/
theorem exists_forged_sample : ∃ (s : Settings) (dir : Directory) (k : Kernel),
    ((new s dir).1.compile (new s dir).2 0 Sample.graph Sample.set .dot).answer = .ok k ∧
      k.mode ≠ .dot ∧ k.program.layout ≠ (Sample.analysisNamed "cost").layout ∧
      k.program.outputs.length ≠ Sample.set.entries.length := by
  have hread : Listing.read "kernel mode=load\nroot trips\nr0 = row\noutput r0 ; a\noutput r0 ; b\n" =
      .ok ⟨.load, #[.row], [0, 0], ⟨"trips", [], [], [], []⟩⟩ := by
    refine eq_ok_of_toOption ?_
    decide +kernel
  obtain ⟨dir, hdir⟩ := exists_forged Sample.analyze_graph .dot hread
    (show ({ Settings.default with cacheDir := some "kernels" } : Settings).cacheDir.isSome from rfl)
  obtain ⟨k, hk, -, -, hprogram, hmode⟩ := hdir 0
  refine ⟨_, dir, k, hk, ?_, ?_, ?_⟩
  · rw [hmode]
    decide
  · rw [hprogram]
    decide +kernel
  · rw [hprogram]
    decide

end Loaded

end Compiler

end LinkedTables
