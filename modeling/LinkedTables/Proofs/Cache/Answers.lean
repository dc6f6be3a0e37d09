import LinkedTables.Proofs.Cache.Records
import LinkedTables.Proofs.Cache.Requests
import LinkedTables.Proofs.Run.Evaluated

/-!
# What an answer rests on

A compiler takes what it answers from its table, from the directory, or makes it for the request at
hand. So whatever is true of what the table and the directory hold under a key, and of what is made
for a request under the digest of the request, stays true when the compiler is asked
(`Compiler.compile_keeps`): what is stored is read back as it was, and nothing else is written.

What was made for some call under a key is what would be made for any other call with this key, if
requests with one digest are equal (`Made.generate_eq`).
-/

namespace LinkedTables

/-- What the entry is under a key. -/
def Entry.artifact? (e : Entry) (key : String) : Option Artifact :=
  match e with
  | .file bytes => (Record.ofBytes? bytes).bind fun r => r.artifact? key
  | .folder _ => none

/-- Under no key of a name is the entry an artifact. -/
def Entry.RejectedAs (e : Entry) (name : String) : Prop :=
  ∀ key, Directory.fileName key = name → e.artifact? key = none

namespace Directory

variable {P Q : String → Artifact → Prop} {d d' : Directory}

/-- What the directory holds under a key is as it should be. -/
def Yields (P : String → Artifact → Prop) (d : Directory) : Prop :=
  ∀ key artifact, d.load? key = some artifact → P key artifact

theorem load?_eq (d : Directory) (key : String) :
    d.load? key = (d.entry? (fileName key)).bind fun e => e.artifact? key := by
  unfold load?
  rcases d.entry? (fileName key) with _ | (_ | _) <;> rfl

theorem fileName_inj {key key' : String} (h : fileName key = fileName key') : key = key' := by
  have hlists := congrArg String.toList h
  simp only [fileName, String.toList_append] at hlists
  exact String.toList_inj.1 (List.append_cancel_right hlists)

theorem lookup_without (name : String) : ∀ (entries : List (String × Entry)) (other : String),
    (entries.filter fun (n, _) => n != name).lookup other =
      if other = name then none else entries.lookup other
  | [], other => by simp
  | (n, e) :: entries, other => by
    have ih := lookup_without name entries other
    rw [lookup_cons]
    by_cases hn : n = name
    · subst hn
      rw [List.filter_cons_of_neg (by simp), ih]
      split_ifs <;> rfl
    · rw [List.filter_cons_of_pos (by simpa using hn), lookup_cons, ih]
      by_cases hother : other = n
      · rw [if_pos hother, if_pos hother, if_neg (hother ▸ hn)]
      · rw [if_neg hother, if_neg hother]

theorem entry?_withoutEntry (d : Directory) (name other : String) :
    Directory.entry? (d.withoutEntry name) other = if other = name then none else d.entry? other := by
  cases d with
  | folder entries => exact lookup_without name entries other
  | absent => simp [withoutEntry, entry?]
  | blocked => simp [withoutEntry, entry?]

theorem entry?_withEntry (entries : List (String × Entry)) (name : String) (e : Entry)
    (other : String) : Directory.entry? ((folder entries).withEntry name e) other =
      if other = name then some e else Directory.entry? (folder entries) other := by
  rw [withEntry, entry?, put, lookup_cons, lookup_without]
  split_ifs <;> rfl

theorem Yields.mono (h : d.Yields P) (hPQ : ∀ key artifact, P key artifact → Q key artifact) :
    d.Yields Q :=
  fun key artifact hload => hPQ key artifact (h key artifact hload)

theorem yields_absent : absent.Yields P := by simp [Yields, load?, entry?]

theorem yields_blocked : blocked.Yields P := by simp [Yields, load?, entry?]

theorem Yields.open? (h : d.Yields P) (hopen : d.open? = some d') : d'.Yields P := by
  cases d with
  | folder entries =>
    cases hopen
    exact h
  | absent =>
    cases hopen
    simp [Yields, load?, entry?]
  | blocked => cases hopen

theorem Yields.withoutEntry (h : d.Yields P) (name : String) : (d.withoutEntry name).Yields P := by
  intro key artifact hload
  rw [load?_eq, entry?_withoutEntry] at hload
  split_ifs at hload
  · cases hload
  · rw [← load?_eq] at hload
    exact h key artifact hload

/-- One more entry yields what it should, and the others stay. -/
theorem Yields.withEntry (h : d.Yields P) {name : String} {e : Entry}
    (he : ∀ key artifact, fileName key = name → e.artifact? key = some artifact → P key artifact) :
    (d.withEntry name e).Yields P := by
  cases d with
  | absent => exact yields_absent
  | blocked => exact yields_blocked
  | folder entries =>
    intro key artifact hload
    rw [load?_eq, entry?_withEntry] at hload
    split_ifs at hload with hname
    · exact he key artifact hname hload
    · rw [← load?_eq] at hload
      exact h key artifact hload

section Storing

theorem store?_eq_some {r : Record} (h : d.store? r = some d') :
    ∃ entries, d = folder entries ∧ d' = d.withEntry (fileName r.digest) (.file r.text.toUTF8) := by
  unfold store? write? at h
  split at h
  · rename_i entries
    split_ifs at h
    exact ⟨entries, rfl, (Option.some.inj h).symm⟩
  · cases h

/-- What is stored is loaded under its key. -/
theorem load?_of_store? {artifact : Artifact} (hverified : artifact.Verified artifact.digest)
    (hstore : d.store? artifact.record = some d') : d'.load? artifact.digest = some artifact := by
  obtain ⟨entries, rfl, rfl⟩ := store?_eq_some hstore
  rw [load?_eq, entry?_withEntry]
  have hrecord : artifact.record.digest = artifact.digest := rfl
  rw [hrecord, if_pos rfl, Option.bind_some, Entry.artifact?, Record.ofBytes?_text,
    Option.bind_some, hverified.artifact?_record]

/-- Under any other key it is loaded what was before. -/
theorem load?_of_ne {r : Record} (hstore : d.store? r = some d') {key : String}
    (hkey : key ≠ r.digest) : d'.load? key = d.load? key := by
  obtain ⟨entries, rfl, rfl⟩ := store?_eq_some hstore
  have hname : fileName key ≠ fileName r.digest := fun h => hkey (fileName_inj h)
  rw [load?_eq, load?_eq, entry?_withEntry, if_neg hname]

/-- A record that is stored is what its artifact was. -/
theorem Yields.store? (h : d.Yields P) {artifact : Artifact} (hP : P artifact.digest artifact)
    (hverified : artifact.Verified artifact.digest) (hstore : d.store? artifact.record = some d') :
    d'.Yields P := by
  intro key found hload
  by_cases hkey : key = artifact.digest
  · rw [hkey, load?_of_store? hverified hstore, Option.some.injEq] at hload
    exact hkey ▸ hload ▸ hP
  · rw [load?_of_ne hstore hkey] at hload
    exact h key found hload

end Storing

end Directory

namespace Compiler

variable {P : String → Artifact → Prop} {c : Compiler} {dir : Directory} {now : UInt64}
  {g : LinkGraph} {set : ExprSet} {mode : Mode} {a : Analysis} {artifact : Artifact}

/-- What the compiler remembers under a key is as it should be. -/
def Remembers (P : String → Artifact → Prop) (c : Compiler) : Prop :=
  ∀ key artifact, c.table.lookup key = some artifact → P key artifact

/-- An answer to a request rests on an artifact that is as it should be, or is the fault of the request
itself. -/
inductive Justified (P : String → Artifact → Prop) (g : LinkGraph) (set : ExprSet) (mode : Mode) :
    Except Error Kernel → Prop where
  | refused {f : AnalysisFault} (h : analyze g set = .error f) : Justified P g set mode (.error (.analysis f))
  | failed {a : Analysis} {now : UInt64} {e : Error} (ha : analyze g set = .ok a)
      (h : generate a mode now = .error e) : Justified P g set mode (.error e)
  | answered {a : Analysis} {k : Kernel} (ha : analyze g set = .ok a)
      (h : P (Request.ofAnalysis a mode).digest k.artifact) (hnames : k.names = a.names) :
      Justified P g set mode (.ok k)

/-- What is generated would be verified under its key. -/
theorem generate_verified (hg : g.Built) (ha : analyze g set = .ok a)
    (h : generate a mode now = .ok artifact) :
    artifact.digest = (Request.ofAnalysis a mode).digest ∧ artifact.Verified artifact.digest := by
  obtain ⟨-, sc, sources, plans, hplanned⟩ := Analysis.analyze_ok ha
  obtain ⟨hmode, order, slots, -, -, hprogram⟩ := hplanned.of_generate hg h
  have hprogramMode : artifact.program.mode = artifact.mode := by rw [hprogram, hmode]; rfl
  unfold generate at h
  split at h
  · cases h
  split at h
  · cases h
  rename_i hread
  cases h
  exact ⟨rfl, rfl, rfl, hread, hprogramMode⟩

/-- The time is the only part of what is generated that is not made of the request. -/
theorem generate_at (a : Analysis) (mode : Mode) (now later : UInt64) :
    generate a mode later =
      (generate a mode now).map fun artifact => { artifact with created := later } := by
  unfold generate
  split
  · rfl
  · split <;> rfl

theorem storing_yields (hd : dir.Yields P) (hP : P artifact.digest artifact)
    (hverified : artifact.Verified artifact.digest) : (c.storing dir artifact).Yields P := by
  unfold storing
  split
  · rcases hstore : dir.store? artifact.record with _ | dir'
    · exact hd
    · exact hd.store? hP hverified hstore
  · exact hd

/-- A call keeps what the compiler remembers and what the directory yields as it should be, and so is
what its answer rests on, if what is generated for the call is. -/
theorem compile_keeps (hg : g.Built) (hc : c.Remembers P) (hd : dir.Yields P)
    (hnew : ∀ a artifact, analyze g set = .ok a → generate a mode now = .ok artifact →
      P artifact.digest artifact) :
    (c.compile dir now g set mode).compiler.Remembers P ∧
      (c.compile dir now g set mode).directory.Yields P ∧
      Justified P g set mode (c.compile dir now g set mode).answer := by
  unfold compile
  rcases ha : analyze g set with f | a
  · exact ⟨hc, hd, .refused ha⟩
  have hremembering : ∀ {key artifact}, P key artifact → (c.remembering key artifact).Remembers P := by
    intro key artifact hP key' artifact' hlookup
    rw [remembering, List.lookup_cons] at hlookup
    split at hlookup
    · rename_i hkey
      cases hlookup
      rwa [beq_iff_eq.1 hkey]
    · exact hc key' artifact' hlookup
  simp only [answer]
  rcases hlookup : c.table.lookup (Request.ofAnalysis a mode).digest with _ | artifact
  · rcases hstored : c.stored? dir (Request.ofAnalysis a mode).digest with _ | artifact
    · rcases hgen : generate a mode now with e | artifact
      · exact ⟨hc, hd, .failed ha hgen⟩
      · obtain ⟨hdigest, hverified⟩ := generate_verified hg ha hgen
        have hP : P artifact.digest artifact := hnew a artifact ha hgen
        exact ⟨hremembering (hdigest ▸ hP), storing_yields hd hP hverified,
          .answered ha (hdigest ▸ hP) rfl⟩
    · have hP : P (Request.ofAnalysis a mode).digest artifact := by
        unfold stored? at hstored
        split_ifs at hstored
        exact hd _ _ hstored
      exact ⟨hremembering hP, hd, .answered ha hP rfl⟩
  · exact ⟨hc, hd, .answered ha (hc _ _ hlookup) rfl⟩

theorem Justified.mono {Q : String → Artifact → Prop} {answer : Except Error Kernel}
    (hPQ : ∀ key artifact, P key artifact → Q key artifact) :
    Justified P g set mode answer → Justified Q g set mode answer
  | .refused h => .refused h
  | .failed ha h => .failed ha h
  | .answered ha h hnames => .answered ha (hPQ _ _ h) hnames

theorem new_remembers (s : Settings) (dir : Directory) : (new s dir).1.Remembers P := by
  simp [new, Remembers]

theorem new_yields (s : Settings) (h : dir.Yields P) : (new s dir).2.Yields P := by
  have hopened : ∀ opened : Option Directory, (∀ dir', opened = some dir' → dir.open? = some dir') →
      (opened.getD dir).Yields P := by
    rintro (_ | dir') hopen
    · exact h
    · exact h.open? (hopen dir' rfl)
  refine hopened (if s.cacheDir.isSome then dir.open? else none) fun dir' heq => ?_
  split_ifs at heq
  exact heq

end Compiler

/-- What a compiler is asked for. -/
structure Call where
  graph : LinkGraph
  built : graph.Built
  set : ExprSet
  mode : Mode

/-- The artifact was generated for one of the calls, and has its digest for a key. -/
def Made (calls : List Call) (key : String) (artifact : Artifact) : Prop :=
  ∃ call ∈ calls, ∃ a now, analyze call.graph call.set = .ok a ∧
    (Request.ofAnalysis a call.mode).digest = key ∧
    Compiler.generate a call.mode now = .ok artifact

theorem Made.mono {calls more : List Call} {key : String} {artifact : Artifact}
    (h : Made calls key artifact) (hmore : calls ⊆ more) : Made more key artifact := by
  obtain ⟨call, hmem, hmade⟩ := h
  exact ⟨call, hmore hmem, hmade⟩

theorem made_of_generate {calls : List Call} {call : Call} (hcall : call ∈ calls) {a : Analysis}
    {now : UInt64} {artifact : Artifact} (ha : analyze call.graph call.set = .ok a)
    (hgen : Compiler.generate a call.mode now = .ok artifact) :
    Made calls artifact.digest artifact :=
  ⟨call, hcall, a, now, ha, (Compiler.generate_verified call.built ha hgen).1.symm, hgen⟩

/-- Requests with one digest are equal. -/
def NoCollision (calls : List Call) : Prop :=
  ∀ x ∈ calls, ∀ y ∈ calls, ∀ a b, analyze x.graph x.set = .ok a → analyze y.graph y.set = .ok b →
    (Request.ofAnalysis a x.mode).digest = (Request.ofAnalysis b y.mode).digest →
    Request.ofAnalysis a x.mode = Request.ofAnalysis b y.mode

/-- What was made for a call with the same digest is what would be made for this one. -/
theorem Made.generate_eq {calls : List Call} (h : NoCollision calls) {call : Call}
    (hcall : call ∈ calls) {a : Analysis} (ha : analyze call.graph call.set = .ok a)
    {artifact : Artifact} (hmade : Made calls (Request.ofAnalysis a call.mode).digest artifact)
    (now : UInt64) :
    Compiler.generate a call.mode now = .ok { artifact with created := now } := by
  obtain ⟨call', hcall', a', time, ha', hdigest, hgen⟩ := hmade
  have hrequest := h call hcall call' hcall' a a' ha ha' hdigest.symm
  rw [Compiler.generate_at a call.mode time now,
    Analysis.generate_eq_of_request call.built call'.built ha ha' hrequest time, hgen]
  rfl

namespace Sample

def firstCall : Call := ⟨graph, graph_built, set, .dot⟩

def secondCall : Call := ⟨regrouped, regrouped_built, respelled, .dot⟩

theorem noCollision : NoCollision [secondCall, firstCall] := by
  have hrequest : ∀ call ∈ [secondCall, firstCall], ∀ a, analyze call.graph call.set = .ok a →
      Request.ofAnalysis a call.mode = Request.ofAnalysis (analysisNamed "cost") .dot := by
    intro call hcall a ha
    rw [List.mem_cons, List.mem_singleton] at hcall
    rcases hcall with rfl | rfl
    · rw [← Except.ok.inj (analyze_regrouped.symm.trans ha)]
      rfl
    · rw [← Except.ok.inj (analyze_graph.symm.trans ha)]
      rfl
  intro x hx y hy a b ha hb _
  rw [hrequest x hx a ha, hrequest y hy b hb]

theorem exists_generated : ∃ artifact,
    Compiler.generate (analysisNamed "cost") .dot 0 = .ok artifact := by
  have hwords : (analysisNamed "cost").WordNumbered := by constructor <;> decide
  obtain ⟨k, hk⟩ := Kernel.exists_fresh graph_built analyze_graph hwords .dot .default .absent 0
  rw [Compiler.fresh_compile, analyze_graph] at hk
  rcases hgen : Compiler.generate (analysisNamed "cost") .dot 0 with e | artifact
  · simp only [hgen] at hk
    cases hk
  · exact ⟨artifact, rfl⟩

end Sample

end LinkedTables
