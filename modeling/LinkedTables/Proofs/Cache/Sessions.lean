import LinkedTables.Proofs.Cache.Answers

/-!
# Stored kernels do not change answers

Compilers that share a directory answer requests in any order, while files are deleted or overwritten
with what is no artifact, and while the directory goes, cannot be used or comes back as it was. Every
artifact that a table or the directory holds was then made for some call of the session with the
digest that it is held under (`Session.run_sound`).

If requests with one digest are equal, then that artifact is the one that would be made afresh, up to
the time, so no answer depends on what was remembered or stored (`Session.run_transparent`).
-/

namespace LinkedTables

/-- What happens to a directory apart from calls. -/
inductive Disturbance where
  | delete (name : String)
  /-- Something stands under the name that is no artifact there. -/
  | overwrite (name : String) (entry : Entry) (rejected : entry.RejectedAs name)
  | lose
  | block
  /-- The directory is again what it was some steps ago. -/
  | restore (steps : Nat)

inductive Event where
  | start (settings : Settings)
  /-- One of the compilers is asked, at a time. -/
  | ask (compiler : Nat) (call : Call) (now : UInt64)
  | disturb (d : Disturbance)

/-- Compilers side by side, the directory that they share, what it was before, and the answers, the
last one first. -/
structure Session where
  compilers : List Compiler
  directory : Directory
  past : List Directory
  log : List (Call × Except Error Kernel)

namespace Disturbance

def result (dir : Directory) (past : List Directory) : Disturbance → Directory
  | delete name => dir.withoutEntry name
  | overwrite name entry _ => dir.withEntry name entry
  | lose => .absent
  | block => .blocked
  | restore steps => past.getD steps dir

end Disturbance

namespace Session

/-- A directory and no compiler yet. -/
def beginning (dir : Directory) : Session := ⟨[], dir, [], []⟩

def step (s : Session) : Event → Session
  | .start settings =>
    let (c, dir) := Compiler.new settings s.directory
    ⟨s.compilers ++ [c], dir, s.directory :: s.past, s.log⟩
  | .ask i call now =>
    match s.compilers[i]? with
    | none => s
    | some c =>
      let r := c.compile s.directory now call.graph call.set call.mode
      ⟨s.compilers.set i r.compiler, r.directory, s.directory :: s.past, (call, r.answer) :: s.log⟩
  | .disturb d => ⟨s.compilers, d.result s.directory s.past, s.directory :: s.past, s.log⟩

def run (s : Session) (events : List Event) : Session := events.foldl step s

def calls (s : Session) : List Call := s.log.map Prod.fst

/-- Whatever is remembered or stored was made for a request of the session, and so is what answers rest
on. -/
structure Sound (s : Session) : Prop where
  compilers : ∀ c ∈ s.compilers, c.Remembers (Made s.calls)
  directory : s.directory.Yields (Made s.calls)
  past : ∀ d ∈ s.past, d.Yields (Made s.calls)
  log : ∀ entry ∈ s.log,
    Compiler.Justified (Made s.calls) entry.1.graph entry.1.set entry.1.mode entry.2

variable {s : Session}

theorem Sound.disturbed (h : s.Sound) (d : Disturbance) :
    (d.result s.directory s.past).Yields (Made s.calls) := by
  cases d with
  | delete name => exact h.directory.withoutEntry name
  | overwrite name entry rejected =>
    refine h.directory.withEntry fun key artifact hname hfound => ?_
    rw [rejected key hname] at hfound
    cases hfound
  | lose => exact Directory.yields_absent
  | block => exact Directory.yields_blocked
  | restore steps =>
    rw [Disturbance.result, List.getD_eq_getElem?_getD]
    rcases hd : s.past[steps]? with _ | d
    · exact h.directory
    · exact h.past d (List.mem_of_getElem? hd)

/-- Every step keeps a session sound. -/
theorem Sound.step (h : s.Sound) (e : Event) : (s.step e).Sound := by
  have hpast : ∀ d ∈ s.directory :: s.past, d.Yields (Made s.calls) :=
    List.forall_mem_cons.2 ⟨h.directory, h.past⟩
  cases e with
  | start settings =>
    refine ⟨fun c hc => ?_, Compiler.new_yields settings h.directory, hpast, h.log⟩
    rcases List.mem_append.1 hc with hold | hnew
    · exact h.compilers c hold
    · rw [List.mem_singleton.1 hnew]
      exact Compiler.new_remembers settings s.directory
  | disturb d => exact ⟨h.compilers, h.disturbed d, hpast, h.log⟩
  | ask i call now =>
    simp only [Session.step]
    rcases hc : s.compilers[i]? with _ | c
    · exact h
    have hgrows : ∀ key artifact, Made s.calls key artifact → Made (call :: s.calls) key artifact :=
      fun _ _ hmade => hmade.mono (List.subset_cons_self call s.calls)
    have hnew : ∀ a artifact, analyze call.graph call.set = .ok a →
        Compiler.generate a call.mode now = .ok artifact →
        Made (call :: s.calls) artifact.digest artifact :=
      fun _ _ ha hgen => made_of_generate List.mem_cons_self ha hgen
    obtain ⟨hremembers, hyields, hjustified⟩ := Compiler.compile_keeps call.built
      (fun key artifact hl =>
        hgrows key artifact (h.compilers c (List.mem_of_getElem? hc) key artifact hl))
      (h.directory.mono hgrows) hnew
    refine ⟨fun c' hc' => ?_, hyields, fun d hd => (hpast d hd).mono hgrows, fun entry hentry => ?_⟩
    · rcases List.mem_or_eq_of_mem_set hc' with hold | rfl
      · exact fun key artifact hl => hgrows key artifact (h.compilers c' hold key artifact hl)
      · exact hremembers
    · rcases List.mem_cons.1 hentry with rfl | hold
      · exact hjustified
      · exact (h.log entry hold).mono hgrows

/-- A session that starts with a directory without artifacts stays sound. -/
theorem run_sound {dir : Directory} (hdir : ∀ key, dir.load? key = none) (events : List Event) :
    ((beginning dir).run events).Sound := by
  have hstart : (beginning dir).Sound :=
    ⟨by simp [beginning], fun key artifact hload => by simp [beginning, hdir] at hload,
      by simp [beginning], by simp [beginning]⟩
  unfold run
  induction events using List.reverseRecOn with
  | nil => exact hstart
  | append_singleton events e ih =>
    rw [List.foldl_append]
    exact ih.step e

end Session

/-- Two kernels are the same, apart from the time and from how rows are run. -/
structure Kernel.SameAs (k k' : Kernel) : Prop where
  digest : k.digest = k'.digest
  mode : k.mode = k'.mode
  names : k.names = k'.names
  source : k.artifact.source = k'.artifact.source
  program : k.program = k'.program

/-- The same error, or kernels that are the same. -/
inductive SameAnswer : Except Error Kernel → Except Error Kernel → Prop where
  | error (e : Error) : SameAnswer (.error e) (.error e)
  | ok {k k' : Kernel} (h : k.SameAs k') : SameAnswer (.ok k) (.ok k')

theorem SameAnswer.exists_ok {answer : Except Error Kernel} {k' : Kernel}
    (h : SameAnswer answer (.ok k')) : ∃ k, answer = .ok k ∧ k.SameAs k' := by
  cases h with
  | ok h => exact ⟨_, rfl, h⟩

namespace Session

/-- What rests on an artifact that was made for a call with the same digest is what a fresh compiler
answers. -/
theorem sameAnswer_of_justified {calls : List Call} (hcalls : NoCollision calls) {call : Call}
    (hcall : call ∈ calls) {answer : Except Error Kernel}
    (h : Compiler.Justified (Made calls) call.graph call.set call.mode answer) (s : Settings)
    (dir : Directory) (now : UInt64) : SameAnswer answer
      ((Compiler.fresh s).compile dir now call.graph call.set call.mode).answer := by
  rw [Compiler.fresh_compile]
  cases h with
  | refused ha =>
    simp only [ha]
    exact .error _
  | @failed a time e ha hgen =>
    simp only [ha]
    rw [Compiler.generate_at a call.mode time now, hgen]
    exact .error e
  | answered ha hmade hnames =>
    simp only [ha]
    rw [hmade.generate_eq hcalls hcall ha now]
    exact .ok ⟨rfl, rfl, hnames, rfl, rfl⟩

/-- Whatever compilers were asked before, and whatever was deleted, spoilt or lost in the directory
that they share, every answer is the one of a fresh compiler without a directory, if no two requests
of the session have one digest. -/
theorem run_transparent {dir : Directory} (hdir : ∀ key, dir.load? key = none)
    (events : List Event) (hdigests : NoCollision ((beginning dir).run events).calls) :
    ∀ entry ∈ ((beginning dir).run events).log, ∀ (s : Settings) (dir' : Directory) (now : UInt64),
      SameAnswer entry.2
        ((Compiler.fresh s).compile dir' now entry.1.graph entry.1.set entry.1.mode).answer :=
  fun entry hentry => sameAnswer_of_justified hdigests (List.mem_map_of_mem hentry)
    ((run_sound hdir events).log entry hentry)

end Session

namespace Sample

/-- Settings with a directory. -/
def keeping : Settings := { Settings.default with cacheDir := some "kernels" }

/-- Two compilers are asked for one program while the directory is lost, comes back and has a file
deleted. -/
def events : List Event :=
  [.start keeping, .start keeping, .ask 0 firstCall 5, .disturb .block, .disturb (.restore 0),
    .disturb (.delete "notes"), .ask 1 secondCall 6]

end Sample

namespace Session

/-- Both get the kernel that would be made for them, each under the names of its own request. -/
theorem run_transparent_sample : NoCollision ((beginning .absent).run Sample.events).calls ∧
    ∃ k k', ((beginning .absent).run Sample.events).log =
      [(Sample.secondCall, .ok k'), (Sample.firstCall, .ok k)] ∧
      k.names = ["cost"] ∧ k'.names = ["fare"] ∧ k.digest = k'.digest ∧ k.program = k'.program := by
  obtain ⟨x, y, hcalls⟩ : ∃ x y, ((beginning .absent).run Sample.events).log =
      [(Sample.secondCall, y), (Sample.firstCall, x)] := ⟨_, _, rfl⟩
  have hdigests : NoCollision ((beginning .absent).run Sample.events).calls := by
    rw [calls, hcalls]
    exact Sample.noCollision
  have hsame := run_transparent (fun _ => rfl) Sample.events hdigests
  obtain ⟨artifact, hgen⟩ := Sample.exists_generated
  have hgen' : Compiler.generate (Sample.analysisNamed "fare") .dot 0 = .ok artifact :=
    (Analysis.generate_eq_of_request Sample.regrouped_built Sample.graph_built
      Sample.analyze_regrouped Sample.analyze_graph rfl 0).trans hgen
  have hfirst := hsame (Sample.firstCall, x) (by simp [hcalls]) .default .absent 0
  have hsecond := hsame (Sample.secondCall, y) (by simp [hcalls]) .default .absent 0
  rw [Compiler.fresh_compile] at hfirst hsecond
  simp only [Sample.firstCall, Sample.analyze_graph, hgen] at hfirst
  simp only [Sample.secondCall, Sample.analyze_regrouped, hgen'] at hsecond
  obtain ⟨k, rfl, hk⟩ := hfirst.exists_ok
  obtain ⟨k', rfl, hk'⟩ := hsecond.exists_ok
  exact ⟨hdigests, k, k', hcalls, hk.names, hk'.names, hk.digest.trans hk'.digest.symm,
    hk.program.trans hk'.program.symm⟩

end Session

end LinkedTables
