import LinkedTables.Proofs.Analysis.Alike
import LinkedTables.Proofs.Run.Evaluated

/-!
# Answers for other data

What a compiler has answered it finds under the same key again, without compiling. Over alike graphs a
set has the same analysis and so the same key: a kernel that was compiled for some data is the answer
for all data of the same layout, whatever the entries and labels are and however many rows there are
(`Compiler.compile_alike`).
-/

namespace LinkedTables

namespace Compiler

variable {g g' : LinkGraph} {set : ExprSet} {mode : Mode} {c : Compiler} {k : Kernel}

/-- An answer is remembered under the key of its request. -/
theorem lookup_of_answer {dir : Directory} {now : UInt64} {a : Analysis}
    (hk : (c.answer dir now a mode).answer = .ok k) :
    (c.answer dir now a mode).compiler.settings = c.settings ∧ ∃ artifact,
      (c.answer dir now a mode).compiler.table.lookup (Request.ofAnalysis a mode).digest =
        some artifact ∧ k = c.kernel artifact a.names := by
  unfold answer at hk ⊢
  rcases hlookup : c.table.lookup (Request.ofAnalysis a mode).digest with _ | artifact
  · rcases hstored : c.stored? dir (Request.ofAnalysis a mode).digest with _ | artifact
    · rcases hgenerate : generate a mode now with e | artifact <;>
        simp only [hlookup, hstored, hgenerate] at hk ⊢ <;> cases hk
      exact ⟨rfl, artifact, by simp [remembering, noting], rfl⟩
    · simp only [hlookup, hstored] at hk ⊢
      cases hk
      exact ⟨rfl, artifact, by simp [remembering, noting], rfl⟩
  · simp only [hlookup] at hk ⊢
    cases hk
    exact ⟨rfl, artifact, hlookup, rfl⟩

/-- What was answered is answered again from the table. -/
theorem answer_again {dir : Directory} {now : UInt64} {a : Analysis}
    (hk : (c.answer dir now a mode).answer = .ok k) (dir' : Directory) (now' : UInt64) :
    (c.answer dir now a mode).compiler.answer dir' now' a mode =
      ⟨.ok k, (c.answer dir now a mode).compiler.noting false, dir'⟩ := by
  obtain ⟨hsettings, artifact, hlookup, rfl⟩ := lookup_of_answer hk
  have hkernel : (c.answer dir now a mode).compiler.kernel artifact a.names =
      c.kernel artifact a.names := by rw [kernel, kernel, blocks, blocks, hsettings]
  generalize (c.answer dir now a mode).compiler = c' at hlookup hkernel
  unfold answer
  simp only [hlookup, hkernel]

/-- Over alike graphs a set has the same analysis or the same fault. What a compiler has answered over
one of them, in any mode and with any directory, it answers over the other one with the same kernel,
at any later time, without compiling it and without a look at the directory. -/
theorem compile_alike (hg : g.Built) (h : g.Alike g') (set : ExprSet) :
    analyze g set = analyze g' set ∧ ∀ (c : Compiler) (dir : Directory) (now : UInt64) (mode : Mode),
      (∀ e, (c.compile dir now g set mode).answer = .error e →
        (c.compile dir now g' set mode).answer = .error e) ∧
      ∀ k, (c.compile dir now g set mode).answer = .ok k → ∀ (dir' : Directory) (now' : UInt64),
        (c.compile dir now g set mode).compiler.compile dir' now' g' set mode =
          ⟨.ok k, (c.compile dir now g set mode).compiler.noting false, dir'⟩ := by
  have hsame := Analysis.analyze_alike hg h set
  refine ⟨hsame, fun c dir now mode => ⟨fun e he => ?_, fun k hk dir' now' => ?_⟩⟩
  · rw [compile, ← hsame]
    exact he
  · unfold compile at hk ⊢
    rw [← hsame]
    rcases ha : analyze g set with f | a
    · rw [ha] at hk
      cases hk
    · rw [ha] at hk
      exact answer_again hk dir' now'

end Compiler

namespace Sample

/-- Two other trips, and zones with other labels and times. -/
def rebatched : LinkGraph := GraphCall.made [
  .addTable "trips" (trips #[4, 3] #[1, 0]),
  .addTable "skims" (((BuiltDataset.empty.dim "from" (.integers #[3, 4])).dim
    "to" (.range 3)).var "time" ["from", "to"] (.numbers #[0, 1, 0, 1, 0, 1])),
  .addLinkText "trips.home @ skims.from",
  .addLinkText "trips.work @ skims.to"]

theorem alike_rebatched : graph.Alike rebatched := by decide +kernel

end Sample

/-- The sample, and other data of its layout. -/
theorem Compiler.compile_alike_rebatched : Sample.graph.Built ∧
    Sample.graph.Alike Sample.rebatched ∧
    analyze Sample.rebatched Sample.set = .ok (Sample.analysisNamed "cost") ∧
    ∃ k, ((Compiler.fresh .default).compile .absent 0 Sample.graph Sample.set .load).answer = .ok k ∧
      (((Compiler.fresh .default).compile .absent 0 Sample.graph Sample.set
        .load).compiler.compile .absent 1 Sample.rebatched Sample.set .load).answer = .ok k := by
  obtain ⟨hsame, hcompile⟩ :=
    compile_alike Sample.graph_built Sample.alike_rebatched Sample.set
  have hwords : (Sample.analysisNamed "cost").WordNumbered := by constructor <;> decide
  obtain ⟨k, hk⟩ := Kernel.exists_fresh Sample.graph_built Sample.analyze_graph hwords .load .default
    .absent 0
  refine ⟨Sample.graph_built, Sample.alike_rebatched, hsame.symm.trans Sample.analyze_graph, k, hk, ?_⟩
  rw [(hcompile _ _ _ _).2 k hk]

end LinkedTables
