import LinkedTables.Proofs.Cache.Forgeries
import Mathlib.Data.Finset.Card

/-!
# What a compiler keeps of its answers

A call ends in one of four ways: it fails and nothing changes, or its artifact is in the table, or the
directory has it, or it is generated (`Compiler.reply_replied`). The last two put it in the table, and
only generating it counts as compiling.

So whatever was asked and whatever became of the directory in between, the table holds what was
answered, one artifact for every digest (`Compiler.Books`), and a digest that was answered once has
its answer for good (`Compiler.after_books`).
-/

namespace LinkedTables

/-- The digest of what a call asks for, if there is something to ask for. -/
def Call.digest? (call : Call) : Option String :=
  match analyze call.graph call.set with
  | .ok a => some (Request.ofAnalysis a call.mode).digest
  | .error _ => none

namespace Compiler

variable {c : Compiler} {x : Asked} {asked : List Asked} {kept : List (String × Artifact)}
  {key : String} {artifact : Artifact}

/-- The digest and the artifact of a call, if it succeeded. -/
def news (x : Asked) (r : Compiled) : List (String × Artifact) :=
  match x.call.digest?, r.answer with
  | some key, .ok k => [(key, k.artifact)]
  | _, _ => []

/-- The digests and artifacts of the calls that succeeded, the last one first. -/
def answered (c : Compiler) : List Asked → List (String × Artifact)
  | [] => []
  | x :: earlier => news x ((c.after earlier).reply x) ++ c.answered earlier

theorem news_of_error {r : Compiled} {e : Error} (h : r.answer = .error e) : news x r = [] := by
  unfold news
  rw [h]
  rcases x.call.digest? with _ | key <;> rfl

theorem news_of_ok {r : Compiled} {k : Kernel} (hkey : x.call.digest? = some key)
    (h : r.answer = .ok k) : news x r = [(key, k.artifact)] := by
  unfold news
  rw [hkey, h]

section Call

/-- The ways in which a call ends. -/
inductive Replied (c : Compiler) (x : Asked) : Compiled → Prop where
  | failed (e : Error) : Replied c x ⟨.error e, c, x.directory⟩
  | remembered {key : String} {artifact : Artifact} (names : List String)
      (hkey : x.call.digest? = some key) (htable : c.table.lookup key = some artifact) :
      Replied c x ⟨.ok (c.kernel artifact names), c.noting false, x.directory⟩
  | loaded {key : String} {artifact : Artifact} (names : List String)
      (hkey : x.call.digest? = some key) (htable : c.table.lookup key = none)
      (hstored : c.stored? x.directory key = some artifact) :
      Replied c x ⟨.ok (c.kernel artifact names), (c.remembering key artifact).noting false,
        x.directory⟩
  | generated {artifact : Artifact} (names : List String)
      (hkey : x.call.digest? = some artifact.digest)
      (htable : c.table.lookup artifact.digest = none)
      (hstored : c.stored? x.directory artifact.digest = none) :
      Replied c x ⟨.ok (c.kernel artifact names),
        (c.remembering artifact.digest artifact).noting true, c.storing x.directory artifact⟩

theorem reply_replied (c : Compiler) (x : Asked) : c.Replied x (c.reply x) := by
  unfold reply compile
  rcases ha : analyze x.call.graph x.call.set with f | a
  · exact .failed _
  have hkey : x.call.digest? = some (Request.ofAnalysis a x.call.mode).digest := by
    rw [Call.digest?, ha]
  simp only [answer]
  rcases htable : c.table.lookup (Request.ofAnalysis a x.call.mode).digest with _ | artifact
  · rcases hstored : c.stored? x.directory (Request.ofAnalysis a x.call.mode).digest with _ | artifact
    · rcases hgen : generate a x.call.mode x.now with e | artifact
      · exact .failed e
      · rw [← (generate_verified x.call.built ha hgen).1] at hkey htable hstored ⊢
        exact .generated a.names hkey htable hstored
    · exact .loaded a.names hkey htable hstored
  · exact .remembered a.names hkey htable

end Call

section Table

/-- The table holds what was answered, one artifact for every digest, and the flag is tracked. -/
structure Books (kept : List (String × Artifact)) (c : Compiler) : Prop where
  nodup : (c.table.map Prod.fst).Nodup
  lookup : ∀ key artifact, c.table.lookup key = some artifact ↔ (key, artifact) ∈ kept
  digest : ∀ key artifact, (key, artifact) ∈ kept → artifact.digest = key
  tracked : c.lastTriggered.isSome = true

theorem mem_keys_iff {α : Type} {key : String} : ∀ {entries : List (String × α)},
    key ∈ entries.map Prod.fst ↔ ∃ value, entries.lookup key = some value
  | [] => by simp
  | (name, value) :: entries => by
    by_cases hname : key = name
    · simp [hname]
    · rw [List.map_cons, List.mem_cons, List.lookup_cons, beq_eq_false_iff_ne.2 hname, mem_keys_iff]
      simp [hname]

/-- The table has as many artifacts as there are digests that were answered. -/
theorem Books.size_eq (h : c.Books kept) :
    c.size = (kept.map Prod.fst).toFinset.card := by
  have hkeys : (c.table.map Prod.fst).toFinset = (kept.map Prod.fst).toFinset := by
    ext key
    simp only [List.mem_toFinset]
    rw [mem_keys_iff]
    simp only [h.lookup, List.mem_map, Prod.exists, exists_and_right, exists_eq_right]
  rw [← hkeys, List.toFinset_card_of_nodup h.nodup, List.length_map, size]

theorem Books.not_mem (h : c.Books kept) (htable : c.table.lookup key = none)
    (artifact : Artifact) : (key, artifact) ∉ kept := by
  intro hmem
  rw [(h.lookup key artifact).2 hmem] at htable
  cases htable

theorem Books.lastTriggered_noting (h : c.Books kept) (triggered : Bool) :
    (c.noting triggered).lastTriggered = some triggered := by
  obtain ⟨flag, hflag⟩ := Option.isSome_iff_exists.1 h.tracked
  simp [Compiler.noting, hflag]

theorem Books.noting (h : c.Books kept) (triggered : Bool) :
    (c.noting triggered).Books kept :=
  ⟨h.nodup, h.lookup, h.digest, by simp [Compiler.noting, h.tracked]⟩

/-- An answer that the table has is no news. -/
theorem Books.again (h : c.Books kept) (htable : c.table.lookup key = some artifact) :
    c.Books ((key, artifact) :: kept) := by
  have hmem := (h.lookup key artifact).1 htable
  refine ⟨h.nodup, fun key' artifact' => ?_, fun key' artifact' hold => ?_, h.tracked⟩
  · rw [h.lookup, List.mem_cons]
    refine ⟨.inr, ?_⟩
    rintro (heq | hold)
    · rw [heq]
      exact hmem
    · exact hold
  · rcases List.mem_cons.1 hold with heq | hold
    · rw [(Prod.mk.inj heq).1, (Prod.mk.inj heq).2]
      exact h.digest key artifact hmem
    · exact h.digest key' artifact' hold

theorem Books.remembering (h : c.Books kept) (htable : c.table.lookup key = none)
    (hdigest : artifact.digest = key) :
    (c.remembering key artifact).Books ((key, artifact) :: kept) where
  nodup := by
    refine List.nodup_cons.2 ⟨fun hmem => ?_, h.nodup⟩
    obtain ⟨value, hvalue⟩ := mem_keys_iff.1 hmem
    rw [htable] at hvalue
    cases hvalue
  lookup key' artifact' := by
    rw [Compiler.remembering, List.mem_cons, Prod.mk.injEq, ← h.lookup]
    by_cases hkey : key' = key
    · simp [hkey, htable, eq_comm]
    · simp [List.lookup_cons, beq_eq_false_iff_ne.2 hkey, hkey]
  digest key' artifact' hmem := by
    rcases List.mem_cons.1 hmem with heq | hold
    · rw [(Prod.mk.inj heq).1, (Prod.mk.inj heq).2]
      exact hdigest
    · exact h.digest key' artifact' hold
  tracked := h.tracked

theorem digest_of_stored? {dir : Directory} (h : c.stored? dir key = some artifact) :
    artifact.digest = key := by
  unfold stored? at h
  split_ifs at h
  exact (dir.yields_verified key artifact h).digest

/-- However a call ends, the table holds what was answered by then. -/
theorem Books.replied (h : c.Books kept) {r : Compiled} (hr : c.Replied x r) :
    r.compiler.Books (news x r ++ kept) := by
  cases hr with
  | failed e =>
    rw [news_of_error rfl]
    exact h
  | remembered names hkey htable =>
    rw [news_of_ok hkey rfl]
    exact (h.again htable).noting false
  | loaded names hkey htable hstored =>
    rw [news_of_ok hkey rfl]
    exact (h.remembering htable (digest_of_stored? hstored)).noting false
  | generated names hkey htable hstored =>
    rw [news_of_ok hkey rfl]
    exact (h.remembering htable rfl).noting true

theorem after_books (h : c.Books []) : ∀ asked, (c.after asked).Books (c.answered asked)
  | [] => h
  | x :: earlier => (after_books h earlier).replied (reply_replied _ x)

theorem Replied.usesDirectory {r : Compiled} (hr : c.Replied x r) :
    r.compiler.usesDirectory = c.usesDirectory := by
  cases hr <;> rfl

theorem after_usesDirectory (c : Compiler) : ∀ asked : List Asked,
    (c.after asked).usesDirectory = c.usesDirectory
  | [] => rfl
  | x :: earlier => (reply_replied _ x).usesDirectory.trans (after_usesDirectory c earlier)

theorem new_books {s : Settings} (hs : s.track = true) (dir : Directory) :
    (new s dir).1.Books [] := by
  constructor <;> simp [new, hs]

/-- A compiler that tracks compilations was asked for some things, with any directory at each call. Its
table has an artifact for every digest that was answered. Whatever is asked next: if it fails, nothing
changes; if it succeeds, it counts as compiled just if its digest was neither in the table nor in
the directory, and if the digest was answered before, then it is the same artifact and nothing is
compiled or stored. -/
theorem bookkeeping {s : Settings} (hs : s.track = true) (dir : Directory) (asked : List Asked)
    (x : Asked) :
    let c := (new s dir).1.after asked
    let kept := (new s dir).1.answered asked
    let r := c.reply x
    c.usesDirectory = (new s dir).1.usesDirectory ∧
      c.size = (kept.map Prod.fst).toFinset.card ∧
      (∀ e, r.answer = .error e → r = ⟨.error e, c, x.directory⟩) ∧
      ∀ k, r.answer = .ok k →
        x.call.digest? = some k.artifact.digest ∧
        r.compiler.lastTriggered = some (decide
          (c.table.lookup k.artifact.digest = none ∧
            c.stored? x.directory k.artifact.digest = none)) ∧
        ∀ artifact, (k.artifact.digest, artifact) ∈ kept →
          k.artifact = artifact ∧ r.compiler.lastTriggered = some false ∧
            r.directory = x.directory := by
  intro c kept r
  have hbooks : c.Books kept := after_books (new_books hs dir) asked
  have hreplied : c.Replied x r := reply_replied c x
  have huses : c.usesDirectory = (new s dir).1.usesDirectory := after_usesDirectory _ asked
  clear_value c kept r
  refine ⟨huses, hbooks.size_eq, ?_⟩
  cases hreplied with
  | failed e =>
    refine ⟨fun e' he => ?_, fun k hk => ?_⟩
    · cases he
      rfl
    · cases hk
  | @remembered key artifact names hkey htable =>
    refine ⟨fun e he => ?_, fun k hk => ?_⟩
    · cases he
    cases hk
    have hmem := (hbooks.lookup key artifact).1 htable
    obtain rfl : artifact.digest = key := hbooks.digest key artifact hmem
    refine ⟨hkey, ?_, fun artifact' hmem' => ⟨?_, hbooks.lastTriggered_noting false, rfl⟩⟩
    · rw [hbooks.lastTriggered_noting]
      simp [kernel, htable]
    · have hlookup := (hbooks.lookup _ _).2 hmem'
      exact Option.some.inj (htable.symm.trans hlookup)
  | @loaded key artifact names hkey htable hstored =>
    refine ⟨fun e he => ?_, fun k hk => ?_⟩
    · cases he
    cases hk
    obtain rfl : artifact.digest = key := digest_of_stored? hstored
    have hafter := hbooks.remembering htable rfl
    refine ⟨hkey, ?_, fun artifact' hmem => absurd hmem (hbooks.not_mem htable artifact')⟩
    rw [hafter.lastTriggered_noting]
    simp [kernel, hstored]
  | @generated artifact names hkey htable hstored =>
    refine ⟨fun e he => ?_, fun k hk => ?_⟩
    · cases he
    cases hk
    have hafter := hbooks.remembering htable rfl
    refine ⟨hkey, ?_, fun artifact' hmem => absurd hmem (hbooks.not_mem htable artifact')⟩
    rw [hafter.lastTriggered_noting]
    simp [kernel, htable, hstored]

end Table

end Compiler

namespace Sample

def tracking : Settings := { Settings.default with cacheDir := some "kernels", track := true }

/-- A call while nothing can be stored. -/
def earlier : Asked := ⟨firstCall, .blocked, 5⟩

/-- A call for the same program while nothing is stored. -/
def later : Asked := ⟨secondCall, .absent, 6⟩

theorem digest?_eq : later.call.digest? = earlier.call.digest? := by
  have hrequest : Request.ofAnalysis (analysisNamed "fare") .dot =
      Request.ofAnalysis (analysisNamed "cost") .dot := rfl
  simp only [later, earlier, Call.digest?, firstCall, secondCall, analyze_graph, analyze_regrouped,
    hrequest]

end Sample

/-- Nothing could be stored at the first of two calls for one program, and nothing is there at the
second one, which is answered with the same artifact all the same. -/
theorem Compiler.bookkeeping_sample : Sample.tracking.track = true ∧
    ((new Sample.tracking .absent).1.after [Sample.earlier]).usesDirectory = true ∧
    ((new Sample.tracking .absent).1.after [Sample.earlier]).size = 1 ∧ ∃ k k',
      ((new Sample.tracking .absent).1.reply Sample.earlier).answer = .ok k ∧
      (((new Sample.tracking .absent).1.after [Sample.earlier]).reply Sample.later).answer = .ok k' ∧
      k'.artifact = k.artifact ∧
      (((new Sample.tracking .absent).1.after [Sample.earlier]).reply
        Sample.later).compiler.lastTriggered = some false := by
  obtain ⟨artifact, hgen⟩ := Sample.exists_generated
  have hnow : generate (Sample.analysisNamed "cost") .dot 5 = _ :=
    (generate_at (Sample.analysisNamed "cost") .dot 0 5).trans (congrArg _ hgen)
  have hlater : generate (Sample.analysisNamed "fare") .dot 6 = _ :=
    (generate_at (Sample.analysisNamed "fare") .dot 0 6).trans
      (congrArg _ ((Analysis.generate_eq_of_request Sample.regrouped_built Sample.graph_built
        Sample.analyze_regrouped Sample.analyze_graph rfl 0).trans hgen))
  obtain ⟨k, hk⟩ : ∃ k, ((new Sample.tracking .absent).1.reply Sample.earlier).answer = .ok k :=
    Analysis.exists_answer Sample.analyze_graph hnow _ _
  obtain ⟨k', hk'⟩ : ∃ k', (((new Sample.tracking .absent).1.after [Sample.earlier]).reply
      Sample.later).answer = .ok k' :=
    Analysis.exists_answer Sample.analyze_regrouped hlater _ _
  obtain ⟨-, -, -, hfirst⟩ :=
    bookkeeping (show Sample.tracking.track = true from rfl) .absent [] Sample.earlier
  obtain ⟨huses, hsize, -, hsecond⟩ :=
    bookkeeping (show Sample.tracking.track = true from rfl) .absent [Sample.earlier] Sample.later
  obtain ⟨hkey, -⟩ := hfirst k hk
  obtain ⟨hkey', -, hagain⟩ := hsecond k' hk'
  have hkept : (new Sample.tracking .absent).1.answered [Sample.earlier] =
      [(k.artifact.digest, k.artifact)] := by
    rw [answered, answered, List.append_nil]
    exact news_of_ok hkey hk
  rw [Sample.digest?_eq, hkey, Option.some.injEq] at hkey'
  rw [hkept] at hsize hagain
  obtain ⟨hsame, hflag, -⟩ := hagain k.artifact (by rw [← hkey']; exact List.mem_singleton_self _)
  rw [List.map_singleton, List.toFinset_cons, List.toFinset_nil, insert_empty_eq,
    Finset.card_singleton] at hsize
  exact ⟨rfl, huses.trans rfl, hsize, k, k', hk, hk', hsame, hflag⟩

end LinkedTables
