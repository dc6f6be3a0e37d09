import LinkedTables.Proofs.Cache.Answers

/-!
# What is stored is found again

A record is read from the bytes of its text as it was, and the artifact that is generated for a
request would be verified under the request's digest. So once it is stored it is loaded under this
digest, whole, and since no two keys have one file name, every other key loads what it did before
(`Compiler.load?_stored`).

A digest has 64 digits, so it can always name a file: a folder stores every artifact that is
generated, unless another folder has its name (`Directory.exists_store?`).
-/

namespace LinkedTables

namespace Blake3

theorem mem_hexWord {w : UInt32} {c : Char} (h : c ∈ hexWord w) :
    ∃ d < 16, c = Nat.digitChar d := by
  have hdigit : ∀ v : UInt32, (v &&& 0xF).toNat < 16 := by
    intro v
    rw [UInt32.toNat_and]
    exact Nat.and_lt_two_pow v.toNat (show (15 : Nat) < 2 ^ 4 by omega)
  simp only [hexWord, hexByte, List.mem_append, List.mem_cons, List.not_mem_nil, or_false] at h
  rcases h with ((((rfl | rfl) | rfl | rfl) | rfl | rfl) | rfl | rfl) <;> exact ⟨_, hdigit _, rfl⟩

theorem length_hexWord (w : UInt32) : (hexWord w).length = 8 := rfl

theorem size_compress (n : Node) (flags : UInt32) : (n.compress flags).size = 8 := by
  simp [Node.compress]

theorem mem_hash {bytes : ByteArray} {c : Char} (h : c ∈ (hash bytes).toList) :
    ∃ d < 16, c = Nat.digitChar d := by
  simp only [hash, String.toList_ofList, List.mem_flatMap] at h
  obtain ⟨w, -, hc⟩ := h
  exact mem_hexWord hc

theorem length_hash (bytes : ByteArray) : (hash bytes).toList.length = 64 := by
  simp [hash, List.length_flatMap, length_hexWord, size_compress]

end Blake3

theorem utf8Len_of_forall : ∀ {cs : List Char}, (∀ c ∈ cs, c.utf8Size = 1) →
    String.utf8Len cs = cs.length
  | [], _ => rfl
  | c :: cs, h => by
    rw [String.utf8Len_cons, utf8Len_of_forall fun d hd => h d (List.mem_cons_of_mem c hd),
      h c List.mem_cons_self, List.length_cons]

namespace Directory

theorem isFileName_hash (bytes : ByteArray) : isFileName (fileName (Blake3.hash bytes)) = true := by
  have hchars : ∀ c ∈ (fileName (Blake3.hash bytes)).toList,
      c ≠ '/' ∧ c ≠ '\x00' ∧ c.utf8Size = 1 := by
    intro c hc
    rw [fileName, String.toList_append, List.mem_append] at hc
    rcases hc with hc | hc
    · obtain ⟨n, hn, rfl⟩ := Blake3.mem_hash hc
      interval_cases n <;> decide
    · revert c
      simp [Char.utf8Size_eq_one_iff]
  have hlength : (fileName (Blake3.hash bytes)).utf8ByteSize = 76 := by
    rw [← String.ofList_toList (s := fileName (Blake3.hash bytes)), String.utf8ByteSize_ofList,
      utf8Len_of_forall fun c hc => (hchars c hc).2.2, fileName, String.toList_append,
      List.length_append, Blake3.length_hash]
    rfl
  simp only [isFileName, Bool.and_eq_true, List.all_eq_true, bne_iff_ne, decide_eq_true_eq]
  exact ⟨fun c hc => ⟨(hchars c hc).1, (hchars c hc).2.1⟩, by omega⟩

/-- A folder stores a record under a digest, unless another folder is in the way. -/
theorem exists_store? {entries : List (String × Entry)} {r : Record} {bytes : ByteArray}
    (hdigest : r.digest = Blake3.hash bytes)
    (hfree : Option.any Entry.isFolder (Directory.entry? (folder entries) (fileName r.digest)) = false) :
    (folder entries).store? r =
      some ((folder entries).withEntry (fileName r.digest) (.file r.text.toUTF8)) := by
  have hname : isFileName (fileName r.digest) = true := by
    rw [hdigest]
    exact isFileName_hash bytes
  simp [store?, write?, hname, hfree]

end Directory

namespace Compiler

variable {g : LinkGraph} {set : ExprSet} {a : Analysis} {mode : Mode} {now : UInt64}
  {artifact : Artifact} {d d' : Directory}

/-- Whatever is generated and whatever the directory holds: once the artifact is stored, its digest
loads it as it is, and every other key loads what it did. -/
theorem load?_stored (hg : g.Built) (ha : analyze g set = .ok a)
    (hgen : generate a mode now = .ok artifact) (hstore : d.store? artifact.record = some d') :
    d'.load? artifact.digest = some artifact ∧
      ∀ key, key ≠ artifact.digest → d'.load? key = d.load? key := by
  obtain ⟨-, hverified⟩ := generate_verified hg ha hgen
  exact ⟨Directory.load?_of_store? hverified hstore,
    fun key hkey => Directory.load?_of_ne hstore hkey⟩

/-- The sample is stored in an empty folder. -/
theorem load?_stored_sample : ∃ artifact d',
    generate (Sample.analysisNamed "cost") .dot 0 = .ok artifact ∧
    (Directory.folder []).store? artifact.record = some d' ∧
    d'.load? artifact.digest = some artifact ∧ d'.load? "another" = none := by
  obtain ⟨artifact, hgen⟩ := Sample.exists_generated
  obtain ⟨hdigest, -⟩ := generate_verified Sample.graph_built Sample.analyze_graph hgen
  have hhash : artifact.record.digest = Blake3.hash
      (Request.ofAnalysis (Sample.analysisNamed "cost") .dot).canonical.toUTF8 := hdigest
  obtain ⟨d', hstore⟩ : ∃ d', (Directory.folder []).store? artifact.record = some d' :=
    ⟨_, Directory.exists_store? hhash rfl⟩
  obtain ⟨hsame, hothers⟩ :=
    load?_stored Sample.graph_built Sample.analyze_graph hgen hstore
  refine ⟨artifact, d', hgen, hstore, hsame, ?_⟩
  rw [hothers]
  · rfl
  · intro heq
    have hlength := Blake3.length_hash
      (Request.ofAnalysis (Sample.analysisNamed "cost") .dot).canonical.toUTF8
    rw [← hhash, show artifact.record.digest = artifact.digest from rfl, ← heq] at hlength
    exact absurd hlength (by decide)

end Compiler

end LinkedTables
