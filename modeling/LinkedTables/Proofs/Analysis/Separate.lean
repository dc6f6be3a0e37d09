import LinkedTables.Proofs.Analysis.Faults
import LinkedTables.Proofs.Links.Sample

/-!
# Expressions are analyzed on their own

All expressions of a set are read, then all are typed, then all are lowered, and they share what is
noted and what is written down. Nothing of it decides whether one of them fails: what was noted before
changes neither the type of an expression nor its fault (`Typing.ofResult_mirrors`), and lowering fails
just if there is no plan, which is made without looking at any slot. The number of an expression in its
set is only told by its faults (`Scope.plan_movedTo`).

So a set is analyzed if each of its expressions is, and otherwise its fault is that of the first
expression of those that fail in the earliest phase (`analyze_separately`).
-/

namespace LinkedTables

namespace Site

/-- The same text at another place of a set. -/
def movedTo (s : Site) (i : Nat) : Site := { s with index := i }

end Site

namespace AnalysisFault

/-- The fault of the same expression at another place of a set. -/
def movedTo : AnalysisFault → Nat → AnalysisFault
  | unreadable s f, i => unreadable (s.movedTo i) f
  | unknownName s n, i => unknownName (s.movedTo i) n
  | unreachable s n root, i => unreachable (s.movedTo i) n root
  | type s c, i => type (s.movedTo i) c
  | f, _ => f

end AnalysisFault

namespace Scope

variable {sc : Scope} {site : Site}

theorem resolve_movedTo (table : Option String) (name : String) (i : Nat) :
    sc.resolve (site.movedTo i) table name =
      (sc.resolve site table name).mapError (·.movedTo i) := by
  rcases table with _ | table
  · simp only [resolve, resolveBare]
    split
    · rfl
    · split_ifs <;> rfl
  · simp only [resolve, resolveDotted]
    split
    · rfl
    · split_ifs <;> rfl

theorem fetch_movedTo (table var : String) (i : Nat) :
    sc.fetch table var = (sc.fetch table var).mapError (·.movedTo i) := by
  rw [fetch]
  split
  · rfl
  · split <;> rfl

theorem planOffset_movedTo {place place' : Nat → Except AnalysisFault Place} {i : Nat} (ds : Dataset)
    (h : ∀ d, place d = (place' d).mapError (·.movedTo i)) : ∀ dims : List Nat,
    planOffset place ds dims = (planOffset place' ds dims).mapError (·.movedTo i)
  | [] => rfl
  | d :: rest => mapError_bind (planOffset_movedTo ds h rest) fun _ =>
    mapError_bind (h d) fun _ => rfl

theorem planPlace_movedTo (i : Nat) : ∀ (fuel : Nat) (table : String) (ds : Dataset) (d : Nat),
    sc.planPlace (site.movedTo i) fuel table ds d =
      (sc.planPlace site fuel table ds d).mapError (·.movedTo i)
  | 0, _, _, _ => rfl
  | fuel + 1, table, ds, d => by
    rw [planPlace, planPlace]
    split_ifs
    · rfl
    · rcases ds.dims[d]? with _ | dim
      · rfl
      rcases hin : sc.graph.incoming? table dim.name with _ | ⟨_, link⟩
      · simp only [hin]
        rfl
      rcases hsrc : sc.graph.data? link.sourceTable with _ | src
      · simp only [hin, hsrc]
        rfl
      rcases hvar : src.var? link.sourceVar with _ | v
      · simp only [hin, hsrc, hvar]
        rfl
      simp only [hin, hsrc, hvar]
      refine mapError_bind (planOffset_movedTo src (planPlace_movedTo i fuel _ src) v.dims) fun _ => ?_
      split_ifs <;> rfl

/-- The plan of an expression does not depend on its place. -/
theorem plan_movedTo (i : Nat) : ∀ e : Expr,
    sc.plan (site.movedTo i) e = (sc.plan site e).mapError (·.movedTo i)
  | .number _ | .bool _ => rfl
  | .name table name _ => by
    refine mapError_bind (resolve_movedTo table name i) fun m => ?_
    rcases m with bits | ⟨t, v⟩
    · rfl
    · exact mapError_bind (fetch_movedTo t v i) fun r =>
        mapError_bind (planOffset_movedTo r.1 (planPlace_movedTo i _ t r.1) r.2.dims) fun _ => rfl
  | .unary op a _ => mapError_bind (plan_movedTo i a) fun _ => rfl
  | .binary op a b _ => mapError_bind (plan_movedTo i a) fun _ =>
    mapError_bind (plan_movedTo i b) fun _ => rfl
  | .ternary op a b c _ => mapError_bind (plan_movedTo i a) fun _ =>
    mapError_bind (plan_movedTo i b) fun _ => mapError_bind (plan_movedTo i c) fun _ => rfl

end Scope

namespace Noting

variable {α β : Type} {i : Nat}

/-- Whatever was noted before either of them, one computation gives what the other one gives, with its
fault moved to another place. -/
def Mirrors (i : Nat) (m m' : Noting α) : Prop := ∀ noted noted',
  (m noted).map Prod.fst = ((m' noted').map Prod.fst).mapError (·.movedTo i)

theorem mirrors_pure (a : α) : (pure a : Noting α).Mirrors i (pure a) := fun _ _ => rfl

theorem mirrors_throw (f : AnalysisFault) :
    (throw (f.movedTo i) : Noting α).Mirrors i (throw f) := fun _ _ => rfl

theorem mirrors_lift {m m' : Except AnalysisFault α} (h : m = m'.mapError (·.movedTo i)) :
    (liftM m : Noting α).Mirrors i (liftM m') := by
  subst h
  intro _ _
  cases m' <;> rfl

theorem mirrors_bind {m m' : Noting α} {k k' : α → Noting β} (hm : m.Mirrors i m')
    (hk : ∀ a, (∃ before after, m' before = .ok (a, after)) → (k a).Mirrors i (k' a)) :
    (m >>= k).Mirrors i (m' >>= k') := by
  intro noted noted'
  have h := hm noted noted'
  rcases hr : m noted with f | ⟨a, after⟩ <;> rcases hr' : m' noted' with f' | ⟨a', after'⟩ <;>
    rw [hr, hr'] at h <;> cases h <;> simp only [bind, StateT.bind, Except.bind, hr, hr']
  · rfl
  · exact hk a ⟨noted', after', hr'⟩ after after'

/-- Whatever was noted before, this is what the computation gives. -/
def Settled (m : Noting α) (x : Except AnalysisFault α) : Prop :=
  ∀ noted, (m noted).map Prod.fst = x

theorem settled_bind {m : Noting α} {k : α → Noting β} {x : Except AnalysisFault α}
    {y : α → Except AnalysisFault β} (hm : m.Settled x) (hk : ∀ a, (k a).Settled (y a)) :
    (m >>= k).Settled (x >>= y) := by
  intro noted
  rw [← hm noted]
  rcases hr : m noted with f | ⟨a, after⟩ <;> simp only [bind, StateT.bind, Except.bind, hr]
  · rfl
  · exact hk a after

theorem settled_mapM {f : α → Noting β} {r : α → Except AnalysisFault β}
    (h : ∀ a, (f a).Settled (r a)) : ∀ xs : List α, (xs.mapM f).Settled (xs.mapM r)
  | [] => fun _ => rfl
  | x :: xs => by
    rw [List.mapM_cons, List.mapM_cons]
    exact settled_bind (h x) fun _ => settled_bind (settled_mapM h xs) fun _ _ => rfl

end Noting

namespace Typing

open Noting

variable {sc : Scope} {lead : String} {site : Site}

/-- What is there can be noted, whatever was noted before. -/
theorem note_mirrors {table : String} {ds : Dataset} (hds : sc.graph.data? table = some ds)
    (var : String) (dims : List String) (i : Nat) :
    (note sc table var dims).Mirrors i (note sc table var dims) := by
  have hlinks : ∃ links, sc.graph.pathLinks table = .ok links := by
    have htable : sc.graph.hasTable table = true := by simp [LinkGraph.hasTable, hds]
    simp only [LinkGraph.pathLinks, LinkGraph.path, htable, if_true]
    exact ⟨_, rfl⟩
  obtain ⟨links, hlinks⟩ := hlinks
  have hok : ∀ noted, (note sc table var dims noted).map Prod.fst = .ok () := by
    intro noted
    show ((if _ then _ else _ : Noting Unit) noted).map Prod.fst = _
    split_ifs
    · rfl
    · rw [hlinks]
      rfl
  exact fun noted noted' => by rw [hok, hok]; rfl

theorem asOperand_mirrors (i : Nat) (e : Expr) (t : Typed) :
    (asOperand (site.movedTo i) e t).Mirrors i (asOperand site e t) := by
  rw [asOperand, asOperand]
  split_ifs
  · exact mirrors_throw (.type site _)
  · exact mirrors_pure _

theorem annotate_mirrors (hsc : sc.Rooted lead) (i : Nat) : ∀ e : Expr,
    (annotate sc (site.movedTo i) e).Mirrors i (annotate sc site e)
  | .number _ | .bool _ => mirrors_pure _
  | .name table name _ => by
    rw [annotate, annotate]
    refine mirrors_bind (mirrors_lift (Scope.resolve_movedTo table name i)) fun m hm => ?_
    obtain ⟨_, _, hm⟩ := hm
    rcases m with bits | ⟨t, v⟩
    · exact mirrors_pure _
    obtain ⟨ds, w, -, hds, -⟩ := Scope.fetch_of_resolve hsc (lift_ok hm)
    exact mirrors_bind (mirrors_lift (Scope.fetch_movedTo t v i)) fun r _ =>
      mirrors_bind (note_mirrors hds v _ i) fun _ _ => mirrors_pure _
  | .unary op a _ => by
    rw [annotate, annotate]
    exact mirrors_bind (annotate_mirrors hsc i a) fun ta _ =>
      mirrors_bind (asOperand_mirrors i a ta) fun _ _ => mirrors_pure _
  | .binary op a b _ => by
    rw [annotate, annotate]
    exact mirrors_bind (annotate_mirrors hsc i a) fun ta _ =>
      mirrors_bind (asOperand_mirrors i a ta) fun _ _ =>
      mirrors_bind (annotate_mirrors hsc i b) fun tb _ =>
      mirrors_bind (asOperand_mirrors i b tb) fun _ _ => mirrors_pure _
  | .ternary op a b c _ => by
    rw [annotate, annotate]
    exact mirrors_bind (annotate_mirrors hsc i a) fun ta _ =>
      mirrors_bind (asOperand_mirrors i a ta) fun _ _ =>
      mirrors_bind (annotate_mirrors hsc i b) fun tb _ =>
      mirrors_bind (asOperand_mirrors i b tb) fun _ _ =>
      mirrors_bind (annotate_mirrors hsc i c) fun tc _ =>
      mirrors_bind (asOperand_mirrors i c tc) fun _ _ => mirrors_pure _

/-- The type of an expression depends neither on its place nor on what was noted before. -/
theorem ofResult_mirrors (hsc : sc.Rooted lead) (i : Nat) (e : Expr) :
    (ofResult sc (site.movedTo i) e).Mirrors i (ofResult sc site e) := by
  rw [ofResult, ofResult]
  refine mirrors_bind (annotate_mirrors hsc i e) fun t _ => ?_
  split_ifs
  · exact mirrors_bind (mirrors_throw (.type site _)) fun _ _ => mirrors_pure _
  · exact mirrors_pure _

end Typing

/-- The set of one expression, with the same constants. -/
def ExprSet.only (set : ExprSet) (entry : String × String) : ExprSet := ⟨[entry], set.constants⟩

namespace Analysis

inductive Phase where
  | reading
  | typing
  | lowering
  deriving DecidableEq, Repr

/-- All expressions go through one phase before the first one goes through the next. -/
def Phase.rank : Phase → Nat
  | reading => 0
  | typing => 1
  | lowering => 2

/-- The fault of the analysis of a set, and the phase that it comes up in. -/
def failure? (sc : Scope) (set : ExprSet) : Option (Phase × AnalysisFault) :=
  match (sites set).mapM readSource with
  | .error f => some (.reading, f)
  | .ok sources =>
    match typeAll sc sources with
    | .error f => some (.typing, f)
    | .ok _ =>
      match lowerAll sc sources with
      | .error f => some (.lowering, f)
      | .ok _ => none

variable {g : LinkGraph} {set : ExprSet} {sc : Scope} {lead : String}

theorem analyze_cases (hscope : scope g set = .ok sc) (hset : set.entries ≠ []) :
    (∃ a, analyze g set = .ok a) ∧ failure? sc set = none ∨
      ∃ phase f, analyze g set = .error f ∧ failure? sc set = some (phase, f) := by
  have hempty : set.entries.isEmpty = false := by simpa using hset
  simp only [analyze, failure?, hscope, hempty, bind, Except.bind]
  rcases (sites set).mapM readSource with f | sources
  · exact Or.inr ⟨_, f, rfl, rfl⟩
  rcases htypes : typeAll sc sources with f | ⟨types, references⟩
  · exact Or.inr ⟨.typing, f, by simp [htypes], by simp [htypes]⟩
  rcases hlowered : lowerAll sc sources with f | ⟨outputs, l⟩
  · exact Or.inr ⟨.lowering, f, by simp [htypes, hlowered], by simp [htypes, hlowered]⟩
  · exact Or.inl ⟨⟨_, by simp [htypes, hlowered]; rfl⟩, by simp [htypes, hlowered]⟩

theorem analyze_error_iff (hscope : scope g set = .ok sc) (hset : set.entries ≠ [])
    {f : AnalysisFault} : analyze g set = .error f ↔ ∃ phase, failure? sc set = some (phase, f) := by
  rcases analyze_cases hscope hset with ⟨⟨a, ha⟩, hnone⟩ | ⟨phase, f', hf', hsome⟩
  · simp [ha, hnone]
  · simp [hf', hsome]

theorem exists_analyze_iff (hscope : scope g set = .ok sc) (hset : set.entries ≠ []) :
    (∃ a, analyze g set = .ok a) ↔ failure? sc set = none := by
  rcases analyze_cases hscope hset with ⟨⟨a, ha⟩, hnone⟩ | ⟨phase, f', hf', hsome⟩
  · simp [ha, hnone]
  · simp [hf', hsome]

/-- The same expression at another place. -/
def Source.movedTo (s : Source) (i : Nat) : Source := { s with site := s.site.movedTo i }

/-- The type of an expression before which nothing was noted. -/
def typed (sc : Scope) (s : Source) : Except AnalysisFault Typed :=
  (Typing.ofResult sc s.site s.tree []).map Prod.fst

def planned (sc : Scope) (s : Source) : Except AnalysisFault Plan := sc.plan s.site s.tree

theorem readSource_movedTo (text : String) (i : Nat) : readSource ⟨i, text⟩ =
    ((readSource ⟨0, text⟩).map (·.movedTo i)).mapError (·.movedTo i) := by
  unfold readSource
  rcases Expr.read text with f | ⟨tree, tokens⟩ <;> rfl

theorem typed_movedTo (hsc : sc.Rooted lead) (s : Source) (i : Nat) :
    typed sc (s.movedTo i) = (typed sc s).mapError (·.movedTo i) :=
  Typing.ofResult_mirrors hsc i s.tree [] []

theorem planned_movedTo (s : Source) (i : Nat) :
    planned sc (s.movedTo i) = (planned sc s).mapError (·.movedTo i) :=
  Scope.plan_movedTo i s.tree

/-- The types of all expressions are the types that each of them has on its own. -/
theorem typeAll_map (hsc : sc.Rooted lead) (sources : List Source) :
    (typeAll sc sources).map Prod.fst = sources.mapM (typed sc) := by
  have halone : ∀ s : Source, (Typing.ofResult sc s.site s.tree).Settled (typed sc s) := fun s noted => by
    have h : (Typing.ofResult sc s.site s.tree).Mirrors s.site.index (Typing.ofResult sc s.site s.tree) :=
      Typing.ofResult_mirrors hsc s.site.index s.tree
    exact (h noted []).trans (h [] []).symm
  exact Noting.settled_mapM halone sources []

/-- The phase and the fault of one text on its own. -/
def alone? (sc : Scope) (text : String) : Option (Phase × AnalysisFault) :=
  match readSource ⟨0, text⟩ with
  | .error f => some (.reading, f)
  | .ok s =>
    match typed sc s with
    | .error f => some (.typing, f)
    | .ok _ =>
      match planned sc s with
      | .error f => some (.lowering, f)
      | .ok _ => none

theorem rank_of_typed {text : String} {s : Source} {t : Typed} (hs : readSource ⟨0, text⟩ = .ok s)
    (ht : typed sc s = .ok t) {phase : Phase} {f : AnalysisFault}
    (h : alone? sc text = some (phase, f)) : Phase.typing.rank < phase.rank := by
  simp only [alone?, hs, ht] at h
  split at h <;> cases h
  exact Nat.lt_add_one 1

theorem rank_of_read {text : String} {s : Source} (hs : readSource ⟨0, text⟩ = .ok s)
    {phase : Phase} {f : AnalysisFault} (h : alone? sc text = some (phase, f)) :
    Phase.reading.rank < phase.rank := by
  rcases ht : typed sc s with f | t
  · simp only [alone?, hs, ht] at h
    cases h
    exact Nat.lt_add_one 0
  · exact (Nat.zero_le _).trans_lt (rank_of_typed hs ht h)

/-- Phase by phase, each expression on its own. -/
theorem failure?_eq (hsc : sc.Rooted lead) (set : ExprSet) : failure? sc set =
    match (sites set).mapM readSource with
    | .error f => some (.reading, f)
    | .ok sources =>
      match sources.mapM (typed sc) with
      | .error f => some (.typing, f)
      | .ok _ =>
        match sources.mapM (planned sc) with
        | .error f => some (.lowering, f)
        | .ok _ => none := by
  unfold failure?
  rcases (sites set).mapM readSource with f | sources
  · rfl
  simp only [← typeAll_map hsc, lowerAll_eq]
  rcases typeAll sc sources with f | r
  · rfl
  · show _ = (match planAll sc sources with
      | .error f => some (Phase.lowering, f)
      | .ok _ => none)
    simp only [Except.map]
    rcases planAll sc sources with f | plans <;> rfl

theorem failure?_only (hsc : sc.Rooted lead) (set : ExprSet) (entry : String × String) :
    failure? sc (set.only entry) = alone? sc entry.2 := by
  have hsites : sites (set.only entry) = [⟨0, entry.2⟩] := rfl
  rw [failure?_eq hsc, hsites, mapM_singleton, alone?]
  rcases readSource ⟨0, entry.2⟩ with f | s
  · rfl
  simp only [Except.map, mapM_singleton]
  rcases typed sc s with f | t
  · rfl
  rcases planned sc s with f | p <;> rfl

theorem sites_getElem? (set : ExprSet) (i : Nat) :
    (sites set)[i]? = (set.entries[i]?).map fun e => ⟨i, e.2⟩ := by
  rw [sites, List.getElem?_map, List.getElem?_zipIdx, ExprSet.texts, List.getElem?_map]
  rcases set.entries[i]? with _ | e
  · rfl
  · simp

theorem readSource_ok_iff {text : String} {i : Nat} {s' : Source} : readSource ⟨i, text⟩ = .ok s' ↔
    ∃ s, readSource ⟨0, text⟩ = .ok s ∧ s' = s.movedTo i := by
  rw [readSource_movedTo text i]
  rcases readSource ⟨0, text⟩ with f | s <;> simp [Except.map, Except.mapError, eq_comm]

theorem readSource_error_iff {text : String} {i : Nat} {f : AnalysisFault} :
    readSource ⟨i, text⟩ = .error f ↔
      ∃ f', readSource ⟨0, text⟩ = .error f' ∧ f = f'.movedTo i := by
  rw [readSource_movedTo text i]
  rcases readSource ⟨0, text⟩ with f | s <;> simp [Except.map, Except.mapError, eq_comm]

/-- What is read from a set is what is read from its entries, each at its place. -/
theorem sources_getElem? {sources : List Source} (h : (sites set).mapM readSource = .ok sources)
    {i : Nat} {e : String × String} (he : set.entries[i]? = some e) :
    ∃ s, readSource ⟨0, e.2⟩ = .ok s ∧ sources[i]? = some (s.movedTo i) := by
  obtain ⟨s', hs', hread⟩ := (getElem?_of_mapM h i).1 ⟨i, e.2⟩ (by rw [sites_getElem?, he]; rfl)
  obtain ⟨s, hs, rfl⟩ := readSource_ok_iff.1 hread
  exact ⟨s, hs, hs'⟩

section First

variable {β : Type} {stage : Source → Except AnalysisFault β} {sources : List Source}

/-- A phase that succeeds does so for each entry on its own. -/
theorem stage_ok (hstage : ∀ s i, stage (s.movedTo i) = (stage s).mapError (·.movedTo i))
    (hread : (sites set).mapM readSource = .ok sources) {ys : List β}
    (h : sources.mapM stage = .ok ys) {i : Nat} {e : String × String} {s : Source}
    (he : set.entries[i]? = some e) (hs : readSource ⟨0, e.2⟩ = .ok s) : ∃ b, stage s = .ok b := by
  obtain ⟨s', hs', hi⟩ := sources_getElem? hread he
  obtain rfl := Except.ok.inj (hs.symm.trans hs')
  obtain ⟨b, -, hb⟩ := (getElem?_of_mapM h i).1 _ hi
  exact ⟨b, mapError_eq_ok.1 ((hstage s i).symm.trans hb)⟩

/-- A phase that fails does so for the first entry for which it fails on its own. -/
theorem stage_error (hstage : ∀ s i, stage (s.movedTo i) = (stage s).mapError (·.movedTo i))
    (hread : (sites set).mapM readSource = .ok sources) {f : AnalysisFault}
    (h : sources.mapM stage = .error f) : ∃ (i : Nat) (e : String × String) (s : Source)
      (f' : AnalysisFault), set.entries[i]? = some e ∧ readSource ⟨0, e.2⟩ = .ok s ∧
      stage s = .error f' ∧ f = f'.movedTo i ∧
      ∀ (j : Nat) (e' : String × String) (s' : Source), j < i → set.entries[j]? = some e' →
        readSource ⟨0, e'.2⟩ = .ok s' → ∃ b, stage s' = .ok b := by
  obtain ⟨i, s, hi, hfail, hbefore⟩ := exists_first_of_mapM h
  obtain ⟨site, hsite, -⟩ := (getElem?_of_mapM hread i).2 s hi
  rw [sites_getElem?] at hsite
  obtain ⟨e, he, -⟩ := Option.map_eq_some_iff.1 hsite
  obtain ⟨s₀, hs₀, hs₀i⟩ := sources_getElem? hread he
  obtain rfl := Option.some.inj (hi.symm.trans hs₀i)
  obtain ⟨f', hf', rfl⟩ := mapError_eq_error.1 ((hstage s₀ i).symm.trans hfail)
  refine ⟨i, e, s₀, f', he, hs₀, hf', rfl, fun j e' s' hj he' hs' => ?_⟩
  obtain ⟨s'', hs'', hsj⟩ := sources_getElem? hread he'
  obtain rfl := Except.ok.inj (hs'.symm.trans hs'')
  obtain ⟨b, hb⟩ := hbefore j _ hj hsj
  exact ⟨b, mapError_eq_ok.1 ((hstage s' j).symm.trans hb)⟩

end First

/-- The entry at a place fails on its own, in no later phase than any other, and it is the first one
that fails in this phase. -/
def FailsFirst (sc : Scope) (set : ExprSet) (i : Nat) (phase : Phase) (f : AnalysisFault) : Prop :=
  (∃ e, set.entries[i]? = some e ∧ failure? sc (set.only e) = some (phase, f)) ∧
    ∀ (j : Nat) (e : String × String) (phase' : Phase) (f' : AnalysisFault),
      set.entries[j]? = some e → failure? sc (set.only e) = some (phase', f') →
      phase.rank < phase'.rank ∨ phase = phase' ∧ i ≤ j

theorem first_of_reading (hsc : sc.Rooted lead) {f : AnalysisFault}
    (h : (sites set).mapM readSource = .error f) :
    ∃ i f', FailsFirst sc set i .reading f' ∧ f = f'.movedTo i := by
  simp only [FailsFirst, failure?_only hsc]
  obtain ⟨i, site, hi, hfail, hbefore⟩ := exists_first_of_mapM h
  rw [sites_getElem?] at hi
  obtain ⟨e, he, rfl⟩ := Option.map_eq_some_iff.1 hi
  obtain ⟨f', hf', rfl⟩ := readSource_error_iff.1 hfail
  refine ⟨i, f', ⟨⟨e, he, by rw [alone?, hf']⟩, fun j e' phase' f'' he' hj => ?_⟩, rfl⟩
  rcases hr : readSource ⟨0, e'.2⟩ with f | s
  · rw [alone?, hr] at hj
    cases hj
    refine Or.inr ⟨rfl, not_lt.1 fun hlt => ?_⟩
    obtain ⟨s, hs⟩ := hbefore j ⟨j, e'.2⟩ hlt (by rw [sites_getElem?, he']; rfl)
    obtain ⟨s₀, hs₀, -⟩ := readSource_ok_iff.1 hs
    rw [hs₀] at hr
    cases hr
  · exact Or.inl (rank_of_read hr hj)

/-- The first entry that fails in a phase fails first, if the entries that fail in it on their own are
the ones for which the phase fails, and the others fail later. -/
theorem first_of_stage (hsc : sc.Rooted lead) {phase : Phase} {β : Type}
    {stage : Source → Except AnalysisFault β} {sources : List Source}
    (hread : (sites set).mapM readSource = .ok sources)
    (hstage : ∀ s i, stage (s.movedTo i) = (stage s).mapError (·.movedTo i))
    (hfails : ∀ (i : Nat) (e : String × String) (s : Source) (f : AnalysisFault),
      set.entries[i]? = some e → readSource ⟨0, e.2⟩ = .ok s → stage s = .error f →
      alone? sc e.2 = some (phase, f))
    (hpasses : ∀ (i : Nat) (e : String × String) (s : Source) (b : β),
      set.entries[i]? = some e → readSource ⟨0, e.2⟩ = .ok s → stage s = .ok b →
      ∀ phase' f, alone? sc e.2 = some (phase', f) → phase.rank < phase'.rank)
    {f : AnalysisFault} (h : sources.mapM stage = .error f) :
    ∃ i f', FailsFirst sc set i phase f' ∧ f = f'.movedTo i := by
  simp only [FailsFirst, failure?_only hsc]
  obtain ⟨i, e, s, f', he, hs, hfail, rfl, hbefore⟩ := stage_error hstage hread h
  refine ⟨i, f', ⟨⟨e, he, hfails i e s f' he hs hfail⟩, fun j e' phase' f'' he' hj => ?_⟩, rfl⟩
  obtain ⟨s', hs', -⟩ := sources_getElem? hread he'
  rcases hs'' : stage s' with f | b
  · rw [hfails j e' s' f he' hs' hs''] at hj
    cases hj
    refine Or.inr ⟨rfl, not_lt.1 fun hlt => ?_⟩
    obtain ⟨b, hb⟩ := hbefore j e' s' hlt he' hs'
    rw [hb] at hs''
    cases hs''
  · exact Or.inl (hpasses j e' s' b he' hs' hs'' phase' f'' hj)

/-- The fault of a set is that of the first of its entries that fail in the earliest phase. -/
theorem failure?_first (hsc : sc.Rooted lead) {phase : Phase} {f : AnalysisFault}
    (h : failure? sc set = some (phase, f)) :
    ∃ i f', FailsFirst sc set i phase f' ∧ f = f'.movedTo i := by
  rw [failure?_eq hsc] at h
  rcases hread : (sites set).mapM readSource with f | sources <;> rw [hread] at h
  · cases h
    exact first_of_reading hsc hread
  simp only at h
  rcases htyped : sources.mapM (typed sc) with f | types <;> rw [htyped] at h
  · cases h
    refine first_of_stage hsc hread (typed_movedTo hsc) (fun i e s f _ hs hf => ?_)
      (fun i e s t _ hs ht phase' f => rank_of_typed hs ht) htyped
    simp only [alone?, hs, hf]
  simp only at h
  rcases hplanned : sources.mapM (planned sc) with f | plans <;> rw [hplanned] at h
  · cases h
    refine first_of_stage hsc hread planned_movedTo (fun i e s f he hs hf => ?_)
      (fun i e s p he hs hp phase' f halone => ?_) hplanned
    all_goals obtain ⟨t, ht⟩ := stage_ok (typed_movedTo hsc) hread htyped he hs
    · simp only [alone?, hs, ht, hf]
    · simp only [alone?, hs, ht, hp] at halone
      cases halone
  · cases h

theorem failure?_none (hsc : sc.Rooted lead) (h : failure? sc set = none) :
    ∀ e ∈ set.entries, failure? sc (set.only e) = none := by
  intro e he
  obtain ⟨i, hi⟩ := List.mem_iff_getElem?.1 he
  rw [failure?_eq hsc] at h
  rw [failure?_only hsc, alone?]
  rcases hread : (sites set).mapM readSource with f | sources <;> rw [hread] at h
  · cases h
  simp only at h
  rcases htyped : sources.mapM (typed sc) with f | types <;> rw [htyped] at h
  · cases h
  simp only at h
  rcases hplanned : sources.mapM (planned sc) with f | plans <;> rw [hplanned] at h
  · cases h
  obtain ⟨s, hs, -⟩ := sources_getElem? hread hi
  obtain ⟨t, ht⟩ := stage_ok (typed_movedTo hsc) hread htyped hi hs
  obtain ⟨p, hp⟩ := stage_ok planned_movedTo hread hplanned hi hs
  simp only [hs, ht, hp]

/-- A set is analyzed just if each of its expressions is analyzed on its own, with the same constants.
Otherwise its fault is the one that the expression has on its own that is the first of those that fail
in the earliest phase, but for the number of the expression. -/
theorem analyze_separately (hg : g.Built) {root : Table} (hroot : g.checkedRoot = .ok root)
    (hset : set.entries ≠ []) :
    ((∃ a, analyze g set = .ok a) ↔ ∀ e ∈ set.entries, ∃ a, analyze g (set.only e) = .ok a) ∧
    (∀ f, analyze g set = .error f → ∃ i phase f',
      FailsFirst ⟨g, root, set.constants⟩ set i phase f' ∧ f = f'.movedTo i) ∧
    ∀ e f, analyze g (set.only e) = .error f ↔
      ∃ phase, failure? ⟨g, root, set.constants⟩ (set.only e) = some (phase, f) := by
  have hscope : scope g set = .ok ⟨g, root, set.constants⟩ := by simp [scope, hroot]
  have honly : ∀ e, scope g (set.only e) = .ok ⟨g, root, set.constants⟩ := fun e => by
    simp [scope, hroot, ExprSet.only]
  obtain ⟨-, -, lead, hsc⟩ := Scope.rooted_of_ok hg hscope
  refine ⟨⟨fun hok e he => ?_, fun hall => ?_⟩, fun f hf => ?_, fun e f =>
    analyze_error_iff (honly e) (List.cons_ne_nil e [])⟩
  · rw [exists_analyze_iff hscope hset] at hok
    exact (exists_analyze_iff (honly e) (List.cons_ne_nil e [])).2 (failure?_none hsc hok e he)
  · rw [exists_analyze_iff hscope hset]
    by_contra hfail
    obtain ⟨⟨phase, f⟩, hf⟩ := Option.ne_none_iff_exists'.1 hfail
    obtain ⟨i, f', ⟨⟨e, he, hsome⟩, -⟩, -⟩ := failure?_first hsc hf
    have hnone := (exists_analyze_iff (honly e) (List.cons_ne_nil e [])).1
      (hall e (List.mem_of_getElem? he))
    rw [hsome] at hnone
    cases hnone
  · obtain ⟨phase, hsome⟩ := (analyze_error_iff hscope hset).1 hf
    obtain ⟨i, f', hfirst, hmoved⟩ := failure?_first hsc hsome
    exact ⟨i, phase, f', hfirst, hmoved⟩

end Analysis

/-- The first expression has a value, the second one names nothing, and the last two cannot be read. -/
def Sample.spoilt : ExprSet :=
  ⟨[("a", "home + rate"), ("b", "nope"), ("c", "skims.time * (1"), ("d", "2 +")], Sample.set.constants⟩

namespace Analysis

/-- The third expression is the first one that cannot be read. -/
theorem analyze_separately_spoilt : Sample.graph.Built ∧ ∃ root phase f,
    Sample.graph.checkedRoot = .ok root ∧ Sample.spoilt.entries ≠ [] ∧
    FailsFirst ⟨Sample.graph, root, Sample.spoilt.constants⟩ Sample.spoilt 2 phase f ∧
    analyze Sample.graph Sample.spoilt = .error (f.movedTo 2) := by
  have hf : analyze Sample.graph Sample.spoilt =
      .error (.unreadable ⟨2, "skims.time * (1"⟩ ⟨15, .wanted .closing none⟩) := by decide +kernel
  have hsome : Sample.graph.checkedRoot.toOption.isSome = true := by decide +kernel
  rcases hroot : Sample.graph.checkedRoot with e | root
  · rw [hroot] at hsome
    cases hsome
  · have hset : Sample.spoilt.entries ≠ [] := by decide
    obtain ⟨i, phase, f, hfirst, hmoved⟩ :=
      (analyze_separately Sample.graph_built hroot hset).2.1 _ hf
    obtain ⟨s, p, rfl⟩ : ∃ s p, f = .unreadable s p := by
      cases f <;> first | exact ⟨_, _, rfl⟩ | cases hmoved
    obtain rfl : 2 = i := congrArg Site.index (AnalysisFault.unreadable.inj hmoved).1
    exact ⟨Sample.graph_built, root, phase, _, rfl, hset, hfirst, hf.trans (congrArg _ hmoved)⟩

end Analysis

end LinkedTables
