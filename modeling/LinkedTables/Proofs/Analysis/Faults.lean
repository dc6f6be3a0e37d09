import LinkedTables.Proofs.Analysis.Faithful

/-!
# An analysis that fails is never at fault itself

Two faults say that the analysis went wrong and not what it was asked for: a variable that vanished
after its name was resolved, and links that do not end. Over a graph that was built neither comes up
(`analyze_blames`). What a name stands for is there when it is fetched, and on a walk backwards along
links fewer and fewer tables lead to the table at hand, so there is always fuel left.
-/

namespace LinkedTables

/-- The fault lies with what was asked for. -/
def AnalysisFault.Blames (f : AnalysisFault) : Prop := f.kind ≠ .internal

namespace Scope

variable {sc : Scope} {lead : String}

theorem resolve_blames {site : Site} {table : Option String} {name : String} {f : AnalysisFault}
    (h : sc.resolve site table name = .error f) : f.Blames := by
  rcases table with _ | table
  · simp only [resolve, resolveBare] at h
    split at h
    · cases h
    · split_ifs at h
      cases h
      simp [AnalysisFault.Blames, AnalysisFault.kind]
  · simp only [resolve, resolveDotted] at h
    split at h
    · cases h
      simp [AnalysisFault.Blames, AnalysisFault.kind]
    · split_ifs at h
      cases h
      simp [AnalysisFault.Blames, AnalysisFault.kind]

/-- What a name stands for can be fetched. -/
theorem fetch_of_resolve (hsc : sc.Rooted lead) {site : Site} {table : Option String}
    {name t v : String} (h : sc.resolve site table name = .ok (.variable_ t v)) :
    ∃ ds w, sc.fetch t v = .ok (ds, w) ∧ sc.graph.data? t = some ds ∧ ds.var? v = some w := by
  rcases table with _ | table
  · simp only [resolve, resolveBare] at h
    split at h
    · cases h
    · split_ifs at h with hvar
      cases h
      obtain ⟨w, hw⟩ := Option.isSome_iff_exists.1 hvar
      exact ⟨_, w, by simp [fetch, hsc.data, hw], hsc.data, hw⟩
  · simp only [resolve, resolveDotted] at h
    split at h
    · cases h
    · rename_i w hw
      split_ifs at h
      cases h
      obtain ⟨ds, hds, hw⟩ := Option.bind_eq_some_iff.1 hw
      exact ⟨ds, w, by simp [fetch, hds, hw], hds, hw⟩

section Plans

theorem planOffset_error {place : Nat → Except AnalysisFault Place} {ds : Dataset} {f : AnalysisFault} :
    ∀ {dims : List Nat}, planOffset place ds dims = .error f → ∃ d ∈ dims, place d = .error f
  | [], h => by cases h
  | d :: rest, h => by
    rcases bind_eq_error h with hrest | ⟨_, -, h⟩
    · obtain ⟨e, he, hplace⟩ := planOffset_error hrest
      exact ⟨e, List.mem_cons_of_mem d he, hplace⟩
    rcases bind_eq_error h with hplace | ⟨_, -, h⟩
    · exact ⟨d, List.mem_cons_self, hplace⟩
    · cases h

/-- There is fuel as long as it is no less than the tables that lead to the one at hand. -/
theorem planPlace_blames (hv : sc.graph.Valid) (site : Site) : ∀ {fuel : Nat} {table : String}
    {ds : Dataset} {i : Nat} {f : AnalysisFault}, sc.graph.rank table ≤ fuel →
      sc.graph.data? table = some ds → i < ds.dims.length →
      sc.planPlace site fuel table ds i = .error f → f.Blames
  | 0, table, ds, i, f, hfuel, hds, _, _ => by
    have hpos := LinkGraph.rank_pos (LinkGraph.mem_names_of_data? hds)
    omega
  | fuel + 1, table, ds, i, f, hfuel, hds, hi, h => by
    simp only [planPlace, List.getElem?_eq_getElem hi] at h
    split_ifs at h with hrow
    split at h
    · cases h
      simp [AnalysisFault.Blames, AnalysisFault.kind]
    rename_i n link hin
    obtain ⟨hlink, htarget, -⟩ := LinkGraph.incoming?_eq_some hin
    split at h
    · cases h
      simp [AnalysisFault.Blames, AnalysisFault.kind]
    rename_i src hsrc
    split at h
    · cases h
      simp [AnalysisFault.Blames, AnalysisFault.kind]
    rename_i v hvar
    rcases bind_eq_error h with hsource | ⟨_, -, h⟩
    · obtain ⟨d, hd, hplace⟩ := planOffset_error hsource
      have hrank := LinkGraph.rank_lt hv.acyclic hlink
        (htarget ▸ LinkGraph.mem_names_of_data? hds)
      rw [htarget] at hrank
      exact planPlace_blames hv site (by omega) hsrc
        (((hv.data_of hsrc).carries_of_var? hvar).lt d hd) hplace
    · split_ifs at h
      · cases h
        simp [AnalysisFault.Blames, AnalysisFault.kind]
      · cases h

theorem plan_blames (hsc : sc.Rooted lead) (site : Site) : ∀ {e : Expr} {f : AnalysisFault},
    sc.plan site e = .error f → f.Blames
  | .number _, f, h => by cases h
  | .bool _, f, h => by cases h
  | .name table name _, f, h => by
    rcases bind_eq_error h with hresolve | ⟨m, hm, h⟩
    · exact resolve_blames hresolve
    rcases m with bits | ⟨t, v⟩
    · cases h
    obtain ⟨ds, w, hfetch, hds, hvar⟩ := fetch_of_resolve hsc hm
    replace h : sc.planVariable site t v = .error f := h
    rcases bind_eq_error h with hnone | ⟨r, hr, h⟩
    · rw [hfetch] at hnone
      cases hnone
    obtain rfl : (ds, w) = r := Except.ok.inj (hfetch.symm.trans hr)
    rcases bind_eq_error h with hoffset | ⟨_, -, h⟩
    · obtain ⟨d, hd, hplace⟩ := planOffset_error hoffset
      exact planPlace_blames hsc.valid site (LinkGraph.rank_le _ _) hds
        (((hsc.valid.data_of hds).carries_of_var? hvar).lt d hd) hplace
    · cases h
  | .unary op a _, f, h => by
    rcases bind_eq_error h with ha | ⟨_, -, h⟩
    · exact plan_blames hsc site ha
    · cases h
  | .binary op a b _, f, h => by
    rcases bind_eq_error h with ha | ⟨_, -, h⟩
    · exact plan_blames hsc site ha
    rcases bind_eq_error h with hb | ⟨_, -, h⟩
    · exact plan_blames hsc site hb
    · cases h
  | .ternary op a b c _, f, h => by
    rcases bind_eq_error h with ha | ⟨_, -, h⟩
    · exact plan_blames hsc site ha
    rcases bind_eq_error h with hb | ⟨_, -, h⟩
    · exact plan_blames hsc site hb
    rcases bind_eq_error h with hc | ⟨_, -, h⟩
    · exact plan_blames hsc site hc
    · cases h

end Plans

end Scope

namespace Noting

variable {α β : Type}

/-- Whatever was noted before, a fault lies with what was asked for. -/
def Blames (m : Noting α) : Prop := ∀ noted f, m noted = .error f → f.Blames

theorem blames_pure (a : α) : (pure a : Noting α).Blames := fun _ _ h => by cases h

theorem blames_throw {f : AnalysisFault} (h : f.Blames) : (throw f : Noting α).Blames :=
  fun _ _ hf => by
    cases hf
    exact h

theorem blames_lift {m : Except AnalysisFault α} (h : ∀ f, m = .error f → f.Blames) :
    (liftM m : Noting α).Blames := by
  intro noted f hf
  cases m with
  | error e =>
    obtain rfl : e = f := Except.error.inj hf
    exact h e rfl
  | ok a => cases hf

theorem lift_ok {m : Except AnalysisFault α} {before after : List Reference} {a : α}
    (h : (liftM m : Noting α) before = .ok (a, after)) : m = .ok a := by
  cases m with
  | error e => cases h
  | ok b =>
    cases h
    rfl

theorem blames_bind {m : Noting α} {k : α → Noting β} (hm : m.Blames)
    (hk : ∀ a, (∃ before after, m before = .ok (a, after)) → (k a).Blames) : (m >>= k).Blames := by
  intro noted f h
  rcases hr : m noted with e | ⟨a, after⟩
  · simp only [bind, StateT.bind, Except.bind, hr] at h
    cases h
    exact hm noted _ hr
  · simp only [bind, StateT.bind, Except.bind, hr] at h
    exact hk a ⟨noted, after, hr⟩ after f h

theorem blames_mapM {f : α → Noting β} (h : ∀ a, (f a).Blames) : ∀ xs : List α, (xs.mapM f).Blames
  | [] => blames_pure _
  | x :: xs => by
    rw [List.mapM_cons]
    exact blames_bind (h x) fun _ _ => blames_bind (blames_mapM h xs) fun _ _ => blames_pure _

end Noting

namespace Typing

open Noting

variable {sc : Scope} {lead : String}

theorem note_blames (table var : String) (dims : List String) : (note sc table var dims).Blames := by
  intro noted f h
  replace h : (if _ then _ else _ : Noting Unit) noted = .error f := h
  split_ifs at h
  · cases h
  · rcases hlinks : sc.graph.pathLinks table with e | links <;> rw [hlinks] at h <;> cases h
    simp [AnalysisFault.Blames, AnalysisFault.kind]

theorem asOperand_blames (site : Site) (e : Expr) (t : Typed) : (asOperand site e t).Blames := by
  rw [asOperand]
  split_ifs
  · exact blames_throw (by simp [AnalysisFault.Blames, AnalysisFault.kind])
  · exact blames_pure _

theorem operand_blames {β : Type} {site : Site} {e : Expr} {k : Typed → Noting β}
    (he : (annotate sc site e).Blames) (hk : ∀ t, (k t).Blames) :
    (annotate sc site e >>= fun t => asOperand site e t >>= k).Blames :=
  blames_bind he fun t _ => blames_bind (asOperand_blames site e t) fun u _ => hk u

theorem annotate_blames (hsc : sc.Rooted lead) (site : Site) : ∀ e : Expr,
    (annotate sc site e).Blames
  | .number _ | .bool _ => blames_pure _
  | .name table name _ => by
    rw [annotate]
    refine blames_bind (blames_lift fun f h => Scope.resolve_blames h) fun m ⟨_, _, hm⟩ => ?_
    rcases m with bits | ⟨t, v⟩
    · exact blames_pure _
    obtain ⟨ds, w, hfetch, -⟩ := Scope.fetch_of_resolve hsc (lift_ok hm)
    refine blames_bind (blames_lift fun f h => ?_) fun r _ =>
      blames_bind (note_blames t v _) fun _ _ => blames_pure _
    rw [hfetch] at h
    cases h
  | .unary op a _ => by
    rw [annotate]
    exact operand_blames (annotate_blames hsc site a) fun _ => blames_pure _
  | .binary op a b _ => by
    rw [annotate]
    exact operand_blames (annotate_blames hsc site a) fun _ =>
      operand_blames (annotate_blames hsc site b) fun _ => blames_pure _
  | .ternary op a b c _ => by
    rw [annotate]
    exact operand_blames (annotate_blames hsc site a) fun _ =>
      operand_blames (annotate_blames hsc site b) fun _ =>
      operand_blames (annotate_blames hsc site c) fun _ => blames_pure _

theorem ofResult_blames (hsc : sc.Rooted lead) (site : Site) (e : Expr) :
    (ofResult sc site e).Blames := by
  rw [ofResult]
  refine blames_bind (annotate_blames hsc site e) fun t _ => ?_
  split_ifs
  · exact blames_bind (blames_throw (by simp [AnalysisFault.Blames, AnalysisFault.kind]))
      fun _ _ => blames_pure _
  · exact blames_pure _

end Typing

namespace Analysis

theorem mapM_blames {α β : Type} {step : α → Except AnalysisFault β}
    (h : ∀ a f, step a = .error f → f.Blames) {xs : List α} {f : AnalysisFault}
    (hf : xs.mapM step = .error f) : f.Blames := by
  obtain ⟨a, -, ha⟩ := exists_error_of_mapM hf
  exact h a f ha

theorem readSource_blames {site : Site} {f : AnalysisFault} (h : readSource site = .error f) :
    f.Blames := by
  simp only [readSource] at h
  split at h
  · cases h
    simp [AnalysisFault.Blames, AnalysisFault.kind]
  · cases h

theorem scope_blames {g : LinkGraph} {set : ExprSet} {f : AnalysisFault}
    (h : scope g set = .error f) : f.Blames := by
  simp only [scope] at h
  split at h
  · cases h
    simp [AnalysisFault.Blames, AnalysisFault.kind]
  · cases h

end Analysis

/-- The fault of an analysis lies with what was asked for. -/
theorem analyze_blames {g : LinkGraph} (hg : g.Built) {set : ExprSet} {f : AnalysisFault}
    (h : analyze g set = .error f) : f.Blames := by
  rcases bind_eq_error h with hscope | ⟨sc, hsc, h⟩
  · exact Analysis.scope_blames hscope
  obtain ⟨-, -, lead, hrooted⟩ := Scope.rooted_of_ok hg hsc
  dsimp only at h
  split_ifs at h
  · cases h
    simp [AnalysisFault.Blames, AnalysisFault.kind]
  rcases bind_eq_error h with hsources | ⟨sources, -, h⟩
  · exact Analysis.mapM_blames (fun _ _ => Analysis.readSource_blames) hsources
  rcases bind_eq_error h with htypes | ⟨_, -, h⟩
  · exact Noting.blames_mapM (fun s : Analysis.Source => Typing.ofResult_blames hrooted s.site s.tree)
      sources [] _ htypes
  rcases bind_eq_error h with hlowered | ⟨_, -, h⟩
  · rw [Analysis.lowerAll_eq] at hlowered
    rcases hplans : Analysis.planAll sc sources with e | plans <;> rw [hplans] at hlowered <;>
      cases hlowered
    exact Analysis.mapM_blames (fun s _ => Scope.plan_blames hrooted s.site) hplans
  · cases h

end LinkedTables
