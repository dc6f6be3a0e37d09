import LinkedTables.Links.Paths
import LinkedTables.Proofs.Data.Ordered
import LinkedTables.Proofs.Links.Sample

/-!
# What the path to a table is made of

The path to a table is found by going backwards along links. A link is seen before the links in front
of it are placed, so a link can be seen and not placed: then it is being walked, and the table that is
come to leads to its source (`Comes`). Were it met again there, a walk would return to its start, which
no graph that is built step by step allows. So each link that is met is placed, or was placed before
(`collect_collected`), and nothing but links on walks into the table is placed (`Collected`).

Behind a table there are fewer tables than there are behind the tables it leads to, so the number of
tables is fuel enough (`collect_of_le`). The path to a table of a graph that was built has every link
on a walk into the table, once, and after all links into the table it starts from (`path_exact`).
-/

namespace LinkedTables

namespace LinkGraph

/-- The second link leads into the table that the first one starts from. -/
def Follows (g : LinkGraph) (i j : Nat) : Prop :=
  ∃ l m, g.links[i]? = some l ∧ g.links[j]? = some m ∧ m.targetTable = l.sourceTable

/-- A link is on a walk that ends in a table. -/
def OnWalk (g : LinkGraph) (table : String) (i : Nat) : Prop :=
  ∃ l, g.links[i]? = some l ∧ Leads g.links l.targetTable table

/-- The numbers of the links into a table. -/
def numbersInto (g : LinkGraph) (table : String) : List Nat := (g.numberedInto table).map Prod.fst

/-- A state in which a table is come to: what was placed is in order, and what was seen and not placed
is being walked, from tables that the table leads to. -/
structure Comes (g : LinkGraph) (table : String) (s : PathState) : Prop where
  nodup : s.path.Nodup
  inOrder : InOrder g.Follows s.path
  seen : ∀ i ∈ s.path, i ∈ s.seen
  walked : ∀ i ∈ s.seen, i ∈ s.path ∨ ∃ l, g.links[i]? = some l ∧ Leads g.links table l.sourceTable

/-- What becomes of a state when links into a table are met: they are placed, with links on walks into
the table that were not seen before, and with nothing else. -/
structure Collected (g : LinkGraph) (table : String) (into : List Nat) (s s' : PathState) : Prop where
  nodup : s'.path.Nodup
  inOrder : InOrder g.Follows s'.path
  seen : ∀ i, i ∈ s'.seen ↔ i ∈ s.seen ∨ i ∈ s'.path
  keeps : ∀ i ∈ s.path, i ∈ s'.path
  reached : ∀ i ∈ into, i ∈ s'.path
  new : ∀ i ∈ s'.path, i ∈ s.path ∨ i ∉ s.seen ∧ g.OnWalk table i

variable {g : LinkGraph} {table : String} {s s' : PathState}

theorem mem_numberedInto {i : Nat} {l : Link} :
    (i, l) ∈ g.numberedInto table ↔ g.links[i]? = some l ∧ l.targetTable = table := by
  simp [numberedInto, List.mem_zipIdx_iff_getElem?]

theorem mem_numbersInto {i : Nat} :
    i ∈ g.numbersInto table ↔ ∃ l, g.links[i]? = some l ∧ l.targetTable = table := by
  simp [numbersInto, mem_numberedInto]

/-- What is on a walk to the source of a link is on one to its target. -/
theorem OnWalk.tail {l : Link} {i : Nat} (h : g.OnWalk l.sourceTable i) (hl : l ∈ g.links) :
    g.OnWalk l.targetTable i := by
  obtain ⟨m, hm, hleads⟩ := h
  exact ⟨m, hm, hleads.tail (linked_of_mem hl)⟩

theorem comes_empty (g : LinkGraph) (table : String) : g.Comes table ⟨[], []⟩ :=
  ⟨by simp, inOrder_nil, by simp, by simp⟩

theorem Collected.refl (h : g.Comes table s) : g.Collected table [] s s :=
  ⟨h.nodup, h.inOrder, fun i => by simpa using h.seen i, fun _ hi => hi, by simp,
    fun _ hi => Or.inl hi⟩

/-- The table is come to again with what was collected. -/
theorem Collected.comes {into : List Nat} (h : g.Comes table s)
    (h' : g.Collected table into s s') : g.Comes table s' where
  nodup := h'.nodup
  inOrder := h'.inOrder
  seen i hi := (h'.seen i).2 (Or.inr hi)
  walked i hi := ((h'.seen i).1 hi).elim (fun hi => (h.walked i hi).imp_left (h'.keeps i)) Or.inl

theorem Collected.cons {mid last : PathState} {i : Nat} {into : List Nat}
    (h : g.Collected table [i] s mid) (h' : g.Collected table into mid last) :
    g.Collected table (i :: into) s last where
  nodup := h'.nodup
  inOrder := h'.inOrder
  seen k := by
    rw [h'.seen, h.seen, or_assoc]
    exact or_congr_right (or_iff_right_of_imp (h'.keeps k))
  keeps k hk := h'.keeps k (h.keeps k hk)
  reached := List.forall_mem_cons.2 ⟨h'.keeps i (h.reached i List.mem_cons_self), h'.reached⟩
  new k hk := by
    rcases h'.new k hk with hk | ⟨hunseen, hwalk⟩
    · exact h.new k hk
    · exact Or.inr ⟨fun hseen => hunseen ((h.seen k).2 (Or.inl hseen)), hwalk⟩

/-- A link that is not seen is placed behind what is placed for the table it starts from. -/
theorem Collected.top {l : Link} {i : Nat} (hi : g.links[i]? = some l) (hnew : i ∉ s.seen)
    (hpath : i ∉ s.path) (h : g.Collected l.sourceTable (g.numbersInto l.sourceTable)
      { s with seen := i :: s.seen } s') :
    g.Collected l.targetTable [i] s { s' with path := s'.path ++ [i] } where
  nodup := by
    refine List.nodup_append.2 ⟨h.nodup, by simp, ?_⟩
    rintro k hk _ hi' rfl
    obtain rfl := List.mem_singleton.1 hi'
    exact (h.new k hk).elim hpath fun hunseen => hunseen.1 List.mem_cons_self
  inOrder := by
    refine h.inOrder.concat ?_
    rintro j ⟨l', m, hl', hm, htarget⟩
    obtain rfl := Option.some.inj (hi.symm.trans hl')
    exact h.reached j (mem_numbersInto.2 ⟨m, hm, htarget⟩)
  seen k := by
    simp only [h.seen, List.mem_cons, List.mem_append, List.not_mem_nil, or_false]
    tauto
  keeps k hk := List.mem_append_left _ (h.keeps k hk)
  reached := by simp
  new k hk := by
    rcases List.mem_append.1 hk with hk | hk
    · exact (h.new k hk).imp_right (And.imp (fun hunseen hseen => hunseen (List.mem_cons_of_mem i hseen))
        fun hwalk => hwalk.tail (List.mem_of_getElem? hi))
    · obtain rfl := List.mem_singleton.1 hk
      exact Or.inr ⟨hnew, l, hi, .refl⟩

/-- The source of a link is come to when the link is seen. -/
theorem Comes.source {l : Link} {i : Nat} (hi : g.links[i]? = some l)
    (h : g.Comes l.targetTable s) : g.Comes l.sourceTable { s with seen := i :: s.seen } where
  nodup := h.nodup
  inOrder := h.inOrder
  seen k hk := List.mem_cons_of_mem i (h.seen k hk)
  walked := by
    refine List.forall_mem_cons.2 ⟨Or.inr ⟨l, hi, .refl⟩, fun k hk => (h.walked k hk).imp_right ?_⟩
    rintro ⟨m, hm, hleads⟩
    exact ⟨m, hm, hleads.head (linked_of_mem (List.mem_of_getElem? hi))⟩

/-- Without cycles no link is met while it is being walked. -/
theorem Comes.mem_path {l : Link} {i : Nat} (hg : Acyclic g.links) (hi : g.links[i]? = some l)
    (h : g.Comes l.targetTable s) (hseen : i ∈ s.seen) : i ∈ s.path := by
  refine (h.walked i hseen).resolve_right ?_
  rintro ⟨m, hm, hleads⟩
  obtain rfl := Option.some.inj (hi.symm.trans hm)
  exact hg l (List.mem_of_getElem? hi) hleads

/-- Links are met one after the other. -/
theorem foldl_collected {step : PathState → Nat × Link → PathState} :
    ∀ {ls : List (Nat × Link)} {s : PathState}, (∀ p ∈ ls, ∀ s, g.Comes table s →
      g.Collected table [p.1] s (step s p)) → g.Comes table s →
      g.Collected table (ls.map Prod.fst) s (ls.foldl step s)
  | [], _, _, h => .refl h
  | p :: ls, s, hstep, h => by
    have hfirst := hstep p List.mem_cons_self s h
    exact hfirst.cons (foldl_collected (fun q hq => hstep q (List.mem_cons_of_mem p hq))
      (hfirst.comes h))

/-- What is collected for a table, given fuel for all tables that lead to it. -/
theorem collect_collected (hv : g.Valid) : ∀ (fuel : Nat) {table : String} {s : PathState},
    table ∈ g.names → g.rank table ≤ fuel → g.Comes table s →
    g.Collected table (g.numbersInto table) s (collect g fuel table s)
  | 0, _, _, htable, hfuel, _ => absurd (rank_pos htable) (by omega)
  | fuel + 1, table, s, htable, hfuel, h => by
    rw [collect]
    refine foldl_collected (fun p hp s h => ?_) h
    obtain ⟨i, l⟩ := p
    obtain ⟨hi, rfl⟩ := mem_numberedInto.1 hp
    have hl := List.mem_of_getElem? hi
    dsimp only
    split_ifs with hseen
    · have hplaced : i ∈ s.path := h.mem_path hv.acyclic hi (by simpa using hseen)
      exact ⟨h.nodup, h.inOrder, fun k => by simpa using h.seen k, fun _ hk => hk, by simpa,
        fun _ hk => Or.inl hk⟩
    · have hunseen : i ∉ s.seen := by simpa using hseen
      have hrank := rank_lt hv.acyclic hl htable
      exact (collect_collected hv fuel (hv.source_mem_names l hl) (by omega) (h.source hi)).top hi
        hunseen fun hpath => hunseen (h.seen i hpath)

/-- Fuel beyond the number of tables that lead to a table changes nothing. -/
theorem collect_of_le (hv : g.Valid) : ∀ {fuel fuel' : Nat} {table : String} (s : PathState),
    table ∈ g.names → g.rank table ≤ fuel → fuel ≤ fuel' →
    collect g fuel' table s = collect g fuel table s
  | 0, _, _, _, htable, hfuel, _ => absurd (rank_pos htable) (by omega)
  | fuel + 1, 0, _, _, _, _, hle => absurd hle (by omega)
  | fuel + 1, fuel' + 1, table, s, htable, hfuel, hle => by
    rw [collect, collect]
    refine List.foldl_ext _ _ s fun s p hp => ?_
    obtain ⟨i, l⟩ := p
    obtain ⟨hi, rfl⟩ := mem_numberedInto.1 hp
    have hl := List.mem_of_getElem? hi
    have hrank := rank_lt hv.acyclic hl htable
    dsimp only
    rw [collect_of_le hv _ (hv.source_mem_names l hl) (by omega) (Nat.le_of_succ_le_succ hle)]

/-- What is collected for a table from nothing are the links on walks into it. -/
theorem Collected.mem_iff {path : List Nat} {seen : List Nat}
    (h : g.Collected table (g.numbersInto table) ⟨[], []⟩ ⟨seen, path⟩) (i : Nat) :
    i ∈ path ↔ g.OnWalk table i := by
  refine ⟨fun hi => ((h.new i hi).resolve_left List.not_mem_nil).2, ?_⟩
  rintro ⟨l, hi, hleads⟩
  -- the links behind are placed before those in front of them, so the walk is taken from its end
  obtain ⟨t, ht⟩ : ∃ t, l.targetTable = t := ⟨_, rfl⟩
  rw [ht] at hleads
  induction hleads using Relation.ReflTransGen.head_induction_on generalizing i l with
  | refl => exact h.reached i (mem_numbersInto.2 ⟨l, hi, ht⟩)
  | head hlinked _ ih =>
    obtain ⟨m, hm, hsource, htarget⟩ := hlinked
    obtain ⟨j, hj⟩ := List.mem_iff_getElem?.1 hm
    have hplaced : j ∈ path := ih j m hj htarget
    exact h.inOrder.mem_of_leads hplaced (.single ⟨m, l, hj, hi, ht.trans hsource.symm⟩)

/-- The path to a table of a graph that was built is made of the links on walks that end in the table,
each once, and each after all links into the table that it starts from. More fuel finds no other. -/
theorem path_exact (hg : g.Built) (htable : table ∈ g.names) :
    ∃ path, g.path table = .ok path ∧ path.Nodup ∧ (∀ i, i ∈ path ↔ g.OnWalk table i) ∧
      InOrder g.Follows path ∧
      ∀ fuel, g.tables.length < fuel → (collect g fuel table ⟨[], []⟩).path = path := by
  have hv := hg.valid
  have hfuel : g.rank table ≤ g.tables.length + 1 := (g.rank_le table).trans (Nat.le_succ _)
  have hcollected := collect_collected hv _ htable hfuel (comes_empty g table)
  refine ⟨_, if_pos (hasTable_iff.2 htable), hcollected.nodup, hcollected.mem_iff,
    hcollected.inOrder, fun fuel hle => ?_⟩
  rw [collect_of_le hv _ htable hfuel hle]

end LinkGraph

namespace Sample

/-- A table that two others lead to, one of them along two links to the other. -/
def diamond : LinkGraph := GraphCall.made [
  .addTable "t" (((BuiltDataset.empty.dim "r" (.range 2)).var "p" ["r"] (.numbers #[0, 1])).var
    "q" ["r"] (.numbers #[1, 0])),
  .addTable "u" (((BuiltDataset.empty.dim "a" (.range 2)).dim "b" (.range 2)).var
    "v" ["a"] (.numbers #[0, 0])),
  .addTable "w" ((BuiltDataset.empty.dim "c" (.range 1)).dim "d" (.range 2)),
  .addLinkText "u.v -> w.c",
  .addLinkText "t.q -> w.d",
  .addLinkText "t.p -> u.a",
  .addLinkText "t.q -> u.b"]

end Sample

namespace LinkGraph

/-- The two links into `u` come before the link from `u`, although they were added after it. -/
theorem path_exact_diamond : Sample.diamond.Built ∧ "w" ∈ Sample.diamond.names ∧
    Sample.diamond.path "w" = .ok [2, 3, 0, 1] ∧ InOrder Sample.diamond.Follows [2, 3, 0, 1] := by
  have hbuilt : Sample.diamond.Built := GraphCall.made_built _
  have htable : "w" ∈ Sample.diamond.names := by decide +kernel
  have hpath : Sample.diamond.path "w" = .ok [2, 3, 0, 1] := eq_ok_of_toOption (by decide +kernel)
  obtain ⟨path, h, -, -, hinOrder, -⟩ := path_exact hbuilt htable
  obtain rfl := Except.ok.inj (hpath.symm.trans h)
  exact ⟨hbuilt, htable, hpath, hinOrder⟩

end LinkGraph

end LinkedTables
