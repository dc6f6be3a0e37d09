import LinkedTables.Flow.Order
import LinkedTables.Proofs.Data.Loops
import LinkedTables.Proofs.Data.Ordered
import LinkedTables.Proofs.Flow.Slots

/-!
# Which graphs have an order of evaluation

A slot may be rewired to read any other one, so slots can rest on themselves. A walk from a slot ends
in one of two ways (`visit_ends`): it places what the slot rests on and that was not placed before, in
an order of evaluation (`Placed`), or it finds a slot on a cycle that the slot rests on. It never
finds a cycle where there is none, since the slots being walked all lead to the one that is walked
next (`Walking`); and it misses none, since what is placed in order rests on no cycle.

The slots being walked are distinct, so a walk goes no deeper than the graph has slots, and more fuel
than that changes nothing (`visit_of_le`).

So the order of some outputs is decided by the first output that does not exist or rests on a cycle;
without one, it is made of the slots that the outputs need (`order_exact`). In a sound graph a slot
reads slots before it, and there are no cycles (`order_ok`).
-/

namespace LinkedTables

namespace SlotGraph

/-- Slots in an order of evaluation: each once, and after those that it reads. -/
structure Placed (g : SlotGraph) (placed : List SlotId) : Prop where
  nodup : placed.Nodup
  lt : ∀ i ∈ placed, i < g.size
  after : ∀ before i rest, placed = before ++ i :: rest → ∀ j ∈ g.parents i, j ∈ before

theorem placed_nil (g : SlotGraph) : g.Placed [] := ⟨by simp, by simp, by simp⟩

theorem Placed.inOrder {g : SlotGraph} {placed : List SlotId} (h : g.Placed placed) :
    InOrder (fun a b => b ∈ g.parents a) placed := h.after

/-- A slot can be placed behind those that it reads. -/
theorem placed_append {g : SlotGraph} {placed : List SlotId} {i : SlotId} (h : g.Placed placed)
    (hi : i < g.size) (hnew : i ∉ placed) (hread : ∀ j ∈ g.parents i, j ∈ placed) :
    g.Placed (placed ++ [i]) := by
  refine ⟨List.nodup_append.2 ⟨h.nodup, by simp, ?_⟩, ?_, h.inOrder.concat hread⟩
  · rintro a ha b hb rfl
    exact hnew (List.mem_singleton.1 hb ▸ ha)
  · simp only [List.mem_append, List.mem_singleton]
    rintro k (hk | rfl)
    · exact h.lt k hk
    · exact hi

/-- Outputs rest on the slots that they read, on those that these read, and so on. -/
def Needed (g : SlotGraph) (outputs : List SlotId) (i : SlotId) : Prop :=
  ∃ o ∈ outputs, Relation.ReflTransGen (fun a b => b ∈ g.parents a) o i

theorem Needed.mono {g : SlotGraph} {outputs outputs' : List SlotId} {i : SlotId}
    (h : g.Needed outputs i) (hsub : ∀ o ∈ outputs, o ∈ outputs') : g.Needed outputs' i := by
  obtain ⟨o, ho, hreads⟩ := h
  exact ⟨o, hsub o ho, hreads⟩

/-- A slot needs what the slots need that it reads. -/
theorem Needed.of_parents {g : SlotGraph} {i k : SlotId} (h : g.Needed (g.parents i) k) :
    g.Needed [i] k := by
  obtain ⟨j, hj, hreads⟩ := h
  exact ⟨i, List.mem_singleton_self i, .head hj hreads⟩

/-- A slot rests on itself. -/
def OnCycle (g : SlotGraph) (i : SlotId) : Prop :=
  Relation.TransGen (fun a b => b ∈ g.parents a) i i

/-- A slot is on a cycle or rests on one. -/
def NeedsCycle (g : SlotGraph) (i : SlotId) : Prop := ∃ c, g.Needed [i] c ∧ g.OnCycle c

/-- The slots that are read are there. -/
def Wired (g : SlotGraph) : Prop := ∀ i < g.size, ∀ j ∈ g.parents i, j < g.size

/-- What is placed in order rests on no cycle. -/
theorem Placed.not_needsCycle {g : SlotGraph} {placed : List SlotId} (h : g.Placed placed)
    {i : SlotId} (hi : i ∈ placed) : ¬ g.NeedsCycle i := by
  rintro ⟨c, ⟨o, ho, hreads⟩, hcycle⟩
  obtain rfl := List.mem_singleton.1 ho
  exact h.inOrder.not_cyclic h.nodup (h.inOrder.mem_of_leads hi hreads) hcycle

section Walk

variable {g : SlotGraph} {open_ : List SlotId}

/-- Slots that are being walked when a slot is met: they are distinct, and all of them rest on it. -/
structure Walking (g : SlotGraph) (open_ : List SlotId) (i : SlotId) : Prop where
  nodup : open_.Nodup
  lt : ∀ j ∈ open_, j < g.size
  rests : ∀ j ∈ open_, Relation.TransGen (fun a b => b ∈ g.parents a) j i

theorem walking_nil (g : SlotGraph) (i : SlotId) : g.Walking [] i := ⟨by simp, by simp, by simp⟩

theorem Walking.length_le {i : SlotId} (h : g.Walking open_ i) : open_.length ≤ g.size := by
  have hsub : open_ ⊆ List.range g.size := fun j hj => List.mem_range.2 (h.lt j hj)
  simpa using (List.subperm_of_subset h.nodup hsub).length_le

theorem Walking.parent {i j : SlotId} (h : g.Walking open_ i) (hi : i < g.size) (hnew : i ∉ open_)
    (hj : j ∈ g.parents i) :
    g.Walking (i :: open_) j where
  nodup := List.nodup_cons.2 ⟨hnew, h.nodup⟩
  lt := List.forall_mem_cons.2 ⟨hi, h.lt⟩
  rests := List.forall_mem_cons.2 ⟨.single hj, fun k hk => (h.rests k hk).tail hj⟩

/-- What walks from some slots have placed: these slots and what they need, nothing else, and nothing
that is still being walked. -/
structure Walked (g : SlotGraph) (open_ placed tops placed' : List SlotId) : Prop where
  ordered : g.Placed placed'
  keeps : ∀ i ∈ placed, i ∈ placed'
  reached : ∀ i ∈ tops, i ∈ placed'
  needed : ∀ i ∈ placed', i ∈ placed ∨ g.Needed tops i ∧ i ∉ open_

/-- How walks from some slots end: they place what the slots need, or find a cycle that one of the
slots rests on. -/
def Ends (g : SlotGraph) (open_ placed tops : List SlotId) (r : Except OrderFault (List SlotId)) :
    Prop :=
  (∃ placed', r = .ok placed' ∧ g.Walked open_ placed tops placed') ∨
    ∃ c, r = .error (.cycle c) ∧ g.Needed tops c ∧ g.OnCycle c

theorem Walked.cons {placed mid last tops : List SlotId} {j : SlotId}
    (h : g.Walked open_ placed [j] mid) (h' : g.Walked open_ mid tops last) :
    g.Walked open_ placed (j :: tops) last where
  ordered := h'.ordered
  keeps i hi := h'.keeps i (h.keeps i hi)
  reached := List.forall_mem_cons.2 ⟨h'.keeps j (h.reached j List.mem_cons_self), h'.reached⟩
  needed i hi := by
    rcases h'.needed i hi with hi | ⟨hneeded, hclosed⟩
    · exact (h.needed i hi).imp_right (And.imp_left fun hneeded => hneeded.mono (by simp))
    · exact Or.inr ⟨hneeded.mono fun o => List.mem_cons_of_mem j, hclosed⟩

/-- A slot is placed behind what was placed for its parents. -/
theorem Walked.top {placed done : List SlotId} {i : SlotId} (hi : i < g.size) (hnew : i ∉ placed)
    (hclosed : i ∉ open_) (h : g.Walked (i :: open_) placed (g.parents i) done) :
    g.Walked open_ placed [i] (done ++ [i]) where
  ordered := by
    refine placed_append h.ordered hi (fun hmem => ?_) h.reached
    -- the slot was being walked meanwhile, so no walk from a parent placed it
    exact (h.needed i hmem).elim hnew fun hopened => hopened.2 List.mem_cons_self
  keeps j hj := List.mem_append_left _ (h.keeps j hj)
  reached := by simp
  needed j hj := by
    rcases List.mem_append.1 hj with hj | hj
    · exact (h.needed j hj).imp_right
        (And.imp Needed.of_parents fun hopen hmem => hopen (List.mem_cons_of_mem i hmem))
    · obtain rfl := List.mem_singleton.1 hj
      exact Or.inr ⟨⟨j, List.mem_singleton_self j, .refl⟩, hclosed⟩

/-- Walks one after the other end as each of them does. -/
theorem foldlM_ends {step : SlotId → List SlotId → Except OrderFault (List SlotId)} :
    ∀ {js placed : List SlotId}, (∀ j ∈ js, ∀ placed, g.Placed placed →
      g.Ends open_ placed [j] (step j placed)) → g.Placed placed →
      g.Ends open_ placed js (js.foldlM (fun done j => step j done) placed)
  | [], placed, _, h => Or.inl ⟨placed, rfl, h, fun _ hi => hi, by simp, fun _ hi => Or.inl hi⟩
  | j :: js, placed, hstep, h => by
    rw [List.foldlM_cons]
    obtain ⟨mid, hmid, hwalked⟩ | ⟨c, hc, hneeded, hcycle⟩ := hstep j List.mem_cons_self placed h
    · rw [hmid]
      refine (foldlM_ends (fun k hk => hstep k (List.mem_cons_of_mem j hk)) hwalked.ordered).imp ?_ ?_
      · rintro ⟨last, hlast, hrest⟩
        exact ⟨last, hlast, hwalked.cons hrest⟩
      · rintro ⟨c, hc, hneeded, hcycle⟩
        exact ⟨c, hc, hneeded.mono fun o => List.mem_cons_of_mem j, hcycle⟩
    · rw [hc]
      exact Or.inr ⟨c, rfl, hneeded.mono (by simp), hcycle⟩

/-- How a walk from a slot ends. -/
theorem visit_ends (hg : g.Wired) : ∀ (fuel : Nat) {open_ : List SlotId}
    {i : SlotId} {placed : List SlotId}, i < g.size → g.Walking open_ i →
    g.size < fuel + open_.length → g.Placed placed →
    g.Ends open_ placed [i] (visit g fuel open_ i placed)
  | 0, open_, i, _, _, hwalking, hfuel, _ => absurd hwalking.length_le (by omega)
  | fuel + 1, open_, i, placed, hi, hwalking, hfuel, h => by
    rw [visit]
    split_ifs with hplaced hopened
    · exact Or.inl ⟨placed, rfl, h, fun _ hj => hj, by simpa using hplaced, fun _ hj => Or.inl hj⟩
    · exact Or.inr ⟨i, rfl, ⟨i, List.mem_singleton_self i, .refl⟩,
        hwalking.rests i (by simpa using hopened)⟩
    · have hclosed : i ∉ open_ := by simpa using hopened
      have hparents : g.Ends (i :: open_) placed (g.parents i)
          ((g.parents i).foldlM (fun done j => visit g fuel (i :: open_) j done) placed) :=
        foldlM_ends (fun j hj placed hplaced => visit_ends hg fuel (hg i hi j hj)
          (hwalking.parent hi hclosed hj) (by rw [List.length_cons]; omega) hplaced) h
      obtain ⟨done, hdone, hwalked⟩ | ⟨c, hc, hneeded, hcycle⟩ := hparents
      · rw [hdone]
        exact Or.inl ⟨_, rfl, hwalked.top hi (by simpa using hplaced) hclosed⟩
      · rw [hc]
        exact Or.inr ⟨c, rfl, hneeded.of_parents, hcycle⟩

/-- Fuel beyond the number of slots changes nothing. -/
theorem visit_of_le (hg : g.Wired) : ∀ {fuel fuel' : Nat} {open_ : List SlotId}
    {i : SlotId} {placed : List SlotId}, i < g.size → g.Walking open_ i →
    g.size < fuel + open_.length → fuel ≤ fuel' →
    visit g fuel' open_ i placed = visit g fuel open_ i placed
  | 0, _, _, _, _, _, hwalking, hfuel, _ => absurd hwalking.length_le (by omega)
  | fuel + 1, 0, _, _, _, _, _, _, hle => absurd hle (by omega)
  | fuel + 1, fuel' + 1, open_, i, placed, hi, hwalking, hfuel, hle => by
    rw [visit, visit]
    split_ifs with hplaced hopened
    · rfl
    · rfl
    · rw [foldlM_congr fun j hj done => visit_of_le hg (hg i hi j hj)
        (hwalking.parent hi (by simpa using hopened) hj) (by rw [List.length_cons]; omega)
        (Nat.le_of_succ_le_succ hle)]

end Walk

section Outputs

variable {g : SlotGraph}

/-- The walk from one output. -/
def visitOutput (g : SlotGraph) (fuel : Nat) (placed : List SlotId) (o : SlotId) :
    Except OrderFault (List SlotId) :=
  if g.size ≤ o then .error (.missingOutput o) else visit g fuel [] o placed

theorem order_eq (g : SlotGraph) (outputs : List SlotId) :
    g.order outputs = outputs.foldlM (g.visitOutput (g.size + 1)) [] := rfl

theorem visitOutput_of_le (hg : g.Wired) {fuel : Nat} (hfuel : g.size < fuel) (o : SlotId)
    (placed : List SlotId) :
    g.visitOutput fuel placed o = g.visitOutput (g.size + 1) placed o := by
  rw [visitOutput, visitOutput]
  split_ifs with hmissing
  · rfl
  · exact visit_of_le hg (not_le.1 hmissing) (walking_nil g o) (by simp) hfuel

theorem visitOutput_ends (hg : g.Wired) {o : SlotId} (ho : o < g.size) {placed : List SlotId}
    (h : g.Placed placed) :
    g.Ends [] placed [o] (g.visitOutput (g.size + 1) placed o) := by
  rw [visitOutput, if_neg (not_le.2 ho)]
  exact visit_ends hg _ ho (walking_nil g o) (by simp) h

/-- Outputs that are there and rest on no cycle have an order of evaluation. -/
theorem order_walked (hg : g.Wired) {outputs : List SlotId}
    (h : ∀ o ∈ outputs, o < g.size ∧ ¬ g.NeedsCycle o) :
    ∃ placed, g.order outputs = .ok placed ∧ g.Walked [] [] outputs placed := by
  have hends : g.Ends [] [] outputs (g.order outputs) :=
    foldlM_ends (fun o ho placed hplaced => visitOutput_ends hg (h o ho).1 hplaced) (placed_nil g)
  refine hends.resolve_right ?_
  rintro ⟨c, -, ⟨o, ho, hreads⟩, hcycle⟩
  exact (h o ho).2 ⟨c, ⟨o, List.mem_singleton_self o, hreads⟩, hcycle⟩

/-- What is placed for outputs is what they need. -/
theorem Walked.mem_iff {outputs placed : List SlotId} (h : g.Walked [] [] outputs placed)
    (i : SlotId) : i ∈ placed ↔ g.Needed outputs i := by
  refine ⟨fun hi => ((h.needed i hi).resolve_left List.not_mem_nil).1, ?_⟩
  rintro ⟨o, ho, hreads⟩
  exact h.ordered.inOrder.mem_of_leads (h.reached o ho) hreads

/-- The walks stop at the first output that is not there or rests on a cycle. -/
theorem order_stops (hg : g.Wired) {before : List SlotId}
    (h : ∀ p ∈ before, p < g.size ∧ ¬ g.NeedsCycle p) (o : SlotId) (after : List SlotId) :
    (g.size ≤ o → g.order (before ++ o :: after) = .error (.missingOutput o)) ∧
    (o < g.size → g.NeedsCycle o → ∃ c, g.order (before ++ o :: after) = .error (.cycle c) ∧
      g.Needed [o] c ∧ g.OnCycle c) := by
  obtain ⟨placed, hplaced, hwalked⟩ := order_walked hg h
  have hsplit : g.order (before ++ o :: after) =
      g.visitOutput (g.size + 1) placed o >>= after.foldlM (g.visitOutput (g.size + 1)) := by
    rw [order_eq, List.foldlM_append, ← order_eq, hplaced]
    rfl
  rw [hsplit]
  refine ⟨fun hmissing => by rw [visitOutput, if_pos hmissing]; rfl, fun ho hneeds => ?_⟩
  obtain ⟨done, -, hdone⟩ | ⟨c, hc, hcycle⟩ := visitOutput_ends hg ho hwalked.ordered
  · exact absurd hneeds (hdone.ordered.not_needsCycle (hdone.reached o List.mem_cons_self))
  · exact ⟨c, by rw [hc]; rfl, hcycle⟩

/-- If not all outputs are as they should be then there is a first one that is not. -/
theorem exists_first {P : SlotId → Prop} {outputs : List SlotId} (h : ¬ ∀ o ∈ outputs, P o) :
    ∃ before o after, outputs = before ++ o :: after ∧ (∀ p ∈ before, P p) ∧ ¬ P o := by
  classical
  have hsome : (outputs.find? fun o => !decide (P o)).isSome := by
    simpa [List.find?_isSome] using h
  obtain ⟨o, ho⟩ := Option.isSome_iff_exists.1 hsome
  obtain ⟨hbad, before, after, rfl, hgood⟩ := List.find?_eq_some_iff_append.1 ho
  exact ⟨before, o, after, rfl, by simpa using hgood, by simpa using hbad⟩

/-- The order of outputs over a graph whose slots read slots that are there, cycles included. The walks
need no more fuel than they are given. They fail exactly if some output does not exist or rests on
a cycle, and the first such output decides how: with its number if it does not exist, else with a
slot that it needs and that is on a cycle. Otherwise the slots that the outputs need are given, each
once, after all slots that it reads, and no others. -/
theorem order_exact {g : SlotGraph} (hg : g.Wired) (outputs : List SlotId) :
    (∀ fuel, g.size < fuel → outputs.foldlM (g.visitOutput fuel) [] = g.order outputs) ∧
    ((∃ f, g.order outputs = .error f) ↔ ∃ o ∈ outputs, g.size ≤ o ∨ g.NeedsCycle o) ∧
    (∀ before o after, outputs = before ++ o :: after →
      (∀ p ∈ before, p < g.size ∧ ¬ g.NeedsCycle p) →
        (g.size ≤ o → g.order outputs = .error (.missingOutput o)) ∧
        (o < g.size → g.NeedsCycle o → ∃ c, g.order outputs = .error (.cycle c) ∧
          g.Needed [o] c ∧ g.OnCycle c)) ∧
    ((∀ o ∈ outputs, o < g.size ∧ ¬ g.NeedsCycle o) → ∃ placed, g.order outputs = .ok placed ∧
      placed.Nodup ∧ (∀ i, i ∈ placed ↔ g.Needed outputs i) ∧
      ∀ before i rest, placed = before ++ i :: rest → ∀ j ∈ g.parents i, j ∈ before) := by
  have hbad : ∀ o, ¬ (o < g.size ∧ ¬ g.NeedsCycle o) ↔ g.size ≤ o ∨ g.NeedsCycle o := fun o => by
    rw [not_and_or, not_lt, not_not]
  refine ⟨fun fuel hfuel => ?_, ⟨?_, ?_⟩, ?_, fun h => ?_⟩
  · exact foldlM_congr fun o _ placed => visitOutput_of_le hg hfuel o placed
  · rintro ⟨f, hf⟩
    by_contra hnone
    have hgood : ∀ o ∈ outputs, o < g.size ∧ ¬ g.NeedsCycle o := fun o ho => by
      by_contra ho'
      exact hnone ⟨o, ho, (hbad o).1 ho'⟩
    obtain ⟨placed, hplaced, -⟩ := order_walked hg hgood
    rw [hplaced] at hf
    cases hf
  · rintro ⟨o, ho, hspoilt⟩
    obtain ⟨before, p, after, rfl, hgood, hp⟩ :=
      exists_first (P := fun o => o < g.size ∧ ¬ g.NeedsCycle o)
        fun hall => (hbad o).2 hspoilt (hall o ho)
    obtain ⟨hmissing, hcycle⟩ := order_stops hg hgood p after
    rcases lt_or_ge p g.size with hlt | hge
    · obtain ⟨c, hc, -⟩ := hcycle hlt (((hbad p).1 hp).resolve_left (not_le.2 hlt))
      exact ⟨_, hc⟩
    · exact ⟨_, hmissing hge⟩
  · rintro before o after rfl hgood
    exact order_stops hg hgood o after
  · obtain ⟨placed, hplaced, hwalked⟩ := order_walked hg h
    exact ⟨placed, hplaced, hwalked.ordered.nodup, hwalked.mem_iff, hwalked.ordered.after⟩

/-- A number from a column is added to a constant, and the row is made to read the column. -/
def looped : SlotGraph :=
  let rowAndColumn := (empty.row.2.load 0 0).2
  let sum := ((rowAndColumn.constantBits (Float.toBits 2)).2.apply (.binary .add) [2, 1]).2
  sum.rewire 0 1

/-- The constant rests on no cycle, the sum on that of the row and the column. Of the sum and an output
that does not exist, the first one decides. -/
theorem order_exact_looped : looped.Wired ∧
    (∃ c, looped.order [2, 3, 9] = .error (.cycle c) ∧ looped.OnCycle c) ∧
    looped.order [2, 9, 3] = .error (.missingOutput 9) ∧
    ∃ placed, looped.order [2] = .ok placed ∧ placed.Nodup ∧ ∀ i, i ∈ placed ↔ looped.Needed [2] i := by
  have hwired : looped.Wired := by unfold Wired; decide +kernel
  have hconstant : ¬ looped.NeedsCycle 2 := by
    have hnone : ∀ {b}, b ∉ looped.parents 2 := by simp [show looped.parents 2 = [] by decide +kernel]
    rintro ⟨c, ⟨o, ho, hreads⟩, hcycle⟩
    obtain rfl := List.mem_singleton.1 ho
    obtain rfl | ⟨b, hb, -⟩ := hreads.cases_head
    · obtain ⟨b, hb, -⟩ := Relation.TransGen.head'_iff.1 hcycle
      exact hnone hb
    · exact hnone hb
  have hgood : ∀ p ∈ [2], p < looped.size ∧ ¬ looped.NeedsCycle p := by
    simpa using ⟨by decide +kernel, hconstant⟩
  have hsum : looped.NeedsCycle 3 :=
    ⟨1, ⟨3, by simp, .single (by decide +kernel)⟩,
      .tail (.single (b := 0) (by decide +kernel)) (by decide +kernel)⟩
  obtain ⟨-, -, hstops, -⟩ := order_exact hwired [2, 3, 9]
  obtain ⟨c, hc, -, hcycle⟩ := (hstops [2] 3 [9] rfl hgood).2 (by decide +kernel) hsum
  obtain ⟨-, -, hstops', -⟩ := order_exact hwired [2, 9, 3]
  obtain ⟨-, -, -, hplaced⟩ := order_exact hwired [2]
  obtain ⟨placed, hok, hnodup, hmem, -⟩ := hplaced hgood
  exact ⟨hwired, ⟨c, hc, hcycle⟩, (hstops' [2] 9 [3] rfl hgood).1 (by decide +kernel), placed, hok,
    hnodup, hmem⟩

end Outputs

section Sound

variable {g : SlotGraph}

theorem Sound.parents_lt (hg : g.Sound) {i j : SlotId} (hj : j ∈ g.parents i) : j < i := by
  rcases hs : g.slots[i]? with _ | s
  · have hnone : g.parents i = [] := by simp [parents, hg.wires, Array.getElem?_eq_none_iff.1 hs]
    exact absurd hj (by simp [hnone])
  · rw [parents_eq hg hs] at hj
    exact (hg.fits i s hs).args j hj

theorem Sound.wired (hg : g.Sound) : g.Wired := fun _ hi _ hj =>
  (hg.parents_lt hj).trans hi

theorem Sound.not_needsCycle (hg : g.Sound) (i : SlotId) : ¬ g.NeedsCycle i := by
  rintro ⟨c, -, hcycle⟩
  have hdown : ∀ {a b}, Relation.TransGen (fun a b => b ∈ g.parents a) a b → b < a := fun h => by
    induction h with
    | single hread => exact hg.parents_lt hread
    | tail _ hread ih => exact (hg.parents_lt hread).trans ih
  exact lt_irrefl c (hdown hcycle)

/-- The outputs of a sound graph have an order of evaluation of all slots that they need, and of no
others. -/
theorem order_ok (hg : g.Sound) {outputs : List SlotId} (h : ∀ i ∈ outputs, i < g.size) :
    ∃ placed, g.order outputs = .ok placed ∧ g.Placed placed ∧ (∀ i ∈ outputs, i ∈ placed) ∧
      ∀ i, i ∈ placed ↔ g.Needed outputs i := by
  obtain ⟨placed, hplaced, hwalked⟩ := order_walked hg.wired fun o ho =>
    ⟨h o ho, hg.not_needsCycle o⟩
  exact ⟨placed, hplaced, hwalked.ordered, hwalked.reached, hwalked.mem_iff⟩

end Sound

end SlotGraph

end LinkedTables
