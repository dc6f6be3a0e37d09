import LinkedTables.Links.Graph
import Mathlib

/-!
# Walks along links

A table leads to another exactly when a walk of links goes from the one to the other
(`leadsTo_iff`): each round of the search either finds nothing new, and then nothing is left to be
found, or one more table, and there are as many rounds as tables.

Without cycles the tables that lead to a table are more than those that lead to the source of a link
into it (`rank_lt`), so a walk backwards along links ends after as many steps as there are tables.
-/

namespace LinkedTables

namespace LinkGraph

/-- Some link goes from the one table to the other. -/
def Linked (links : List Link) (a b : String) : Prop :=
  ∃ l ∈ links, l.sourceTable = a ∧ l.targetTable = b

/-- A walk along links goes from the one table to the other. -/
abbrev Leads (links : List Link) : String → String → Prop := Relation.ReflTransGen (Linked links)

/-- No walk along links returns to its start. -/
def Acyclic (links : List Link) : Prop := ∀ l ∈ links, ¬ Leads links l.targetTable l.sourceTable

/-- No link leads out of a set of tables. -/
def Closed (links : List Link) (seen : List String) : Prop :=
  ∀ l ∈ links, l.sourceTable ∈ seen → l.targetTable ∈ seen

theorem linked_of_mem {links : List Link} {l : Link} (h : l ∈ links) :
    Linked links l.sourceTable l.targetTable := ⟨l, h, rfl, rfl⟩

section Round

theorem widen_cons (l : Link) (links : List Link) (seen : List String) :
    widen (l :: links) seen = widen links
      (if seen.contains l.sourceTable && !seen.contains l.targetTable then l.targetTable :: seen
      else seen) := rfl

theorem suffix_widen : ∀ (links : List Link) (seen : List String), seen <:+ widen links seen
  | [], seen => List.suffix_refl seen
  | l :: links, seen => by
    rw [widen_cons]
    refine List.IsSuffix.trans ?_ (suffix_widen links _)
    split_ifs
    · exact List.suffix_cons _ _
    · exact List.suffix_refl _

theorem nodup_widen : ∀ (links : List Link) {seen : List String}, seen.Nodup →
    (widen links seen).Nodup
  | [], _, h => h
  | l :: links, seen, h => by
    rw [widen_cons]
    refine nodup_widen links ?_
    split_ifs with hl
    · simp only [Bool.and_eq_true, Bool.not_eq_true', List.contains_eq_mem,
        decide_eq_false_iff_not] at hl
      exact List.nodup_cons.2 ⟨hl.2, h⟩
    · exact h

/-- What a round finds is one link away, or was found earlier in the round. -/
theorem mem_widen {links : List Link} : ∀ {ls : List Link} {seen : List String} {b : String},
    (∀ l ∈ ls, l ∈ links) → b ∈ widen ls seen → ∃ a ∈ seen, Leads links a b
  | [], seen, b, _, h => ⟨b, h, .refl⟩
  | l :: ls, seen, b, hsub, h => by
    rw [widen_cons] at h
    obtain ⟨a, ha, hab⟩ := mem_widen (fun m hm => hsub m (List.mem_cons_of_mem _ hm)) h
    split_ifs at ha with hl
    · rcases List.mem_cons.1 ha with rfl | ha
      · simp only [Bool.and_eq_true, List.contains_iff_mem] at hl
        exact ⟨l.sourceTable, hl.1, .head (linked_of_mem (hsub l (by simp))) hab⟩
      · exact ⟨a, ha, hab⟩
    · exact ⟨a, ha, hab⟩

theorem target_mem_widen {l : Link} : ∀ {links : List Link} {seen : List String}, l ∈ links →
    l.sourceTable ∈ seen → l.targetTable ∈ widen links seen
  | m :: links, seen, h, hs => by
    rw [widen_cons]
    rcases List.mem_cons.1 h with rfl | h
    · refine (suffix_widen links _).mem ?_
      split_ifs with hl
      · simp
      · by_contra ht
        simp [hs, ht] at hl
    · refine target_mem_widen h ?_
      split_ifs
      · exact List.mem_cons_of_mem _ hs
      · exact hs

theorem widen_of_closed : ∀ {links : List Link} {seen : List String}, Closed links seen →
    widen links seen = seen
  | [], _, _ => rfl
  | l :: links, seen, h => by
    have hl : (seen.contains l.sourceTable && !seen.contains l.targetTable) = false := by
      by_contra hne
      simp only [Bool.not_eq_false, Bool.and_eq_true, List.contains_eq_mem, decide_eq_true_eq,
        Bool.not_eq_true', decide_eq_false_iff_not] at hne
      exact hne.2 (h l (by simp) hne.1)
    rw [widen_cons, hl]
    exact widen_of_closed fun m hm => h m (List.mem_cons_of_mem _ hm)

end Round

section Rounds

variable {links : List Link}

theorem closure_of_closed {seen : List String} (h : Closed links seen) :
    ∀ n, closure links n seen = seen
  | 0 => rfl
  | n + 1 => by rw [closure, widen_of_closed h, closure_of_closed h n]

theorem mem_closure_of_mem {a : String} : ∀ (n : Nat) {seen : List String},
    a ∈ seen → a ∈ closure links n seen
  | 0, _, h => h
  | n + 1, seen, h => mem_closure_of_mem n ((suffix_widen links seen).mem h)

theorem mem_closure : ∀ {n : Nat} {seen : List String} {b : String},
    b ∈ closure links n seen → ∃ a ∈ seen, Leads links a b
  | 0, _, b, h => ⟨b, h, .refl⟩
  | n + 1, seen, b, h => by
    obtain ⟨c, hc, hcb⟩ := mem_closure (n := n) h
    obtain ⟨a, ha, hac⟩ := mem_widen (fun _ hl => hl) hc
    exact ⟨a, ha, hac.trans hcb⟩

/-- Enough rounds leave nothing to be found: a round that finds nothing ends the search, and every
other one uses up a name. -/
theorem closed_closure {names : List String} (htargets : ∀ l ∈ links, l.targetTable ∈ names) :
    ∀ (n : Nat) {seen : List String},
    seen.Nodup → seen ⊆ names → names.length ≤ seen.length + n → Closed links (closure links n seen)
  | 0, seen, hnd, hsub, hlen => by
    have hperm := (List.subperm_of_subset hnd hsub).perm_of_length_le (by omega)
    exact fun l hl _ => hperm.mem_iff.2 (htargets l hl)
  | n + 1, seen, hnd, hsub, hlen => by
    by_cases hclosed : Closed links seen
    · rw [closure_of_closed hclosed]
      exact hclosed
    · simp only [Closed, not_forall] at hclosed
      obtain ⟨l, hl, hs, ht⟩ := hclosed
      have hmore : seen.length < (widen links seen).length := by
        refine lt_of_le_of_ne (suffix_widen links seen).length_le fun heq => ht ?_
        rw [(suffix_widen links seen).eq_of_length heq]
        exact target_mem_widen hl hs
      refine closed_closure htargets n (nodup_widen links hnd) (fun b hb => ?_) (by omega)
      obtain ⟨a, ha, hab⟩ := mem_widen (fun _ hm => hm) hb
      rcases hab.cases_tail with rfl | ⟨c, -, m, hm, -, rfl⟩
      · exact hsub ha
      · exact htargets m hm

theorem mem_of_leads {seen : List String} (h : Closed links seen) {a b : String} (ha : a ∈ seen)
    (hab : Leads links a b) : b ∈ seen := by
  induction hab with
  | refl => exact ha
  | tail _ hstep ih =>
    obtain ⟨l, hl, rfl, rfl⟩ := hstep
    exact h l hl ih

/-- The names of the tables. -/
def names (g : LinkGraph) : List String := g.tables.map Table.name

/-- The search finds all walks, and only walks. -/
theorem leadsTo_iff {g : LinkGraph} (htargets : ∀ l ∈ g.links, l.targetTable ∈ g.names)
    {a b : String} (ha : a ∈ g.names) : g.leadsTo a b = true ↔ Leads g.links a b := by
  rw [leadsTo, List.contains_iff_mem]
  constructor
  · intro h
    obtain ⟨c, hc, hcb⟩ := mem_closure h
    rwa [List.mem_singleton.1 hc] at hcb
  · refine mem_of_leads (closed_closure htargets _ (by simp) (by simpa using ha) ?_)
      (mem_closure_of_mem _ (by simp))
    simp [names]

end Rounds

section Acyclic

/-- A walk that may use one more link either does without it or reaches its source and goes on from
its target. -/
theorem leads_append_link {links : List Link} {m : Link} {a b : String}
    (h : Leads (links ++ [m]) a b) :
    Leads links a b ∨ (Leads links a m.sourceTable ∧ Leads links m.targetTable b) := by
  induction h with
  | refl => exact Or.inl .refl
  | tail _ hstep ih =>
    obtain ⟨l, hl, rfl, rfl⟩ := hstep
    rcases List.mem_append.1 hl with hl | hl
    · rcases ih with ih | ⟨h1, h2⟩
      · exact Or.inl (ih.tail (linked_of_mem hl))
      · exact Or.inr ⟨h1, h2.tail (linked_of_mem hl)⟩
    · obtain rfl := List.mem_singleton.1 hl
      rcases ih with ih | ⟨h1, -⟩
      · exact Or.inr ⟨ih, .refl⟩
      · exact Or.inr ⟨h1, .refl⟩

theorem acyclic_append {links : List Link} {m : Link} (h : Acyclic links)
    (hm : ¬ Leads links m.targetTable m.sourceTable) : Acyclic (links ++ [m]) := by
  intro l hl hcycle
  rcases List.mem_append.1 hl with hl | hl
  · rcases leads_append_link hcycle with hold | ⟨h1, h2⟩
    · exact h l hl hold
    · exact hm ((h2.tail (linked_of_mem hl)).trans h1)
  · obtain rfl := List.mem_singleton.1 hl
    rcases leads_append_link hcycle with hold | ⟨hold, -⟩ <;> exact hm hold

open Classical in
/-- The number of tables that lead to a table. -/
noncomputable def rank (g : LinkGraph) (table : String) : Nat :=
  (g.names.toFinset.filter fun a => Leads g.links a table).card

open Classical in
theorem rank_le (g : LinkGraph) (table : String) : g.rank table ≤ g.tables.length := by
  refine (Finset.card_filter_le _ _).trans ((List.toFinset_card_le _).trans ?_)
  simp [names]

theorem rank_pos {g : LinkGraph} {table : String} (h : table ∈ g.names) : 0 < g.rank table :=
  Finset.card_pos.2 ⟨table, by simpa using ⟨h, .refl⟩⟩

open Classical in
/-- The source of a link has fewer tables before it than the target. -/
theorem rank_lt {g : LinkGraph} (hacyclic : Acyclic g.links) {l : Link} (hl : l ∈ g.links)
    (ht : l.targetTable ∈ g.names) : g.rank l.sourceTable < g.rank l.targetTable := by
  refine Finset.card_lt_card ⟨fun a ha => ?_, fun hsub => ?_⟩
  · simp only [Finset.mem_filter] at ha ⊢
    exact ⟨ha.1, ha.2.tail (linked_of_mem hl)⟩
  · have hmem := hsub (Finset.mem_filter.2 ⟨List.mem_toFinset.2 ht, Relation.ReflTransGen.refl⟩)
    exact hacyclic l hl (Finset.mem_filter.1 hmem).2

end Acyclic

end LinkGraph

end LinkedTables
