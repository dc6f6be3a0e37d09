import LinkedTables.Proofs.Analysis.Faults
import LinkedTables.Proofs.Analysis.Kept

/-!
# An analysis leaves nothing to compare that cannot be compared

Columns hold numbers: a variable that an expression reads is an operand or a result, which texts are
not, and a positional link cannot start from texts (`Typing.annotate_gives`). Label tables are looked up
among labels of their own kind, since resolving a position checks this (`Scope.planPlace_within`). So
it is with all columns and label tables of the layout of an analysis (`Analysis.Planned.comparable`).
-/

namespace LinkedTables

namespace LinkGraph

/-- The variable is there and holds numbers. -/
def Numeric (g : LinkGraph) (table var : String) : Prop :=
  ∃ data, g.values? table var = some (.numbers data)

/-- The entries of the source of a link are of a kind with the labels of its target. -/
def Fits (g : LinkGraph) (l : Link) : Prop :=
  ∃ values d, g.values? l.sourceTable l.sourceVar = some values ∧
    g.dim? l.targetTable l.targetDim = some d ∧ values.kind.fits d.coords.kind = true

variable {g : LinkGraph} {table var : String} {ds : Dataset} {v : Variable}

theorem values?_of_var? (hds : g.data? table = some ds) (h : ds.var? var = some v) :
    g.values? table var = some v.values := by
  simp [values?, hds, h]

theorem numeric_of_kind (hds : g.data? table = some ds) (hvar : ds.var? var = some v)
    (hkind : v.values.kind ≠ .string) : g.Numeric table var := by
  have hvalues := values?_of_var? hds hvar
  rcases hv : v.values with data | data
  · exact ⟨data, hv ▸ hvalues⟩
  · rw [hv] at hkind
    exact absurd rfl hkind

end LinkGraph

/-- Columns of numbers, and label tables whose labels can be looked up. -/
def Allowed.comparable (g : LinkGraph) : Allowed where
  column table var _ := g.Numeric table var
  table link _ := g.Fits link
  shape _ := True

namespace Scope

variable {sc : Scope} {A : Allowed}

theorem planOffset_within {place : Nat → Except AnalysisFault Place} {ds : Dataset}
    (hplace : ∀ i p, place i = .ok p → p.Within A) : ∀ {dims : List Nat} {o : Offset},
      planOffset place ds dims = .ok o → o.Within A
  | [], _, h => by
    cases h
    trivial
  | i :: dims, o, h => by
    obtain ⟨rest, hrest, h⟩ := bind_eq_ok h
    obtain ⟨p, hp, h⟩ := bind_eq_ok h
    cases h
    exact ⟨hplace i p hp, planOffset_within hplace hrest⟩

/-- A link that is followed can be: its source and its labels are of a kind, or its source holds
numbers. -/
theorem planPlace_within (hv : sc.graph.Valid) (site : Site) : ∀ {fuel : Nat} {table : String}
    {ds : Dataset} {i : Nat} {p : Place}, sc.graph.data? table = some ds →
      sc.planPlace site fuel table ds i = .ok p → p.Within (.comparable sc.graph)
  | 0, _, _, _, _, _, h => by cases h
  | fuel + 1, table, ds, i, p, hds, h => by
    obtain ⟨-, -, rfl⟩ | ⟨-, d, n, link, src, v, source, hd, hin, hsrc, hvar, hsource, hkinds, rfl⟩ :=
      planPlace_ok h
    · trivial
    obtain ⟨hlink, rfl, htarget⟩ := LinkGraph.incoming?_eq_some hin
    refine ⟨trivial, ?_, planOffset_within
      (fun j q hq => planPlace_within hv site hsrc hq) hsource⟩
    unfold Allowed.Follows
    cases hmode : link.mode with
    | label =>
      exact ⟨v.values, d, LinkGraph.values?_of_var? hsrc hvar,
        htarget ▸ LinkGraph.dim?_of_getElem? hv hds hd, hkinds hmode⟩
    | position =>
      obtain ⟨src', hsrc', v', hvar', hkind⟩ := hv.source link hlink
      exact LinkGraph.numeric_of_kind hsrc' hvar' (hkind hmode)

theorem planVariable_within (hv : sc.graph.Valid) {site : Site} {table var : String} {p : Plan}
    (hnumeric : sc.graph.Numeric table var) (h : sc.planVariable site table var = .ok p) :
    p.Within (.comparable sc.graph) := by
  obtain ⟨⟨ds, v⟩, hfetch, h⟩ := bind_eq_ok h
  obtain ⟨offset, hoffset, h⟩ := bind_eq_ok h
  cases h
  exact ⟨hnumeric, planOffset_within (fun i q hq => planPlace_within hv site (fetch_ok hfetch).1 hq)
    hoffset⟩

end Scope

namespace Noting

variable {α β : Type} {P : α → Prop} {Q : β → Prop}

/-- Whatever was noted before, the result is of some kind if there is one. -/
def Gives (m : Noting α) (P : α → Prop) : Prop := ∀ noted r, m noted = .ok r → P r.1

theorem gives_pure {a : α} (h : P a) : (pure a : Noting α).Gives P := fun _ _ hr => by
  cases hr
  exact h

theorem gives_throw (f : AnalysisFault) : (throw f : Noting α).Gives P := fun _ _ hr => by cases hr

theorem gives_any (m : Noting α) : m.Gives fun _ => True := fun _ _ _ => trivial

theorem gives_lift (m : Except AnalysisFault α) : (liftM m : Noting α).Gives fun a => m = .ok a :=
  fun _ _ hr => lift_ok hr

theorem gives_bind {m : Noting α} {k : α → Noting β} (hm : m.Gives P)
    (hk : ∀ a, P a → (k a).Gives Q) : (m >>= k).Gives Q := by
  intro noted r hr
  obtain ⟨⟨a, after⟩, ha, hr⟩ := bind_eq_ok hr
  exact hk a (hm noted _ ha) after r hr

theorem gives_mapM {f : α → Noting β} {R : α → β → Prop} (h : ∀ a, (f a).Gives (R a)) :
    ∀ xs : List α, (xs.mapM f).Gives (List.Forall₂ R xs)
  | [] => gives_pure .nil
  | x :: xs => by
    rw [List.mapM_cons]
    exact gives_bind (h x) fun _ hx => gives_bind (gives_mapM h xs) fun _ hxs =>
      gives_pure (.cons hx hxs)

end Noting

namespace Typing

open Noting

variable {sc : Scope}

theorem asOperand_gives (site : Site) (e : Expr) (t : Typed) :
    (asOperand site e t).Gives fun u => u = t ∧ t.type ≠ .label := by
  rw [asOperand]
  split_ifs with hlabel
  · exact gives_throw _
  · exact gives_pure ⟨rfl, hlabel⟩

/-- An operand has the type of its expression, which is no label. -/
theorem operand_gives {β : Type} {P : Typed → Prop} {Q : β → Prop} {site : Site} {e : Expr}
    {k : Typed → Noting β} (he : (annotate sc site e).Gives P)
    (hk : ∀ t, P t → t.type ≠ .label → (k t).Gives Q) :
    (annotate sc site e >>= fun t => asOperand site e t >>= k).Gives Q :=
  gives_bind he fun t ht => gives_bind (asOperand_gives site e t) fun _ ⟨heq, hlabel⟩ =>
    heq ▸ hk t ht hlabel

theorem ofVariable_gives (table var : String) : (ofVariable sc table var).Gives fun t =>
    t.type ≠ .label → sc.graph.Numeric table var := by
  refine gives_bind (gives_lift _) fun ⟨ds, v⟩ hfetch => gives_bind (gives_any _) fun _ _ => ?_
  obtain ⟨hds, hvar⟩ := Scope.fetch_ok hfetch
  refine gives_pure fun hlabel => LinkGraph.numeric_of_kind hds hvar fun hkind => ?_
  simp [hkind] at hlabel

/-- If an expression has a type and is no label, then all that its plan reads are numbers. -/
theorem annotate_gives (hv : sc.graph.Valid) (site : Site) : ∀ e : Expr,
    (annotate sc site e).Gives fun t => t.type ≠ .label → ∀ p, sc.plan site e = .ok p →
      p.Within (.comparable sc.graph)
  | .number _ | .bool _ => gives_pure fun _ p hp => by
    cases hp
    trivial
  | .name table name _ => by
    rw [annotate]
    refine gives_bind (gives_lift _) fun m hm => ?_
    rcases m with bits | ⟨t, v⟩
    · refine gives_pure fun _ p hp => ?_
      rw [Scope.plan, hm] at hp
      cases hp
      trivial
    · intro noted r hr hlabel p hp
      rw [Scope.plan, hm] at hp
      exact Scope.planVariable_within hv (ofVariable_gives t v noted r hr hlabel) hp
  | .unary op a _ => by
    rw [annotate]
    refine operand_gives (annotate_gives hv site a) fun ta ha hta => gives_pure fun _ p hp => ?_
    obtain ⟨q, hq, hp⟩ := bind_eq_ok hp
    cases hp
    exact ha hta q hq
  | .binary op a b _ => by
    rw [annotate]
    refine operand_gives (annotate_gives hv site a) fun ta ha hta =>
      operand_gives (annotate_gives hv site b) fun tb hb htb => gives_pure fun _ p hp => ?_
    obtain ⟨q, hq, hp⟩ := bind_eq_ok hp
    obtain ⟨r, hr, hp⟩ := bind_eq_ok hp
    cases hp
    exact ⟨ha hta q hq, hb htb r hr⟩
  | .ternary op a b c _ => by
    rw [annotate]
    refine operand_gives (annotate_gives hv site a) fun ta ha hta =>
      operand_gives (annotate_gives hv site b) fun tb hb htb =>
      operand_gives (annotate_gives hv site c) fun tc hc htc => gives_pure fun _ p hp => ?_
    obtain ⟨q, hq, hp⟩ := bind_eq_ok hp
    obtain ⟨r, hr, hp⟩ := bind_eq_ok hp
    obtain ⟨s, hs, hp⟩ := bind_eq_ok hp
    cases hp
    exact ⟨ha hta q hq, hb htb r hr, hc htc s hs⟩

theorem ofResult_gives (hv : sc.graph.Valid) (site : Site) (e : Expr) :
    (ofResult sc site e).Gives fun _ => ∀ p, sc.plan site e = .ok p →
      p.Within (.comparable sc.graph) := by
  rw [ofResult]
  refine gives_bind (annotate_gives hv site e) fun t ht => ?_
  split_ifs with hlabel
  · exact gives_bind (gives_throw _) fun _ h => h
  · exact gives_pure (ht hlabel)

end Typing

namespace Lowered

/-- Columns hold numbers, and label tables are looked up among labels of their kind. -/
structure Comparable (l : Lowered) (g : LinkGraph) : Prop where
  columns : ∀ c ∈ l.columns, g.Numeric c.table c.var
  tables : ∀ t ∈ l.tables, g.Fits t.link

theorem comparable_kept (g : LinkGraph) : Kept (.comparable g) (Comparable · g) where
  slot _ h := ⟨h.columns, h.tables⟩
  column hnumeric h := by
    unfold withColumn
    split
    · exact h
    · refine ⟨fun c hc => ?_, h.tables⟩
      rcases List.mem_append.1 hc with hc | hc
      · exact h.columns c hc
      · obtain rfl := List.mem_singleton.1 hc
        exact hnumeric
  table hfits h := by
    unfold withTable
    split
    · exact h
    · refine ⟨h.columns, fun t ht => ?_⟩
      rcases List.mem_append.1 ht with ht | ht
      · exact h.tables t ht
      · obtain rfl := List.mem_singleton.1 ht
        exact hfits
  check c link h := by
    unfold withCheck
    split
    · exact h
    · exact ⟨h.columns, h.tables⟩
  shape _ h := ⟨h.columns, h.tables⟩

end Lowered

namespace Analysis

variable {g : LinkGraph} {set : ExprSet} {a : Analysis} {sc : Scope} {sources : List Source}
  {plans : List Plan}

/-- What was analyzed was typed. -/
theorem Planned.typed (h : a.Planned g set sc sources plans) (ha : analyze g set = .ok a) :
    typeAll sc sources = .ok (a.types, a.references) := by
  simp only [analyze, h.inScope, bind, Except.bind] at ha
  split_ifs at ha
  simp only [h.readAll] at ha
  rcases hr : typeAll sc sources with f | ⟨types, references⟩
  · simp only [hr] at ha
    cases ha
  · simp only [hr] at ha
    split at ha
    · cases ha
    · cases ha
      rfl

/-- Columns hold numbers, and label tables are looked up among labels of their kind. -/
theorem Planned.comparable (h : a.Planned g set sc sources plans) (hg : g.Built)
    (ha : analyze g set = .ok a) :
    (∀ c ∈ a.layout.columns, g.Numeric c.table c.var) ∧ ∀ t ∈ a.layout.tables, g.Fits t.link := by
  obtain ⟨rfl, -, lead, hsc⟩ := Scope.rooted_of_ok hg h.inScope
  have htyped := h.typed ha
  have hall := Noting.gives_mapM (fun s : Source => Typing.ofResult_gives hsc.valid s.site s.tree)
    sources [] _ htyped
  have hwithin : ∀ p ∈ plans, p.Within (.comparable sc.graph) := fun p hp => by
    obtain ⟨s, hs, hplan⟩ := exists_of_mem_right (forall₂_of_mapM h.planned) p hp
    obtain ⟨-, -, hgiven⟩ := exists_of_mem_left hall s hs
    exact hgiven p hplan
  have hkept := Plan.emitAll_keeps (Lowered.comparable_kept sc.graph) hwithin
    (l := .empty) ⟨by simp [Lowered.empty], by simp [Lowered.empty]⟩
  rw [h.layout]
  exact ⟨hkept.columns, hkept.tables⟩

end Analysis

end LinkedTables
