import LinkedTables.Analysis.Analysis
import LinkedTables.Proofs.Data.Datasets

/-!
# Plans

Lowering resolves names and follows links, and it writes slots. The two can be told apart: a plan is
what an expression is resolved to over a graph, without any slot, and writing a plan down cannot fail
and looks at no graph. Lowering is the one after the other (`lower_eq`).

A plan holds everything that lowering takes from the graph: which variables and links are followed,
over which dimensions, and the step of each dimension in a row-major offset.
-/

namespace LinkedTables

mutual

/-- How the position along a dimension is found. -/
inductive Place where
  | row
  /-- The link into the dimension is followed from its source variable over some dimensions. -/
  | linked (shape : ShapeRef) (link : Link) (dims : List String) (source : Offset)

/-- How the offset of a variable is found: dimension by dimension, the outermost first. -/
inductive Offset where
  | scalar
  | along (place : Place) (step : UInt64) (rest : Offset)

end

/-- How the value of an expression is found. -/
inductive Plan where
  | constant (bits : UInt64)
  | entry (table var : String) (dims : List String) (offset : Offset)
  | unary (op : Op1) (a : Plan)
  | binary (op : Op2) (a b : Plan)
  | ternary (op : Op3) (a b c : Plan)

namespace Scope

/-- The offset of a variable over some dimensions. The innermost dimension is resolved first. -/
def planOffset (place : Nat → Except AnalysisFault Place) (ds : Dataset) :
    List Nat → Except AnalysisFault Offset
  | [] => .ok .scalar
  | d :: rest => do
    let inner ← planOffset place ds rest
    let p ← place d
    return .along p (UInt64.ofNat (ds.extent rest)) inner

/-- The position along a dimension of a table. -/
def planPlace (sc : Scope) (site : Site) : Nat → String → Dataset → Nat → Except AnalysisFault Place
  | 0, table, _, _ => .error (.tooDeep table)
  | fuel + 1, table, ds, d =>
    if table == sc.root.name && d == 0 then .ok .row
    else
      match ds.dims[d]? with
      | none => .error (.tooDeep table)
      | some dim =>
        match sc.graph.incoming? table dim.name with
        | none => .error (.type site (.unfed table dim.name sc.root.name))
        | some (_, link) =>
          match sc.graph.data? link.sourceTable with
          | none => .error (.graph (.unknownTable link.sourceTable))
          | some src =>
            match src.var? link.sourceVar with
            | none => .error (.missingSource link)
            | some v => do
              let source ← planOffset (planPlace sc site fuel link.sourceTable src) src v.dims
              if link.mode = .label && !v.values.kind.fits dim.coords.kind then
                .error (.type site (.kinds link v.values.kind dim.coords.kind))
              else
                return .linked ⟨table, dim.name, UInt64.ofNat dim.size⟩ link (src.dimNames v.dims)
                  source

/-- The value of a variable. -/
def planVariable (sc : Scope) (site : Site) (table var : String) : Except AnalysisFault Plan := do
  let (ds, v) ← sc.fetch table var
  let offset ← planOffset (sc.planPlace site sc.graph.tables.length table ds) ds v.dims
  return .entry table var (ds.dimNames v.dims) offset

def plan (sc : Scope) (site : Site) : Expr → Except AnalysisFault Plan
  | .number x => .ok (.constant (Number.bits x))
  | .bool b => .ok (.constant (Number.bits (Number.ofBool b)))
  | .name table name _ => do
    match ← sc.resolve site table name with
    | .constant bits => return .constant bits
    | .variable_ t v => sc.planVariable site t v
  | .unary op a _ => return .unary op (← plan sc site a)
  | .binary op a b _ => return .binary op (← plan sc site a) (← plan sc site b)
  | .ternary op a b c _ =>
    return .ternary op (← plan sc site a) (← plan sc site b) (← plan sc site c)

end Scope

namespace Lowered

def withSlot (l : Lowered) (step : SlotGraph → SlotId × SlotGraph) : SlotId × Lowered :=
  ((step l.slots).1, { l with slots := (step l.slots).2 })

def withColumn (l : Lowered) (table var : String) (dims : List String) : UInt32 × Lowered :=
  match l.columns.findIdx? fun c => c.table == table && c.var == var with
  | some i => (UInt32.ofNat i, l)
  | none => (UInt32.ofNat l.columns.length, { l with columns := l.columns ++ [⟨table, var, dims⟩] })

def withTable (l : Lowered) (link : Link) (dims : List String) : UInt32 × Lowered :=
  match l.tables.findIdx? fun t => t.link == link with
  | some i => (UInt32.ofNat i, l)
  | none => (UInt32.ofNat l.tables.length, { l with tables := l.tables ++ [⟨link, dims⟩] })

def withCheck (l : Lowered) (column : UInt32) (link : Link) : Lowered :=
  if l.checks.any fun c => c.link == link then l
  else { l with checks := l.checks ++ [⟨column, link⟩] }

def withShape (l : Lowered) (s : ShapeRef) : Lowered := { l with shapes := s.insert l.shapes }

/-- The position at an offset of the source of a link. -/
def follow (l : Lowered) (link : Link) (dims : List String) (at_ : SlotId) : SlotId × Lowered :=
  match link.mode with
  | .label =>
    let table := l.withTable link dims
    table.2.withSlot fun g => g.label table.1 at_
  | .position =>
    let column := l.withColumn link.sourceTable link.sourceVar dims
    (column.2.withCheck column.1 link).withSlot fun g => g.load column.1 at_

/-- One more dimension outwards. -/
def outwards (l : Lowered) (inner : Option SlotId) (pos : SlotId) (step : UInt64) :
    SlotId × Lowered :=
  match inner with
  | none => (pos, l)
  | some base => l.withSlot fun g => g.stride base pos step

/-- Without any dimension the offset is zero. -/
def offsetOr (l : Lowered) : Option SlotId → SlotId × Lowered
  | some i => (i, l)
  | none => l.withSlot fun g => g.constant 0.0

end Lowered

mutual

def Place.emit : Place → Lowered → SlotId × Lowered
  | .row, l => l.withSlot SlotGraph.row
  | .linked shape link dims source, l =>
    let inner := source.emitPartial (l.withShape shape)
    let at_ := inner.2.offsetOr inner.1
    at_.2.follow link dims at_.1

/-- The slot of the offset, unless there is no dimension. -/
def Offset.emitPartial : Offset → Lowered → Option SlotId × Lowered
  | .scalar, l => (none, l)
  | .along place step rest, l =>
    let inner := rest.emitPartial l
    let pos := place.emit inner.2
    let i := pos.2.outwards inner.1 pos.1 step
    (some i.1, i.2)

end

def Offset.emit (o : Offset) (l : Lowered) : SlotId × Lowered :=
  (o.emitPartial l).2.offsetOr (o.emitPartial l).1

def Plan.emit : Plan → Lowered → SlotId × Lowered
  | .constant bits, l => l.withSlot fun g => g.constantBits bits
  | .entry table var dims offset, l =>
    let column := l.withColumn table var dims
    let at_ := offset.emit column.2
    at_.2.withSlot fun g => g.load column.1 at_.1
  | .unary op a, l =>
    let i := a.emit l
    i.2.withSlot fun g => g.apply (.unary op) [i.1]
  | .binary op a b, l =>
    let i := a.emit l
    let j := b.emit i.2
    j.2.withSlot fun g => g.apply (.binary op) [i.1, j.1]
  | .ternary op a b c, l =>
    let i := a.emit l
    let j := b.emit i.2
    let k := c.emit j.2
    k.2.withSlot fun g => g.apply (.ternary op) [i.1, j.1, k.1]

/-- Writes plans down one after the other. -/
def Plan.emitAll : List Plan → Lowered → List SlotId × Lowered
  | [], l => ([], l)
  | p :: ps, l =>
    let i := p.emit l
    let rest := emitAll ps i.2
    (i.1 :: rest.1, rest.2)

namespace Lowering

variable {α β : Type}

theorem bind_apply (m : Lowering α) (f : α → Lowering β) (l : Lowered) :
    (m >>= f) l = (m l).bind fun r => f r.1 r.2 := rfl

theorem throw_apply (f : AnalysisFault) (l : Lowered) : (throw f : Lowering α) l = .error f := rfl

theorem lift_apply (m : Except AnalysisFault α) (l : Lowered) :
    (liftM m : Lowering α) l = m.map fun a => (a, l) := by
  cases m <;> rfl

section Steps

theorem slot_apply (step : SlotGraph → SlotId × SlotGraph) (l : Lowered) :
    slot step l = .ok (l.withSlot step) := rfl

theorem column_apply (table var : String) (dims : List String) (l : Lowered) :
    column table var dims l = .ok (l.withColumn table var dims) := by
  rw [column, bind_apply]
  show (match l.columns.findIdx? fun c => c.table == table && c.var == var with
    | some i => _
    | none => _ : Lowering UInt32) l = _
  rw [Lowered.withColumn]
  cases l.columns.findIdx? fun c => c.table == table && c.var == var <;> rfl

theorem labelTable_apply (link : Link) (dims : List String) (l : Lowered) :
    labelTable link dims l = .ok (l.withTable link dims) := by
  rw [labelTable, bind_apply]
  show (match l.tables.findIdx? fun t => t.link == link with
    | some i => _
    | none => _ : Lowering UInt32) l = _
  rw [Lowered.withTable]
  cases l.tables.findIdx? fun t => t.link == link <;> rfl

theorem check_apply (c : UInt32) (link : Link) (l : Lowered) :
    check c link l = .ok ((), l.withCheck c link) := rfl

theorem shape_apply (table : String) (dim : Dimension) (l : Lowered) :
    shape table dim l = .ok ((), l.withShape ⟨table, dim.name, UInt64.ofNat dim.size⟩) := rfl

theorem follow_apply (site : Site) (link : Link) (src : Dataset) (v : Variable) (dim : Dimension)
    (at_ : SlotId) (l : Lowered) : follow site link src v dim at_ l =
      if link.mode = .label && !v.values.kind.fits dim.coords.kind then
        .error (.type site (.kinds link v.values.kind dim.coords.kind))
      else .ok (l.follow link (src.dimNames v.dims) at_) := by
  cases hmode : link.mode
  · by_cases hfits : v.values.kind.fits dim.coords.kind = true
    · simp [follow, hmode, hfits, bind_apply, labelTable_apply, slot_apply, Except.bind,
        Lowered.follow]
    · rw [Bool.not_eq_true] at hfits
      simp [follow, hmode, hfits, bind_apply, throw_apply, Except.bind]
  · simp [follow, hmode, bind_apply, column_apply, check_apply, slot_apply, Except.bind,
      Lowered.follow]

end Steps

/-- What an offset does at one dimension. -/
def offsetStep (position : Nat → Lowering SlotId) (ds : Dataset) (before : Partial) (d : Nat) :
    Lowering Partial := do
  let pos ← position d
  let acc ← match before.1 with
    | none => pure pos
    | some inner => slot fun g => g.stride inner pos before.2
  return (some acc, before.2 * UInt64.ofNat (ds.dimSize d))

section Offsets

variable {find : Nat → Lowering SlotId} {place : Nat → Except AnalysisFault Place}

theorem offsetStep_apply (ds : Dataset) (h : ∀ d l, find d l = (place d).map fun p => p.emit l)
    (before : Partial) (d : Nat) (l : Lowered) : offsetStep find ds before d l =
      (place d).map fun p =>
        let pos := p.emit l
        let i := pos.2.outwards before.1 pos.1 before.2
        ((some i.1, before.2 * UInt64.ofNat (ds.dimSize d)), i.2) := by
  rw [offsetStep, bind_apply, h]
  rcases place d with e | p
  · rfl
  · rcases before with ⟨_ | inner, step⟩ <;> rfl

/-- The walk over the dimensions builds the offset from the innermost one on. -/
theorem foldlM_offsetStep (ds : Dataset)
    (h : ∀ d l, find d l = (place d).map fun p => p.emit l) (l : Lowered) :
    ∀ dims : List Nat, dims.reverse.foldlM (offsetStep find ds) (none, 1) l =
      (Scope.planOffset place ds dims).map fun o =>
        (((o.emitPartial l).1, UInt64.ofNat (ds.extent dims)), (o.emitPartial l).2)
  | [] => rfl
  | d :: rest => by
    have ih := foldlM_offsetStep ds h l rest
    rw [List.foldlM_reverse] at ih ⊢
    rw [List.foldrM_cons, bind_apply, ih, Scope.planOffset]
    rcases Scope.planOffset place ds rest with e | o
    · rfl
    · simp only [Except.map, Except.bind, bind, pure, Except.pure]
      rw [offsetStep_apply ds h]
      rcases place d with e | p
      · rfl
      · simp only [Except.map, Offset.emitPartial, Dataset.extent_cons, UInt64.ofNat_mul,
          UInt64.mul_comm (UInt64.ofNat (ds.extent rest))]

theorem offset_apply (ds : Dataset) (h : ∀ d l, find d l = (place d).map fun p => p.emit l)
    (dims : List Nat) (l : Lowered) : offset find ds dims l =
      (Scope.planOffset place ds dims).map fun o => o.emit l := by
  show (dims.reverse.foldlM (offsetStep find ds) (none, 1) >>= fun r => match r.1 with
    | some i => pure i
    | none => slot fun g => g.constant 0.0) l = _
  rw [bind_apply, foldlM_offsetStep ds h]
  rcases Scope.planOffset place ds dims with e | o
  · rfl
  · simp only [Except.map, Except.bind, Offset.emit]
    rcases (o.emitPartial l).1 with _ | i <;> rfl

end Offsets

theorem position_apply (sc : Scope) (site : Site) : ∀ (fuel : Nat) (table : String) (ds : Dataset)
    (d : Nat) (l : Lowered), position sc site fuel table ds d l =
      (sc.planPlace site fuel table ds d).map fun p => p.emit l
  | 0, _, _, _, _ => rfl
  | fuel + 1, table, ds, d, l => by
    rw [position, Scope.planPlace]
    split_ifs with hrow
    · rfl
    · rcases ds.dims[d]? with _ | dim
      · rfl
      · dsimp only
        rw [bind_apply, shape_apply, Except.bind]
        rcases hin : sc.graph.incoming? table dim.name with _ | ⟨_, link⟩
        · rfl
        · simp only
          rcases sc.graph.data? link.sourceTable with _ | src
          · rfl
          · simp only
            rcases src.var? link.sourceVar with _ | v
            · rfl
            · simp only
              rw [bind_apply, offset_apply src
                fun d l => position_apply sc site fuel link.sourceTable src d l]
              rcases Scope.planOffset (sc.planPlace site fuel link.sourceTable src) src v.dims
                with e | o
              · rfl
              · show follow _ _ _ _ _ _ _ = _
                rw [follow_apply]
                simp only [bind, Except.bind]
                split_ifs <;> rfl

theorem variable_apply (sc : Scope) (site : Site) (table var : String) (l : Lowered) :
    variable_ sc site table var l = (sc.planVariable site table var).map fun p => p.emit l := by
  rw [variable_, bind_apply, lift_apply, Scope.planVariable]
  rcases sc.fetch table var with e | ⟨ds, v⟩
  · rfl
  · show (column table var (ds.dimNames v.dims) >>= fun col => _) l = _
    rw [bind_apply, column_apply, Except.bind, bind_apply, offset_apply ds
      fun d l => position_apply sc site sc.graph.tables.length table ds d l]
    simp only [bind, Except.bind]
    rcases Scope.planOffset (sc.planPlace site sc.graph.tables.length table ds) ds v.dims with e | o
      <;> rfl

/-- Lowering resolves an expression and writes down what it is resolved to. -/
theorem lower_eq (sc : Scope) (site : Site) : ∀ (e : Expr) (l : Lowered),
    lower sc site e l = (sc.plan site e).map fun p => p.emit l
  | .number _, _ => rfl
  | .bool _, _ => rfl
  | .name table name _, l => by
    rw [lower, bind_apply, lift_apply, Scope.plan]
    rcases sc.resolve site table name with e | ⟨bits⟩ | ⟨t, v⟩
    · rfl
    · rfl
    · exact variable_apply sc site t v l
  | .unary op a _, l => by
    rw [lower, bind_apply, lower_eq sc site a, Scope.plan]
    rcases sc.plan site a with e | p <;> rfl
  | .binary op a b _, l => by
    rw [lower, bind_apply, lower_eq sc site a, Scope.plan]
    rcases sc.plan site a with e | p
    · rfl
    · show (lower sc site b >>= fun j => _) (p.emit l).2 = _
      rw [bind_apply, lower_eq sc site b]
      simp only [bind, Except.bind]
      rcases sc.plan site b with e | q <;> rfl
  | .ternary op a b c _, l => by
    rw [lower, bind_apply, lower_eq sc site a, Scope.plan]
    rcases sc.plan site a with e | p
    · rfl
    · show (lower sc site b >>= fun j => _) (p.emit l).2 = _
      rw [bind_apply, lower_eq sc site b]
      simp only [bind, Except.bind]
      rcases sc.plan site b with e | q
      · rfl
      · show (lower sc site c >>= fun k => _) (q.emit (p.emit l).2).2 = _
        rw [bind_apply, lower_eq sc site c]
        simp only [Except.bind]
        rcases sc.plan site c with e | r <;> rfl

end Lowering

namespace Analysis

/-- The plans of all expressions of a set. -/
def planAll (sc : Scope) (sources : List Source) : Except AnalysisFault (List Plan) :=
  sources.mapM fun s => sc.plan s.site s.tree

theorem mapM_lower (sc : Scope) : ∀ (sources : List Source) (l : Lowered),
    (sources.mapM fun s => Lowering.lower sc s.site s.tree) l =
      (planAll sc sources).map fun ps => Plan.emitAll ps l
  | [], _ => rfl
  | s :: rest, l => by
    rw [planAll, List.mapM_cons, List.mapM_cons, Lowering.bind_apply, Lowering.lower_eq]
    rcases sc.plan s.site s.tree with e | p
    · rfl
    · have ih := mapM_lower sc rest (p.emit l).2
      show (rest.mapM (fun s => Lowering.lower sc s.site s.tree) >>= fun is => _) (p.emit l).2 = _
      have hrest : (rest.mapM fun s => sc.plan s.site s.tree) = planAll sc rest := rfl
      rw [Lowering.bind_apply, ih, hrest]
      rcases planAll sc rest with e | ps <;> rfl

/-- All expressions are resolved, and then written down one after the other. -/
theorem lowerAll_eq (sc : Scope) (sources : List Source) :
    lowerAll sc sources = (planAll sc sources).map fun ps => Plan.emitAll ps .empty :=
  mapM_lower sc sources .empty

end Analysis

end LinkedTables
