import LinkedTables.Cache.Request
import LinkedTables.Json.Fields
import LinkedTables.Json.Reader
import LinkedTables.Listing.Reader
import LinkedTables.Program.Tape

/-!
# Stored kernels

A kernel that was compiled is an artifact: the request with its key and the time, the listing, and
the program of the listing. What a file holds is a record, which says all this and may be wrong. A
record counts as an artifact under a key only if its own key is that one, its request has that key,
its listing can be read, and the program of the listing is the program it holds, in the mode it
claims.
-/

namespace LinkedTables

structure Record where
  digest : String
  mode : Mode
  created : UInt64
  request : Request
  source : String
  tape : Tape
  deriving DecidableEq

structure Artifact where
  digest : String
  mode : Mode
  created : UInt64
  request : Request
  source : String
  program : Program
  deriving DecidableEq

def Artifact.record (a : Artifact) : Record :=
  ⟨a.digest, a.mode, a.created, a.request, a.source, a.program.tape⟩

/-- The artifact that a record is under a key. -/
def Record.artifact? (r : Record) (key : String) : Option Artifact :=
  if r.digest ≠ key || r.request.digest ≠ key then none
  else
    match Listing.read r.source with
    | .error _ => none
    | .ok p =>
      if p.tape = r.tape && p.mode = r.mode then
        some ⟨r.digest, r.mode, r.created, r.request, r.source, p⟩
      else none

/-- The mnemonic with a capital. -/
def Opcode.stored (op : Opcode) : String :=
  match op.mnemonic.toList with
  | c :: cs => String.ofList (c.toUpper :: cs)
  | [] => ""

def Tape.toJson (t : Tape) : Json :=
  let words := fun (ws : List UInt32) => Json.list (ws.map fun w => .nat w.toNat)
  .object [
    ("mode", t.mode.toJson),
    ("ops", .texts (t.ops.map Opcode.stored)),
    ("p1", words t.p1),
    ("p2", words t.p2),
    ("p3", words t.p3),
    ("imm", .list (t.imm.map fun w => .nat w.toNat)),
    ("outputs", words t.outputs),
    ("bindings", t.layout.toJson)]

def Record.toJson (r : Record) : Json :=
  .object [
    ("meta", .object [
      ("digest", .text r.digest),
      ("mode", r.mode.toJson),
      ("created_unix", .nat r.created.toNat),
      ("inputs", r.request.toJson)]),
    ("source", .text r.source),
    ("program", r.tape.toJson)]

/-- The text of a record's file. -/
def Record.text (r : Record) : String := r.toJson.render

namespace Stored

def texts? : Json → Option (List String) := Json.listOf? Json.text?

def linkMode? (j : Json) : Option LinkMode :=
  match j.caseName? with
  | some "Label" => some .label
  | some "Positional" => some .position
  | _ => none

def mode? (j : Json) : Option Mode :=
  match j.caseName? with
  | some "load" => some .load
  | some "dot" => some .dot
  | some "mnl_draws" => some .choice
  | _ => none

def opcode? (j : Json) : Option Opcode :=
  j.caseName?.bind fun name => Opcode.all.find? fun op => op.stored == name

def link? (j : Json) : Option Link := do
  match ← j.record? ["source_node", "source_var", "target_node", "target_dim", "mode"] with
  | [some a, some b, some c, some d, some m] =>
    return ⟨← a.text?, ← b.text?, ← c.text?, ← d.text?, ← linkMode? m⟩
  | _ => none

def columnRef? (j : Json) : Option ColumnRef := do
  match ← j.record? ["node", "var", "dims"] with
  | [some a, some b, some c] => return ⟨← a.text?, ← b.text?, ← texts? c⟩
  | _ => none

def tableRef? (j : Json) : Option TableRef := do
  match ← j.record? ["edge", "dims"] with
  | [some a, some b] => return ⟨← link? a, ← texts? b⟩
  | _ => none

def checkRef? (j : Json) : Option CheckRef := do
  match ← j.record? ["column", "edge"] with
  | [some a, some b] => return ⟨← a.uint32?, ← link? b⟩
  | _ => none

def shapeRef? (j : Json) : Option ShapeRef := do
  match ← j.record? ["node", "dim", "len"] with
  | [some a, some b, some c] => return ⟨← a.text?, ← b.text?, ← c.uint64?⟩
  | _ => none

def layout? (j : Json) : Option Layout := do
  match ← j.record? ["root", "columns", "labels", "positional", "shapes"] with
  | [some r, some c, some t, some p, some s] =>
    return ⟨← r.text?, ← c.listOf? columnRef?, ← t.listOf? tableRef?, ← p.listOf? checkRef?,
      ← s.listOf? shapeRef?⟩
  | _ => none

def reference? (j : Json) : Option Reference := do
  match ← j.record? ["node", "var", "dims", "path"] with
  | [some a, some b, some c, some d] => return ⟨← a.text?, ← b.text?, ← texts? c, ← texts? d⟩
  | _ => none

def constant? : Json → Option (String × UInt64)
  | .list [a, b] => do return (← a.text?, ← b.uint64?)
  | _ => none

def request? (j : Json) : Option Request := do
  match ← j.record? ["version", "mode", "expressions", "references", "bindings", "constants"] with
  | [some v, some m, some e, some r, some b, some c] =>
    return ⟨← v.uint32?, ← mode? m, ← texts? e, ← r.listOf? reference?, ← layout? b,
      ← c.listOf? constant?⟩
  | _ => none

def tape? (j : Json) : Option Tape := do
  match ← j.record? ["mode", "ops", "p1", "p2", "p3", "imm", "outputs", "bindings"] with
  | [some m, some ops, some a, some b, some c, some i, some o, some l] =>
    return ⟨← mode? m, ← ops.listOf? opcode?, ← a.listOf? Json.uint32?, ← b.listOf? Json.uint32?,
      ← c.listOf? Json.uint32?, ← i.listOf? Json.uint64?, ← o.listOf? Json.uint32?, ← layout? l⟩
  | _ => none

def record? (j : Json) : Option Record := do
  match ← j.record? ["meta", "source", "program"] with
  | [some m, some s, some p] =>
    match ← m.record? ["digest", "mode", "created_unix", "inputs"] with
    | [some d, some mode, some t, some r] =>
      return ⟨← d.text?, ← mode? mode, ← t.uint64?, ← request? r, ← s.text?, ← tape? p⟩
    | _ => none
  | _ => none

end Stored

/-- The record in the bytes of a file. -/
def Record.ofBytes? (bytes : ByteArray) : Option Record := do
  let text ← String.fromUTF8? bytes
  Stored.record? (← Json.read? text.toList)

end LinkedTables
