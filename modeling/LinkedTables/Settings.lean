import LinkedTables.ErrorKind
import LinkedTables.Json.Fields
import LinkedTables.Json.Reader
import LinkedTables.Text.Blank
import LinkedTables.Text.Quoted

/-!
# Settings

Where compiled kernels are kept, whether compilations are tracked, whether rows run in parallel, and
how many rows one block gets at least. They come from JSON or from variables of the environment;
what is not given has its default. A block of no rows is refused.
-/

namespace LinkedTables

structure Settings where
  cacheDir : Option String
  track : Bool
  parallel : Bool
  minRows : UInt64
  deriving DecidableEq, Repr

inductive SettingsFault where
  | unreadable
  | badValue (key value : String)
  deriving DecidableEq, Repr

def SettingsFault.message : SettingsFault → String
  | unreadable => "invalid configuration"
  | badValue key value => s!"invalid configuration {key}={Text.quoted value}"

namespace Settings

def default : Settings := ⟨none, false, true, 4096⟩

def validated (s : Settings) : Except SettingsFault Settings :=
  if s.minRows = 0 then .error (.badValue "min_rows_per_task" "0") else .ok s

section Json

/-- A value that may be left out. -/
def orDefault {α : Type} (fallback : α) (read : Json → Option α) : Option Json → Option α
  | none => some fallback
  | some j => read j

def path? : Json → Option (Option String)
  | .null => some none
  | .text s => some (some s)
  | _ => none

def ofJson? (j : Json) : Option Settings := do
  match ← j.record? ["cache_dir", "track_compilation", "parallel", "min_rows_per_task"] with
  | [dir, track, parallel, rows] =>
    return {
      cacheDir := ← orDefault default.cacheDir path? dir
      track := ← orDefault default.track Json.bool? track
      parallel := ← orDefault default.parallel Json.bool? parallel
      minRows := ← orDefault default.minRows Json.uint64? rows }
  | _ => none

def read (text : String) : Except SettingsFault Settings :=
  match (Json.read? text.toList).bind ofJson? with
  | some s => s.validated
  | none => .error .unreadable

end Json

section Environment

/-- The names of the variables. -/
def dirKey : String := "SHARROW_CACHE_DIR"
def trackKey : String := "SHARROW_TRACK_COMPILATION"
def parallelKey : String := "SHARROW_PARALLEL"
def rowsKey : String := "SHARROW_MIN_ROWS_PER_TASK"

/-- A truth value, in letters of either case; the empty text is false. -/
def flag (key value : String) : Except SettingsFault Bool :=
  match String.ofList ((Text.trim value.toList).map Char.toLower) with
  | "1" | "true" | "yes" | "on" => .ok true
  | "0" | "false" | "no" | "off" | "" => .ok false
  | _ => .error (.badValue key value)

def rowCount (key value : String) : Except SettingsFault UInt64 :=
  match Text.numeral? 10 Text.bound64 (Text.trim value.toList) with
  | some n => .ok (UInt64.ofNat n)
  | none => .error (.badValue key value)

/-- Changes the settings by the value of a variable, if it is set. -/
def onSet (value : Option String) (s : Settings)
    (f : String → Except SettingsFault Settings) : Except SettingsFault Settings :=
  match value with
  | some v => f v
  | none => .ok s

def ofEnvironment (get : String → Option String) : Except SettingsFault Settings := do
  let s ← onSet (get dirKey) default fun v =>
    .ok { default with cacheDir := if v.isEmpty then none else some v }
  let s ← onSet (get trackKey) s fun v => do return { s with track := ← flag trackKey v }
  let s ← onSet (get parallelKey) s fun v => do return { s with parallel := ← flag parallelKey v }
  let s ← onSet (get rowsKey) s fun v => do return { s with minRows := ← rowCount rowsKey v }
  s.validated

end Environment

end Settings

end LinkedTables
