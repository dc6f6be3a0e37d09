import LinkedTables.Cache.Directory
import LinkedTables.Text.Blank

/-!
# Directories in a tree

All directories stand in one tree of folders. A path leads from the top of the tree down, one name
after the other, and the directory at its end is what the tree has there: a folder, nothing yet, or
nothing that can be used, since a file stands at the end or on the way.

The file of a record is named after the record's own key, whatever that is. A key with slashes is a
way to go from the directory, and its file stands at the end of the way if every folder on it is
there. The way may lead out of the directory.
-/

namespace LinkedTables

abbrev Path := List String

/-- A name that is no step to another folder. -/
def Path.isIdle (step : String) : Bool := step == "" || step == "."

/-- The names between the slashes of a text. -/
def Path.ofText (text : String) : Path :=
  ((Text.pieces (· == '/') text.toList).map String.ofList).filter fun name => !isIdle name

namespace Entry

/-- The directory at the end of a path. -/
def directory : Entry → Path → Directory
  | file _, _ => .blocked
  | folder entries, [] => .folder entries
  | folder entries, name :: rest =>
    match entries.lookup name with
    | some e => e.directory rest
    | none => .absent

/-- The tree with an entry at the end of a path; folders on the way are made if need be. -/
def withEntry (e : Entry) : Path → Entry → Entry
  | [], _ => e
  | _ :: _, file bytes => file bytes
  | name :: rest, folder entries =>
    let inner := withEntry e rest ((entries.lookup name).getD (folder []))
    folder (Directory.put name inner entries)

/-- The tree with a directory at the end of a path, if it is one. -/
def withDirectory (top : Entry) (path : Path) : Directory → Entry
  | .folder entries => withEntry (folder entries) path top
  | _ => top

/-- The tree with a directory at the end of a path that can be used, made if need be. -/
def openAt? (top : Entry) (path : Path) : Option Entry :=
  (top.directory path).open?.map (top.withDirectory path)

/-- The folder that some steps lead to: two dots lead to the folder around, a name to a folder. -/
def walk? (top : Entry) (here : Path) : List String → Option Path
  | [] => some here
  | step :: rest =>
    if Path.isIdle step then top.walk? here rest
    else if step == ".." then top.walk? here.dropLast rest
    else match top.directory (here ++ [step]) with
      | .folder _ => top.walk? (here ++ [step]) rest
      | _ => none

/-- The tree with a record stored from a directory, which must be there. -/
def store? (top : Entry) (path : Path) (r : Record) : Option Entry :=
  let steps := (Text.pieces (· == '/') (Directory.fileName r.digest).toList).map String.ofList
  let start := if r.digest.toList.head? == some '/' then [] else path
  match top.directory path with
  | .folder _ =>
    (top.walk? start steps.dropLast).bind fun target =>
      ((top.directory target).write? (steps.getLastD "") r.text.toUTF8).map
        (top.withDirectory target)
  | _ => none

end Entry

/-- A way without the idle steps in front. -/
def Path.trimmed : List Char → List Char
  | '/' :: cs => trimmed cs
  | '.' :: '/' :: cs => trimmed cs
  | cs => cs

/-- How the file of a key is called in the directory that it is stored from. -/
def Directory.shownName (key : String) : String :=
  match (fileName key).toList with
  | '/' :: cs => String.ofList ('/' :: cs)
  | cs => String.ofList (Path.trimmed cs)

end LinkedTables
