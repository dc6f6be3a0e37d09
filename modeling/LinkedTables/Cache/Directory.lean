import LinkedTables.Cache.Record

/-!
# Directories of stored kernels

A directory has one file per kernel, named after the key. It may not be there yet, and something
else may stand in its way, so that it cannot be used. A file may hold anything: what is no artifact
under its name counts as not being there.
-/

namespace LinkedTables

inductive Entry where
  | file (bytes : ByteArray)
  /-- Entries under distinct names. -/
  | folder (entries : List (String × Entry))

inductive Directory where
  | absent
  | blocked
  /-- Entries under distinct names. -/
  | folder (entries : List (String × Entry))

def Entry.isFolder : Entry → Bool
  | file _ => false
  | folder _ => true

namespace Directory

def fileName (key : String) : String := key ++ ".kernel.json"

/-- A name that a file can have. -/
def isFileName (name : String) : Bool :=
  name.toList.all (fun c => c != '/' && c != '\x00') && name.utf8ByteSize ≤ 255

/-- The directory made if need be; a blocked one cannot be. -/
def open? : Directory → Option Directory
  | absent => some (folder [])
  | blocked => none
  | folder entries => some (folder entries)

def entry? (d : Directory) (name : String) : Option Entry :=
  match d with
  | folder entries => entries.lookup name
  | _ => none

/-- Puts an entry in the place of the one with its name. -/
def put (name : String) (e : Entry) (entries : List (String × Entry)) : List (String × Entry) :=
  (name, e) :: entries.filter fun (n, _) => n != name

/-- The directory with one more entry, if it is one. -/
def withEntry (d : Directory) (name : String) (e : Entry) : Directory :=
  match d with
  | folder entries => folder (put name e entries)
  | _ => d

def withoutEntry (d : Directory) (name : String) : Directory :=
  match d with
  | folder entries => folder (entries.filter fun (n, _) => n != name)
  | _ => d

/-- The names of the entries in ascending order. -/
def names : Directory → List String
  | folder entries => (entries.map (·.1)).mergeSort fun a b => decide (a ≤ b)
  | _ => []

def contains (d : Directory) (key : String) : Bool :=
  match d.entry? (fileName key) with
  | some (.file _) => true
  | _ => false

/-- The artifact stored under a key. -/
def load? (d : Directory) (key : String) : Option Artifact :=
  match d.entry? (fileName key) with
  | some (.file bytes) => (Record.ofBytes? bytes).bind fun r => r.artifact? key
  | _ => none

/-- The directory with a file; nothing is written over a folder. -/
def write? (d : Directory) (name : String) (bytes : ByteArray) : Option Directory :=
  match d with
  | folder _ =>
    if !isFileName name || (d.entry? name).any Entry.isFolder then none
    else some (d.withEntry name (.file bytes))
  | _ => none

/-- The directory with a record stored under the record's own key. -/
def store? (d : Directory) (r : Record) : Option Directory :=
  d.write? (fileName r.digest) r.text.toUTF8

end Directory

end LinkedTables
