import ThreadLocal.Path
import ThreadLocal.Table
import ThreadLocal.Text.Utf8

/-!
A file system as a value: what stands at each location, and the current directory.
-/

namespace ThreadLocal

inductive Entry where
  | file (content : Bytes)
  | directory
  | link (target : String)
deriving DecidableEq, Repr

structure Files where
  entries : Table Location Entry
  here : Location
deriving DecidableEq, Repr

namespace Files

/-- The root directory is always there. -/
def entryAt? (fs : Files) (l : Location) : Option Entry :=
  if l = [] then some .directory else Table.get? fs.entries l

def put (fs : Files) (l : Location) (e : Entry) : Files :=
  { fs with entries := Table.put fs.entries l e }

def remove (fs : Files) (l : Location) : Files :=
  { fs with entries := Table.erase fs.entries l }

/-- The directories above a location, outermost first. -/
def above : Location → List Location
  | [] => []
  | name :: rest => [] :: (above rest).map (name :: ·)

/-- Makes `l` and every missing directory above it a directory. -/
def makeDirectory (fs : Files) (l : Location) : Files :=
  (above l ++ [l]).foldl (fun fs d => if (fs.entryAt? d).isSome then fs else fs.put d .directory) fs

/-- Puts an entry at a location and the missing directories above it. -/
def install (fs : Files) (l : Location) (e : Entry) : Files :=
  (fs.makeDirectory l.dropLast).put l e

/-- Every regular file with its content. -/
def contents (fs : Files) : List (Location × Bytes) :=
  fs.entries.filterMap fun
    | (l, .file content) => some (l, content)
    | _ => none

/-- How messages name a path in this file system. -/
def shown (fs : Files) (path : String) : String :=
  shownFrom fs.here path

theorem entryAt?_put (fs : Files) {l : Location} (other : Location) (e : Entry) (h : l ≠ []) :
    (fs.put l e).entryAt? other = if l = other then some e else fs.entryAt? other := by
  simp only [entryAt?, put, Table.get?_put]
  by_cases ho : other = []
  · subst ho
    simp [h]
  · simp [ho]

end Files
end ThreadLocal
