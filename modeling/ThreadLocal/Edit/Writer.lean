import ThreadLocal.Edit.Patch
import ThreadLocal.Files.Access
import ThreadLocal.Log

/-!
Writing a plan to the files, one by one: a file that cannot be read, patched or written is recorded as a
failure and the others go on.
-/

namespace ThreadLocal

inductive WriteFault where
  | access (fault : AccessFault)
  | patch (fault : PatchFault)
  | disk (fault : SystemFault)
deriving DecidableEq, Repr

namespace WriteFault

def message : WriteFault → String
  | .access f => f.message
  | .patch f => f.message
  | .disk f => f.message

def kind : WriteFault → FaultKind
  | .access f => f.kind
  | .patch _ => .value
  | .disk _ => .system

end WriteFault

/-- What becomes of the files when a content is to be written at a location, and the refusal that kept it
from being written as a whole, if there was one. -/
abbrev Disk := Files → Location → Bytes → Files × Option SystemFault

/-- A disk that takes whatever is written. -/
def Disk.sound : Disk := fun fs l content => (fs.put l (.file content), none)

abbrev Failures := Table String WriteFault

/-- Patches the file at a path by its edits in ascending order: the files afterwards, and what went
wrong. -/
def Files.patchFile (disk : Disk) (fs : Files) (path : String) (edits : List Edit) :
    Files × Option WriteFault :=
  match fs.openFile path with
  | .error f => (fs, some (.access f))
  | .ok (l, content) =>
    match patch content (Edit.sort edits) with
    | .error f => (fs, some (.patch f))
    | .ok content =>
      let (after, fault) := disk fs l content
      (after, fault.map .disk)

/-- The state of writing: the files as they are, the failures so far, what was reported, and the fault that
ended the writing, if one did. -/
structure Writing where
  files : Files
  failures : Failures
  notices : List Notice
  escaped : Option WriteFault

namespace Writing

/-- The kinds of faults that stay with the file at which they arise; any other ends the writing. -/
def contained : List FaultKind := [.system, .value]

def write (disk : Disk) (r : Writing) (path : String) (edits : List Edit) : Writing :=
  if r.escaped.isSome ∨ edits.isEmpty then r
  else
    match r.files.patchFile disk path edits with
    | (fs, none) =>
      { r with files := fs, notices := r.notices ++ [.info "rewrote %s" [.str (fs.shown path)]] }
    | (fs, some f) =>
      if f.kind ∈ contained then
        { r with
          files := fs
          failures := Table.put r.failures path f
          notices := r.notices ++
            [.error "error rewriting %s: %s" [.str (fs.shown path), .str f.message]] }
      else { r with files := fs, escaped := some f }

end Writing

/-- Writes a plan; earlier failures stay unless the same path fails again. -/
def writePlan (fs : Files) (failures : Failures) (plan : Plan) (disk : Disk := Disk.sound) : Writing :=
  plan.foldl (fun r e => r.write disk e.1 e.2) ⟨fs, failures, [], none⟩

end ThreadLocal
