import ThreadLocal.Files.Access

/-!
File contents read at most once: whatever was read successfully for a path stays its content, and a failed
reading is tried again. All offsets count bytes.
-/

namespace ThreadLocal

abbrev Contents := Table String Bytes

inductive FragmentFault where
  | access (fault : AccessFault)
  | outside (low high : Int) (path : String) (size : Nat)
deriving DecidableEq, Repr

def FragmentFault.message : FragmentFault → String
  | .access f => f.message
  | .outside low high path size =>
    "Span [" ++ toString low ++ ", " ++ toString high ++ ") outside " ++ path ++ " (" ++ toString size ++ " bytes)"

namespace Contents

/-- The content of a file and what is remembered afterwards. -/
def read (known : Contents) (fs : Files) (path : String) : Except AccessFault Bytes × Contents :=
  match Table.get? known path with
  | some content => (.ok content, known)
  | none =>
    match fs.read path with
    | .ok content => (.ok content, Table.put known path content)
    | .error f => (.error f, known)

/-- The bytes from `low` up to `high`. -/
def fragment (known : Contents) (fs : Files) (path : String) (low high : Int) :
    Except FragmentFault Bytes × Contents :=
  match known.read fs path with
  | (.error f, known) => (.error (.access f), known)
  | (.ok content, known) =>
    if 0 ≤ low ∧ low ≤ high ∧ high ≤ content.length then
      (.ok ((content.drop low.toNat).take (high - low).toNat), known)
    else (.error (.outside low high path content.length), known)

def position (known : Contents) (fs : Files) (path : String) (offset : Int) :
    Except AccessFault Position × Contents :=
  match known.read fs path with
  | (.error f, known) => (.error f, known)
  | (.ok content, known) => (.ok (content.position offset), known)

end Contents
end ThreadLocal
