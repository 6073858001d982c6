import ThreadLocal.Files.Basic

/-!
Walking down a path, component by component, with symbolic links followed where they are met and double
dots taken after that. A strict walk needs every component to exist; a tolerant one keeps what does not.
-/

namespace ThreadLocal

/-- Why a walk stops. A loop keeps the components from the link met twice on, not looked at further. -/
inductive Stop where
  | missing
  | notDirectory
  | loop (place : List String)
deriving DecidableEq, Repr

inductive Manner where
  | strict
  | tolerant
deriving DecidableEq, Repr

namespace Files

/-- The directory from which a path starts. -/
def start (fs : Files) (anchor : Anchor) : Location :=
  if anchor = .relative then fs.here else []

/-- The components of a path as they stand, with an empty one for a slash at the end. -/
def pieces (path : String) : List String :=
  (slashPieces path.toList).map String.ofList

/-- Appends components that were not walked to the place of a loop. -/
def Stop.extend (rest : List String) : Stop → Stop
  | .loop l => .loop (l ++ rest)
  | s => s

/-- Walks with `follow` for links: it is given the link's place, the rest of the way and the target. -/
def walkWith (fs : Files) (m : Manner) (follow : Location → List String → String → Except Stop Location) :
    Location → List String → Except Stop Location
  | here, [] => .ok here
  | here, name :: rest =>
    if m = .strict ∧ fs.entryAt? here ≠ some .directory then .error .notDirectory
    else if name = "" ∨ name = "." then walkWith fs m follow here rest
    else if name = ".." then walkWith fs m follow here.dropLast rest
    else
      match fs.entryAt? (here ++ [name]) with
      | some (.link target) =>
        match follow (here ++ [name]) rest target with
        | .error s => .error s
        | .ok l => walkWith fs m follow l rest
      | some _ => walkWith fs m follow (here ++ [name]) rest
      | none =>
        match m with
        | .strict => .error .missing
        | .tolerant => walkWith fs m follow (here ++ [name]) rest

/-- Walks with at most `depth` links inside one another. A link met while it is being followed is a
loop. -/
def walkWithin (fs : Files) (m : Manner) : (depth : Nat) → (active : List Location) →
    Location → List String → Except Stop Location
  | 0, _ => fs.walkWith m fun link rest _ => .error (.loop (link ++ rest))
  | depth + 1, active => fs.walkWith m fun link rest target =>
    if link ∈ active then .error (.loop (link ++ rest))
    else
      let base := if (Path.ofText target).isAbsolute then [] else link.dropLast
      (walkWithin fs m depth (link :: active) base (pieces target)).mapError (Stop.extend rest)

/-- No more links than there are entries can stand inside one another without a loop. -/
def walk (fs : Files) (m : Manner) (base : Location) (parts : List String) : Except Stop Location :=
  fs.walkWithin m (fs.entries.length + 1) [] base parts

end Files
end ThreadLocal
