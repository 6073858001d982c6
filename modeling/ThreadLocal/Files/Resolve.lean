import ThreadLocal.Files.Walk
import ThreadLocal.Text.Quoted

/-!
The canonical location of a path: absolute, with every symbolic link followed and no double dots. The path
need not exist.
-/

namespace ThreadLocal

inductive ResolveFault where
  | embeddedNul
  | symlinkLoop (path : String)
deriving DecidableEq, Repr

def ResolveFault.message : ResolveFault → String
  | .embeddedNul => "embedded null byte"
  | .symlinkLoop path => "Symlink loop from " ++ quoted path

def hasNul (s : String) : Bool :=
  s.toList.contains '\x00'

namespace Files

/-- Takes double dots as text, without looking at what stands there. -/
def lexical (parts : List String) : Location :=
  (parts.foldl (fun done name =>
    if name = "" ∨ name = "." then done else if name = ".." then done.tail else name :: done) []).reverse

/-- A way that ends in a loop is taken as text from there; only if it still loops then is it refused. -/
def resolve (fs : Files) (p : Path) : Except ResolveFault Location :=
  if p.parts.any hasNul then .error .embeddedNul
  else
    match fs.walk .tolerant (fs.start p.anchor) p.parts with
    | .ok l => .ok l
    | .error (.loop parts) =>
      let l := lexical parts
      match fs.walk .strict [] l with
      | .error (.loop _) => .error (.symlinkLoop l.text)
      | _ => .ok l
    | .error _ => .ok (lexical p.parts)

/-- The canonical form of a path written as text. -/
def canonical (fs : Files) (path : String) : Except ResolveFault String :=
  (fs.resolve (Path.ofText path)).map Location.text

/-- Whether a path lies at or below the location `root` once resolved. -/
def isWithin (fs : Files) (path : String) (root : Location) : Except ResolveFault Bool :=
  (fs.resolve (Path.ofText path)).map root.isWithin

/-- The canonical forms of some paths, each once, in the order of first occurrence. -/
def canonicalOnce (fs : Files) (paths : List Path) : Except ResolveFault (List String) :=
  (paths.mapM fun p => (fs.resolve p).map Location.text).map distinct

end Files
end ThreadLocal
