/-!
Arguments of a command: options with long and short names, values joined to them or following them, and
operands. Two dashes end the options.
-/

namespace ThreadLocal

/-- The names of an option and whether it takes a value. -/
structure OptionForm where
  names : List String
  takesValue : Bool
deriving DecidableEq, Repr

inductive ArgumentFault where
  | noSuchOption (name : String)
  | needsValue (name : String)
  | takesNoValue (name : String)
deriving DecidableEq, Repr

/-- An option as it was given; a flag has no value. -/
structure Occurrence where
  option : OptionForm
  value : Option String
deriving DecidableEq, Repr

/-- What one argument says: options, and the option whose value has to follow. -/
structure Reading where
  occurrences : List Occurrence
  pending : Option (String × OptionForm)
deriving DecidableEq, Repr

namespace Arguments

def find? (declared : List OptionForm) (name : String) : Option OptionForm :=
  declared.find? fun d => name ∈ d.names

def isLong : List Char → Bool
  | '-' :: '-' :: _ => true
  | _ => false

/-- Reads a long option, perhaps with its value after an equals sign. -/
def long? (declared : List OptionForm) (argument : List Char) : Option (Except ArgumentFault Reading) :=
  let name := String.ofList (argument.takeWhile (· ≠ '='))
  let value := (argument.dropWhile (· ≠ '=')).tail?.map String.ofList
  (find? declared name).map fun d =>
    match d.takesValue, value with
    | true, some v => .ok ⟨[⟨d, some v⟩], none⟩
    | true, none => .ok ⟨[], some (name, d)⟩
    | false, some _ => .error (.takesNoValue name)
    | false, none => .ok ⟨[⟨d, none⟩], none⟩

/-- Reads a group of one-letter options; the first that takes a value takes the rest of the group. -/
def short (declared : List OptionForm) : List Char → Except ArgumentFault Reading
  | [] => .ok ⟨[], none⟩
  | c :: rest =>
    let name := String.ofList ['-', c]
    match find? declared name with
    | none => .error (.noSuchOption name)
    | some d =>
      if d.takesValue then
        if rest = [] then .ok ⟨[], some (name, d)⟩ else .ok ⟨[⟨d, some (String.ofList rest)⟩], none⟩
      else
        match short declared rest with
        | .error f => .error f
        | .ok r => .ok ⟨⟨d, none⟩ :: r.occurrences, r.pending⟩

/-- Reads an argument that starts with a dash. -/
def reading (declared : List OptionForm) (argument : List Char) : Except ArgumentFault Reading :=
  if isLong argument then
    match long? declared argument with
    | some r => r
    | none => .error (.noSuchOption (String.ofList (argument.takeWhile (· ≠ '='))))
  else short declared (argument.drop 1)

def isOption : List Char → Bool
  | '-' :: _ :: _ => true
  | _ => false

/-- The options given, in order, and the operands. With `mixed`, options may follow operands; without, the
first operand ends them. -/
def parse (declared : List OptionForm) (mixed : Bool) :
    List String → Except ArgumentFault (List Occurrence × List String)
  | [] => .ok ([], [])
  | argument :: rest =>
    if argument = "--" then .ok ([], rest)
    else if isOption argument.toList then
      match reading declared argument.toList with
      | .error f => .error f
      | .ok r =>
        match r.pending, rest with
        | none, rest =>
          (parse declared mixed rest).map fun p => (r.occurrences ++ p.1, p.2)
        | some (name, _), [] => .error (.needsValue name)
        | some (_, d), value :: rest =>
          (parse declared mixed rest).map fun p => (r.occurrences ++ ⟨d, some value⟩ :: p.1, p.2)
    else if mixed then (parse declared mixed rest).map fun p => (p.1, argument :: p.2)
    else .ok ([], argument :: rest)

end Arguments
end ThreadLocal
