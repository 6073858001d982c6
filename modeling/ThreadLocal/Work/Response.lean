import ThreadLocal.Edit.Basic
import ThreadLocal.Json.Reader
import ThreadLocal.Json.Writer
import ThreadLocal.Text.Integer
import ThreadLocal.Text.Quoted

/-!
What a worker answers: a JSON array with one object for each proposal. An answer is accepted only if every
object has exactly the fields of a proposal; only then are negative numbers looked for.
-/

namespace ThreadLocal

inductive FieldFault where
  | missing
  | isNull
  | notText
  | notInteger
  | tooLarge
  | unknown
deriving DecidableEq, Repr

def FieldFault.message : FieldFault → String
  | .missing => "Missing data for required field."
  | .isNull => "Field may not be null."
  | .notText => "Not a valid string."
  | .notInteger => "Not a valid integer."
  | .tooLarge => "Number too large."
  | .unknown => "Unknown field."

inductive RecordFault where
  | notObject
  | fields (faults : List (String × FieldFault))
deriving DecidableEq, Repr

inductive SchemaFault where
  | notArray
  | records (faults : List (Nat × RecordFault))
deriving DecidableEq, Repr

namespace Response

def bracketed (entries : List String) : String :=
  "\x7b" ++ ", ".intercalate entries ++ "\x7d"

/-- An entry whose only message is `message`. -/
def entryText (key message : String) : String :=
  key ++ ": [" ++ quoted message ++ "]"

end Response

def RecordFault.message : RecordFault → String
  | .notObject => Response.bracketed [Response.entryText (quoted "_schema") "Invalid input type."]
  | .fields faults => Response.bracketed (faults.map fun f => Response.entryText (quoted f.1) f.2.message)

def SchemaFault.message : SchemaFault → String
  | .notArray => Response.bracketed [Response.entryText (quoted "_schema") "Invalid input type."]
  | .records faults => Response.bracketed (faults.map fun f => toString f.1 ++ ": " ++ f.2.message)

inductive ResponseFault where
  | syntaxError (fault : Json.SyntaxError)
  | schema (fault : SchemaFault)
  | negativeSpan (fault : NegativeSpan)
deriving DecidableEq, Repr

def ResponseFault.message : ResponseFault → String
  | .syntaxError f => f.message
  | .schema f => f.message
  | .negativeSpan f => f.message

namespace Response

def toJson (p : Proposal) : Json :=
  .obj [("path", .str p.path), ("offset", .int p.offset), ("length", .int p.length), ("text", .str p.text)]

def encode (proposals : List Proposal) : String :=
  (Json.arr (proposals.map toJson)).text

def textField : Json → Except FieldFault String
  | .str s => .ok s
  | .null => .error .isNull
  | _ => .error .notText

/-- Integers may be written as numbers with a fraction, which is dropped, or as texts. -/
def integerField : Json → Except FieldFault Int
  | .int i => .ok i
  | .float (.finite negative mantissa exponent) => .ok (Binary64.truncate negative mantissa exponent)
  | .float (.infinite _) => .error .tooLarge
  | .str s => match Integer.read? s.toList with
    | some i => .ok i
    | none => .error .notInteger
  | .null => .error .isNull
  | _ => .error .notInteger

def fieldNames : List String := ["path", "offset", "length", "text"]

/-- The value of a field by its reader, or the fault with its name. -/
def field {α : Type} (fields : List (String × Json)) (name : String) (reader : Json → Except FieldFault α) :
    Except (String × FieldFault) α :=
  match Table.get? fields name with
  | none => .error (name, .missing)
  | some x => (reader x).mapError fun f => (name, f)

def faultOf {ε α : Type} : Except ε α → Option ε
  | .error e => some e
  | .ok _ => none

/-- The fields of a record, numbers as they stand; unknown fields are reported after the known ones. -/
def record : Json → Except RecordFault (String × Int × Int × String)
  | .obj fields =>
    let path := field fields "path" textField
    let offset := field fields "offset" integerField
    let length := field fields "length" integerField
    let text := field fields "text" textField
    let unknown := (fields.filter fun f => f.1 ∉ fieldNames).map fun f => (f.1, FieldFault.unknown)
    let faults := [faultOf path, faultOf offset, faultOf length, faultOf text].filterMap id ++ unknown
    match path, offset, length, text, faults with
    | .ok path, .ok offset, .ok length, .ok text, [] => .ok (path, offset, length, text)
    | _, _, _, _, faults => .error (.fields faults)
  | _ => .error .notObject

/-- The faults of the records, each with the index of its record. -/
def recordFaults (items : List Json) : List (Nat × RecordFault) :=
  items.zipIdx.filterMap fun e => (faultOf (record e.1)).map fun f => (e.2, f)

def proposals (items : List Json) : Except NegativeSpan (List Proposal) :=
  items.filterMap (fun x => (record x).toOption) |>.mapM fun r => Proposal.make r.1 r.2.1 r.2.2.1 r.2.2.2

def ofJson : Json → Except ResponseFault (List Proposal)
  | .arr items =>
    match recordFaults items with
    | [] => (proposals items).mapError .negativeSpan
    | faults => .error (.schema (.records faults))
  | _ => .error (.schema .notArray)

def decode (s : String) : Except ResponseFault (List Proposal) :=
  match Json.read s with
  | .error f => .error (.syntaxError f)
  | .ok x => ofJson x

end Response
end ThreadLocal
