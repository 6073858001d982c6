import ThreadLocal.Decimal.Shortest
import ThreadLocal.Table

/-!
Values of JSON texts. Numbers with a point or an exponent are floating-point numbers, all others integers.
-/

namespace ThreadLocal

/-- The fields of an object have distinct names. -/
inductive Json where
  | null
  | bool (b : Bool)
  | int (i : Int)
  | float (x : Binary64)
  | str (s : String)
  | arr (items : List Json)
  | obj (fields : List (String × Json))
deriving Repr

namespace Json

instance : Inhabited Json := ⟨.null⟩

def field? : Json → String → Option Json
  | .obj fields, name => Table.get? fields name
  | _, _ => none

def isNull : Json → Bool
  | .null => true
  | _ => false

/-- Whether a value counts as given: not null, false, zero or empty. -/
def isTruthy : Json → Bool
  | .null => false
  | .bool b => b
  | .int i => i ≠ 0
  | .float (.finite _ mantissa _) => mantissa ≠ 0
  | .float _ => true
  | .str s => s ≠ ""
  | .arr items => !items.isEmpty
  | .obj fields => !fields.isEmpty

/-- The name of a value's kind, as error texts give it. -/
def kindName : Json → String
  | .null => "NoneType"
  | .bool _ => "bool"
  | .int _ => "int"
  | .float _ => "float"
  | .str _ => "str"
  | .arr _ => "list"
  | .obj _ => "dict"

end Json
end ThreadLocal
