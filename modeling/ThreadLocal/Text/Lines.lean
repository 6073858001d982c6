/-!
Line ends: carriage returns, alone or before a newline, are read as newlines.
-/

namespace ThreadLocal

/-- The text with every line end written as a newline. -/
def unifyLineEnds : List Char → List Char
  | [] => []
  | '\r' :: '\n' :: rest => '\n' :: unifyLineEnds rest
  | '\r' :: rest => '\n' :: unifyLineEnds rest
  | c :: rest => c :: unifyLineEnds rest

end ThreadLocal
