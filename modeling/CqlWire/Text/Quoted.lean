namespace CqlWire.Quoted

/-- The lower-case letters from `a` to `z`. -/
def isLower (c : Char) : Bool := 'a' ≤ c && c ≤ 'z'

/-- Letters, digits and the underscore, as a plain identifier may continue. -/
def isPlainTail (c : Char) : Bool :=
  isLower c || ('0' ≤ c && c ≤ '9') || c == '_'

/-- Whether an identifier needs no quotes: a lower-case letter, then lower-case letters, digits
and underscores. -/
def isPlain : List Char → Bool
  | [] => false
  | c :: rest => isLower c && rest.all isPlainTail

/-- Writes each quote twice. -/
def double : List Char → List Char
  | [] => []
  | c :: rest => if c = '"' then '"' :: '"' :: double rest else c :: double rest

/-- An identifier as it stands in a statement, between quotes unless it is plain. -/
def identifier (name : String) : String :=
  if isPlain name.toList then name else String.ofList ('"' :: double name.toList ++ ['"'])

end CqlWire.Quoted
