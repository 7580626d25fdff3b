import CqlWire.Text.Numeral

namespace CqlWire

/-- What a text of settings or definitions says, as far as either can use it. -/
inductive Document where
  | null
  | natural (n : Nat)
  /-- A number that is marked as null: it is no number where there may be none. -/
  | voidNatural (n : Nat)
  | text (s : String)
  /-- A scalar that is none of these, such as a fraction. -/
  | other
  | sequence (items : List Document)
  | mapping (entries : List (Document × Document))
deriving Repr, Inhabited

namespace Document

/-- A number of 64 bits. -/
def word? : Document → Option Nat
  | natural n | voidNatural n => if n < UInt64.size then some n else none
  | _ => none

/-- A number of 64 bits where there may be none. -/
def wordOrNull? : Document → Option (Option Nat)
  | null => some none
  | voidNatural _ => none
  | d => d.word?.map some

/-- The characters of a text. -/
def text? : Document → Option String
  | text s => some s
  | _ => none

/-- The items of a sequence. -/
def sequence? : Document → Option (List Document)
  | sequence items => some items
  | _ => none

/-- Whether a document has keys. -/
def isMapping : Document → Bool
  | mapping _ => true
  | _ => false

/-- Whether a key can stand in a record: a null or a number is no name, but harmless. -/
def isKey : Document → Bool
  | null | natural _ | voidNatural _ | text _ => true
  | _ => false

/-- Whether a key is a name. -/
def isNamed (name : String) (key : Document) : Bool :=
  key.text? = some name

/-- The value of a name, if there is one; nothing at all for a name given twice. -/
def member? (entries : List (Document × Document)) (name : String) : Option (Option Document) :=
  match entries.filter fun e => isNamed name e.1 with
  | [] => some none
  | [e] => some (some e.2)
  | _ => none

/-- The fields of a record, by name or in the order of the names. Other names are ignored; a
sequence may be short but not long. -/
def record? (names : List String) : Document → Option (List (Option Document))
  | sequence items =>
    if items.length ≤ names.length then
      some (items.map some ++ List.replicate (names.length - items.length) none)
    else none
  | mapping entries =>
    if entries.all fun e => e.1.isKey then names.mapM (member? entries) else none
  | _ => none

end Document

end CqlWire
