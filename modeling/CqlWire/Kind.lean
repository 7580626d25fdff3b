namespace CqlWire

/-- The letters `A` to `Z` made small, all else kept. -/
def lowerAscii (s : String) : String :=
  String.ofList (s.toList.map Char.toLower)

/-- The kinds of leaf values. -/
inductive Kind where
  | ascii | text | boolean | tinyint | smallint | int | bigint | float | double | timestamp | date
  | time | uuid | timeuuid | inet | blob | varint | decimal | empty
deriving DecidableEq, Repr

namespace Kind

/-- Every kind, in the order of the binary tags. -/
def all : List Kind :=
  [ascii, text, boolean, tinyint, smallint, int, bigint, float, double, timestamp, date, time, uuid,
    timeuuid, inet, blob, varint, decimal, empty]

/-- The name of a kind in type names. -/
def name : Kind → String
  | ascii => "ascii"
  | text => "text"
  | boolean => "boolean"
  | tinyint => "tinyint"
  | smallint => "smallint"
  | int => "int"
  | bigint => "bigint"
  | float => "float"
  | double => "double"
  | timestamp => "timestamp"
  | date => "date"
  | time => "time"
  | uuid => "uuid"
  | timeuuid => "timeuuid"
  | inet => "inet"
  | blob => "blob"
  | varint => "varint"
  | decimal => "decimal"
  | empty => "empty"

/-- The number of bytes of every value of the kind; `none` where it varies. -/
def fixedSize? : Kind → Option Nat
  | boolean | tinyint => some 1
  | smallint => some 2
  | int | float | date => some 4
  | bigint | double | timestamp | time => some 8
  | uuid | timeuuid => some 16
  | empty => some 0
  | ascii | text | inet | blob | varint | decimal => none

/-- Whether no bytes at all are a value of the kind. -/
def allowsEmpty : Kind → Bool
  | ascii | text | blob | empty => true
  | _ => false

/-- Whether encodings sort byte by byte in the order of the values. -/
def isByteOrdered : Kind → Bool
  | ascii | text | blob | boolean | date | empty => true
  | _ => false

/-- What a word means as the name of a leaf type. -/
inductive Meaning where
  | known (kind : Kind)
  /-- A leaf type that has no encoding here. -/
  | unsupported (name : String)
  | other
deriving DecidableEq, Repr

/-- Reads a lower-case word; `varchar` is another name of `text`. -/
def ofWord (word : String) : Meaning :=
  if word = "varchar" then .known text
  else if word = "counter" ∨ word = "duration" then .unsupported word
  else
    match all.find? fun kind => kind.name = word with
    | some kind => .known kind
    | none => .other

/-- Reads a word in any case. -/
def ofName (name : String) : Meaning :=
  ofWord (lowerAscii name)

theorem mem_all (kind : Kind) : kind ∈ all := by
  cases kind <;> decide

theorem ofWord_name (kind : Kind) : ofWord kind.name = .known kind := by
  cases kind <;> decide

end Kind

end CqlWire
