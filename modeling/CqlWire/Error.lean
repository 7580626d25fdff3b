import CqlWire.Kind
import CqlWire.Uuid

namespace CqlWire

/-- Why bytes, or a value to be written, are malformed. -/
inductive Malformation where
  | shortRead (need offset left : Nat)
  | negativeCount (count : Int)
  | countTooLarge (count : Nat)
  | payloadTooLarge (length : Nat)
  | wrongSize (kind : Kind) (size found : Nat)
  | addressSize (found : Nat)
  | timeOutsideDay (nanos : Int64)
  | notVersionOne (uuid : Uuid)
  | emptyVarint
  | shortDecimal (found : Nat)
  | trailingAt (count offset : Nat)
  | trailingAfterHolder (count : Nat) (type : String)
  | trailingAfterType (count : Nat) (type : String)
  | deepType (limit : Nat)
  | unknownTag (tag : UInt8)
  | nullText
deriving DecidableEq, Repr

/-- Why a text is no type name. -/
inductive NameFault where
  | expected (want : Char) (found : Option Char)
  | expectedName
  | expectedSeparator
  | openQuote
  | wrongArity (want found : Nat)
  | deepNesting (limit : Nat)
  | trailing
deriving DecidableEq, Repr

/-- Everything that can go wrong. -/
inductive Error where
  | malformed (cause : Malformation)
  | schemaMismatch (type : String) (expected found : Nat)
  | notRegistered (keyspace name : String)
  | unsupported (type : String)
  | mismatch (expected found : String)
  | invalidUtf8 (subject : String)
  | badTypeName (input : String) (fault : NameFault) (offset : Nat)
  | missingFile
  | invalidJson
  | invalidYaml
  /-- The registered definitions refer to each other without end. -/
  | endlessType (keyspace name : String)
  /-- A decoder may not follow as many values within one another as there are. -/
  | outOfDepth
  /-- More is to be held in one block of memory than any block can hold. -/
  | capacityOverflow
deriving DecidableEq, Repr

/-- The wording of a malformation. -/
def Malformation.message : Malformation → String
  | shortRead need offset left => s!"need {need} bytes at offset {offset}, have {left}"
  | negativeCount count => s!"negative count {count}"
  | countTooLarge count => s!"count {count} exceeds i32"
  | payloadTooLarge length => s!"value of {length} bytes exceeds i32"
  | wrongSize kind size found => s!"{kind.name} needs {size} bytes, have {found}"
  | addressSize found => s!"inet needs 4 or 16 bytes, have {found}"
  | timeOutsideDay nanos => s!"time {nanos.toInt} outside one day"
  | notVersionOne uuid => s!"{uuid.toText} is not a version 1 UUID"
  | emptyVarint => "empty varint"
  | shortDecimal found => s!"decimal needs at least 5 bytes, have {found}"
  | trailingAt count offset => s!"{count} trailing bytes at offset {offset}"
  | trailingAfterHolder count type => s!"{count} trailing bytes after {type}"
  | trailingAfterType count type => s!"{count} trailing bytes after type {type}"
  | deepType limit => s!"type nesting deeper than {limit}"
  | unknownTag tag => "unknown type tag 0x" ++ String.ofList (Hex.ofByte tag)
  | nullText => "null string in type descriptor"

/-- The wording of a fault in a type name. -/
def NameFault.message : NameFault → String
  | expected want (some found) => s!"expected '{want}', found '{found}'"
  | expected want none => s!"expected '{want}', found end of input"
  | expectedName => "expected a type name"
  | expectedSeparator => "expected ',' or '>'"
  | openQuote => "unterminated quoted identifier"
  | wrongArity want found => s!"expected {want} type argument(s), found {found}"
  | deepNesting limit => s!"nesting deeper than {limit}"
  | trailing => "trailing characters"

/-- What the operating system says of a file that is not there. -/
def missingFileText : String :=
  "No such file or directory (os error 2)"

/-- The wording of an error. -/
def Error.message : Error → String
  | malformed cause => "Malformed value: " ++ cause.message
  | schemaMismatch type expected found =>
    s!"Schema mismatch for {type}: expected {expected} fields, found {found}"
  | notRegistered keyspace name => s!"UDT '{keyspace}.{name}' not registered"
  | unsupported type => "Unsupported type: " ++ type
  | mismatch expected found => s!"Type mismatch: expected {expected}, found {found}"
  | invalidUtf8 subject => s!"Invalid UTF-8 in {subject} value"
  | badTypeName input fault offset =>
    s!"Cannot parse type '{input}': {fault.message} at offset {offset}"
  | missingFile => "I/O error: " ++ missingFileText
  | invalidJson => "JSON error"
  | invalidYaml => "YAML error"
  | endlessType keyspace name => s!"UDT '{keyspace}.{name}' contains itself"
  | outOfDepth => "value nested too deep"
  | capacityOverflow => "capacity overflow"

end CqlWire
