import CqlWire.Bytes.Frame
import CqlWire.Bytes.Varint
import CqlWire.Text.Literal
import CqlWire.Text.Utf8
import CqlWire.Value.Basic

namespace CqlWire.Leaf

/-- Nanoseconds in a day. -/
def nanosPerDay : Int := 86400 * 1000000000

/-- The day number that stands for the first of January 1970. -/
def dateOffset : Int := 0x80000000

/-- Refuses a time that is not within one day. -/
def checkTime (nanos : Int64) : Except Error Unit :=
  if 0 ≤ nanos.toInt ∧ nanos.toInt < nanosPerDay then .ok ()
  else .error (.malformed (.timeOutsideDay nanos))

/-- Refuses an identifier that is not of version 1. -/
def checkVersion (u : Uuid) : Except Error Unit :=
  if u.version = 1 then .ok () else .error (.malformed (.notVersionOne u))

/-- Whether a text is ASCII throughout. -/
def isAscii (s : String) : Bool :=
  s.toList.all fun c => c.toNat < 128

/-- The bytes of an ASCII text. -/
def encodeAscii (s : String) : Except Error Bytes :=
  if isAscii s then .ok (Text.toBytes s)
  else .error (.mismatch "ascii" ("non-ASCII text " ++ Literal.quote s))

/-- The encoding of a leaf value. It carries no length of its own. -/
def encode (kind : Kind) (value : Value) : Except Error Bytes :=
  match kind, value with
  | .ascii, .ascii s | .ascii, .text s => encodeAscii s
  | .text, .text s | .text, .ascii s => .ok (Text.toBytes s)
  | .boolean, .boolean b => .ok [if b then 1 else 0]
  | .tinyint, .tinyint n => .ok (Bytes.ofInt 1 n.toInt)
  | .smallint, .smallint n => .ok (Bytes.ofInt 2 n.toInt)
  | .int, .int n => .ok (Bytes.ofInt 4 n.toInt)
  | .bigint, .bigint n => .ok (Bytes.ofInt 8 n.toInt)
  | .float, .float bits => .ok (Bytes.ofNat 4 bits.toNat)
  | .double, .double bits => .ok (Bytes.ofNat 8 bits.toNat)
  | .timestamp, .timestamp millis => .ok (Bytes.ofInt 8 millis.toInt)
  | .date, .date days => .ok (Bytes.ofInt 4 (days.toInt + dateOffset))
  | .time, .time nanos => do
    checkTime nanos
    return Bytes.ofInt 8 nanos.toInt
  | .uuid, .uuid u => .ok u.toBytes
  | .timeuuid, .timeuuid u => do
    checkVersion u
    return u.toBytes
  | .inet, .inet a => .ok a.toBytes
  | .blob, .blob bytes => .ok bytes
  | .varint, .varint n => .ok (Varint.encode n)
  | .decimal, .decimal d => .ok (Bytes.ofInt 4 d.scale.toInt ++ Varint.encode d.unscaled)
  | .empty, .empty => .ok []
  | kind, value => .error (.mismatch kind.name value.kindName)

/-- Refuses bytes of another number than the kind's own. -/
def checkSize (kind : Kind) (bytes : Bytes) : Except Error Unit :=
  match kind.fixedSize? with
  | some size =>
    if bytes.length = size then .ok ()
    else .error (.malformed (.wrongSize kind size bytes.length))
  | none => .ok ()

/-- A text from its UTF-8 form. -/
def decodeText (subject : String) (bytes : Bytes) : Except Error String :=
  match Text.ofBytes? bytes with
  | some s => .ok s
  | none => .error (.invalidUtf8 subject)

/-- The leaf value that bytes spell. -/
def decode (kind : Kind) (bytes : Bytes) : Except Error Value := do
  checkSize kind bytes
  match kind with
  | .ascii =>
    if bytes.all (· < 128) then return .ascii (← decodeText "ascii" bytes)
    else throw (.invalidUtf8 "ascii")
  | .text => return .text (← decodeText "text" bytes)
  | .boolean => return .boolean (bytes.any (· ≠ 0))
  | .tinyint => return .tinyint (Int8.ofInt (Bytes.toInt bytes))
  | .smallint => return .smallint (Int16.ofInt (Bytes.toInt bytes))
  | .int => return .int (Int32.ofInt (Bytes.toInt bytes))
  | .bigint => return .bigint (Int64.ofInt (Bytes.toInt bytes))
  | .float => return .float (UInt32.ofNat (Bytes.toNat bytes))
  | .double => return .double (UInt64.ofNat (Bytes.toNat bytes))
  | .timestamp => return .timestamp (Int64.ofInt (Bytes.toInt bytes))
  | .date => return .date (Int32.ofInt (Bytes.toNat bytes - dateOffset))
  | .time =>
    let nanos := Int64.ofInt (Bytes.toInt bytes)
    checkTime nanos
    return .time nanos
  | .uuid => return .uuid (.ofBytes bytes)
  | .timeuuid =>
    let u := Uuid.ofBytes bytes
    checkVersion u
    return .timeuuid u
  | .inet =>
    match Address.ofBytes? bytes with
    | some a => return .inet a
    | none => throw (.malformed (.addressSize bytes.length))
  | .blob => return .blob bytes
  | .varint =>
    if bytes.isEmpty then throw (.malformed .emptyVarint)
    else return .varint (Varint.decode bytes)
  | .decimal =>
    if bytes.length < 5 then throw (.malformed (.shortDecimal bytes.length))
    else
      let scale := Int32.ofInt (Bytes.toInt (bytes.take 4))
      return .decimal ⟨Varint.decode (bytes.drop 4), scale⟩
  | .empty => return .empty

end CqlWire.Leaf
