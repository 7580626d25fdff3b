import CqlWire.Random.Memory
import CqlWire.Random.Source
import CqlWire.Settings
import CqlWire.Type.Basic
import CqlWire.Value.Equality
import CqlWire.Value.Fields
import CqlWire.Wire.Leaf

namespace CqlWire.Random

open Memory (reserve)

variable {σ : Type} [RandomSource σ] {m : Type → Type} [Monad m] [Memory m]

/-- A run that needs no memory. -/
def draw (run : StateM σ α) : StateT σ m α :=
  fun s => pure (run s)

/-- The length of a text or a byte string. -/
def textLength (settings : Settings) : StateM σ Nat := do
  return 1 + (← below64 (max settings.maxText 1))

/-- A text of letters and digits. -/
def text (settings : Settings) : StateT σ m String := do
  let length ← draw (textLength settings)
  reserve (.bytes length)
  return String.ofList (← draw (times length alphanumeric))

/-- A byte string. -/
def blob (settings : Settings) : StateT σ m Bytes := do
  let length ← draw (textLength settings)
  reserve (.bytes length)
  draw (bytes length)

/-- A random identifier: version 4. -/
def uuid : StateM σ Uuid := do
  let bits := BitVec.ofNat 128 (Bytes.toNat (← bytes 16))
  let cleared := bits &&& ~~~((0xf : BitVec 128) <<< 76 ||| (0x3 : BitVec 128) <<< 62)
  return ⟨cleared ||| (0x4 : BitVec 128) <<< 76 ||| (0x2 : BitVec 128) <<< 62⟩

/-- An identifier of version 1 at a random time. -/
def timeuuid : StateM σ Uuid := do
  let ticks ← below64 (1 <<< 60)
  let clock ← below32 (1 <<< 14)
  let node ← bytes 6
  return Uuid.ofTicks (BitVec.ofNat 60 ticks) (BitVec.ofNat 14 clock)
    (BitVec.ofNat 48 (Bytes.toNat node))

/-- An address of either family. -/
def address : StateM σ Address := do
  if ← flag then return .v4 (BitVec.ofNat 32 (← word32))
  else return .v6 (BitVec.ofNat 128 (← word128))

/-- A value of a leaf type. -/
def leaf (settings : Settings) : Kind → StateT σ m Value
  | .ascii => return .ascii (← text settings)
  | .text => return .text (← text settings)
  | .boolean => draw do return .boolean (← flag)
  | .tinyint => draw do return .tinyint (Int8.ofNat (← word32))
  | .smallint => draw do return .smallint (Int16.ofNat (← word32))
  | .int => draw do return .int (Int32.ofNat (← word32))
  | .bigint => draw do return .bigint (Int64.ofNat (← word64))
  | .float => draw do return .float (((← unitSingle redraws) - 0.5) * 1000000).toBits
  | .double => draw do return .double (((← unitDouble redraws) - 0.5) * 1000000000000).toBits
  | .timestamp => draw do return .timestamp (Int64.ofInt ((← below64 20000000000000) - 10000000000000))
  | .date => draw do return .date (Int32.ofNat (← word32))
  | .time => draw do return .time (Int64.ofNat (← below64 Leaf.nanosPerDay.toNat))
  | .uuid => draw do return .uuid (← uuid)
  | .timeuuid => draw do return .timeuuid (← timeuuid)
  | .inet => draw do return .inet (← address)
  | .blob => return .blob (← blob settings)
  | .varint => draw do return .varint (BitVec.ofNat 128 (← word128)).toInt
  | .decimal => draw do
    let unscaled ← word64
    let scale ← below32 21
    return .decimal ⟨(BitVec.ofNat 64 unscaled).toInt, Int32.ofInt (scale - 10)⟩
  | .empty => return .empty

/-- How many more runs there are for each value asked for, before a small domain is given up. -/
def runsPerValue : Nat := 16

/-- Values that differ from each other, `size` of them if `runs` runs give as many; those kept
before are in front. -/
def distinctWithin (make : m Value) (size : Nat) : (runs : Nat) → (kept : List Value) → m (List Value)
  | 0, kept => return kept.reverse
  | runs + 1, kept =>
    if size ≤ kept.length then return kept.reverse
    else do
      let v ← make
      distinctWithin make size runs (if kept.any (· == v) then kept else v :: kept)

/-- Up to `size` values that differ from each other. -/
def distinct (make : m Value) (size : Nat) : m (List Value) :=
  distinctWithin make size (size * runsPerValue + runsPerValue) []

/-- The size of a collection, for which there is room now. -/
def size (settings : Settings) (least : Nat) : StateT σ m Nat := do
  let n := least + (← draw (upTo64 settings.maxExtra))
  reserve (.values n)
  return n

mutual

/-- A value of a type, in which no position and no field is null and every collection has at least
`least` elements, as far as there are so many. -/
def value (settings : Settings) (least : Nat) : DataType → StateT σ m Value
  | .leaf kind => leaf settings kind
  | .list t => do return .list (← times (← size settings least) (value settings least t))
  | .set t => do return .set (← distinct (value settings least t) (← size settings least))
  | .map k v => do
    let keys ← distinct (value settings least k) (← size settings least)
    return .map (← keys.mapM fun key => return (key, ← value settings least v))
  | .tuple ts => do return .tuple (← values settings least ts)
  | .udt _ _ fields => do return .record (Fields.ofList (← fieldValues settings least fields))
  | .frozen t => value settings least t

/-- A value of each type. -/
def values (settings : Settings) (least : Nat) : List DataType → StateT σ m (List Value)
  | [] => return []
  | t :: ts => do
    let v ← value settings least t
    return v :: (← values settings least ts)

/-- A value of each field. -/
def fieldValues (settings : Settings) (least : Nat) :
    List (String × DataType) → StateT σ m (List (String × Value))
  | [] => return []
  | (name, t) :: fields => do
    let v ← value settings least t
    return (name, v) :: (← fieldValues settings least fields)

end

/-- A value of a type where blocks of memory have an end, and the source after it. -/
def valueWithin (room : Room) (settings : Settings) (least : Nat) (t : DataType) (source : σ) :
    Except Error (Value × σ) :=
  (value settings least t : StateT σ Confined Value) source room

end CqlWire.Random
