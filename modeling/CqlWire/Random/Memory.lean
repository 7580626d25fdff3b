import CqlWire.Error

namespace CqlWire

/-- What is asked of the memory in one piece: room for values, or for single bytes. -/
inductive Block where
  | values (count : Nat)
  | bytes (length : Nat)
deriving DecidableEq, Repr

/-- Computations that ask for memory before they fill it. -/
class Memory (m : Type → Type) where
  reserve : Block → m Unit

/-- Memory without an end. -/
instance : Memory Id where
  reserve _ := pure ()

instance {σ : Type} {m : Type → Type} [Monad m] [Memory m] : Memory (StateT σ m) where
  reserve block := StateT.lift (Memory.reserve block)

/-- The most values, and the most bytes, that one block has room for. -/
structure Room where
  values : Nat
  bytes : Nat
deriving DecidableEq, Repr

namespace Room

/-- Blocks of less than 63 bits, of which a value takes 40 bytes. -/
def standard : Room := ⟨0x7fffffffffffffff / 40, 0x7fffffffffffffff⟩

def Holds (room : Room) : Block → Prop
  | .values count => count ≤ room.values
  | .bytes length => length ≤ room.bytes

instance (room : Room) : DecidablePred room.Holds := fun
  | .values _ => inferInstanceAs (Decidable (_ ≤ _))
  | .bytes _ => inferInstanceAs (Decidable (_ ≤ _))

end Room

/-- Computations that fail when they ask for a block that there is no room for. -/
abbrev Confined := ReaderT Room (Except Error)

instance : Memory Confined where
  reserve block := fun room => if room.Holds block then .ok () else .error .capacityOverflow

end CqlWire
