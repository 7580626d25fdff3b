import CqlWire.Value.Basic

namespace CqlWire.Value

instance : Coe Bool Value := ⟨boolean⟩
instance : Coe Int8 Value := ⟨tinyint⟩
instance : Coe Int16 Value := ⟨smallint⟩
instance : Coe Int32 Value := ⟨int⟩
instance : Coe Int64 Value := ⟨bigint⟩
instance : Coe String Value := ⟨text⟩
instance : Coe Uuid Value := ⟨uuid⟩
instance : Coe Address Value := ⟨inet⟩

/-- A value that may be missing; nothing is null. -/
def ofOption (plain : Option α) [Coe α Value] : Value :=
  match plain with
  | some a => a
  | none => null

end CqlWire.Value
