import CqlWire.Bytes.Word

namespace CqlWire.Text

/-- The UTF-8 form of a text. -/
def toBytes (s : String) : Bytes :=
  s.toByteArray.data.toList

/-- The text whose UTF-8 form is given; `none` when there is none. -/
def ofBytes? (bytes : Bytes) : Option String :=
  String.fromUTF8? ⟨bytes.toArray⟩

/-- The order of texts by their UTF-8 bytes, which is also their order by code points. -/
def order (a b : String) : Ordering :=
  compare (toBytes a) (toBytes b)

theorem ofBytes?_toBytes (s : String) : ofBytes? (toBytes s) = some s := by
  have h : (⟨s.toByteArray.data.toList.toArray⟩ : ByteArray) = s.toByteArray := by simp
  simp only [ofBytes?, toBytes, h, String.fromUTF8?, dif_pos s.isValidUTF8]
  rfl

end CqlWire.Text
