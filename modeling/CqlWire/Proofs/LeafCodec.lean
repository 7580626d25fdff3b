import CqlWire.Proofs.Contents
import CqlWire.Proofs.Fits
import CqlWire.Proofs.Resolution
import CqlWire.Proofs.Words
import CqlWire.Wire.Leaf

namespace CqlWire

theorem Uuid.ofBytes_toBytes (u : Uuid) : ofBytes u.toBytes = u := by
  obtain ⟨bits⟩ := u
  have hlt := bits.isLt
  simp only [ofBytes, toBytes, Bytes.toNat_ofNat, Uuid.mk.injEq, BitVec.toNat_eq,
    BitVec.toNat_ofNat, Nat.reducePow] at hlt ⊢
  omega

namespace Address

theorem ofBytes?_toBytes (a : Address) : ofBytes? a.toBytes = some a := by
  cases a with
  | v4 bits =>
    have hlt := bits.isLt
    simp only [ofBytes?, toBytes, Bytes.length_ofNat, Bytes.toNat_ofNat, if_pos, Option.some.injEq,
      v4.injEq, BitVec.toNat_eq, BitVec.toNat_ofNat, Nat.reducePow] at hlt ⊢
    omega
  | v6 bits =>
    have hlt := bits.isLt
    simp only [ofBytes?, toBytes, Bytes.length_ofNat, Bytes.toNat_ofNat, Nat.reduceEqDiff, if_neg,
      if_pos, not_false_eq_true, Option.some.injEq, v6.injEq, BitVec.toNat_eq, BitVec.toNat_ofNat,
      Nat.reducePow] at hlt ⊢
    omega

theorem toBytes_ne_nil (a : Address) : a.toBytes ≠ [] := by
  cases a <;> simp [toBytes, Bytes.ofNat]

end Address

namespace Text

theorem toBytes_of_ofBytes? {bytes : Bytes} {s : String} (h : ofBytes? bytes = some s) :
    toBytes s = bytes := by
  unfold ofBytes? String.fromUTF8? at h
  split at h
  · cases h
    simp [toBytes, String.fromUTF8]
  · cases h

theorem toBytes_eq_nil {s : String} : toBytes s = [] ↔ s = "" := by
  constructor
  · intro h
    have hs := ofBytes?_toBytes s
    rw [h] at hs
    exact Option.some.inj (hs.symm.trans (ofBytes?_toBytes ""))
  · rintro rfl
    rfl

theorem toBytes_eq_flatMap (s : String) : toBytes s = s.toList.flatMap String.utf8EncodeChar := by
  rw [toBytes, ← String.utf8Encode_toList, List.utf8Encode, List.toList_data_toByteArray]

theorem all_utf8EncodeChar (c : Char) :
    (String.utf8EncodeChar c).all (· < 128) = decide (c.toNat < 128) := by
  have hv : c.val.toNat = c.toNat := rfl
  unfold String.utf8EncodeChar
  rw [hv, Bool.eq_iff_iff]
  generalize c.toNat = n
  dsimp only
  split
  · simp [UInt8.lt_iff_toNat_lt]
    omega
  · split <;> try split
    all_goals
      simp [UInt8.lt_iff_toNat_lt]
      omega

end Text

/-- The leaf values that have an encoding as a kind: either text where the kind is one of the two,
times within a day, identifiers of version 1, and otherwise all values of the kind's own variant. -/
def Kind.Admits : Kind → Value → Prop
  | ascii, v => ∃ s, (v = .ascii s ∨ v = .text s) ∧ Leaf.isAscii s = true
  | text, v => ∃ s, v = .ascii s ∨ v = .text s
  | time, v => ∃ nanos, v = .time nanos ∧ 0 ≤ nanos.toInt ∧ nanos.toInt < Leaf.nanosPerDay
  | timeuuid, v => ∃ u, v = .timeuuid u ∧ u.version = 1
  | kind, v => kind.Holds v

namespace Leaf

variable {kind : Kind} {v w : Value} {bytes : Bytes}

/-- A text is ASCII exactly when its UTF-8 form has no byte above 127. -/
theorem isAscii_eq (s : String) : isAscii s = (Text.toBytes s).all (· < 128) := by
  rw [Text.toBytes_eq_flatMap, List.all_flatMap]
  simp only [Text.all_utf8EncodeChar, isAscii]

theorem decodeText_toBytes (subject s : String) : decodeText subject (Text.toBytes s) = .ok s := by
  rw [decodeText, Text.ofBytes?_toBytes]

theorem decodeText_eq_ok {subject s : String} (h : decodeText subject bytes = .ok s) :
    Text.toBytes s = bytes := by
  unfold decodeText at h
  split at h
  next hs =>
    cases h
    exact Text.toBytes_of_ofBytes? hs
  next => cases h

theorem encodeAscii_eq_ok {s : String} :
    encodeAscii s = .ok bytes ↔ isAscii s = true ∧ Text.toBytes s = bytes := by
  unfold encodeAscii
  split
  next h => simp [h]
  next h => simp [h]

/-- A leaf value is read back from its encoding. -/
theorem decode_encode (hv : kind.Holds v) (h : encode kind v = .ok bytes) :
    decode kind bytes = .ok v := by
  cases kind
  case empty =>
    cases hv
    cases h
    rfl
  all_goals obtain ⟨x, rfl⟩ := hv
  case ascii =>
    obtain ⟨hascii, rfl⟩ := encodeAscii_eq_ok.mp h
    rw [isAscii_eq] at hascii
    simp only [decode, hascii, decodeText_toBytes]
    rfl
  case text =>
    cases h
    simp only [decode, decodeText_toBytes]
    rfl
  case boolean =>
    cases h
    cases x <;> rfl
  case tinyint | smallint | int | bigint | timestamp =>
    cases h
    have hlt := x.toInt_lt
    have hle := x.le_toInt
    simp only [decode, checkSize, Kind.fixedSize?, Bytes.length_ofInt, if_true]
    rw [Bytes.toInt_ofInt (by omega) (by omega)]
    simp only [Int8.ofInt_toInt, Int16.ofInt_toInt, Int32.ofInt_toInt, Int64.ofInt_toInt]
    rfl
  case float | double =>
    cases h
    have hlt := x.toNat_lt
    simp only [decode, checkSize, Kind.fixedSize?, Bytes.length_ofNat, if_true]
    rw [Bytes.toNat_ofNat, Nat.mod_eq_of_lt (by omega)]
    simp only [UInt32.ofNat_toNat, UInt64.ofNat_toNat]
    rfl
  case date =>
    cases h
    have hlt := x.toInt_lt
    have hle := x.le_toInt
    have hsum : (Bytes.toNat (Bytes.ofInt 4 (x.toInt + dateOffset)) : Int) = x.toInt + dateOffset := by
      simp only [Bytes.ofInt, Bytes.toNat_ofNat, dateOffset]
      omega
    simp only [decode, checkSize, Kind.fixedSize?, Bytes.length_ofInt, if_true]
    rw [hsum, Int.add_sub_cancel, Int32.ofInt_toInt]
    rfl
  case time =>
    obtain ⟨_, hcheck, h⟩ := bind_eq_ok.mp h
    cases h
    have hlt := x.toInt_lt
    have hle := x.le_toInt
    simp only [decode, checkSize, Kind.fixedSize?, Bytes.length_ofInt, if_true]
    rw [Bytes.toInt_ofInt (by omega) (by omega), Int64.ofInt_toInt, hcheck]
    rfl
  case uuid =>
    cases h
    simp only [decode, checkSize, Kind.fixedSize?, Uuid.toBytes, Bytes.length_ofNat, if_true]
    rw [← Uuid.toBytes, Uuid.ofBytes_toBytes]
    rfl
  case timeuuid =>
    obtain ⟨_, hcheck, h⟩ := bind_eq_ok.mp h
    cases h
    simp only [decode, checkSize, Kind.fixedSize?, Uuid.toBytes, Bytes.length_ofNat, if_true]
    rw [← Uuid.toBytes, Uuid.ofBytes_toBytes, hcheck]
    rfl
  case inet =>
    cases h
    simp only [decode, Address.ofBytes?_toBytes]
    rfl
  case blob =>
    cases h
    rfl
  case varint =>
    cases h
    have hne := Varint.encode_ne_nil x
    simp only [decode, List.isEmpty_eq_false_iff.mpr hne, Varint.decode_encode]
    rfl
  case decimal =>
    cases h
    have hlt := x.scale.toInt_lt
    have hle := x.scale.le_toInt
    have hlen := List.length_pos_of_ne_nil (Varint.encode_ne_nil x.unscaled)
    have hsize := Bytes.length_ofInt 4 x.scale.toInt
    simp only [decode, List.take_left' hsize, List.drop_left' hsize, Varint.decode_encode]
    rw [if_neg (by simp; omega), Bytes.toInt_ofInt (by omega) (by omega), Int32.ofInt_toInt]
    rfl

/-- Different leaf values of a kind have different encodings. -/
theorem encode_injective (hv : kind.Holds v) (hw : kind.Holds w) (h : encode kind v = .ok bytes)
    (h' : encode kind w = .ok bytes) : v = w :=
  Except.ok.inj ((decode_encode hv h).symm.trans (decode_encode hw h'))

/-- Leaf values with an encoding of no length are void or of the kind `empty`. -/
theorem encode_eq_nil (hv : kind.Holds v) (h : encode kind v = .ok []) :
    kind.allowsEmpty = true ∧ (kind = .empty ∨ v.isVoid = true) := by
  have word {width n : Nat} (h : Bytes.ofNat (width + 1) n = []) : False :=
    List.cons_ne_nil _ _ h
  cases kind
  case empty => exact ⟨rfl, .inl rfl⟩
  all_goals obtain ⟨x, rfl⟩ := hv
  case ascii =>
    have hs := Text.toBytes_eq_nil.mp (encodeAscii_eq_ok.mp h).2
    exact ⟨rfl, .inr (decide_eq_true hs)⟩
  case text =>
    have hs := Text.toBytes_eq_nil.mp (Except.ok.inj h)
    exact ⟨rfl, .inr (decide_eq_true hs)⟩
  case blob => exact ⟨rfl, .inr (List.isEmpty_iff.mpr (Except.ok.inj h))⟩
  case time | timeuuid =>
    obtain ⟨_, -, h⟩ := bind_eq_ok.mp h
    exact (word (Except.ok.inj h)).elim
  case boolean => cases h
  case inet => exact absurd (Except.ok.inj h) x.toBytes_ne_nil
  case varint => exact absurd (Except.ok.inj h) (Varint.encode_ne_nil x)
  case decimal => exact (word (List.append_eq_nil_iff.mp (Except.ok.inj h)).1).elim
  all_goals exact (word (Except.ok.inj h)).elim

/-- What a leaf decoder gives is of its kind and has an encoding. -/
theorem encode_of_decode (h : decode kind bytes = .ok v) :
    kind.Holds v ∧ ∃ bytes', encode kind v = .ok bytes' := by
  obtain ⟨_, -, h⟩ := bind_eq_ok.mp h
  cases kind
  case ascii =>
    simp only at h
    split at h
    next hall =>
      obtain ⟨s, hs, h⟩ := bind_eq_ok.mp h
      cases h
      refine ⟨⟨s, rfl⟩, bytes, encodeAscii_eq_ok.mpr ⟨?_, decodeText_eq_ok hs⟩⟩
      rw [isAscii_eq, decodeText_eq_ok hs, hall]
    next => cases h
  case text =>
    obtain ⟨s, hs, h⟩ := bind_eq_ok.mp h
    cases h
    exact ⟨⟨s, rfl⟩, _, rfl⟩
  case time | timeuuid =>
    obtain ⟨_, hcheck, h⟩ := bind_eq_ok.mp h
    cases h
    exact ⟨⟨_, rfl⟩, _, bind_eq_ok.mpr ⟨_, hcheck, rfl⟩⟩
  case inet | varint | decimal =>
    simp only at h
    split at h <;> cases h
    exact ⟨⟨_, rfl⟩, _, rfl⟩
  case empty =>
    cases h
    exact ⟨rfl, _, rfl⟩
  all_goals
    cases h
    exact ⟨⟨_, rfl⟩, _, rfl⟩

/-- Only no bytes at all spell a void value. -/
theorem decode_isVoid (h : decode kind bytes = .ok v) (hv : v.isVoid = true) : bytes = [] := by
  obtain ⟨hkind, -⟩ := encode_of_decode h
  obtain ⟨_, -, h⟩ := bind_eq_ok.mp h
  cases kind
  case empty =>
    cases hkind
    cases hv
  all_goals obtain ⟨x, rfl⟩ := hkind
  case ascii =>
    simp only at h
    split at h
    · obtain ⟨s, hs, h⟩ := bind_eq_ok.mp h
      cases h
      rw [← decodeText_eq_ok hs, of_decide_eq_true hv]
      rfl
    · cases h
  case text =>
    obtain ⟨s, hs, h⟩ := bind_eq_ok.mp h
    cases h
    rw [← decodeText_eq_ok hs, of_decide_eq_true hv]
    rfl
  case blob =>
    cases h
    exact List.isEmpty_iff.mp hv
  all_goals cases hv

theorem checkTime_eq_ok {nanos : Int64} {x : Unit} :
    checkTime nanos = .ok x ↔ 0 ≤ nanos.toInt ∧ nanos.toInt < nanosPerDay := by
  unfold checkTime
  split
  next h => simp [h]
  next h => simp [h]

theorem checkVersion_eq_ok {u : Uuid} {x : Unit} : checkVersion u = .ok x ↔ u.version = 1 := by
  unfold checkVersion
  split
  next h => simp [h]
  next h => simp [h]

theorem admits_of_encode (h : encode kind v = .ok bytes) : kind.Admits v := by
  unfold encode at h
  split at h
  case h_1 s => exact ⟨s, .inl rfl, (encodeAscii_eq_ok.mp h).1⟩
  case h_2 s => exact ⟨s, .inr rfl, (encodeAscii_eq_ok.mp h).1⟩
  case h_3 s => exact ⟨s, .inr rfl⟩
  case h_4 s => exact ⟨s, .inl rfl⟩
  case h_14 nanos =>
    obtain ⟨_, hcheck, -⟩ := bind_eq_ok.mp h
    exact ⟨nanos, rfl, checkTime_eq_ok.mp hcheck⟩
  case h_16 u =>
    obtain ⟨_, hcheck, -⟩ := bind_eq_ok.mp h
    exact ⟨u, rfl, checkVersion_eq_ok.mp hcheck⟩
  case h_21 => rfl
  case h_22 => cases h
  all_goals exact ⟨_, rfl⟩

theorem exists_encode (h : kind.Admits v) : ∃ bytes, encode kind v = .ok bytes := by
  cases kind
  case ascii =>
    obtain ⟨s, rfl | rfl, hs⟩ := h
    · exact ⟨_, encodeAscii_eq_ok.mpr ⟨hs, rfl⟩⟩
    · exact ⟨_, encodeAscii_eq_ok.mpr ⟨hs, rfl⟩⟩
  case text => obtain ⟨s, rfl | rfl⟩ := h <;> exact ⟨_, rfl⟩
  case time =>
    obtain ⟨nanos, rfl, hn⟩ := h
    exact ⟨_, bind_eq_ok.mpr ⟨(), checkTime_eq_ok.mpr hn, rfl⟩⟩
  case timeuuid =>
    obtain ⟨u, rfl, hu⟩ := h
    exact ⟨_, bind_eq_ok.mpr ⟨(), checkVersion_eq_ok.mpr hu, rfl⟩⟩
  case empty =>
    cases h
    exact ⟨_, rfl⟩
  all_goals
    obtain ⟨x, rfl⟩ := h
    exact ⟨_, rfl⟩

theorem exists_encode_iff : (∃ bytes, encode kind v = .ok bytes) ↔ kind.Admits v :=
  ⟨fun ⟨_, h⟩ => admits_of_encode h, exists_encode⟩

end Leaf

end CqlWire
