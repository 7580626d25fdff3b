import CqlWire.Proofs.Readable

namespace CqlWire

open Value (decode)

-- A power of natural numbers is always the one that computes.
attribute [local instance (high)] instPowNat

/-- Whether bytes of the kind that spell a value are always its encoding. A boolean is true in 255
bytes, and numbers of any length can be written with more bytes than they need. -/
def Kind.spelledOnce : Kind → Bool
  | boolean | varint | decimal => false
  | _ => true

/-- Below its frozen wrappers the type is of a kind that is spelled once. -/
def DataType.SpelledOnce (t : DataType) : Prop :=
  ∃ kind, t.leaf? = some kind ∧ kind.spelledOnce = true

namespace Bytes

theorem toInt_bounds (bytes : Bytes) :
    -((256 ^ bytes.length : Nat) : Int) ≤ 2 * toInt bytes ∧
      2 * toInt bytes < ((256 ^ bytes.length : Nat) : Int) := by
  have hlt := toNat_lt bytes
  have hcast : (256 : Int) ^ bytes.length = ((256 ^ bytes.length : Nat) : Int) :=
    (Int.natCast_pow 256 bytes.length).symm
  unfold toInt
  rw [hcast]
  split <;> omega

/-- Bytes are the two's complement form of the number that they denote. -/
theorem ofInt_toInt (bytes : Bytes) : ofInt bytes.length (toInt bytes) = bytes := by
  have hlt := toNat_lt bytes
  have hcast : (256 : Int) ^ bytes.length = ((256 ^ bytes.length : Nat) : Int) :=
    (Int.natCast_pow 256 bytes.length).symm
  have hmod : toInt bytes % (256 : Int) ^ bytes.length = toNat bytes := by
    have hself : (toNat bytes : Int) % ((256 ^ bytes.length : Nat) : Int) = toNat bytes :=
      Int.emod_eq_of_lt (by omega) (by omega)
    unfold toInt
    rw [hcast]
    split
    next => exact hself
    next => rw [Int.sub_emod_right, hself]
  rw [ofInt, hmod, Int.toNat_natCast, ofNat_toNat]

theorem ofNat_toNat_of_length {n : Nat} {bytes : Bytes} (h : bytes.length = n) :
    toNat bytes < 256 ^ n ∧ ofNat n (toNat bytes) = bytes := by
  subst h
  exact ⟨toNat_lt bytes, ofNat_toNat bytes⟩

theorem ofInt_toInt_of_length {n : Nat} {bytes : Bytes} (h : bytes.length = n) :
    (-((256 ^ n : Nat) : Int) ≤ 2 * toInt bytes ∧ 2 * toInt bytes < ((256 ^ n : Nat) : Int)) ∧
      ofInt n (toInt bytes) = bytes := by
  subst h
  exact ⟨toInt_bounds bytes, ofInt_toInt bytes⟩

end Bytes

theorem Uuid.toBytes_ofBytes {bytes : Bytes} (h : bytes.length = 16) :
    (Uuid.ofBytes bytes).toBytes = bytes := by
  obtain ⟨hlt, hself⟩ := Bytes.ofNat_toNat_of_length h
  rw [toBytes, ofBytes, BitVec.toNat_ofNat, Nat.mod_eq_of_lt hlt, hself]

theorem Address.toBytes_of_ofBytes? {bytes : Bytes} {a : Address} (h : ofBytes? bytes = some a) :
    a.toBytes = bytes := by
  unfold ofBytes? at h
  split at h
  next hlen =>
    cases h
    obtain ⟨hlt, hself⟩ := Bytes.ofNat_toNat_of_length hlen
    rw [toBytes, BitVec.toNat_ofNat, Nat.mod_eq_of_lt hlt, hself]
  next =>
    split at h
    next hlen =>
      cases h
      obtain ⟨hlt, hself⟩ := Bytes.ofNat_toNat_of_length hlen
      rw [toBytes, BitVec.toNat_ofNat, Nat.mod_eq_of_lt hlt, hself]
    next => cases h

namespace Leaf

variable {kind : Kind} {v : Value} {bytes : Bytes}

theorem length_of_checkSize {size : Nat} (hk : kind.fixedSize? = some size)
    (h : checkSize kind bytes = .ok ()) : bytes.length = size := by
  unfold checkSize at h
  rw [hk] at h
  simp only at h
  split at h
  next hlen => exact hlen
  next => cases h

/-- Bytes of a kind that is spelled once are the encoding of what they spell. -/
theorem encode_of_decode_of_spelledOnce (hk : kind.spelledOnce = true) (h : decode kind bytes = .ok v) :
    encode kind v = .ok bytes := by
  obtain ⟨_, hsize, h⟩ := bind_eq_ok.mp h
  cases kind
  case boolean | varint | decimal => cases hk
  case ascii =>
    simp only at h
    split at h
    next hall =>
      obtain ⟨s, hs, h⟩ := bind_eq_ok.mp h
      cases h
      have hbytes := decodeText_eq_ok hs
      exact encodeAscii_eq_ok.mpr ⟨by rw [isAscii_eq, hbytes, hall], hbytes⟩
    next => cases h
  case text =>
    obtain ⟨s, hs, h⟩ := bind_eq_ok.mp h
    cases h
    exact congrArg Except.ok (decodeText_eq_ok hs)
  case tinyint | smallint | int | bigint | timestamp =>
    cases h
    obtain ⟨hbounds, hself⟩ := Bytes.ofInt_toInt_of_length (length_of_checkSize rfl hsize)
    simp (disch := omega) only [encode, Int8.toInt_ofInt_of_le, Int16.toInt_ofInt_of_le,
      Int32.toInt_ofInt_of_le, Int64.toInt_ofInt_of_le, hself]
  case float | double =>
    cases h
    obtain ⟨hlt, hself⟩ := Bytes.ofNat_toNat_of_length (length_of_checkSize rfl hsize)
    simp only [encode, UInt32.toNat_ofNat', UInt64.toNat_ofNat', Nat.mod_eq_of_lt hlt, hself]
  case date =>
    cases h
    obtain ⟨hlt, hself⟩ := Bytes.ofNat_toNat_of_length (length_of_checkSize rfl hsize)
    have hmod : ((Bytes.toNat bytes : Int) % 256 ^ 4).toNat = Bytes.toNat bytes := by omega
    simp only [encode, dateOffset]
    rw [Int32.toInt_ofInt_of_le (by omega) (by omega), Int.sub_add_cancel, Bytes.ofInt, hmod, hself]
  case time =>
    obtain ⟨_, hcheck, h⟩ := bind_eq_ok.mp h
    cases h
    obtain ⟨hbounds, hself⟩ := Bytes.ofInt_toInt_of_length (length_of_checkSize rfl hsize)
    refine bind_eq_ok.mpr ⟨_, hcheck, ?_⟩
    rw [Int64.toInt_ofInt_of_le (by omega) (by omega), hself]
    rfl
  case uuid =>
    cases h
    exact congrArg Except.ok (Uuid.toBytes_ofBytes (length_of_checkSize rfl hsize))
  case timeuuid =>
    obtain ⟨_, hcheck, h⟩ := bind_eq_ok.mp h
    cases h
    have hbytes := Uuid.toBytes_ofBytes (length_of_checkSize rfl hsize)
    exact bind_eq_ok.mpr ⟨_, hcheck, congrArg Except.ok hbytes⟩
  case inet =>
    simp only at h
    split at h
    next a ha =>
      cases h
      exact congrArg Except.ok (Address.toBytes_of_ofBytes? ha)
    next => cases h
  case blob =>
    cases h
    rfl
  case empty =>
    cases h
    rw [List.length_eq_zero_iff.mp (length_of_checkSize rfl hsize)]
    rfl

/-- Kinds that are not spelled once have a value with two spellings. -/
theorem exists_two_spellings (hk : kind.spelledOnce = false) :
    ∃ x y v, x ≠ y ∧ [] ∉ [x, y] ∧ x.length ≤ 6 ∧ y.length ≤ 6 ∧ v ≠ .null ∧
      decode kind x = .ok v ∧ decode kind y = .ok v := by
  have longer : Varint.decode [0, 0] = Varint.decode [0] := by decide
  cases kind
  case boolean =>
    exact ⟨[1], [2], .boolean true, by decide, by decide, by decide, by decide, nofun, rfl, rfl⟩
  case varint =>
    exact ⟨[0], [0, 0], .varint (Varint.decode [0]), by decide, by decide, by decide, by decide, nofun,
      rfl, congrArg (fun n => Except.ok (Value.varint n)) longer⟩
  case decimal =>
    let scale := Int32.ofInt (Bytes.toInt [0, 0, 0, 0])
    exact ⟨[0, 0, 0, 0, 0], [0, 0, 0, 0, 0, 0], .decimal ⟨Varint.decode [0], scale⟩, by decide,
      by decide, by decide, by decide, nofun, rfl,
      congrArg (fun n => Except.ok (Value.decimal ⟨n, scale⟩)) longer⟩
  all_goals cases hk

end Leaf

namespace Shape

theorem assemble_ne_null {s : Shape} (hc : s.IsComposite) (xs : List (Payload × Value)) :
    s.assemble xs ≠ .null := by
  cases s with
  | leaf kind => exact hc.elim
  | _ => exact nofun

end Shape

namespace Value

variable {r : Registry} {e : DataType} {s : Shape} {bytes : Bytes}

/-- Bytes too few for a length spell the composite value without parts. -/
theorem decode_of_short (hs : r.shape e = .ok s) (hc : s.IsComposite)
    (h : bytes.length < lengthSize) (nested : Bool) :
    decode r e bytes nested = .ok (s.assemble []) := by
  refine (decode_of_frames hs hc (Shape.frames_of_short h) ?_).1 rfl
  have hnil : s.parts [] = [] := by cases s <;> simp [Shape.parts, Shape.inTurn]
  rw [hnil]
  rfl

/-- Every type that is not spelled once has a value with two spellings. -/
theorem exists_two_spellings (hs : r.shape e = .ok s) (he : ¬e.SpelledOnce) :
    ∃ x y v, x ≠ y ∧ [] ∉ [x, y] ∧ x.length ≤ 6 ∧ y.length ≤ 6 ∧ v ≠ .null ∧
      decode r e x true = .ok v ∧ decode r e y true = .ok v := by
  cases hl : e.leaf? with
  | some kind =>
    have hk : kind.spelledOnce = false := Bool.eq_false_iff.mpr fun hk => he ⟨kind, hl, hk⟩
    obtain ⟨x, y, v, hne, hnil, hx, hy, hv, hdx, hdy⟩ := Leaf.exists_two_spellings hk
    have ht := DataType.leaf?_eq_some.mp hl
    exact ⟨x, y, v, hne, hnil, hx, hy, hv, (decode_leaf ht true).trans hdx, (decode_leaf ht true).trans hdy⟩
  | none =>
    have hc := (Registry.isComposite_shape hs).mpr hl
    exact ⟨[0], [1], s.assemble [], by decide, by decide, by decide, by decide,
      Shape.assemble_ne_null hc [], decode_of_short hs hc (by decide) true,
      decode_of_short hs hc (by decide) true⟩

end Value

end CqlWire
