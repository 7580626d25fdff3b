import CqlWire.Proofs.Spelling

namespace CqlWire

-- A power of natural numbers is always the one that computes.
attribute [local instance (high)] instPowNat

namespace Bytes

variable {b c : UInt8} {rest bytes : Bytes}

/-- The number that bytes denote when the first one counts with its sign, from -128 to 127, and the
others count as they are. -/
def signed : Bytes → Int
  | [] => 0
  | b :: rest => b.toInt8.toInt * (256 ^ rest.length : Nat) + toNat rest

/-- The first byte only repeats the sign of the second one. -/
def HasRedundantSign : Bytes → Prop
  | b :: c :: _ => (b = 0x00 ∧ c < 0x80) ∨ (b = 0xff ∧ 0x80 ≤ c)
  | _ => False

theorem toInt_toInt8 (b : UInt8) :
    b.toInt8.toInt = if b.toNat < 128 then (b.toNat : Int) else b.toNat - 256 := by
  have h := BitVec.toInt_eq_toNat_cond b.toBitVec
  have hb : b.toBitVec.toNat = b.toNat := rfl
  rw [hb] at h
  rw [show b.toInt8.toInt = b.toBitVec.toInt from rfl, h]
  split <;> split <;> omega

/-- The first byte decides on which side of the middle a number lies. -/
theorem toNat_cons_lt_iff (b : UInt8) (rest : Bytes) :
    2 * toNat (b :: rest) < 256 ^ (rest.length + 1) ↔ b.toNat < 128 := by
  have hlt := toNat_lt rest
  rw [toNat, Nat.pow_succ, Nat.mul_comm (256 ^ rest.length) 256]
  generalize 256 ^ rest.length = place at hlt ⊢
  constructor
  · intro h
    by_contra hb
    have : 128 * place ≤ b.toNat * place := Nat.mul_le_mul_right place (Nat.not_lt.mp hb)
    omega
  · intro hb
    have : b.toNat * place ≤ 127 * place := Nat.mul_le_mul_right place (by omega)
    omega

theorem toInt_eq_signed (bytes : Bytes) : toInt bytes = signed bytes := by
  cases bytes with
  | nil => rfl
  | cons b rest =>
    have hcast : (256 : Int) ^ (rest.length + 1) = 256 * ((256 ^ rest.length : Nat) : Int) := by
      rw [Int.natCast_pow, Int.pow_succ, Int.mul_comm]
      rfl
    rw [toInt, signed, toInt_toInt8, List.length_cons, hcast]
    by_cases hb : b.toNat < 128
    · rw [if_pos ((toNat_cons_lt_iff b rest).mpr hb), if_pos hb, toNat, Int.natCast_add,
        Int.natCast_mul]
    · rw [if_neg (mt (toNat_cons_lt_iff b rest).mp hb), if_neg hb, toNat, Int.natCast_add,
        Int.natCast_mul, Int.sub_mul]
      omega

/-- A digit in front of a number leaves it within its own half of the numbers only if it is a sign
that the number has already. -/
theorem front_iff {sign : Int} {low place : Nat} (h : low < place) :
    (-(place : Int) ≤ 2 * (sign * place + low) ∧ 2 * (sign * place + low) < place) ↔
      (sign = 0 ∧ 2 * low < place) ∨ (sign = -1 ∧ place ≤ 2 * low) := by
  constructor
  · rintro ⟨lower, upper⟩
    have notAbove : sign < 1 := by
      by_contra hs
      have : 1 * (place : Int) ≤ sign * place := Int.mul_le_mul_of_nonneg_right (by omega) (by omega)
      omega
    have notBelow : -2 < sign := by
      by_contra hs
      have : sign * (place : Int) ≤ -2 * place := Int.mul_le_mul_of_nonneg_right (by omega) (by omega)
      omega
    rcases show sign = 0 ∨ sign = -1 by omega with rfl | rfl
    · exact .inl ⟨rfl, by omega⟩
    · exact .inr ⟨rfl, by omega⟩
  · rintro (⟨rfl, hlow⟩ | ⟨rfl, hlow⟩)
    · omega
    · omega

/-- A number can do without its first byte when it fits into the others with its sign. -/
theorem hasRedundantSign_iff : HasRedundantSign (b :: c :: rest) ↔
    -((256 ^ (rest.length + 1) : Nat) : Int) ≤ 2 * toInt (b :: c :: rest) ∧
      2 * toInt (b :: c :: rest) < (256 ^ (rest.length + 1) : Nat) := by
  have hb := b.toNat_lt
  have zero : b = 0x00 ↔ b.toInt8.toInt = 0 := by
    rw [← UInt8.toNat_inj, toInt_toInt8, show (0x00 : UInt8).toNat = 0 from rfl]
    omega
  have ones : b = 0xff ↔ b.toInt8.toInt = -1 := by
    rw [← UInt8.toNat_inj, toInt_toInt8, show (0xff : UInt8).toNat = 255 from rfl]
    omega
  have low : c < 0x80 ↔ 2 * toNat (c :: rest) < 256 ^ (rest.length + 1) := by
    rw [toNat_cons_lt_iff, UInt8.lt_iff_toNat_lt]
    rfl
  have high : 0x80 ≤ c ↔ 256 ^ (rest.length + 1) ≤ 2 * toNat (c :: rest) := by
    rw [← UInt8.not_lt, low, Nat.not_lt]
  rw [HasRedundantSign, zero, ones, low, high, toInt_eq_signed, signed, List.length_cons]
  exact (front_iff (toNat_lt (c :: rest))).symm

end Bytes

namespace Varint

variable {n : Int} {bytes : Bytes}

theorem bitLength_le_iff {n k : Nat} : bitLength n ≤ k ↔ n < 2 ^ k := by
  unfold bitLength
  split
  next h => simp [h]
  next h => exact Nat.log2_lt h

/-- A number has as many bytes as it takes to hold it in two's complement. -/
theorem width_le_iff {k : Nat} (hk : 0 < k) :
    width n ≤ k ↔ -((256 ^ k : Nat) : Int) ≤ 2 * n ∧ 2 * n < (256 ^ k : Nat) := by
  have bits : width n ≤ k ↔ magnitude n < 2 ^ (8 * k - 1) := by
    rw [← bitLength_le_iff, width]
    omega
  have halves : 256 ^ k = 2 * 2 ^ (8 * k - 1) := by
    rw [show 256 ^ k = 2 ^ (8 * k) by rw [Nat.pow_mul], ← Nat.pow_succ', Nat.succ_eq_add_one,
      Nat.sub_add_cancel (by omega)]
  rw [bits, halves, magnitude]
  split <;> omega

/-- No bytes that denote a number are fewer than its shortest form, and none as few but that form. -/
theorem encode_shortest (h : bytes ≠ []) : (encode (decode bytes)).length ≤ bytes.length ∧
    ((encode (decode bytes)).length = bytes.length → encode (decode bytes) = bytes) := by
  have some : 0 < bytes.length := List.length_pos_iff.mpr h
  rw [encode, Bytes.length_ofInt]
  refine ⟨(width_le_iff some).mpr (Bytes.toInt_bounds bytes), fun hlen => ?_⟩
  rw [hlen, decode, Bytes.ofInt_toInt]

/-- Bytes that denote a number are its shortest form but for a redundant sign in front. -/
theorem encode_decode_eq_iff (h : bytes ≠ []) :
    encode (decode bytes) = bytes ↔ ¬bytes.HasRedundantSign := by
  obtain ⟨hle, hself⟩ := encode_shortest h
  have same : encode (decode bytes) = bytes ↔ ¬(encode (decode bytes)).length < bytes.length := by
    refine ⟨fun heq => by rw [heq]; exact Nat.lt_irrefl _, fun hlt => hself ?_⟩
    exact Nat.le_antisymm hle (Nat.not_lt.mp hlt)
  rw [same, not_iff_not, encode, Bytes.length_ofInt]
  obtain ⟨b, rest, rfl⟩ := List.exists_cons_of_ne_nil h
  cases rest with
  | nil => exact iff_of_false (by unfold width; simp) id
  | cons c rest =>
    rw [Bytes.hasRedundantSign_iff, List.length_cons, List.length_cons, Nat.lt_succ_iff,
      width_le_iff (Nat.succ_pos _)]
    rfl

end Varint

namespace Leaf

variable {kind : Kind} {v : Value} {bytes : Bytes}

/-- Bytes that spell a value of a kind without being its encoding, if they spell one: a byte for true
other than one, and whole numbers with a redundant sign. -/
def IsLoose (kind : Kind) (bytes : Bytes) : Prop :=
  match kind with
  | .boolean => ∃ b, bytes = [b] ∧ b ≠ 0 ∧ b ≠ 1
  | .varint => bytes.HasRedundantSign
  | .decimal => Bytes.HasRedundantSign (bytes.drop 4)
  | _ => False

/-- Bytes have a canonical spelling that is no longer, and are not that themselves just when they
are loose. -/
def Respells (kind : Kind) (bytes : Bytes) (v : Value) : Prop :=
  ∃ bytes', encode kind v = .ok bytes' ∧ bytes'.length ≤ bytes.length ∧
    (bytes' = bytes ↔ ¬IsLoose kind bytes)

theorem respells_of_spelledOnce (hk : kind.spelledOnce = true) (h : decode kind bytes = .ok v) :
    Respells kind bytes v := by
  refine ⟨bytes, encode_of_decode_of_spelledOnce hk h, Nat.le_refl _, iff_of_true rfl ?_⟩
  cases kind
  case boolean | varint | decimal => cases hk
  all_goals exact id

theorem respells_boolean (h : decode .boolean bytes = .ok v) : Respells .boolean bytes v := by
  obtain ⟨_, hsize, h⟩ := bind_eq_ok.mp h
  obtain ⟨b, rfl⟩ := List.length_eq_one_iff.mp (length_of_checkSize rfl hsize)
  cases h
  refine ⟨_, rfl, Nat.le_refl 1, ?_⟩
  by_cases h0 : b = 0
  · simp [h0, IsLoose]
  · by_cases h1 : b = 1 <;> simp [h0, h1, IsLoose, eq_comm]

theorem respells_varint (h : decode .varint bytes = .ok v) : Respells .varint bytes v := by
  obtain ⟨_, -, h⟩ := bind_eq_ok.mp h
  simp only at h
  split at h <;> cases h
  next hne =>
    have some : bytes ≠ [] := List.isEmpty_eq_false_iff.mp (Bool.eq_false_iff.mpr hne)
    exact ⟨_, rfl, (Varint.encode_shortest some).1, Varint.encode_decode_eq_iff some⟩

/-- The scale has all of its bytes in every spelling; only the unscaled part can be spelled in
different ways. -/
theorem respells_decimal (h : decode .decimal bytes = .ok v) : Respells .decimal bytes v := by
  obtain ⟨_, -, h⟩ := bind_eq_ok.mp h
  simp only at h
  split at h <;> cases h
  next hlen =>
    have scale : (bytes.take 4).length = 4 := List.length_take_of_le (by omega)
    have some : bytes.drop 4 ≠ [] := by
      rw [← List.length_pos_iff, List.length_drop]
      omega
    obtain ⟨hbounds, hself⟩ := Bytes.ofInt_toInt_of_length scale
    have written : encode .decimal (.decimal ⟨Varint.decode (bytes.drop 4),
        Int32.ofInt (Bytes.toInt (bytes.take 4))⟩) =
          .ok (bytes.take 4 ++ Varint.encode (Varint.decode (bytes.drop 4))) := by
      simp (disch := omega) only [encode, Int32.toInt_ofInt_of_le, hself]
    refine ⟨_, written, ?_, ?_⟩
    · have shortest := (Varint.encode_shortest some).1
      rw [List.length_append, scale]
      rw [List.length_drop] at shortest
      omega
    · have whole := List.take_append_drop 4 bytes
      rw [IsLoose, ← Varint.encode_decode_eq_iff some]
      exact ⟨fun heq => List.append_cancel_left (heq.trans whole.symm),
        fun heq => heq.symm ▸ whole⟩

theorem respells (h : decode kind bytes = .ok v) : Respells kind bytes v := by
  by_cases hk : kind.spelledOnce = true
  · exact respells_of_spelledOnce hk h
  · cases kind
    case boolean => exact respells_boolean h
    case varint => exact respells_varint h
    case decimal => exact respells_decimal h
    all_goals exact absurd rfl hk

/-- Whatever bytes spell a leaf value, its encoding spells it as well, is no longer, and is these bytes
unless they are a byte for true other than one or have a redundant sign. The encoding of a whole
number is the shortest of the bytes that denote it, and all bytes but none denote one. -/
theorem canonical_spelling :
    (∀ (kind : Kind) (bytes : Bytes) (v : Value), decode kind bytes = .ok v →
      ∃ bytes', encode kind v = .ok bytes' ∧ decode kind bytes' = .ok v ∧
        bytes'.length ≤ bytes.length ∧ (bytes' = bytes ↔ ¬IsLoose kind bytes)) ∧
    (∀ n : Int, ∃ bytes, encode .varint (.varint n) = .ok bytes ∧ bytes ≠ [] ∧
      bytes.signed = n ∧ ∀ other : Bytes, other ≠ [] → other.signed = n →
        bytes.length ≤ other.length ∧ (bytes.length = other.length → bytes = other)) ∧
    ∀ bytes : Bytes, bytes ≠ [] → decode .varint bytes = .ok (.varint bytes.signed) := by
  refine ⟨fun kind bytes v h => ?_, fun n => ?_, fun bytes hne => ?_⟩
  · obtain ⟨bytes', he, hlen, heq⟩ := respells h
    exact ⟨bytes', he, decode_encode (encode_of_decode h).1 he, hlen, heq⟩
  · refine ⟨Varint.encode n, rfl, Varint.encode_ne_nil n, ?_, fun other hne hn => ?_⟩
    · rw [← Bytes.toInt_eq_signed]
      exact Varint.decode_encode n
    · rw [← Bytes.toInt_eq_signed] at hn
      exact hn ▸ Varint.encode_shortest hne
  · rw [← Bytes.toInt_eq_signed]
    simp only [decode, List.isEmpty_eq_false_iff.mpr hne]
    rfl

/-- A negative unscaled part with a redundant sign, and a sign byte that is needed. -/
theorem canonical_spelling_decimal :
    let bytes : Bytes := [0, 0, 0, 2, 0xff, 0x80]
    let v : Value := .decimal ⟨-128, 2⟩
    let needed : Bytes := [0x00, 0x80]
    decode .decimal bytes = .ok v ∧
      (∃ bytes', encode .decimal v = .ok bytes' ∧ decode .decimal bytes' = .ok v ∧
        bytes'.length ≤ 6 ∧ bytes' ≠ bytes) ∧
      needed ≠ [] ∧ needed.signed = 128 ∧
      ∃ bytes', encode .varint (.varint 128) = .ok bytes' ∧ bytes' = needed := by
  intro bytes v needed
  have read : decode .decimal bytes = .ok v := by
    have scale : Int32.ofInt (Bytes.toInt [0, 0, 0, 2]) = 2 := by decide
    have unscaled : Varint.decode [0xff, 0x80] = -128 := by decide
    show Except.ok (Value.decimal
      ⟨Varint.decode [0xff, 0x80], Int32.ofInt (Bytes.toInt [0, 0, 0, 2])⟩) = .ok v
    rw [scale, unscaled]
  have readNeeded : decode .varint needed = .ok (.varint 128) := by
    have number : Varint.decode [0x00, 0x80] = 128 := by decide
    show Except.ok (Value.varint (Varint.decode [0x00, 0x80])) = .ok (.varint 128)
    rw [number]
  have loose : Bytes.HasRedundantSign [0xff, 0x80] := .inr ⟨rfl, UInt8.le_refl 0x80⟩
  have tight : ¬IsLoose .varint needed := by
    rintro (⟨-, h⟩ | ⟨h, -⟩)
    · exact absurd h (by decide)
    · exact absurd h (by decide)
  obtain ⟨spelled, shortest, denoted⟩ := canonical_spelling
  obtain ⟨bytes', he, hd, hlen, heq⟩ := spelled .decimal bytes v read
  obtain ⟨short, hshort, -, -, hself⟩ := spelled .varint needed (.varint 128) readNeeded
  exact ⟨read, ⟨bytes', he, hd, hlen, fun same => heq.mp same loose⟩, nofun, by decide, short, hshort,
    hself.mpr tight⟩

end Leaf

end CqlWire
