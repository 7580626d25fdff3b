import CqlWire.Proofs.Concord
import CqlWire.Proofs.Words

namespace CqlWire

-- A power of natural numbers is always the one that computes.
attribute [local instance (high)] instPowNat

open Value (leafOrder)

/-- Two comparisons have one outcome when either side is less in both or in neither. -/
theorem compare_eq_compare {α β : Type _} [LinearOrder α] [LinearOrder β] {a b : α} {c d : β}
    (hlt : a < b ↔ c < d) (hgt : b < a ↔ d < c) : compare a b = compare c d := by
  rcases lt_trichotomy a b with h | h | h
  · rw [compare_lt_iff_lt.mpr h, compare_lt_iff_lt.mpr (hlt.mp h)]
  · subst h
    have heq : c = d := le_antisymm (not_lt.mp fun h => lt_irrefl _ (hgt.mpr h))
      (not_lt.mp fun h => lt_irrefl _ (hlt.mpr h))
    rw [compare_eq_iff_eq.mpr rfl, compare_eq_iff_eq.mpr heq]
  · rw [compare_gt_iff_gt.mpr h, compare_gt_iff_gt.mpr (hgt.mp h)]

namespace Bytes

theorem compare_byte (b c : UInt8) : compare b c = compare b.toNat c.toNat := by
  simp only [compare, compareOfLessAndEq, UInt8.lt_iff_toNat_lt, UInt8.toNat_inj]

/-- Byte strings of one length are in the order of the numbers that they denote. -/
theorem compare_toNat {x y : Bytes} (hl : x.length = y.length) :
    compare x y = compare (toNat x) (toNat y) := by
  induction x generalizing y with
  | nil =>
    have empty : y = [] := List.length_eq_zero_iff.mp hl.symm
    subst empty
    rfl
  | cons b x ih =>
    obtain ⟨c, y, rfl⟩ := List.exists_cons_of_length_eq_add_one hl.symm
    have hlen : x.length = y.length := by simpa using hl
    have hx : toNat x < 256 ^ x.length := toNat_lt x
    have hy : toNat y < 256 ^ x.length := hlen ▸ toNat_lt y
    rw [List.compare_cons_cons, compare_byte, ih hlen, toNat, toNat, ← hlen]
    rcases lt_trichotomy b.toNat c.toNat with h | h | h
    · have hm : (b.toNat + 1) * 256 ^ x.length ≤ c.toNat * 256 ^ x.length :=
        Nat.mul_le_mul_right _ h
      have value : b.toNat * 256 ^ x.length + toNat x < c.toNat * 256 ^ x.length + toNat y := by
        rw [Nat.add_mul] at hm
        omega
      rw [Nat.compare_eq_lt.mpr h, Nat.compare_eq_lt.mpr value]
      rfl
    · rw [h, Nat.compare_eq_eq.mpr rfl]
      exact compare_eq_compare (by omega) (by omega)
    · have hm : (c.toNat + 1) * 256 ^ x.length ≤ b.toNat * 256 ^ x.length :=
        Nat.mul_le_mul_right _ h
      have value : c.toNat * 256 ^ x.length + toNat y < b.toNat * 256 ^ x.length + toNat x := by
        rw [Nat.add_mul] at hm
        omega
      rw [Nat.compare_eq_gt.mpr h, Nat.compare_eq_gt.mpr value]
      rfl

theorem toNat_ofInt {width : Nat} {n : Int} (hn : 0 ≤ n ∧ n < (256 ^ width : Nat)) :
    (toNat (ofInt width n) : Int) = n := by
  have hcast : (256 : Int) ^ width = ((256 ^ width : Nat) : Int) := (Int.natCast_pow 256 width).symm
  rw [ofInt, toNat_ofNat, hcast, Int.emod_eq_of_lt hn.1 hn.2, Nat.mod_eq_of_lt (by omega)]
  omega

/-- Words without a sign are in the order of their bytes. -/
theorem compare_ofInt {width : Nat} {m n : Int} (hm : 0 ≤ m ∧ m < (256 ^ width : Nat))
    (hn : 0 ≤ n ∧ n < (256 ^ width : Nat)) :
    compare (ofInt width m) (ofInt width n) = compare m n := by
  have hlen : (ofInt width m).length = (ofInt width n).length := by simp
  have vm := toNat_ofInt hm
  have vn := toNat_ofInt hn
  rw [compare_toNat hlen]
  exact compare_eq_compare (by omega) (by omega)

end Bytes

namespace Kind

/-- Values of the kind are in the order of their encodings, byte by byte. -/
def SortsByBytes (kind : Kind) : Prop :=
  ∀ (a b : Value) (x y : Bytes), Leaf.encode kind a = .ok x → Leaf.encode kind b = .ok y →
    (DataType.leaf kind).order a b = compare x y

/-- It is enough to compare what values of one variant carry with what is written of them. -/
theorem SortsByBytes.of_variant {kind : Kind} {β : Type} {P : β → Prop} (mk : β → Value)
    (write : β → Bytes)
    (hv : ∀ {v x}, Leaf.encode kind v = .ok x → ∃ p, mk p = v ∧ write p = x ∧ P p)
    (ho : ∀ p q, P p → P q → leafOrder kind (mk p) (mk q) = compare (write p) (write q)) :
    kind.SortsByBytes := by
  have ne_null {v : Value} {z : Bytes} (h : Leaf.encode kind v = .ok z) : v ≠ .null := by
    rintro rfl
    cases kind <;> cases h
  intro a b x y hx hy
  have compared : (DataType.leaf kind).order a b = leafOrder kind a b :=
    Value.nullsFirst_of_ne_null (ne_null hx) (ne_null hy) _
  obtain ⟨p, rfl, rfl, hp⟩ := hv hx
  obtain ⟨q, rfl, rfl, hq⟩ := hv hy
  rw [compared, ho p q hp hq]

/-- Texts of both variants are compared by the bytes of their characters. -/
theorem sortsByBytes_text {kind : Kind} (hk : kind.IsText) : kind.SortsByBytes := by
  refine .of_variant (P := fun _ => True) Value.ofText (fun s => Text.toBytes (s.elim id id))
    (fun {v x} h => ?_) ?_
  · obtain ⟨s, hs⟩ := (Leaf.admits_of_encode h).exists_text hk
    have written : Text.toBytes s = x := Leaf.toBytes_of_encode hk hs h
    rcases hs with rfl | rfl
    · exact ⟨.inl s, rfl, written, trivial⟩
    · exact ⟨.inr s, rfl, written, trivial⟩
  · rintro (s | s) (u | u) _ _ <;> rfl

theorem sortsByBytes_boolean : boolean.SortsByBytes := by
  refine .of_variant (P := fun _ => True) Value.boolean (fun b => [if b then 1 else 0])
    (fun h => ?_) ?_
  · obtain ⟨b, rfl⟩ := Leaf.admits_of_encode h
    exact ⟨b, rfl, Except.ok.inj h, trivial⟩
  · rintro (_ | _) (_ | _) _ _ <;> rfl

/-- The offset makes a date a number without a sign. -/
theorem sortsByBytes_date : date.SortsByBytes := by
  refine .of_variant (P := fun _ => True) Value.date
    (fun days => Bytes.ofInt 4 (days.toInt + Leaf.dateOffset)) (fun h => ?_) fun m n _ _ => ?_
  · obtain ⟨days, rfl⟩ := Leaf.admits_of_encode h
    exact ⟨days, rfl, Except.ok.inj h, trivial⟩
  · have bounds (days : Int32) : 0 ≤ days.toInt + Leaf.dateOffset ∧
        days.toInt + Leaf.dateOffset < (256 ^ 4 : Nat) := by
      have hlt := days.toInt_lt
      have hle := days.le_toInt
      unfold Leaf.dateOffset
      omega
    rw [Bytes.compare_ofInt (bounds m) (bounds n), leafOrder]
    exact compare_eq_compare (by omega) (by omega)

/-- A time has no sign, as it does not lie before midnight. -/
theorem sortsByBytes_time : time.SortsByBytes := by
  refine .of_variant (P := fun nanos => 0 ≤ nanos.toInt ∧ nanos.toInt < Leaf.nanosPerDay) Value.time
    (fun nanos => Bytes.ofInt 8 nanos.toInt) (fun h => ?_) fun m n hm hn => ?_
  · obtain ⟨nanos, rfl, within⟩ := Leaf.admits_of_encode h
    obtain ⟨_, -, h⟩ := bind_eq_ok.mp h
    exact ⟨nanos, rfl, Except.ok.inj h, within⟩
  · unfold Leaf.nanosPerDay at hm hn
    rw [Bytes.compare_ofInt (by omega) (by omega), leafOrder]

theorem sortsByBytes_inet : inet.SortsByBytes := by
  refine .of_variant (P := fun _ => True) Value.inet Address.toBytes (fun h => ?_) fun _ _ _ _ => rfl
  obtain ⟨a, rfl⟩ := Leaf.admits_of_encode h
  exact ⟨a, rfl, Except.ok.inj h, trivial⟩

theorem sortsByBytes_blob : blob.SortsByBytes := by
  refine .of_variant (P := fun _ => True) Value.blob id (fun h => ?_) fun _ _ _ _ => rfl
  obtain ⟨bytes, rfl⟩ := Leaf.admits_of_encode h
  exact ⟨bytes, rfl, Except.ok.inj h, trivial⟩

theorem sortsByBytes_empty : empty.SortsByBytes := by
  refine .of_variant (P := fun _ => True) (fun _ : Unit => Value.empty) (fun _ => [])
    (fun h => ?_) fun _ _ _ _ => rfl
  cases Leaf.admits_of_encode h
  exact ⟨(), rfl, Except.ok.inj h, trivial⟩

/-- A value that is less than another one and has the greater bytes. -/
theorem not_sortsByBytes_of_lt {kind : Kind} (a b : Value) {x y : Bytes}
    (hx : Leaf.encode kind a = .ok x) (hy : Leaf.encode kind b = .ok y)
    (hlt : (DataType.leaf kind).order a b = .lt) (hgt : compare x y = .gt) :
    ¬kind.SortsByBytes := by
  intro h
  have both := h a b x y hx hy
  rw [hlt, hgt] at both
  cases both

/-- Signs stand first in an encoding and make it greater. The time stamp of an identifier does not
stand in it as a whole, and the scale of a decimal stands before its digits. -/
theorem not_sortsByBytes {kind : Kind} (h : kind.isByteOrdered = false) (ht : kind ≠ .time)
    (hi : kind ≠ .inet) : ¬kind.SortsByBytes := by
  cases kind with
  | tinyint => exact not_sortsByBytes_of_lt (.tinyint (-1)) (.tinyint 0) rfl rfl rfl rfl
  | smallint => exact not_sortsByBytes_of_lt (.smallint (-1)) (.smallint 0) rfl rfl rfl rfl
  | int => exact not_sortsByBytes_of_lt (.int (-1)) (.int 0) rfl rfl rfl rfl
  | bigint => exact not_sortsByBytes_of_lt (.bigint (-1)) (.bigint 0) rfl rfl rfl rfl
  | timestamp => exact not_sortsByBytes_of_lt (.timestamp (-1)) (.timestamp 0) rfl rfl rfl rfl
  | float => exact not_sortsByBytes_of_lt (.float 0x80000000) (.float 0) rfl rfl rfl rfl
  | double => exact not_sortsByBytes_of_lt (.double 0x8000000000000000) (.double 0) rfl rfl rfl rfl
  | uuid =>
    exact not_sortsByBytes_of_lt (.uuid ⟨0x80000000000000000000000000000000⟩) (.uuid ⟨0⟩)
      rfl rfl rfl rfl
  | timeuuid =>
    exact not_sortsByBytes_of_lt (.timeuuid ⟨0x00000001000010000000000000000000⟩)
      (.timeuuid ⟨0x00000000000110000000000000000000⟩) rfl rfl rfl rfl
  | varint => exact not_sortsByBytes_of_lt (.varint (-1)) (.varint 0) rfl rfl rfl rfl
  | decimal => exact not_sortsByBytes_of_lt (.decimal ⟨1, 1⟩) (.decimal ⟨1, 0⟩) rfl rfl rfl rfl
  | time => exact absurd rfl ht
  | inet => exact absurd rfl hi
  | ascii | text | boolean | date | blob | empty => cases h

/-- The kinds whose values are in the order of their encodings are those that are marked so and two
others: a time has no sign, and an address is compared by its octets. -/
theorem sortsByBytes_iff (kind : Kind) :
    kind.SortsByBytes ↔ kind.isByteOrdered = true ∨ kind = .time ∨ kind = .inet := by
  constructor
  · intro h
    by_contra hne
    simp only [not_or, Bool.not_eq_true] at hne
    exact not_sortsByBytes hne.1 hne.2.1 hne.2.2 h
  · rintro (h | rfl | rfl)
    · cases kind with
      | ascii => exact sortsByBytes_text (.inl rfl)
      | text => exact sortsByBytes_text (.inr rfl)
      | boolean => exact sortsByBytes_boolean
      | date => exact sortsByBytes_date
      | blob => exact sortsByBytes_blob
      | empty => exact sortsByBytes_empty
      | _ => cases h
    · exact sortsByBytes_time
    · exact sortsByBytes_inet

end Kind

end CqlWire
