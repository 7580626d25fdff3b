import CqlWire.Proofs.DecimalOrder
import CqlWire.Proofs.Fits
import CqlWire.Proofs.Preorder

namespace CqlWire

theorem Text.toBytes_injective {s t : String} (h : toBytes s = toBytes t) : s = t := by
  have hs := ofBytes?_toBytes s
  rw [h, ofBytes?_toBytes] at hs
  exact (Option.some.inj hs).symm

theorem Text.order_eq_iff {s t : String} : Text.order s t = .eq ↔ s = t := by
  unfold Text.order
  rw [Std.LawfulEqOrd.compare_eq_iff_eq]
  exact ⟨toBytes_injective, fun h => by rw [h]⟩

namespace Decimal

theorem order_orderedOn : OrderedOn (fun _ : Decimal => True) order := by
  refine OrderedOn.lex ?_ (OrderedOn.compareOn fun d : Decimal => d.scale.toInt)
  constructor
  · intro a b _ _
    rw [numericOrder_eq_compare, numericOrder_eq_compare]
    exact Std.OrientedOrd.eq_swap
  · intro a b c _ _ _
    simp only [numericOrder_eq_compare, Ordering.isLE_iff_ne_gt, compare_gt_iff_gt, not_lt]
    exact le_trans

theorem order_eq_iff {a b : Decimal} : order a b = .eq ↔ a = b := by
  constructor
  · intro h
    obtain ⟨hn, hs⟩ := Ordering.then_eq_eq.mp h
    rw [numericOrder_eq_compare, compare_eq_iff_eq] at hn
    have hscale := Std.LawfulEqOrd.eq_of_compare hs
    unfold toRat at hn
    rw [hscale] at hn
    have hu := mul_right_cancel₀ (tenPow_pos _).ne' hn
    obtain ⟨u, k⟩ := a
    obtain ⟨w, l⟩ := b
    simp only [mk.injEq]
    exact ⟨Int.cast_injective hu, Int32.toInt_inj.mp hscale⟩
  · rintro rfl
    exact order_orderedOn.refl trivial

end Decimal

namespace Uuid

theorem order_orderedOn : OrderedOn (fun _ : Uuid => True) order :=
  (OrderedOn.compareOn signedHigh).lex (OrderedOn.compareOn signedLow)

theorem timeOrder_orderedOn : OrderedOn (fun _ : Uuid => True) timeOrder :=
  (OrderedOn.compareOn ticks).lex (OrderedOn.compareOn toBytes)

theorem toBytes_injective {u v : Uuid} (h : u.toBytes = v.toBytes) : u = v := by
  have hn := congrArg Bytes.toNat h
  unfold toBytes at hn
  rw [Bytes.toNat_ofNat, Bytes.toNat_ofNat] at hn
  have hu := u.bits.isLt
  have hv := v.bits.isLt
  obtain ⟨u⟩ := u
  obtain ⟨v⟩ := v
  rw [mk.injEq, BitVec.toNat_eq]
  simp only [Nat.reducePow] at hn hu hv
  omega

theorem order_eq_iff {u v : Uuid} : order u v = .eq ↔ u = v := by
  constructor
  · intro h
    obtain ⟨hh, hl⟩ := Ordering.then_eq_eq.mp h
    have hh := BitVec.eq_of_toInt_eq (Std.LawfulEqOrd.eq_of_compare hh)
    have hl := BitVec.eq_of_toInt_eq (Std.LawfulEqOrd.eq_of_compare hl)
    obtain ⟨u⟩ := u
    obtain ⟨v⟩ := v
    rw [mk.injEq]
    have halves : ∀ w : BitVec 128, w.extractLsb' 64 64 ++ w.extractLsb' 0 64 = w := fun w =>
      @BitVec.extractLsb'_append_extractLsb' 64 64 w
    rw [← halves u, ← halves v, hh, hl]
  · rintro rfl
    exact order_orderedOn.refl trivial

theorem timeOrder_eq_iff {u v : Uuid} : timeOrder u v = .eq ↔ u = v := by
  constructor
  · intro h
    exact toBytes_injective (Std.LawfulEqOrd.eq_of_compare (Ordering.then_eq_eq.mp h).2)
  · rintro rfl
    exact timeOrder_orderedOn.refl trivial

end Uuid

namespace Ieee

/-- Different bits have different places in the total order. -/
theorem orderKey_injective {width x y : Nat} (h : orderKey width x = orderKey width y) :
    x = y := by
  unfold orderKey at h
  split at h <;> split at h <;> omega

theorem orderKey_inj {width x y : Nat} : orderKey width x = orderKey width y ↔ x = y :=
  ⟨orderKey_injective, fun h => by rw [h]⟩

end Ieee

theorem Address.toBytes_injective {a b : Address} (h : a.toBytes = b.toBytes) : a = b := by
  have hlen := congrArg List.length h
  cases a <;> cases b <;> simp only [toBytes, Bytes.length_ofNat] at h hlen
  · next x y =>
    have hn := congrArg Bytes.toNat h
    rw [Bytes.toNat_ofNat, Bytes.toNat_ofNat] at hn
    have hx := x.isLt
    have hy := y.isLt
    rw [v4.injEq, BitVec.toNat_eq]
    simp only [Nat.reducePow] at hn hx hy
    omega
  · omega
  · omega
  · next x y =>
    have hn := congrArg Bytes.toNat h
    rw [Bytes.toNat_ofNat, Bytes.toNat_ofNat] at hn
    have hx := x.isLt
    have hy := y.isLt
    rw [v6.injEq, BitVec.toNat_eq]
    simp only [Nat.reducePow] at hn hx hy
    omega

namespace Value

/-- An order on the values of one variant is the order of what the variant carries. -/
theorem orderedOn_variant {β : Type _} (mk : β → Value) {order : Value → Value → Ordering}
    {inner : β → β → Ordering} (h : OrderedOn (fun _ => True) inner)
    (e : ∀ x y, order (mk x) (mk y) = inner x y) : OrderedOn (fun v => ∃ x, v = mk x) order := by
  constructor
  · rintro _ _ ⟨x, rfl⟩ ⟨y, rfl⟩
    rw [e, e]
    exact h.swap trivial trivial
  · rintro _ _ _ ⟨x, rfl⟩ ⟨y, rfl⟩ ⟨z, rfl⟩
    rw [e, e, e]
    exact h.trans trivial trivial trivial

theorem textOrder_orderedOn : OrderedOn (fun _ : String => True) Text.order :=
  OrderedOn.compareOn Text.toBytes

/-- The texts of either kind, one type for both. -/
def ofText : Sum String String → Value :=
  Sum.elim .ascii .text

/-- The identifiers of either kind, one type for both. -/
def ofIdentifier : Sum Uuid Uuid → Value :=
  Sum.elim .uuid .timeuuid

theorem holdsAlike_text {v : Value} :
    Kind.ascii.Holds v ∨ Kind.text.Holds v ↔ ∃ s, v = ofText s := by
  constructor
  · rintro (⟨s, rfl⟩ | ⟨s, rfl⟩)
    · exact ⟨.inl s, rfl⟩
    · exact ⟨.inr s, rfl⟩
  · rintro ⟨s | s, rfl⟩
    · exact .inl ⟨s, rfl⟩
    · exact .inr ⟨s, rfl⟩

theorem holdsAlike_identifier {v : Value} :
    Kind.uuid.Holds v ∨ Kind.timeuuid.Holds v ↔ ∃ u, v = ofIdentifier u := by
  constructor
  · rintro (⟨s, rfl⟩ | ⟨s, rfl⟩)
    · exact ⟨.inl s, rfl⟩
    · exact ⟨.inr s, rfl⟩
  · rintro ⟨s | s, rfl⟩
    · exact .inl ⟨s, rfl⟩
    · exact .inr ⟨s, rfl⟩

/-- The order of leaf values is a total preorder on the values that compare under a kind. -/
theorem leafOrder_orderedOn (kind : Kind) : OrderedOn kind.HoldsAlike (leafOrder kind) := by
  have texts {kind : Kind} : OrderedOn (fun v => ∃ s, v = ofText s) (leafOrder kind) :=
    orderedOn_variant ofText
      (textOrder_orderedOn.comap (Sum.elim id id) fun _ _ => trivial)
      (by rintro (x | x) (y | y) <;> rfl)
  cases kind with
  | ascii | text => exact texts.mono fun _ => holdsAlike_text.mp
  | timeuuid =>
    have identifiers : OrderedOn (fun v => ∃ u, v = ofIdentifier u) (leafOrder .timeuuid) :=
      orderedOn_variant ofIdentifier
        (Uuid.timeOrder_orderedOn.comap (Sum.elim id id) fun _ _ => trivial)
        (by rintro (x | x) (y | y) <;> rfl)
    exact identifiers.mono fun _ => holdsAlike_identifier.mp
  | boolean => exact orderedOn_variant boolean (OrderedOn.compareOn Bool.toNat) fun _ _ => rfl
  | tinyint => exact orderedOn_variant tinyint (OrderedOn.compareOn Int8.toInt) fun _ _ => rfl
  | smallint => exact orderedOn_variant smallint (OrderedOn.compareOn Int16.toInt) fun _ _ => rfl
  | int => exact orderedOn_variant int (OrderedOn.compareOn Int32.toInt) fun _ _ => rfl
  | bigint => exact orderedOn_variant bigint (OrderedOn.compareOn Int64.toInt) fun _ _ => rfl
  | float =>
    exact orderedOn_variant float
      (OrderedOn.compareOn fun x : UInt32 => Ieee.orderKey 32 x.toNat) fun _ _ => rfl
  | double =>
    exact orderedOn_variant double
      (OrderedOn.compareOn fun x : UInt64 => Ieee.orderKey 64 x.toNat) fun _ _ => rfl
  | timestamp => exact orderedOn_variant timestamp (OrderedOn.compareOn Int64.toInt) fun _ _ => rfl
  | date => exact orderedOn_variant date (OrderedOn.compareOn Int32.toInt) fun _ _ => rfl
  | time => exact orderedOn_variant time (OrderedOn.compareOn Int64.toInt) fun _ _ => rfl
  | uuid => exact orderedOn_variant uuid Uuid.order_orderedOn fun _ _ => rfl
  | inet => exact orderedOn_variant inet (OrderedOn.compareOn Address.toBytes) fun _ _ => rfl
  | blob => exact orderedOn_variant blob (OrderedOn.compareOn id) fun _ _ => rfl
  | varint => exact orderedOn_variant varint (OrderedOn.compareOn id) fun _ _ => rfl
  | decimal => exact orderedOn_variant decimal Decimal.order_orderedOn fun _ _ => rfl
  | empty =>
    have h : OrderedOn (fun v => ∃ _ : Unit, v = Value.empty) (leafOrder .empty) :=
      orderedOn_variant (fun _ => .empty) (OrderedOn.const _) fun _ _ => rfl
    exact h.mono fun _ e => ⟨(), e⟩

/-- Leaf values of one kind compare equal only when they are the same. -/
theorem leafOrder_eq_iff {kind : Kind} {a b : Value} (ha : kind.Holds a) (hb : kind.Holds b) :
    leafOrder kind a b = .eq ↔ a = b := by
  cases kind
  case empty =>
    cases ha
    cases hb
    simp [leafOrder]
  all_goals
    obtain ⟨x, rfl⟩ := ha
    obtain ⟨y, rfl⟩ := hb
    simp only [leafOrder, ascii.injEq, text.injEq, boolean.injEq, tinyint.injEq, smallint.injEq, int.injEq,
      bigint.injEq, float.injEq, double.injEq, timestamp.injEq, date.injEq, time.injEq, uuid.injEq,
      timeuuid.injEq, inet.injEq, blob.injEq, varint.injEq, decimal.injEq, if_true,
      Text.order_eq_iff, Uuid.order_eq_iff, Uuid.timeOrder_eq_iff, Decimal.order_eq_iff,
      Std.LawfulEqOrd.compare_eq_iff_eq, Ieee.orderKey_inj, Int8.toInt_inj, Int16.toInt_inj,
      Int32.toInt_inj, Int64.toInt_inj, UInt32.toNat_inj, UInt64.toNat_inj]
  case boolean => cases x <;> cases y <;> decide
  case inet => exact ⟨Address.toBytes_injective, fun h => by rw [h]⟩

end Value

end CqlWire
