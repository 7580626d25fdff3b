import CqlWire.Order.Collation

namespace CqlWire

/-- A comparison that is a total preorder on the items that `P` allows. -/
structure OrderedOn (P : α → Prop) (order : α → α → Ordering) : Prop where
  swap : ∀ {a b}, P a → P b → order b a = (order a b).swap
  trans : ∀ {a b c}, P a → P b → P c → (order a b).isLE → (order b c).isLE → (order a c).isLE

namespace OrderedOn

variable {P Q : α → Prop} {order other : α → α → Ordering}

theorem refl (h : OrderedOn P order) {a : α} (ha : P a) : order a a = .eq :=
  Ordering.eq_eq_of_eq_swap (h.swap ha ha)

theorem mono (h : OrderedOn P order) (hq : ∀ a, Q a → P a) : OrderedOn Q order :=
  ⟨fun ha hb => h.swap (hq _ ha) (hq _ hb),
    fun ha hb hc => h.trans (hq _ ha) (hq _ hb) (hq _ hc)⟩

theorem eq_symm (h : OrderedOn P order) {a b : α} (ha : P a) (hb : P b)
    (e : order a b = .eq) : order b a = .eq := by
  rw [h.swap ha hb, e]
  rfl

theorem eq_trans (h : OrderedOn P order) {a b c : α} (ha : P a) (hb : P b) (hc : P c)
    (hab : order a b = .eq) (hbc : order b c = .eq) : order a c = .eq := by
  have hle := h.trans ha hb hc (by simp [hab]) (by simp [hbc])
  have hge := h.trans hc hb ha (by simp [h.eq_symm hb hc hbc]) (by simp [h.eq_symm ha hb hab])
  rw [h.swap ha hc] at hge
  exact Ordering.eq_eq_of_isLE_of_isLE_swap hle hge

theorem lt_trans_isLE (h : OrderedOn P order) {a b c : α} (ha : P a) (hb : P b) (hc : P c)
    (hab : order a b = .lt) (hbc : (order b c).isLE) : order a c = .lt := by
  have hle := h.trans ha hb hc (by simp [hab]) hbc
  rcases Ordering.isLE_iff_eq_lt_or_eq_eq.mp hle with hlt | heq
  · exact hlt
  · have hba := h.trans hb hc ha hbc (by simp [h.eq_symm ha hc heq])
    rw [h.swap ha hb, hab] at hba
    simp at hba

theorem isLE_trans_lt (h : OrderedOn P order) {a b c : α} (ha : P a) (hb : P b) (hc : P c)
    (hab : (order a b).isLE) (hbc : order b c = .lt) : order a c = .lt := by
  have hle := h.trans ha hb hc hab (by simp [hbc])
  rcases Ordering.isLE_iff_eq_lt_or_eq_eq.mp hle with hlt | heq
  · exact hlt
  · have hcb := h.trans hc ha hb (by simp [h.eq_symm ha hc heq]) hab
    rw [h.swap hb hc, hbc] at hcb
    simp at hcb

/-- Items that compare equal compare alike with any third item. -/
theorem congr_left (h : OrderedOn P order) {a b c : α} (ha : P a) (hb : P b) (hc : P c)
    (e : order a b = .eq) : order a c = order b c := by
  have hba := h.eq_symm ha hb e
  cases hbc : order b c with
  | lt => exact h.isLE_trans_lt ha hb hc (by simp [e]) hbc
  | eq => exact h.eq_trans ha hb hc e hbc
  | gt =>
    have hcb : order c b = .lt := by rw [h.swap hb hc, hbc]; rfl
    have hca := h.lt_trans_isLE hc hb ha hcb (by simp [hba])
    rw [h.swap hc ha, hca]
    rfl

theorem congr_right (h : OrderedOn P order) {a b c : α} (ha : P a) (hb : P b) (hc : P c)
    (e : order b c = .eq) : order a b = order a c := by
  rw [h.swap hb ha, h.swap hc ha, h.congr_left hb hc ha e]

theorem const (P : α → Prop) : OrderedOn P fun _ _ => .eq :=
  ⟨fun _ _ => rfl, fun _ _ _ _ _ => rfl⟩

/-- The order of the images under a map. -/
theorem comap {β : Type _} (f : β → α) {R : β → Prop} (h : OrderedOn P order)
    (hf : ∀ b, R b → P (f b)) : OrderedOn R fun a b => order (f a) (f b) :=
  ⟨fun ha hb => h.swap (hf _ ha) (hf _ hb),
    fun ha hb hc => h.trans (hf _ ha) (hf _ hb) (hf _ hc)⟩

theorem congr (h : OrderedOn P order) (e : ∀ a b, P a → P b → other a b = order a b) :
    OrderedOn P other := by
  constructor
  · intro a b ha hb
    rw [e a b ha hb, e b a hb ha, h.swap ha hb]
  · intro a b c ha hb hc hab hbc
    rw [e a b ha hb] at hab
    rw [e b c hb hc] at hbc
    rw [e a c ha hc]
    exact h.trans ha hb hc hab hbc

/-- One order and, between items that it does not tell apart, another one. -/
theorem lex (h : OrderedOn P order) (g : OrderedOn P other) :
    OrderedOn P fun a b => (order a b).then (other a b) := by
  constructor
  · intro a b ha hb
    rw [h.swap ha hb, g.swap ha hb, Ordering.swap_then]
  · intro a b c ha hb hc hab hbc
    obtain ⟨hab, gab⟩ := Ordering.isLE_then_iff_and.mp hab
    obtain ⟨hbc, gbc⟩ := Ordering.isLE_then_iff_and.mp hbc
    refine Ordering.isLE_then_iff_and.mpr ⟨h.trans ha hb hc hab hbc, ?_⟩
    rcases gab with lt | gab
    · exact .inl (h.lt_trans_isLE ha hb hc lt hbc)
    · rcases gbc with lt | gbc
      · exact .inl (h.isLE_trans_lt ha hb hc hab lt)
      · exact .inr (g.trans ha hb hc gab gbc)

/-- The order that a lawful comparison of images gives. -/
theorem compareOn {β : Type _} [Ord β] [Std.TransOrd β] (f : α → β) :
    OrderedOn P fun a b => compare (f a) (f b) :=
  ⟨fun _ _ => Std.OrientedOrd.eq_swap, fun _ _ _ => Std.TransOrd.isLE_trans⟩

end OrderedOn

namespace Value

/-- Putting null first keeps an order on the values that are not null. -/
theorem nullsFirst_orderedOn {P : Value → Prop} {order : Value → Value → Ordering}
    (h : OrderedOn (fun v => P v ∧ v ≠ .null) order) :
    OrderedOn P fun a b => nullsFirst a b (order a b) := by
  have nonNull : ∀ {v : Value}, v.isNull = false → v ≠ .null := by
    rintro _ hv rfl
    cases hv
  constructor
  · intro a b ha hb
    cases na : a.isNull <;> cases nb : b.isNull <;> simp only [nullsFirst, na, nb] <;> try rfl
    exact h.swap ⟨ha, nonNull na⟩ ⟨hb, nonNull nb⟩
  · intro a b c ha hb hc
    cases na : a.isNull <;> cases nb : b.isNull <;> cases nc : c.isNull <;>
      simp only [nullsFirst, na, nb, nc, Ordering.isLE_gt, Ordering.isLE_lt, Ordering.isLE_eq,
        implies_true, Bool.false_eq_true, false_implies]
    exact h.trans ⟨ha, nonNull na⟩ ⟨hb, nonNull nb⟩ ⟨hc, nonNull nc⟩

theorem nullsFirst_null_left (v : Value) (o : Ordering) :
    nullsFirst .null v o = if v.isNull then .eq else .lt := by
  cases v <;> rfl

theorem nullsFirst_null_right (v : Value) (o : Ordering) :
    nullsFirst v .null o = if v.isNull then .eq else .gt := by
  cases v <;> rfl

theorem isNull_iff {v : Value} : v.isNull = true ↔ v = .null := by
  cases v <;> simp [isNull]

theorem nullsFirst_of_ne_null {a b : Value} (ha : a ≠ .null) (hb : b ≠ .null) (o : Ordering) :
    nullsFirst a b o = o := by
  have na := mt isNull_iff.mp ha
  have nb := mt isNull_iff.mp hb
  simp [nullsFirst, na, nb]

end Value

end CqlWire
