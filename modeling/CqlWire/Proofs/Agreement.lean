import CqlWire.Proofs.Contents
import CqlWire.Proofs.Records
import CqlWire.Proofs.TotalPreorder

namespace CqlWire

open Value (same)

namespace Kind

variable {kind : Kind} {v : Value}

theorem Holds.isLeaf (h : kind.Holds v) : v.IsLeaf := by
  cases kind
  case empty =>
    cases h
    trivial
  all_goals
    obtain ⟨x, rfl⟩ := h
    trivial

theorem Holds.alike (h : kind.Holds v) : kind.HoldsAlike v := by
  cases kind
  case ascii => exact .inl h
  case text | timeuuid => exact .inr h
  all_goals exact h

end Kind

namespace Strictness

/-- Values exactly of a type: leaf values of the kind's own variant, tuples without missing
positions, and records with fields of the type only. -/
def exact : Strictness where
  leaf := Kind.Holds
  entries _ _ _ := True
  arity positions items := items = positions
  record types fields := fields.Canonical ∧ ∀ f ∈ fields, f.1 ∈ types.map Prod.fst

/-- Values exactly of a type in which no map has two keys that compare equal and yet have values
that do not. -/
def steady : Strictness :=
  { exact with
    entries := fun k t entries => ∀ e ∈ entries, ∀ f ∈ entries, k.order e.1 f.1 = .eq →
      ∀ v w, Value.valueAt entries e.1 = some v → Value.valueAt entries f.1 = some w →
        t.order v w = .eq }

theorem exact_implies_comparable : exact.Implies comparable where
  leaf _ _ := Kind.Holds.alike
  entries _ _ _ _ := trivial
  arity _ _ _ := trivial
  record _ _ _ := trivial

theorem steady_implies_exact : steady.Implies exact where
  leaf _ _ := id
  entries _ _ _ _ := trivial
  arity _ _ := id
  record _ _ := id

end Strictness

namespace DataType

variable {t k : DataType} {a b : Value}

theorem Fits.comparable (h : t.Fits .exact a) : t.Fits .comparable a :=
  h.mono Strictness.exact_implies_comparable

theorem Fits.exact (h : t.Fits .steady a) : t.Fits .exact a :=
  h.mono Strictness.steady_implies_exact

theorem exact_orderedOn (t : DataType) : OrderedOn (t.Fits .exact) t.order :=
  t.order_orderedOn.mono fun _ h => h.comparable

theorem exact_keys_orderedOn (k : DataType) :
    OrderedOn (fun e : Value × Value => k.Fits .exact e.1) fun e f => k.order e.1 f.1 :=
  (keys_orderedOn k).mono fun _ h => h.comparable

theorem sequenceOrder_eq {order : Value → Value → Ordering} {x y : List Value}
    (h : List.Forall₂ (fun a b => order a b = .eq) x y) : Value.sequenceOrder order x y = .eq := by
  induction h with
  | nil => rfl
  | cons hab _ ih => exact Ordering.then_eq_eq.mpr ⟨hab, ih⟩

theorem entriesOrder_eq_iff {keyOrder valueOrder : Value → Value → Ordering}
    {x y : List (Value × Value)} :
    Value.entriesOrder keyOrder valueOrder x y = .eq ↔
      List.Forall₂ (fun e f => keyOrder e.1 f.1 = .eq ∧ valueOrder e.2 f.2 = .eq) x y := by
  induction x generalizing y with
  | nil => cases y <;> simp [Value.entriesOrder]
  | cons e x ih => cases y <;> simp [Value.entriesOrder, Ordering.then_eq_eq, ih, and_assoc]

theorem fieldsOrder_eq_iff {types : FieldTypes} {x y : Fields} :
    fieldsOrder types x y = .eq ↔ ∀ f ∈ types, f.2.order (x.getD f.1) (y.getD f.1) = .eq := by
  induction types with
  | nil => simp [fieldsOrder]
  | cons f types ih =>
    obtain ⟨name, t⟩ := f
    simp [fieldsOrder, Ordering.then_eq_eq, ih]

theorem positionsOrder_eq {ts : List DataType} {x y : List Value}
    (hs : ∀ t ∈ ts, ∀ {a b : Value}, t.Fits .steady a → t.Fits .exact b → same a b = true →
      t.order a b = .eq)
    (hx : FitsEach .steady ts x) (hy : FitsEach .exact ts y)
    (h : List.Forall₂ (fun a b => same a b = true) x y) : positionsOrder ts x y = .eq := by
  induction ts generalizing x y with
  | nil => rfl
  | cons t ts ih =>
    refine Ordering.then_eq_eq.mpr ⟨hs t (by simp) hx.1 hy.1 ?_, ?_⟩
    · cases h with
      | nil => exact Value.same_refl _
      | cons hab _ => exact hab
    · refine ih (fun u hu => hs u (by simp [hu])) hx.2 hy.2 ?_
      cases h with
      | nil => exact .nil
      | cons _ h => exact h

theorem set_order_eq {x y : List Value}
    (hs : ∀ {a b : Value}, t.Fits .steady a → t.Fits .exact b → same a b = true →
      t.order a b = .eq)
    (hx : ∀ a ∈ x, t.Fits .steady a) (hy : ∀ b ∈ y, t.Fits .exact b)
    (h : same (.set x) (.set y) = true) : (DataType.set t).order (.set x) (.set y) = .eq := by
  obtain ⟨_, ⟨⟩, hxy, hyx⟩ := Value.same_set_left.mp h
  have classes := (exact_orderedOn t).firstOfEach_forall₂ (fun a ha => (hx a ha).exact) hy
    (fun a ha => by
      obtain ⟨b, hb, hab⟩ := hxy a ha
      exact ⟨b, hb, hs (hx a ha) (hy b hb) hab⟩)
    (fun b hb => by
      obtain ⟨a, ha, hab⟩ := hyx b hb
      exact ⟨a, ha, hs (hx a ha) (hy b hb) hab⟩)
  exact sequenceOrder_eq classes

/-- An entry that is the first of its keys in the order is the first of its key. -/
theorem valueAt_of_mem_sortedEntries {entries : List (Value × Value)} {e : Value × Value}
    (hf : ∀ f ∈ entries, k.Fits .exact f.1) (he : e ∈ Value.sortedEntries k.order entries)
    (hs : ∀ f ∈ entries, same e.1 f.1 = true → k.order e.1 f.1 = .eq) :
    Value.valueAt entries e.1 = some e.2 := by
  have ord := exact_keys_orderedOn k
  have pe := hf e (mem_of_mem_firstOfEach he)
  have hfind := ord.find?_of_mem_firstOfEach hf pe he (ord.refl pe)
  obtain ⟨-, before, after, rfl, hbefore⟩ := List.find?_eq_some_iff_append.mp hfind
  refine Value.valueAt_eq_some.mpr ⟨before, e.1, after, rfl, Value.same_refl _, fun f hm => ?_⟩
  rw [Bool.eq_false_iff]
  intro hef
  have hne := hbefore f hm
  rw [hs f (by simp [hm]) hef] at hne
  cases hne

theorem map_order_eq {x y : List (Value × Value)}
    (hk : ∀ {a b : Value}, k.Fits .steady a → k.Fits .exact b → same a b = true →
      k.order a b = .eq)
    (ht : ∀ {a b : Value}, t.Fits .steady a → t.Fits .exact b → same a b = true →
      t.order a b = .eq)
    (hx : Strictness.steady.entries k t x)
    (fx : ∀ e ∈ x, k.Fits .steady e.1 ∧ t.Fits .steady e.2)
    (fy : ∀ e ∈ y, k.Fits .exact e.1 ∧ t.Fits .exact e.2)
    (h : same (.map x) (.map y) = true) : (DataType.map k t).order (.map x) (.map y) = .eq := by
  have ord := exact_keys_orderedOn k
  have px : ∀ e ∈ x, k.Fits .exact e.1 := fun e he => (fx e he).1.exact
  have py : ∀ e ∈ y, k.Fits .exact e.1 := fun e he => (fy e he).1
  have sameX : ∀ e ∈ x, ∀ f ∈ x, same e.1 f.1 = true → k.order e.1 f.1 = .eq := fun e he f hf =>
    hk (fx e he).1 (px f hf)
  have sameY : ∀ e ∈ x, ∀ f ∈ y, same e.1 f.1 = true → k.order e.1 f.1 = .eq := fun e he f hf =>
    hk (fx e he).1 (py f hf)
  have classes := ord.firstOfEach_forall₂ px py
    (fun e he => by
      obtain ⟨f, hf, hef⟩ := Value.exists_same_key h he
      exact ⟨f, hf, sameY e he f hf hef⟩)
    (fun f hf => by
      obtain ⟨e, he, hfe⟩ := Value.exists_same_key (Value.same_symm h) hf
      exact ⟨e, he, sameY e he f hf (Value.same_symm hfe)⟩)
  refine entriesOrder_eq_iff.mpr (classes.imp_mem fun e he' f hf' hef => ⟨hef, ?_⟩)
  have he := mem_of_mem_firstOfEach he'
  have hf := mem_of_mem_firstOfEach hf'
  -- The key that comes first in `y` stands in `x` too, perhaps as another one of its class.
  obtain ⟨g, hg, hfg⟩ := Value.exists_same_key (Value.same_symm h) hf
  have hgf := sameY g hg f hf (Value.same_symm hfg)
  have he_at := valueAt_of_mem_sortedEntries px he' (sameX e he)
  have hf_at := valueAt_of_mem_sortedEntries py hf' fun f' hf' hff' =>
    ord.eq_trans (py f hf) (px g hg) (py f' hf') (ord.eq_symm (px g hg) (py f hf) hgf)
      (sameY g hg f' hf' (Value.same_trans (Value.same_symm hfg) hff'))
  have hrel := Value.same_map_iff.mp h g.1
  rw [← Value.valueAt_eq_of_same hfg y, hf_at] at hrel
  cases hv : Value.valueAt x g.1 with
  | none => rw [hv] at hrel; cases hrel
  | some v =>
    rw [hv] at hrel
    cases hrel with
    | some hvf =>
      have hvx : t.Fits .steady v := Value.of_valueAt (fun e he => (fx e he).2) hv
      have heg := ord.eq_trans (px e he) (py f hf) (px g hg) hef
        (ord.eq_symm (px g hg) (py f hf) hgf)
      have hev := hx e he g hg heg e.2 v he_at hv
      exact (exact_orderedOn t).eq_trans (fx e he).2.exact hvx.exact (fy f hf).2 hev
        (ht hvx (fy f hf).2 hvf)

theorem order_eq_of_same_null {b : Value} (h : same .null b = true) : t.order .null b = .eq := by
  rw [Value.same_null_right.mp (Value.same_symm h), order_null_left]
  rfl

/-- Equal values compare equal. -/
theorem order_eq_of_same (t : DataType) {a b : Value} (ha : t.Fits .steady a)
    (hb : t.Fits .exact b) (h : same a b = true) : t.order a b = .eq := by
  induction t generalizing a b with
  | leaf kind =>
    rcases ha with rfl | ha
    · exact order_eq_of_same_null h
    have hl := Kind.Holds.isLeaf ha
    rw [← (Value.same_iff_of_isLeaf hl).mp h]
    exact (exact_orderedOn (.leaf kind)).refl (.inr ha)
  | list t ih =>
    rcases ha with rfl | ⟨x, rfl, hx⟩
    · exact order_eq_of_same_null h
    obtain ⟨y, rfl, hxy⟩ := Value.same_list_left.mp h
    obtain ⟨_, ⟨⟩, hy⟩ := hb.resolve_left nofun
    exact sequenceOrder_eq (hxy.imp_mem fun a ha b hb => ih (hx a ha) (hy b hb))
  | set t ih =>
    rcases ha with rfl | ⟨x, rfl, hx⟩
    · exact order_eq_of_same_null h
    obtain ⟨y, rfl, -⟩ := Value.same_set_left.mp h
    obtain ⟨_, ⟨⟩, hy⟩ := hb.resolve_left nofun
    exact set_order_eq ih hx hy h
  | map k t ihk iht =>
    rcases ha with rfl | ⟨x, rfl, hsteady, hx⟩
    · exact order_eq_of_same_null h
    obtain ⟨y, rfl, -⟩ := Value.same_map_left.mp h
    obtain ⟨_, ⟨⟩, -, hy⟩ := hb.resolve_left nofun
    exact map_order_eq ihk iht hsteady hx hy h
  | tuple ts ih =>
    rcases ha with rfl | ⟨x, rfl, -, hx⟩
    · exact order_eq_of_same_null h
    obtain ⟨y, rfl, hxy⟩ := Value.same_tuple_left.mp h
    obtain ⟨_, ⟨⟩, -, hy⟩ := hb.resolve_left nofun
    exact positionsOrder_eq (fun t ht {a b} => ih t ht) hx hy hxy
  | udt keyspace name types ih =>
    rcases ha with rfl | ⟨x, rfl, -, hx⟩
    · exact order_eq_of_same_null h
    obtain ⟨y, rfl, hxy⟩ := Value.same_record_left.mp h
    obtain ⟨_, ⟨⟩, -, hy⟩ := hb.resolve_left nofun
    refine fieldsOrder_eq_iff.mpr fun f hf => ?_
    exact ih f hf (fitsFields_iff.mp hx f hf) (fitsFields_iff.mp hy f hf) (Fields.same_getD hxy f.1)
  | frozen t ih => exact ih ha hb h

end DataType

end CqlWire
