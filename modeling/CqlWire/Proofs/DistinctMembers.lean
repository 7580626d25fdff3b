import CqlWire.Proofs.PlainKeys
import Mathlib.Data.List.Pairwise

namespace CqlWire

open Value (same)

section Distinct

variable {α : Type _} {P : α → Prop} {order : α → α → Ordering} {l : List α} {a b : α}

/-- Items that do not compare equal do so in no order. -/
theorem OrderedOn.apart_symm (h : OrderedOn P order) (hl : ∀ a ∈ l, P a)
    (hd : l.Pairwise fun a b => order a b ≠ .eq) :
    l.Pairwise fun a b => order a b ≠ .eq ∧ order b a ≠ .eq :=
  hd.imp_of_mem fun ha hb hne => ⟨hne, fun e => hne (h.eq_symm (hl _ hb) (hl _ ha) e)⟩

theorem OrderedOn.eq_of_apart (h : OrderedOn P order) (hl : ∀ a ∈ l, P a)
    (hd : l.Pairwise fun a b => order a b ≠ .eq) (ha : a ∈ l) (hb : b ∈ l) (e : order a b = .eq) :
    a = b := by
  by_contra hne
  have symm : Std.Symm fun a b => order a b ≠ .eq ∧ order b a ≠ .eq := ⟨fun _ _ h => h.symm⟩
  exact ((h.apart_symm hl hd).forall ha hb hne).1 e

theorem OrderedOn.sortBy_increasing (h : OrderedOn P order) (hl : ∀ a ∈ l, P a)
    (hd : l.Pairwise fun a b => order a b ≠ .eq) :
    (sortBy order l).Pairwise fun a b => order a b = .lt := by
  have apart := (h.apart_symm hl hd).perm (sortBy_perm order l).symm fun h => h.symm
  refine ((sortBy_pairwise h hl).and apart).imp fun ⟨hle, hne, _⟩ => ?_
  exact (Ordering.isLE_iff_eq_lt_or_eq_eq.mp hle).resolve_right hne

end Distinct

namespace DataType

variable {t u k v : DataType} {a b x y : Value} {differ : DataType → Value → Value → Prop}

mutual

/-- Whether all elements of a set and all keys of a map differ from each other, at any depth. -/
def Apart (differ : DataType → Value → Value → Prop) : DataType → Value → Prop
  | .list t, .list items => ∀ x ∈ items, Apart differ t x
  | .set t, .set items =>
    (items.Pairwise fun a b => differ t a b) ∧ ∀ x ∈ items, Apart differ t x
  | .map k v, .map entries =>
    (entries.Pairwise fun e f => differ k e.1 f.1) ∧
      ∀ e ∈ entries, Apart differ k e.1 ∧ Apart differ v e.2
  | .tuple ts, .tuple items => ApartEach differ ts items
  | .udt _ _ types, .record fields => ApartFields differ types fields
  | .frozen t, v => Apart differ t v
  | _, _ => True

/-- `Apart` for each position of a tuple. -/
def ApartEach (differ : DataType → Value → Value → Prop) : List DataType → List Value → Prop
  | [], _ => True
  | t :: ts, items => Apart differ t (items.headD .null) ∧ ApartEach differ ts items.tail

/-- `Apart` for each field. -/
def ApartFields (differ : DataType → Value → Value → Prop) :
    List (String × DataType) → Fields → Prop
  | [], _ => True
  | (name, t) :: rest, fields =>
    Apart differ t (fields.getD name) ∧ ApartFields differ rest fields

end

/-- Values that do not compare equal. -/
def comparesApart (t : DataType) (a b : Value) : Prop :=
  t.order a b ≠ .eq

/-- Values that are not equal. -/
def unequal (_ : DataType) (a b : Value) : Prop :=
  ¬same a b = true

/-- A value exactly of a type in which no two elements of a set and no two keys of a map compare
equal. -/
structure FitsApart (t : DataType) (a : Value) : Prop where
  fits : t.Fits .exact a
  apart : t.Apart comparesApart a

/-- A value exactly of a type in which no element of a set and no key of a map is repeated. -/
structure Repeatless (t : DataType) (a : Value) : Prop where
  fits : t.Fits .exact a
  apart : t.Apart unequal a

theorem apart_null (differ : DataType → Value → Value → Prop) (t : DataType) :
    t.Apart differ .null := by
  induction t with
  | frozen t ih => exact ih
  | _ => trivial

theorem apartFields_iff {types : FieldTypes} {fields : Fields} :
    ApartFields differ types fields ↔ ∀ f ∈ types, f.2.Apart differ (fields.getD f.1) := by
  induction types with
  | nil => simp [ApartFields]
  | cons f types ih =>
    obtain ⟨name, t⟩ := f
    simp [ApartFields, ih]

theorem apartEach_of_fits {differ' : DataType → Value → Value → Prop} {ts : List DataType}
    {items : List Value}
    (h : ∀ t ∈ ts, ∀ a : Value, t.Fits .exact a → t.Apart differ a → t.Apart differ' a)
    (fits : FitsEach .exact ts items) (apart : ApartEach differ ts items) :
    ApartEach differ' ts items := by
  induction ts generalizing items with
  | nil => trivial
  | cons t ts ih =>
    exact ⟨h t (by simp) _ fits.1 apart.1, ih (fun u hu => h u (by simp [hu])) fits.2 apart.2⟩

theorem fitsEach_steady {ts : List DataType} {items : List Value}
    (h : ∀ t ∈ ts, ∀ {a : Value}, t.Fits .exact a → t.Apart comparesApart a → t.Fits .steady a)
    (fits : FitsEach .exact ts items) (apart : ApartEach comparesApart ts items) :
    FitsEach .steady ts items := by
  induction ts generalizing items with
  | nil => trivial
  | cons t ts ih =>
    exact ⟨h t (by simp) fits.1 apart.1, ih (fun u hu => h u (by simp [hu])) fits.2 apart.2⟩

/-- A map whose keys compare apart has one value for each key, so that no two of them can disagree. -/
theorem FitsApart.steady (h : t.FitsApart a) : t.Fits .steady a := by
  obtain ⟨fits, apart⟩ := h
  induction t generalizing a with
  | leaf kind => exact fits
  | list t ih =>
    refine fits.imp_right ?_
    rintro ⟨items, rfl, hi⟩
    exact ⟨items, rfl, fun x hx => ih (hi x hx) (apart x hx)⟩
  | set t ih =>
    refine fits.imp_right ?_
    rintro ⟨items, rfl, hi⟩
    exact ⟨items, rfl, fun x hx => ih (hi x hx) (apart.2 x hx)⟩
  | map k v ihk ihv =>
    refine fits.imp_right ?_
    rintro ⟨entries, rfl, -, he⟩
    refine ⟨entries, rfl, fun e me f mf hef w w' hw hw' => ?_, fun e me => ?_⟩
    · have ord := exact_keys_orderedOn k
      have one : e = f := ord.eq_of_apart (fun e me => (he e me).1) apart.1 me mf hef
      subst one
      cases Option.some.inj (hw.symm.trans hw')
      exact (exact_orderedOn v).refl (Value.of_valueAt (fun e me => (he e me).2) hw)
    · exact ⟨ihk (he e me).1 (apart.2 e me).1, ihv (he e me).2 (apart.2 e me).2⟩
  | tuple ts ih =>
    refine fits.imp_right ?_
    rintro ⟨items, rfl, hl, hi⟩
    exact ⟨items, rfl, hl, fitsEach_steady (fun t ht {a} => ih t ht) hi apart⟩
  | udt keyspace name types ih =>
    refine fits.imp_right ?_
    rintro ⟨fields, rfl, hr, hf⟩
    refine ⟨fields, rfl, hr, fitsFields_iff.mpr fun f mf => ?_⟩
    exact ih f mf (fitsFields_iff.mp hf f mf) (apartFields_iff.mp apart f mf)
  | frozen t ih => exact ih fits apart

section Aligned

variable {α : Type _} {f : α → Value} {x y : List α}

/-- Items with equal keys, no two of them alike, meet when they are sorted by their keys. -/
theorem sortBy_forall₂_same (hx : ∀ a ∈ x, k.Fits .steady (f a))
    (hy : ∀ b ∈ y, k.Fits .exact (f b))
    (ax : x.Pairwise fun a b => k.order (f a) (f b) ≠ .eq)
    (ay : y.Pairwise fun a b => k.order (f a) (f b) ≠ .eq)
    (hxy : ∀ a ∈ x, ∃ b ∈ y, same (f a) (f b) = true)
    (hyx : ∀ b ∈ y, ∃ a ∈ x, same (f a) (f b) = true) :
    List.Forall₂ (fun a b => a ∈ x ∧ b ∈ y ∧ same (f a) (f b) = true)
      (sortBy (fun a b => k.order (f a) (f b)) x)
      (sortBy (fun a b => k.order (f a) (f b)) y) := by
  have ord := (exact_orderedOn k).comap (R := fun a => k.Fits .exact (f a)) f fun _ h => h
  have px : ∀ a ∈ x, k.Fits .exact (f a) := fun a ha => (hx a ha).exact
  have equal {a b : α} (ha : a ∈ x) (hb : b ∈ y) (h : same (f a) (f b) = true) :
      k.order (f a) (f b) = .eq := order_eq_of_same k (hx a ha) (hy b hb) h
  have classes := ord.forall₂_of_covers (fun a ha => px a (mem_sortBy.mp ha))
    (fun b hb => hy b (mem_sortBy.mp hb)) (ord.sortBy_increasing px ax)
    (ord.sortBy_increasing hy ay)
    (fun a ha => by
      have ha := mem_sortBy.mp ha
      obtain ⟨b, hb, hab⟩ := hxy a ha
      exact ⟨b, mem_sortBy.mpr hb, equal ha hb hab⟩)
    (fun b hb => by
      have hb := mem_sortBy.mp hb
      obtain ⟨a, ha, hab⟩ := hyx b hb
      exact ⟨a, mem_sortBy.mpr ha, equal ha hb hab⟩)
  refine classes.imp_mem fun a ha b hb hab => ?_
  have ha := mem_sortBy.mp ha
  have hb := mem_sortBy.mp hb
  -- The item that is the same stands in `y` too, and nothing else there compares equal to it.
  obtain ⟨c, hc, hac⟩ := hxy a ha
  have hbc := ord.eq_trans (hy b hb) (px a ha) (hy c hc) (ord.eq_symm (px a ha) (hy b hb) hab)
    (equal ha hc hac)
  rw [ord.eq_of_apart hy ay hb hc hbc]
  exact ⟨ha, hc, hac⟩

end Aligned

/-- In a map without two keys alike each entry has its own value. -/
theorem valueAt_of_apart {entries : List (Value × Value)} {e : Value × Value}
    (hk : ∀ e ∈ entries, k.Fits .steady e.1)
    (apart : entries.Pairwise fun e f => k.order e.1 f.1 ≠ .eq) (he : e ∈ entries) :
    Value.valueAt entries e.1 = some e.2 := by
  have ord := exact_keys_orderedOn k
  have found : (entries.find? fun f => same e.1 f.1).isSome :=
    List.find?_isSome.mpr ⟨e, he, Value.same_refl _⟩
  obtain ⟨f, hf⟩ := Option.isSome_iff_exists.mp found
  have mf := List.mem_of_find?_eq_some hf
  have hsame : same e.1 f.1 = true := by simpa using List.find?_some hf
  have hef := order_eq_of_same k (hk e he) (hk f mf).exact hsame
  have one : e = f := ord.eq_of_apart (fun e me => (hk e me).exact) apart he mf hef
  rw [Value.valueAt, hf, one]
  rfl

/-- The elements of all sets and the keys of all maps in the type are plain. -/
def HasPlainMembers : DataType → Prop :=
  Throughout fun t => (∀ u, t = .set u → u.Plain) ∧ ∀ k v, t = .map k v → k.Plain

/-- No set and no map is part of the type. -/
def Sequential : DataType → Prop :=
  Throughout fun t => (∀ u, t ≠ .set u) ∧ ∀ k v, t ≠ .map k v

theorem apartEach_of_forall {ts : List DataType} {items : List Value}
    (h : ∀ t ∈ ts, ∀ a : Value, t.Apart differ a) :
    ApartEach differ ts items := by
  induction ts generalizing items with
  | nil => trivial
  | cons t ts ih => exact ⟨h t (by simp) _, ih fun u hu => h u (by simp [hu])⟩

theorem Sequential.apart (h : t.Sequential) (differ : DataType → Value → Value → Prop)
    (a : Value) : t.Apart differ a := by
  induction t generalizing a with
  | leaf kind => cases a <;> trivial
  | list t ih =>
    cases a with
    | list items => exact fun x _ => ih (throughout_list.mp h).2 x
    | _ => trivial
  | set t => exact absurd rfl ((throughout_set.mp h).1.1 t)
  | map k v => exact absurd rfl ((throughout_map.mp h).1.2 k v)
  | tuple ts ih =>
    have inside := (throughout_tuple.mp h).2
    cases a with
    | tuple items => exact apartEach_of_forall fun t ht => ih t ht (inside t ht)
    | _ => trivial
  | udt keyspace name types ih =>
    have inside := (throughout_udt.mp h).2
    cases a with
    | record fields => exact apartFields_iff.mpr fun f hf => ih f hf (inside f hf) _
    | _ => trivial
  | frozen t ih => exact ih (throughout_frozen.mp h).2 a

/-- Plain values that compare equal are equal. -/
theorem order_ne_of_unequal (ht : t.Plain) (ha : t.Fits .exact a) (hb : t.Fits .exact b)
    (h : ¬same a b = true) : t.order a b ≠ .eq :=
  fun e => h ((discerns_and_steadies t).1 a b ha hb (ha.solid ht) (hb.solid ht) e)

/-- Where elements and keys are plain, it is enough that none is repeated. -/
theorem Repeatless.fitsApart (h : t.Repeatless a) (ht : t.HasPlainMembers) : t.FitsApart a := by
  obtain ⟨fits, apart⟩ := h
  refine ⟨fits, ?_⟩
  induction t generalizing a with
  | leaf kind => exact apart
  | list t ih =>
    rcases fits with rfl | ⟨items, rfl, hi⟩
    · exact apart_null _ _
    · exact fun x hx => ih (throughout_list.mp ht).2 (hi x hx) (apart x hx)
  | set t ih =>
    rcases fits with rfl | ⟨items, rfl, hi⟩
    · exact apart_null _ _
    · obtain ⟨⟨plain, -⟩, inside⟩ := throughout_set.mp ht
      refine ⟨apart.1.imp_of_mem fun ha hb => ?_, fun x hx => ih inside (hi x hx) (apart.2 x hx)⟩
      exact order_ne_of_unequal (plain t rfl) (hi _ ha) (hi _ hb)
  | map k v ihk ihv =>
    rcases fits with rfl | ⟨entries, rfl, -, he⟩
    · exact apart_null _ _
    · obtain ⟨⟨-, plain⟩, keys, values⟩ := throughout_map.mp ht
      refine ⟨apart.1.imp_of_mem fun ha hb => ?_, fun e me => ?_⟩
      · exact order_ne_of_unequal (plain k v rfl) (he _ ha).1 (he _ hb).1
      · exact ⟨ihk keys (he e me).1 (apart.2 e me).1, ihv values (he e me).2 (apart.2 e me).2⟩
  | tuple ts ih =>
    rcases fits with rfl | ⟨items, rfl, hl, hi⟩
    · exact apart_null _ _
    · have inside := (throughout_tuple.mp ht).2
      exact apartEach_of_fits (fun t ht a fits apart => ih t ht (inside t ht) fits apart) hi apart
  | udt keyspace name types ih =>
    rcases fits with rfl | ⟨fields, rfl, -, hf⟩
    · exact apart_null _ _
    · have inside := (throughout_udt.mp ht).2
      refine apartFields_iff.mpr fun f mf => ?_
      exact ih f mf (inside f mf) (fitsFields_iff.mp hf f mf) (apartFields_iff.mp apart f mf)
  | frozen t ih => exact ih (throughout_frozen.mp ht).2 fits apart

end DataType

end CqlWire
