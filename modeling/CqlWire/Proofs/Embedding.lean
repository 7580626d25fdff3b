import CqlWire.Proofs.Agreement
import CqlWire.Proofs.Throughout

namespace CqlWire.DataType

open Value (same)

variable {t u k : DataType} {c x y : Value}

/-- Values of one type stand inside values of another, which are equal, and compare equal, exactly
when they are and do. -/
structure Embeds (u t : DataType) (f : Value → Value) : Prop where
  ne_null : ∀ x, x ≠ .null → f x ≠ .null
  fits : ∀ x, x ≠ .null → u.Fits .exact x → t.Fits .exact (f x)
  same_iff : ∀ x y, same (f x) (f y) = true ↔ same x y = true
  order_iff : ∀ x y, t.order (f x) (f y) = .eq ↔ u.order x y = .eq

theorem order_null_null (t : DataType) : t.order .null .null = .eq :=
  (exact_orderedOn t).refl (fits_null _ t)

theorem embeds_list : Embeds u (.list u) fun x => .list [x] where
  ne_null _ _ := nofun
  fits x _ hx := .inr ⟨[x], rfl, by simpa using hx⟩
  same_iff x y := by simp [Value.same_list_iff]
  order_iff x y := by
    refine Ordering.then_eq_eq.trans (and_iff_left ?_)
    rfl

theorem embeds_set : Embeds u (.set u) fun x => .set [x] where
  ne_null _ _ := nofun
  fits x _ hx := .inr ⟨[x], rfl, by simpa using hx⟩
  same_iff x y := by simp [Value.same_set_iff]
  order_iff x y := by
    refine Ordering.then_eq_eq.trans (and_iff_left ?_)
    rfl

theorem embeds_mapKey : Embeds k (.map k u) fun x => .map [(x, .null)] where
  ne_null _ _ := nofun
  fits x _ hx := .inr ⟨_, rfl, trivial, by simpa using hx⟩
  same_iff x y := by simp [Value.same_map_singleton]
  order_iff x y := by
    refine entriesOrder_eq_iff.trans ?_
    simp [Value.sortedEntries, sortBy, place, collapse, collapseAfter, order_null_null]

theorem embeds_mapValue : Embeds u (.map k u) fun x => .map [(.null, x)] where
  ne_null _ _ := nofun
  fits x _ hx := .inr ⟨_, rfl, trivial, by simpa using hx⟩
  same_iff x y := by simp [Value.same_map_singleton]
  order_iff x y := by
    refine entriesOrder_eq_iff.trans ?_
    simp [Value.sortedEntries, sortBy, place, collapse, collapseAfter, order_null_null]

/-- A null for each position. -/
def nulls (ts : List DataType) : List Value :=
  ts.map fun _ => .null

theorem forall₂_fits_nulls (ts : List DataType) : List.Forall₂ (Fits .exact) ts (nulls ts) :=
  List.forall₂_map_right_iff.mpr (List.forall₂_same.mpr fun t _ => fits_null _ t)

theorem forall₂_same_append (before after : List Value) :
    List.Forall₂ (fun a b => same a b = true) (before ++ x :: after) (before ++ y :: after) ↔
      same x y = true := by
  induction before with
  | nil =>
    rw [List.nil_append, List.nil_append, List.forall₂_cons]
    exact and_iff_left (List.forall₂_same.mpr fun a _ => Value.same_refl a)
  | cons a before ih =>
    rw [List.cons_append, List.cons_append, List.forall₂_cons, ih]
    exact and_iff_right (Value.same_refl a)

theorem positionsOrder_append (before after : List DataType) :
    positionsOrder (before ++ u :: after) (nulls before ++ x :: nulls after)
      (nulls before ++ y :: nulls after) = .eq ↔ u.order x y = .eq := by
  induction before with
  | nil =>
    refine Ordering.then_eq_eq.trans (and_iff_left ?_)
    have fits : Fits .exact (.tuple after) (.tuple (nulls after)) :=
      .inr ⟨_, rfl, List.length_map _, (fitsEach_iff (List.length_map _)).mpr (forall₂_fits_nulls after)⟩
    exact (exact_orderedOn (.tuple after)).refl fits
  | cons t before ih => exact Ordering.then_eq_eq.trans ((and_iff_right (order_null_null t)).trans ih)

theorem embeds_tuple (before after : List DataType) :
    Embeds u (.tuple (before ++ u :: after)) fun x => .tuple (nulls before ++ x :: nulls after) where
  ne_null _ _ := nofun
  fits x _ hx := by
    have each : List.Forall₂ (Fits .exact) (before ++ u :: after) (nulls before ++ x :: nulls after) :=
      List.rel_append (forall₂_fits_nulls before) (.cons hx (forall₂_fits_nulls after))
    have hl := each.length_eq.symm
    exact .inr ⟨_, rfl, hl, (fitsEach_iff hl).mpr each⟩
  same_iff x y := Value.same_tuple_iff.trans (forall₂_same_append _ _)
  order_iff x y := positionsOrder_append before after

theorem embeds_udt {keyspace name : String} {fields : FieldTypes}
    (hn : (fields.map Prod.fst).Nodup) {g : String × DataType} (hg : g ∈ fields) :
    Embeds g.2 (.udt keyspace name fields) fun x => .record [(g.1, x)] where
  ne_null _ _ := nofun
  fits x hne hx := by
    refine .inr ⟨_, rfl, ⟨⟨by simp, by simpa using hne⟩, ?_⟩, fitsFields_iff.mpr fun f hf => ?_⟩
    · simpa using ⟨g.2, hg⟩
    · rw [Fields.getD_cons]
      split
      next he =>
        rw [List.inj_on_of_nodup_map hn hf hg he.symm]
        exact hx
      next => exact fits_null _ _
  same_iff x y := by simp [Value.same_record_iff]
  order_iff x y := by
    refine fieldsOrder_eq_iff.trans ⟨fun h => ?_, fun h f hf => ?_⟩
    · have hxy := h g hg
      rw [Fields.getD_cons, Fields.getD_cons, if_pos rfl, if_pos rfl] at hxy
      exact hxy
    · rw [Fields.getD_cons, Fields.getD_cons]
      split
      next he =>
        rw [List.inj_on_of_nodup_map hn hf hg he.symm]
        exact h
      next => exact order_null_null _

/-- Values of each type directly inside a type stand inside values of the type. -/
theorem exists_embeds (hn : t.WellNamed) (hu : u ∈ t.children) : ∃ f, Embeds u t f := by
  cases t with
  | leaf kind => cases hu
  | list t =>
    rw [List.mem_singleton.mp hu]
    exact ⟨_, embeds_list⟩
  | set t =>
    rw [List.mem_singleton.mp hu]
    exact ⟨_, embeds_set⟩
  | map k v =>
    rcases List.mem_pair.mp hu with rfl | rfl
    · exact ⟨_, embeds_mapKey⟩
    · exact ⟨_, embeds_mapValue⟩
  | tuple ts =>
    obtain ⟨before, after, rfl⟩ := List.append_of_mem hu
    exact ⟨_, embeds_tuple before after⟩
  | udt keyspace name fields =>
    obtain ⟨g, hg, rfl⟩ := List.mem_map.mp hu
    exact ⟨_, embeds_udt ((throughout_iff.mp hn).1 keyspace name fields rfl) hg⟩
  | frozen t =>
    rw [List.mem_singleton.mp hu]
    exact ⟨id, fun _ => id, fun _ _ => id, fun _ _ => .rfl, fun _ _ => .rfl⟩

end CqlWire.DataType
