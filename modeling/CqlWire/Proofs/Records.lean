import CqlWire.Proofs.Equality
import CqlWire.Proofs.LeafOrder
import CqlWire.Proofs.Sorting
import Mathlib.Data.List.Nodup

namespace CqlWire.Fields

variable {fields x y : Fields} {name other : String} {v : Value}

/-- Fields in the order of their names, none of them null. -/
structure Canonical (fields : Fields) : Prop where
  sorted : fields.Pairwise fun f g => Text.order f.1 g.1 = .lt
  nonNull : ∀ f ∈ fields, f.2 ≠ .null

theorem nameOrder_orderedOn :
    OrderedOn (fun _ : String × Value => True) fun f g => Text.order f.1 g.1 :=
  Value.textOrder_orderedOn.comap Prod.fst fun _ _ => trivial

theorem getD_of_find? {f : String × Value} (h : fields.find? (fun f => f.1 = name) = some f) :
    fields.getD name = f.2 := by
  rw [getD, get?, h]
  rfl

theorem getD_cons (f : String × Value) (fields : Fields) (name : String) :
    getD (f :: fields) name = if f.1 = name then f.2 else fields.getD name := by
  unfold getD get?
  rw [List.find?_cons]
  by_cases h : f.1 = name <;> simp [h]

theorem getD_of_not_mem (h : ∀ f ∈ fields, f.1 ≠ name) : fields.getD name = .null := by
  induction fields with
  | nil => rfl
  | cons f fields ih =>
    rw [getD_cons, if_neg (h f (by simp)), ih fun g hg => h g (by simp [hg])]

theorem Canonical.getD_of_mem (h : fields.Canonical) {f : String × Value} (hf : f ∈ fields) :
    fields.getD f.1 = f.2 := by
  refine getD_of_find? ?_
  have hfind := nameOrder_orderedOn.find?_of_pairwise (c := f) (fun _ _ => trivial) trivial h.sorted
    hf (nameOrder_orderedOn.refl trivial)
  simpa only [Text.order_eq_iff, @eq_comm _ f.1] using hfind

theorem exists_mem_of_getD_ne_null (h : fields.getD name ≠ .null) :
    ∃ f ∈ fields, f.1 = name ∧ f.2 = fields.getD name := by
  induction fields with
  | nil => exact absurd rfl h
  | cons f fields ih =>
    rw [getD_cons] at h ⊢
    split at h
    next he =>
      rw [if_pos he]
      exact ⟨f, by simp, he, rfl⟩
    next he =>
      rw [if_neg he]
      obtain ⟨g, hg, hname, hv⟩ := ih h
      exact ⟨g, by simp [hg], hname, hv⟩

/-- What null and all fields have, the value of every name has. -/
theorem getD_of_forall {P : Value → Prop} (hnull : P .null) (h : ∀ f ∈ fields, P f.2)
    (name : String) : P (fields.getD name) := by
  by_cases hn : fields.getD name = .null
  · rw [hn]
    exact hnull
  · obtain ⟨f, hf, -, hv⟩ := exists_mem_of_getD_ne_null hn
    exact hv ▸ h f hf

theorem same_getD (h : List.Forall₂ (fun f g => f.1 = g.1 ∧ f.2.same g.2 = true) x y) (name : String) :
    (x.getD name).same (y.getD name) = true := by
  induction h with
  | nil => exact Value.same_refl _
  | cons hfg _ ih =>
    rw [getD_cons, getD_cons, hfg.1]
    split
    · exact hfg.2
    · exact ih

theorem Canonical.exists_mem_of_same (hx : x.Canonical) {f : String × Value} (hf : f ∈ x)
    (h : (x.getD f.1).same (y.getD f.1) = true) : ∃ g ∈ y, f.1 = g.1 ∧ f.2.same g.2 = true := by
  rw [hx.getD_of_mem hf] at h
  have hne : y.getD f.1 ≠ .null := by
    intro hnull
    rw [hnull] at h
    exact hx.nonNull f hf (Value.same_null_right.mp h)
  obtain ⟨g, hg, hname, hv⟩ := exists_mem_of_getD_ne_null hne
  exact ⟨g, hg, hname.symm, hv ▸ h⟩

/-- Records are equal when each name has equal values in both. -/
theorem forall₂_of_same_getD (hx : x.Canonical) (hy : y.Canonical)
    (h : ∀ name, (x.getD name).same (y.getD name) = true) :
    List.Forall₂ (fun f g => f.1 = g.1 ∧ f.2.same g.2 = true) x y := by
  have names := nameOrder_orderedOn.forall₂_of_covers (fun _ _ => trivial) (fun _ _ => trivial)
    hx.sorted hy.sorted
    (fun f hf => by
      obtain ⟨g, hg, hname, -⟩ := hx.exists_mem_of_same hf (h f.1)
      exact ⟨g, hg, Text.order_eq_iff.mpr hname⟩)
    (fun g hg => by
      obtain ⟨f, hf, hname, -⟩ := hy.exists_mem_of_same hg (Value.same_symm (h g.1))
      exact ⟨f, hf, Text.order_eq_iff.mpr hname.symm⟩)
  refine names.imp_mem fun f hf g hg e => ?_
  have hname := Text.order_eq_iff.mp e
  have hv := h f.1
  rw [hx.getD_of_mem hf, hname, hy.getD_of_mem hg] at hv
  exact ⟨hname, hv⟩

theorem getD_put (name : String) (v : Value) (fields : Fields) (other : String) :
    (put name v fields).getD other = if name = other then v else fields.getD other := by
  induction fields with
  | nil => exact getD_cons (name, v) [] other
  | cons f fields ih =>
    unfold put
    split
    next => rw [getD_cons]
    next e =>
      have hname := Text.order_eq_iff.mp e
      rw [getD_cons, getD_cons, ← hname]
      split <;> rfl
    next e =>
      have hne : name ≠ f.1 := by
        intro hname
        rw [Text.order_eq_iff.mpr hname] at e
        cases e
      rw [getD_cons, ih, getD_cons]
      by_cases hf : f.1 = other
      · rw [if_pos hf, if_pos hf, if_neg (hf ▸ hne)]
      · rw [if_neg hf, if_neg hf]

theorem getD_erase (fields : Fields) (name other : String) :
    (fields.erase name).getD other = if name = other then .null else fields.getD other := by
  induction fields with
  | nil => simp [erase, getD, get?]
  | cons f fields ih =>
    unfold erase at ih ⊢
    rw [List.filter_cons, getD_cons]
    by_cases hf : f.1 = name
    · rw [if_neg (by simpa using hf), ih, hf]
      split <;> rfl
    · rw [if_pos (by simpa using hf), getD_cons, ih]
      by_cases he : f.1 = other
      · rw [if_pos he, if_pos he, if_neg fun h => hf (he.trans h.symm)]
      · rw [if_neg he, if_neg he]

/-- A field that is set has its new value, and every other field the one it had. -/
theorem getD_set (fields : Fields) (name : String) (v : Value) (other : String) :
    (fields.set name v).getD other = if name = other then v else fields.getD other := by
  unfold set
  split
  next h => rw [getD_erase, Value.isNull_iff.mp h]
  next => exact getD_put name v fields other

theorem mem_put {f : String × Value} (h : f ∈ put name v fields) : f = (name, v) ∨ f ∈ fields := by
  induction fields with
  | nil => exact .inl (by simpa [put] using h)
  | cons g fields ih =>
    unfold put at h
    split at h
    · exact List.mem_cons.mp h
    · rcases List.mem_cons.mp h with h | h
      · exact .inl h
      · exact .inr (List.mem_cons_of_mem g h)
    · rcases List.mem_cons.mp h with h | h
      · exact .inr (h ▸ List.mem_cons_self)
      · exact (ih h).imp_right (List.mem_cons_of_mem g)

theorem mem_set {f : String × Value} (h : f ∈ fields.set name v) : f = (name, v) ∨ f ∈ fields := by
  unfold set at h
  split at h
  · exact .inr (List.mem_of_mem_filter h)
  · exact mem_put h

theorem sorted_put (h : fields.Pairwise fun f g => Text.order f.1 g.1 = .lt) :
    (put name v fields).Pairwise fun f g => Text.order f.1 g.1 = .lt := by
  have ord := nameOrder_orderedOn
  induction fields with
  | nil => exact List.pairwise_singleton _ _
  | cons f fields ih =>
    obtain ⟨hf, hs⟩ := List.pairwise_cons.mp h
    unfold put
    split
    next e =>
      refine List.pairwise_cons.mpr ⟨fun g hg => ?_, h⟩
      rcases List.mem_cons.mp hg with rfl | hg
      · exact e
      · exact ord.lt_trans_isLE (a := (name, v)) trivial trivial trivial e (by simp [hf g hg])
    next e =>
      refine List.pairwise_cons.mpr ⟨fun g hg => ?_, hs⟩
      rw [Text.order_eq_iff.mp e]
      exact hf g hg
    next e =>
      refine List.pairwise_cons.mpr ⟨fun g hg => ?_, ih hs⟩
      rcases mem_put hg with rfl | hg
      · rw [ord.swap (a := (name, v)) trivial trivial, e]
        rfl
      · exact hf g hg

theorem Canonical.set (h : fields.Canonical) : (fields.set name v).Canonical := by
  refine ⟨?_, fun f hf => ?_⟩
  · unfold Fields.set
    split
    · exact h.sorted.filter _
    · exact sorted_put h.sorted
  · unfold Fields.set at hf
    split at hf
    · exact h.nonNull f (List.mem_of_mem_filter hf)
    next hv =>
      rcases mem_put hf with rfl | hf
      · exact mt Value.isNull_iff.mpr hv
      · exact h.nonNull f hf

theorem canonical_nil : Canonical [] :=
  ⟨.nil, fun _ h => nomatch h⟩

/-- Fields given one after the other end up in the order of their names. -/
theorem ofList_canonical (values : List (String × Value)) : (ofList values).Canonical := by
  have given : ∀ (values : List (String × Value)) (acc : Fields), acc.Canonical →
      (values.foldl (fun fields f => set fields f.1 f.2) acc).Canonical := by
    intro values
    induction values with
    | nil => exact fun _ h => h
    | cons f values ih => exact fun acc h => ih _ h.set
  exact given values [] canonical_nil

theorem mem_ofList {values : List (String × Value)} {f : String × Value} (h : f ∈ ofList values) :
    f ∈ values := by
  have given : ∀ (values : List (String × Value)) (acc : Fields),
      f ∈ values.foldl (fun fields f => set fields f.1 f.2) acc → f ∈ values ∨ f ∈ acc := by
    intro values
    induction values with
    | nil => exact fun _ h => .inr h
    | cons g values ih =>
      intro acc h
      rcases ih _ h with hm | hm
      · exact .inl (List.mem_cons_of_mem g hm)
      · rcases mem_set hm with rfl | hm
        · exact .inl List.mem_cons_self
        · exact .inr hm
  exact (given values [] h).resolve_right List.not_mem_nil

theorem ofList_nulls {values : List (String × Value)} (h : ∀ f ∈ values, f.2 = .null) :
    ofList values = [] := by
  apply List.eq_nil_iff_forall_not_mem.mpr
  intro f hf
  exact (ofList_canonical values).nonNull f hf (h f (mem_ofList hf))

/-- The value of a field is one of those given to it. -/
theorem getD_ofList {values : List (String × Value)} {f : String × Value} (hf : f ∈ values) :
    (f.1, (ofList values).getD f.1) ∈ values := by
  have given : ∀ (values : List (String × Value)) (acc : Fields),
      (f.1, (values.foldl (fun fields g => set fields g.1 g.2) acc).getD f.1) ∈ values ∨
        (∀ g ∈ values, g.1 ≠ f.1) ∧
          (values.foldl (fun fields g => set fields g.1 g.2) acc).getD f.1 = acc.getD f.1 := by
    intro values
    induction values with
    | nil => exact fun _ => .inr ⟨by simp, rfl⟩
    | cons g values ih =>
      intro acc
      rw [List.foldl_cons]
      rcases ih (acc.set g.1 g.2) with h | ⟨hne, h⟩
      · exact .inl (List.mem_cons_of_mem g h)
      · rw [h, getD_set]
        split
        next he => exact .inl (he ▸ List.mem_cons_self)
        next he => exact .inr ⟨List.forall_mem_cons.mpr ⟨he, hne⟩, rfl⟩
  exact (given values []).resolve_right fun h => h.1 f hf rfl

/-- Where no name is given twice, each field has the value given to it. -/
theorem getD_ofList_of_nodup {values : List (String × Value)} (h : (values.map Prod.fst).Nodup)
    {f : String × Value} (hf : f ∈ values) : (ofList values).getD f.1 = f.2 :=
  congrArg Prod.snd (List.inj_on_of_nodup_map h (getD_ofList hf) hf rfl)

end CqlWire.Fields
