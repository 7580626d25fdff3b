import CqlWire.Proofs.Agreement

namespace CqlWire.DataType

open Value (same)

variable {t k : DataType} {a b : Value}

theorem eq_null_of_order_left (h : t.order .null b = .eq) : b = .null := by
  rw [order_null_left] at h
  split at h
  next hn => exact Value.isNull_iff.mp hn
  next => cases h

theorem eq_null_of_order_right (h : t.order a .null = .eq) : a = .null := by
  rw [order_null_right] at h
  split at h
  next hn => exact Value.isNull_iff.mp hn
  next => cases h

theorem same_of_order_of_ne_null (h : t.order a b = .eq)
    (hs : a ≠ .null → b ≠ .null → same a b = true) : same a b = true := by
  by_cases ha : a = .null
  · subst ha
    rw [eq_null_of_order_left h]
    exact Value.same_refl _
  by_cases hb : b = .null
  · subst hb
    rw [eq_null_of_order_right h]
    exact Value.same_refl _
  exact hs ha hb

/-- Lists without nulls that compare equal are as long and compare equal item by item. -/
theorem forall₂_of_sequenceOrder {order : Value → Value → Ordering} {x y : List Value}
    (hx : ∀ a ∈ x, a ≠ .null) (hy : ∀ b ∈ y, b ≠ .null) (h : Value.sequenceOrder order x y = .eq) :
    List.Forall₂ (fun a b => order a b = .eq) x y := by
  induction x generalizing y with
  | nil =>
    cases y with
    | nil => exact .nil
    | cons b y =>
      have hb := mt Value.isNull_iff.mp (hy b (by simp))
      simp [Value.sequenceOrder, hb] at h
  | cons a x ih =>
    cases y with
    | nil =>
      have ha := mt Value.isNull_iff.mp (hx a (by simp))
      simp [Value.sequenceOrder, ha] at h
    | cons b y =>
      obtain ⟨hab, h⟩ := Ordering.then_eq_eq.mp h
      simp only [List.forall_mem_cons] at hx hy
      exact .cons hab (ih hx.2 hy.2 h)

/-- Tuples with an item at each position that compare equal do so item by item. -/
theorem forall₂_of_positionsOrder {ts : List DataType} {x y : List Value}
    (hs : ∀ t ∈ ts, ∀ {a b : Value}, t.Fits .exact a → t.Fits .exact b → a ∈ x → b ∈ y →
      t.order a b = .eq → same a b = true)
    (hx : FitsEach .exact ts x) (hy : FitsEach .exact ts y) (lx : x.length = ts.length)
    (ly : y.length = ts.length) (h : positionsOrder ts x y = .eq) :
    List.Forall₂ (fun a b => same a b = true) x y := by
  induction ts generalizing x y with
  | nil =>
    rw [List.length_eq_zero_iff.mp lx, List.length_eq_zero_iff.mp ly]
    exact .nil
  | cons t ts ih =>
    obtain ⟨a, x, rfl⟩ := List.exists_cons_of_length_eq_add_one lx
    obtain ⟨b, y, rfl⟩ := List.exists_cons_of_length_eq_add_one ly
    obtain ⟨hab, h⟩ := Ordering.then_eq_eq.mp h
    refine .cons (hs t (by simp) hx.1 hy.1 (by simp) (by simp) hab) ?_
    refine ih (fun u hu => ?_) hx.2 hy.2 (by simpa using lx) (by simpa using ly) h
    exact fun {a b} fa fb ha hb => hs u (by simp [hu]) fa fb (by simp [ha]) (by simp [hb])

section Entries

variable {x y : List (Value × Value)}

theorem exists_mem_sortedEntries (hx : ∀ e ∈ x, k.Fits .exact e.1)
    (hiff : ∀ e ∈ x, ∀ f ∈ x, same e.1 f.1 = true ↔ k.order e.1 f.1 = .eq) {c v : Value}
    (h : Value.valueAt x c = some v) :
    ∃ e ∈ Value.sortedEntries k.order x, same c e.1 = true ∧ e.2 = v := by
  have ord := exact_keys_orderedOn k
  obtain ⟨before, l, after, rfl, hcl, -⟩ := Value.valueAt_eq_some.mp h
  have hl : (l, v) ∈ before ++ (l, v) :: after := by simp
  obtain ⟨e, he, hle⟩ := ord.exists_mem_firstOfEach hx hl
  have hce := Value.same_trans hcl ((hiff _ hl e (mem_of_mem_firstOfEach he)).mpr hle)
  have hv := valueAt_of_mem_sortedEntries hx he fun f hf =>
    (hiff e (mem_of_mem_firstOfEach he) f hf).mp
  rw [← Value.valueAt_eq_of_same hce, h] at hv
  exact ⟨e, he, hce, (Option.some.inj hv).symm⟩

/-- Maps that compare equal have equal values at each key. -/
theorem valueAt_of_entriesOrder (hx : ∀ e ∈ x, k.Fits .exact e.1) (hy : ∀ e ∈ y, k.Fits .exact e.1)
    (hiff : ∀ e ∈ x ++ y, ∀ f ∈ x ++ y, same e.1 f.1 = true ↔ k.order e.1 f.1 = .eq)
    (hv : ∀ e ∈ x, ∀ f ∈ y, t.order e.2 f.2 = .eq → same e.2 f.2 = true)
    (h : (DataType.map k t).order (.map x) (.map y) = .eq) (c : Value) :
    Option.Rel (fun v w => same v w = true) (Value.valueAt x c) (Value.valueAt y c) := by
  have hfx : ∀ e ∈ x, ∀ f ∈ x, same e.1 f.1 = true ↔ k.order e.1 f.1 = .eq := fun e he f hf =>
    hiff e (by simp [he]) f (by simp [hf])
  have hfy : ∀ e ∈ y, ∀ f ∈ y, same e.1 f.1 = true ↔ k.order e.1 f.1 = .eq := fun e he f hf =>
    hiff e (by simp [he]) f (by simp [hf])
  have keys : ∀ e ∈ Value.sortedEntries k.order x, ∀ f ∈ Value.sortedEntries k.order y,
      k.order e.1 f.1 = .eq → same e.1 f.1 = true := fun e he f hf =>
    (hiff e (by simp [mem_of_mem_firstOfEach he]) f (by simp [mem_of_mem_firstOfEach hf])).mpr
  have pairs := entriesOrder_eq_iff.mp h
  cases hc : Value.valueAt x c with
  | some v =>
    obtain ⟨e, he, hce, rfl⟩ := exists_mem_sortedEntries hx hfx hc
    obtain ⟨f, hf, hkey, hval⟩ := pairs.exists_mem_right he
    have hcf := Value.same_trans hce (keys e he f hf hkey)
    have hw := valueAt_of_mem_sortedEntries hy hf fun g hg =>
      (hfy f (mem_of_mem_firstOfEach hf) g hg).mp
    rw [← Value.valueAt_eq_of_same hcf] at hw
    rw [hw]
    exact .some (hv e (mem_of_mem_firstOfEach he) f (mem_of_mem_firstOfEach hf) hval)
  | none =>
    cases hd : Value.valueAt y c with
    | none => exact .none
    | some w =>
      obtain ⟨f, hf, hcf, rfl⟩ := exists_mem_sortedEntries hy hfy hd
      obtain ⟨e, he, hkey, -⟩ := pairs.exists_mem_left hf
      have hce := Value.same_trans hcf (Value.same_symm (keys e he f hf hkey))
      rw [Value.valueAt_eq_none.mp hc e (mem_of_mem_firstOfEach he)] at hce
      cases hce

end Entries

/-- On solid values of the type the order tells all values apart that equality does. -/
def Discerns (t : DataType) : Prop :=
  ∀ a b : Value, t.Fits .exact a → t.Fits .exact b → a.Solid → b.Solid → t.order a b = .eq →
    same a b = true

/-- Values of the type whose map keys are solid are steady. -/
def Steadies (t : DataType) : Prop :=
  ∀ a : Value, t.Fits .exact a → a.Settled → t.Fits .steady a

theorem Discerns.leaf (kind : Kind) : Discerns (.leaf kind) := by
  intro a b ha hb _ _ h
  refine same_of_order_of_ne_null h fun na nb => ?_
  have la := ha.resolve_left na
  have lb := hb.resolve_left nb
  rw [order, Value.nullsFirst_of_ne_null na nb, Value.leafOrder_eq_iff la lb] at h
  rw [h]
  exact Value.same_refl b

theorem Discerns.list (ht : t.Discerns) : Discerns (.list t) := by
  intro a b ha hb sa sb h
  refine same_of_order_of_ne_null h fun na nb => ?_
  obtain ⟨x, rfl, hx⟩ := ha.resolve_left na
  obtain ⟨y, rfl, hy⟩ := hb.resolve_left nb
  have sx := Value.everywhere_list.mp sa
  have sy := Value.everywhere_list.mp sb
  have pairs := forall₂_of_sequenceOrder (fun a ha => (sx a ha).1 (.inl rfl))
    (fun b hb => (sy b hb).1 (.inl rfl)) h
  refine Value.same_list_left.mpr ⟨y, rfl, pairs.imp_mem fun a ha b hb => ?_⟩
  exact ht a b (hx a ha) (hy b hb) (sx a ha).2 (sy b hb).2

theorem Discerns.set (ht : t.Discerns) : Discerns (.set t) := by
  intro a b ha hb sa sb h
  refine same_of_order_of_ne_null h fun na nb => ?_
  obtain ⟨x, rfl, hx⟩ := ha.resolve_left na
  obtain ⟨y, rfl, hy⟩ := hb.resolve_left nb
  have sx := Value.everywhere_set.mp sa
  have sy := Value.everywhere_set.mp sb
  have ord := exact_orderedOn t
  have pairs := forall₂_of_sequenceOrder
    (fun a ha => (sx a (mem_of_mem_firstOfEach ha)).1 (.inr rfl))
    (fun b hb => (sy b (mem_of_mem_firstOfEach hb)).1 (.inr rfl)) h
  refine Value.same_set_left.mpr ⟨y, rfl, fun a ha => ?_, fun b hb => ?_⟩
  · obtain ⟨c, hc, hac⟩ := ord.exists_mem_firstOfEach hx ha
    obtain ⟨d, hd, hcd⟩ := pairs.exists_mem_right hc
    replace hc := mem_of_mem_firstOfEach hc
    replace hd := mem_of_mem_firstOfEach hd
    exact ⟨d, hd, ht a d (hx a ha) (hy d hd) (sx a ha).2 (sy d hd).2
      (ord.eq_trans (hx a ha) (hx c hc) (hy d hd) hac hcd)⟩
  · obtain ⟨d, hd, hbd⟩ := ord.exists_mem_firstOfEach hy hb
    obtain ⟨c, hc, hcd⟩ := pairs.exists_mem_left hd
    replace hc := mem_of_mem_firstOfEach hc
    replace hd := mem_of_mem_firstOfEach hd
    exact ⟨c, hc, ht c b (hx c hc) (hy b hb) (sx c hc).2 (sy b hb).2
      (ord.eq_trans (hx c hc) (hy d hd) (hy b hb) hcd (ord.eq_symm (hy b hb) (hy d hd) hbd))⟩

theorem Discerns.map (hk : k.Discerns) (hs : k.Steadies) (ht : t.Discerns) :
    Discerns (.map k t) := by
  intro a b ha hb sa sb h
  refine same_of_order_of_ne_null h fun na nb => ?_
  obtain ⟨x, rfl, -, hx⟩ := ha.resolve_left na
  obtain ⟨y, rfl, -, hy⟩ := hb.resolve_left nb
  have sx := Value.everywhere_map.mp sa
  have sy := Value.everywhere_map.mp sb
  have key : ∀ e ∈ x ++ y, k.Fits .exact e.1 ∧ e.1.Solid := by
    intro e he
    rcases List.mem_append.mp he with he | he
    · exact ⟨(hx e he).1, (sx e he).1.2⟩
    · exact ⟨(hy e he).1, (sy e he).1.2⟩
  refine Value.same_map_iff.mpr (valueAt_of_entriesOrder (fun e he => (hx e he).1)
    (fun e he => (hy e he).1) (fun e he f hf => ⟨fun hef => ?_, fun hef => ?_⟩)
    (fun e he f hf => ?_) h)
  · exact order_eq_of_same k (hs e.1 (key e he).1 (key e he).2.settled) (key f hf).1 hef
  · exact hk e.1 f.1 (key e he).1 (key f hf).1 (key e he).2 (key f hf).2 hef
  · exact ht e.2 f.2 (hx e he).2 (hy f hf).2 (sx e he).2.2 (sy f hf).2.2

theorem Discerns.tuple {ts : List DataType} (hts : ∀ t ∈ ts, t.Discerns) : Discerns (.tuple ts) := by
  intro a b ha hb sa sb h
  refine same_of_order_of_ne_null h fun na nb => ?_
  obtain ⟨x, rfl, lx, hx⟩ := ha.resolve_left na
  obtain ⟨y, rfl, ly, hy⟩ := hb.resolve_left nb
  have sx := Value.everywhere_tuple.mp sa
  have sy := Value.everywhere_tuple.mp sb
  refine Value.same_tuple_left.mpr ⟨y, rfl, ?_⟩
  refine forall₂_of_positionsOrder (fun t ht {a b} fa fb ha hb => ?_) hx hy lx ly h
  exact hts t ht a b fa fb (sx a ha).2 (sy b hb).2

theorem Discerns.udt {keyspace name : String} {types : FieldTypes}
    (hts : ∀ f ∈ types, f.2.Discerns) : Discerns (.udt keyspace name types) := by
  intro a b ha hb sa sb h
  refine same_of_order_of_ne_null h fun na nb => ?_
  obtain ⟨x, rfl, ⟨cx, nx⟩, hx⟩ := ha.resolve_left na
  obtain ⟨y, rfl, ⟨cy, ny⟩, hy⟩ := hb.resolve_left nb
  have sx := Fields.getD_of_forall (P := Value.Solid) Value.everywhere_null
    fun f hf => (Value.everywhere_record.mp sa f hf).2
  have sy := Fields.getD_of_forall (P := Value.Solid) Value.everywhere_null
    fun f hf => (Value.everywhere_record.mp sb f hf).2
  refine Value.same_record_left.mpr ⟨y, rfl, Fields.forall₂_of_same_getD cx cy fun name => ?_⟩
  by_cases hname : ∃ f ∈ types, f.1 = name
  · obtain ⟨f, hf, rfl⟩ := hname
    exact hts f hf _ _ (fitsFields_iff.mp hx f hf) (fitsFields_iff.mp hy f hf) (sx f.1) (sy f.1)
      (fieldsOrder_eq_iff.mp h f hf)
  · have missing : ∀ {z : Fields}, (∀ f ∈ z, f.1 ∈ types.map Prod.fst) → z.getD name = .null := by
      intro z hz
      refine Fields.getD_of_not_mem fun f hf he => hname ?_
      obtain ⟨g, hg, hgf⟩ := List.mem_map.mp (hz f hf)
      exact ⟨g, hg, hgf.trans he⟩
    rw [missing nx, missing ny]
    exact Value.same_refl _

theorem Steadies.map (hk : k.Discerns) (hsk : k.Steadies) (hst : t.Steadies) :
    Steadies (.map k t) := by
  intro a ha sa
  refine ha.imp_right ?_
  rintro ⟨x, rfl, -, hx⟩
  have sx := Value.everywhere_map.mp sa
  refine ⟨x, rfl, fun e he f hf hef v w hv hw => ?_, fun e he => ?_⟩
  · have hsame := hk e.1 f.1 (hx e he).1 (hx f hf).1 ((sx e he).1.1 rfl)
      ((sx f hf).1.1 rfl) hef
    rw [Value.valueAt_eq_of_same hsame, hw] at hv
    cases hv
    exact (exact_orderedOn t).refl (Value.of_valueAt (fun e he => (hx e he).2) hw)
  · exact ⟨hsk e.1 (hx e he).1 (sx e he).1.2, hst e.2 (hx e he).2 (sx e he).2.2⟩

theorem discerns_and_steadies (t : DataType) : t.Discerns ∧ t.Steadies := by
  induction t with
  | leaf kind => exact ⟨.leaf kind, fun _ ha _ => ha⟩
  | list t ih =>
    refine ⟨.list ih.1, fun a ha sa => ha.imp_right ?_⟩
    rintro ⟨x, rfl, hx⟩
    exact ⟨x, rfl, fun v hv => ih.2 v (hx v hv) (Value.everywhere_list.mp sa v hv).2⟩
  | set t ih =>
    refine ⟨.set ih.1, fun a ha sa => ha.imp_right ?_⟩
    rintro ⟨x, rfl, hx⟩
    exact ⟨x, rfl, fun v hv => ih.2 v (hx v hv) (Value.everywhere_set.mp sa v hv).2⟩
  | map k t ihk iht => exact ⟨.map ihk.1 ihk.2 iht.1, .map ihk.1 ihk.2 iht.2⟩
  | tuple ts ih =>
    refine ⟨.tuple fun t ht => (ih t ht).1, fun a ha sa => ha.imp_right ?_⟩
    rintro ⟨x, rfl, lx, hx⟩
    refine ⟨x, rfl, lx, fitsEach_mono (fun t ht v hv fv => ?_) hx⟩
    exact (ih t ht).2 v fv (Value.everywhere_tuple.mp sa v hv).2
  | udt keyspace name types ih =>
    refine ⟨.udt fun f hf => (ih f hf).1, fun a ha sa => ha.imp_right ?_⟩
    rintro ⟨x, rfl, cx, hx⟩
    refine ⟨x, rfl, cx, fitsFields_iff.mpr fun f hf => (ih f hf).2 _ (fitsFields_iff.mp hx f hf) ?_⟩
    exact Fields.getD_of_forall (P := Value.Settled) Value.everywhere_null
      (fun g hg => (Value.everywhere_record.mp sa g hg).2) f.1
  | frozen t ih => exact ih

/-- Where map keys are solid, those of one map that compare equal are equal. -/
theorem Fits.steady (h : t.Fits .exact a) (hs : a.Settled) : t.Fits .steady a :=
  (discerns_and_steadies t).2 a h hs

end CqlWire.DataType
