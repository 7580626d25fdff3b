import CqlWire.Proofs.Leftovers

namespace CqlWire

open Value (encode)

namespace Value

variable {v w : Value}

/-- What the codec asks of a leaf value beyond its variant: texts of the narrower kind are ASCII, times
lie within a day, and identifiers with a time are of version 1. -/
def InBounds : Value → Prop
  | ascii s => Leaf.isAscii s = true
  | time nanos => 0 ≤ nanos.toInt ∧ nanos.toInt < Leaf.nanosPerDay
  | timeuuid u => u.version = 1
  | _ => True

/-- Every leaf value in the value, at any depth, is within its bounds. -/
def Bounded (v : Value) : Prop :=
  ∀ w, Relation.ReflTransGen Holds v w → w.InBounds

theorem bounded_iff : v.Bounded ↔ v.InBounds ∧ ∀ w, v.Holds w → w.Bounded := by
  constructor
  · exact fun h => ⟨h v .refl, fun w hw u path => h u (.head hw path)⟩
  · rintro ⟨here, inside⟩ u path
    rcases path.cases_head with rfl | ⟨w, hw, path⟩
    · exact here
    · exact inside w hw u path

theorem bounded_null : Value.null.Bounded := by
  refine bounded_iff.mpr ⟨trivial, ?_⟩
  rintro w ⟨place, hw⟩
  cases hw

end Value

namespace Kind

variable {kind : Kind} {v : Value} {x : EngineValue}

/-- A leaf value from the engine has the variant of its kind. -/
theorem holds_of_ofEngine (h : kind.ofEngine x = .ok v) : kind.Holds v := by
  unfold ofEngine at h
  split at h
  case h_13 | h_14 | h_15 =>
    obtain ⟨a, -, rfl⟩ := map_eq_ok.mp h
    exact ⟨a, rfl⟩
  case h_20 => cases h
  all_goals
    cases h
    first
      | exact ⟨_, rfl⟩
      | rfl

/-- Of the values of a kind's own variant the codec takes those within bounds. -/
theorem Holds.admits_iff (h : kind.Holds v) : kind.Admits v ↔ v.InBounds := by
  cases kind
  case ascii =>
    obtain ⟨s, rfl⟩ := h
    constructor
    · rintro ⟨_, heq | heq, hs⟩ <;> cases heq
      exact hs
    · exact fun hs => ⟨s, .inl rfl, hs⟩
  case text =>
    obtain ⟨s, rfl⟩ := h
    exact iff_of_true ⟨s, .inr rfl⟩ trivial
  case time =>
    obtain ⟨nanos, rfl⟩ := h
    constructor
    · rintro ⟨_, ⟨⟩, hday⟩
      exact hday
    · exact fun hday => ⟨nanos, rfl, hday⟩
  case timeuuid =>
    obtain ⟨u, rfl⟩ := h
    constructor
    · rintro ⟨_, ⟨⟩, hu⟩
      exact hu
    · exact fun hu => ⟨u, rfl, hu⟩
  case empty =>
    cases h
    exact iff_of_true rfl trivial
  all_goals
    obtain ⟨x, rfl⟩ := h
    exact iff_of_true ⟨x, rfl⟩ trivial

end Kind

namespace Shape

variable {s : Shape} {v w : Value} {y : DataType × Value}

/-- What stands inside a value that fits a shape fits the type that it has there. -/
theorem fits_of_mem_contents {strictness : Strictness} (hs : strictness.Implies .exact)
    (h : s.toType.Fits strictness v) (hy : y ∈ s.contents v) : y.1.Fits strictness y.2 := by
  by_cases hv : v = .null
  · rw [hv, contents_null] at hy
    cases hy
  cases s with
  | leaf kind => cases hy
  | list e | set e =>
    obtain ⟨items, rfl, fits⟩ := h.resolve_left hv
    obtain ⟨w, hw, rfl⟩ := List.mem_map.mp hy
    exact fits w hw
  | map k e =>
    obtain ⟨entries, rfl, -, fits⟩ := h.resolve_left hv
    refine (forall_mem_contents_map (P := fun y => y.1.Fits strictness y.2)).mpr ⟨?_, ?_⟩ y hy
    · exact List.forall_mem_map.mpr fun entry hentry => (fits entry hentry).1
    · exact List.forall_mem_map.mpr fun entry hentry => (fits entry hentry).2
  | tuple ts =>
    obtain ⟨items, rfl, hl, fits⟩ := h.resolve_left hv
    exact List.forall₂_zip ((DataType.fitsEach_iff (hs.arity _ _ hl)).mp fits) hy
  | udt u =>
    obtain ⟨fields, rfl, -, fits⟩ := h.resolve_left hv
    obtain ⟨f, hf, rfl⟩ := List.mem_map.mp hy
    exact DataType.fitsFields_iff.mp fits f hf

/-- Whatever stands inside a value exactly of a shape has a type there. -/
theorem exists_type_of_fits (h : s.toType.Fits .exact v) (hw : v.Holds w) :
    ∃ u, (u, w) ∈ s.contents v := by
  obtain ⟨place, hw⟩ := hw
  by_cases hv : v = .null
  · rw [hv] at hw
    cases hw
  cases s with
  | leaf kind =>
    have leaf := Kind.Holds.isLeaf (h.resolve_left hv)
    rw [Value.contents_of_isLeaf leaf] at hw
    cases hw
  | list e | set e =>
    obtain ⟨items, rfl, -⟩ := h.resolve_left hv
    obtain ⟨_, hm, ⟨⟩⟩ := List.mem_map.mp hw
    exact ⟨e, List.mem_map_of_mem hm⟩
  | map k e =>
    obtain ⟨entries, rfl, -⟩ := h.resolve_left hv
    obtain ⟨entry, hentry, hw⟩ := List.mem_flatMap.mp hw
    rcases List.mem_pair.mp hw with hw | hw <;> cases hw
    · exact ⟨k, List.mem_flatMap.mpr ⟨entry, hentry, by simp⟩⟩
    · exact ⟨e, List.mem_flatMap.mpr ⟨entry, hentry, by simp⟩⟩
  | tuple ts =>
    obtain ⟨items, rfl, hl, -⟩ := h.resolve_left hv
    obtain ⟨_, hm, ⟨⟩⟩ := List.mem_map.mp hw
    rw [← List.map_snd_zip (Nat.le_of_eq hl)] at hm
    obtain ⟨⟨t, w⟩, hp, rfl⟩ := List.mem_map.mp hm
    exact ⟨t, hp⟩
  | udt u =>
    obtain ⟨fields, rfl, ⟨canonical, declared⟩, -⟩ := h.resolve_left hv
    obtain ⟨f, hf, ⟨⟩⟩ := List.mem_map.mp hw
    obtain ⟨g, hg, hname⟩ := List.mem_map.mp (declared f hf)
    refine ⟨g.2, List.mem_map.mpr ⟨g, hg, ?_⟩⟩
    rw [hname, canonical.getD_of_mem hf]

end Shape

namespace Registry

variable {r : Registry} {t : DataType} {s : Shape} {v : Value}

/-- A value exactly of a shape has its form, so far as it is within bounds, where the types that are to
be put in order are on record. -/
theorem forms_iff_of_fits (hv : v ≠ .null) (fits : s.toType.Fits .exact v)
    (recorded : ∀ u ∈ s.toType.children, ∀ m, r.Meets u m → r.contains m.1 m.2 = true) :
    r.Forms s v ↔ v.InBounds := by
  cases s with
  | leaf kind => exact (fits.resolve_left hv).admits_iff
  | list e =>
    obtain ⟨items, rfl, -⟩ := fits.resolve_left hv
    exact iff_of_true ⟨items, rfl⟩ trivial
  | set e =>
    obtain ⟨items, rfl, -⟩ := fits.resolve_left hv
    exact iff_of_true ⟨⟨items, rfl⟩, recorded e (List.mem_singleton_self e)⟩ trivial
  | map k e =>
    obtain ⟨entries, rfl, -⟩ := fits.resolve_left hv
    exact iff_of_true ⟨⟨entries, rfl⟩, recorded k List.mem_cons_self⟩ trivial
  | tuple ts =>
    obtain ⟨items, rfl, hl, -⟩ := fits.resolve_left hv
    exact iff_of_true ⟨items, rfl, Nat.le_of_eq hl⟩ trivial
  | udt u =>
    obtain ⟨fields, rfl, ⟨-, declared⟩, -⟩ := fits.resolve_left hv
    exact iff_of_true ⟨fields, rfl, declared⟩ trivial

/-- A value exactly of a type conforms to it just when its leaf values are within bounds. -/
theorem Mirrors.conforms_iff_bounded (h : r.Mirrors t) (fits : t.Fits .exact v) :
    r.Conforms t v ↔ v.Bounded := by
  induction t, v using DataType.declared_induct with
  | null t => exact iff_of_true conforms_null Value.bounded_null
  | step t v hv ih =>
    have whole := (DataType.fits_shape .exact t v).mp fits
    have forms_iff : r.Forms t.shape v ↔ v.InBounds := forms_iff_of_fits hv whole
      fun u hu m hm => h.contains_of_meets (below_of_child h.shape hu m hm)
    have inside (y : DataType × Value) (hy : y ∈ t.shape.contents v) :
        r.Conforms y.1 y.2 ↔ y.2.Bounded :=
      ih y hy (h.of_mem_contents hy) (Shape.fits_of_mem_contents .rfl whole hy)
    rw [conforms_iff hv, Value.bounded_iff]
    constructor
    · rintro ⟨s, hs, forms, parts⟩
      cases h.shape.symm.trans hs
      refine ⟨forms_iff.mp forms, fun w hw => ?_⟩
      obtain ⟨u, hu⟩ := Shape.exists_type_of_fits whole hw
      exact (inside (u, w) hu).mp (parts (u, w) hu)
    · rintro ⟨here, parts⟩
      refine ⟨t.shape, h.shape, forms_iff.mpr here, fun y hy => (inside y hy).mpr ?_⟩
      rcases eq_null_or_mem_contents hy with hnull | ⟨c, hc, hcy⟩
      · rw [hnull]
        exact Value.bounded_null
      · exact hcy ▸ parts c.2 ⟨c.1, hc⟩

/-- A value exactly of a type that is on record as it stands has an encoding just when its leaf values
are within bounds and its counts and lengths have less than 31 bits. -/
theorem Mirrors.exists_encode_iff {nested : Bool} (h : r.Mirrors t) (fits : t.Fits .exact v)
    (hv : v ≠ .null) : (∃ bytes, encode r t v nested = .ok bytes) ↔
      v.Bounded ∧ ∀ n, r.WritesSize t nested v n → n < Frame.limit := by
  rw [← h.conforms_iff_bounded fits]
  simp only [Value.encode_eq_ok, hv, ne_eq, not_false_eq_true, true_and]
  exact exists_encodeAs_iff_of_not_loops h.not_loops hv

end Registry

namespace DataType

variable {t k : DataType} {ts : List DataType} {v : Value} {x : EngineValue} {types : FieldTypes}
  {xs : List EngineValue} {items : List Value} {acc out : Fields} {row : EngineRow}

/-- Whatever is read from the engine as a value of the type is exactly of it: of its variants at every
depth, with tuples of full length and records of declared fields. -/
def ReadsExact (t : DataType) : Prop :=
  ∀ x v, t.ofEngine x = .ok v → t.Fits .exact v

theorem readsExact_leaf (kind : Kind) : (leaf kind).ReadsExact := by
  intro x v h
  rw [ofEngine] at h
  split at h
  next =>
    cases h
    exact .inl rfl
  next => exact .inr (Kind.holds_of_ofEngine h)

theorem ReadsExact.list (ht : t.ReadsExact) : (list t).ReadsExact := by
  intro x v h
  simp only [ofEngine] at h
  split at h
  next =>
    cases h
    exact .inl rfl
  next xs =>
    obtain ⟨items, hitems, rfl⟩ := map_eq_ok.mp h
    refine .inr ⟨items, rfl, fun v hv => ?_⟩
    obtain ⟨x, -, hx⟩ := (mapM_eq_ok.mp hitems).exists_mem_left hv
    exact ht x v hx
  next => cases h

theorem ReadsExact.set (ht : t.ReadsExact) : (set t).ReadsExact := by
  intro x v h
  simp only [ofEngine] at h
  split at h
  next =>
    cases h
    exact .inl rfl
  next xs =>
    obtain ⟨items, hitems, h⟩ := bind_eq_ok.mp h
    cases pure_eq_ok.mp h
    refine .inr ⟨_, rfl, fun v hv => ?_⟩
    -- Only items that were read are kept.
    have among := (Value.distinct_fold items []).1 v (List.mem_reverse.mp hv)
    obtain ⟨x, -, hx⟩ := (mapM_eq_ok.mp hitems).exists_mem_left (among.resolve_left List.not_mem_nil)
    exact ht x v hx
  next => cases h

theorem ReadsExact.map (hk : k.ReadsExact) (ht : t.ReadsExact) : (map k t).ReadsExact := by
  intro x v h
  simp only [ofEngine] at h
  split at h
  next =>
    cases h
    exact .inl rfl
  next xs =>
    obtain ⟨entries, hentries, rfl⟩ := map_eq_ok.mp h
    refine .inr ⟨entries, rfl, trivial, fun e he => ?_⟩
    obtain ⟨x, -, hx⟩ := (mapM_eq_ok.mp hentries).exists_mem_left he
    obtain ⟨a, ha, hx⟩ := bind_eq_ok.mp hx
    obtain ⟨b, hb, hx⟩ := bind_eq_ok.mp hx
    cases pure_eq_ok.mp hx
    exact ⟨hk x.1 a ha, ht x.2 b hb⟩
  next => cases h

/-- As many items as there are positions are of the types of the positions. -/
theorem forall₂_positionsOfEngine (hl : xs.length = ts.length) (hts : ∀ t ∈ ts, t.ReadsExact)
    (h : positionsOfEngine ts xs = .ok items) : List.Forall₂ (Fits .exact) ts items := by
  rw [positionsOfEngine_eq_mapM] at h
  have each : List.Forall₂ (Fits .exact) ((ts.zip xs).map Prod.fst) items := by
    rw [List.forall₂_map_left_iff]
    exact (mapM_eq_ok.mp h).imp_mem fun p hp v _ hv => hts p.1 (List.of_mem_zip hp).1 p.2 v hv
  rwa [List.map_fst_zip (Nat.le_of_eq hl.symm)] at each

theorem ReadsExact.tuple (hts : ∀ t ∈ ts, t.ReadsExact) : (tuple ts).ReadsExact := by
  intro x v h
  simp only [ofEngine] at h
  split at h
  next =>
    cases h
    exact .inl rfl
  next row =>
    split at h
    next width =>
      obtain ⟨items, hitems, rfl⟩ := map_eq_ok.mp h
      have each := forall₂_positionsOfEngine (by rwa [List.length_map]) hts hitems
      have full := each.length_eq.symm
      exact .inr ⟨items, rfl, full, (fitsEach_iff full).mpr each⟩
    next => cases h
  next => cases h

theorem exists_of_find?_fieldReaders {name : String}
    {reader : String × (EngineValue → Except Error Value)}
    (h : (fieldReaders types).find? (fun r => r.1 = name) = some reader) :
    ∃ f ∈ types, f.1 = name ∧ reader = (f.1, f.2.ofEngine) := by
  rw [fieldReaders_eq_map, List.find?_map, Option.map_eq_some_iff] at h
  obtain ⟨f, hf, rfl⟩ := h
  exact ⟨f, List.mem_of_find?_eq_some hf, by simpa using List.find?_some hf, rfl⟩

/-- Fields with declared names and values exactly of their types. -/
structure Collects (types : FieldTypes) (acc : Fields) : Prop where
  canonical : acc.Canonical
  declared : ∀ f ∈ acc, f.1 ∈ types.map Prod.fst
  fits : ∀ f ∈ types, f.2.Fits .exact (acc.getD f.1)

namespace Collects

theorem nil : Collects types [] :=
  ⟨Fields.canonical_nil, nofun, fun f _ => fits_null .exact f.2⟩

theorem set (h : Collects types acc) (hn : (types.map Prod.fst).Nodup) {f : String × DataType}
    (hf : f ∈ types) (hv : f.2.Fits .exact v) : Collects types (acc.set f.1 v) where
  canonical := h.canonical.set
  declared g hg := by
    rcases Fields.mem_set hg with rfl | hg
    · exact List.mem_map_of_mem hf
    · exact h.declared g hg
  fits g hg := by
    rw [Fields.getD_set]
    split
    next same => exact List.inj_on_of_nodup_map hn hf hg same ▸ hv
    next => exact h.fits g hg

theorem fieldOfEngine {udt : Udt} {g : String × EngineValue} (h : Collects types acc)
    (hn : (types.map Prod.fst).Nodup) (hts : ∀ f ∈ types, f.2.ReadsExact)
    (hg : fieldOfEngine udt (fieldReaders types) acc g = .ok out) : Collects types out := by
  unfold DataType.fieldOfEngine at hg
  split at hg
  next => cases hg
  next reader hreader =>
    obtain ⟨f, hf, hname, rfl⟩ := exists_of_find?_fieldReaders hreader
    split at hg
    next =>
      cases hg
      exact h
    next =>
      obtain ⟨v, hv, hg⟩ := bind_eq_ok.mp hg
      cases pure_eq_ok.mp hg
      exact hname ▸ h.set hn hf (hts f hf g.2 v hv)

theorem foldlM {udt : Udt} (h : Collects types acc) (hn : (types.map Prod.fst).Nodup)
    (hts : ∀ f ∈ types, f.2.ReadsExact)
    (hrow : row.foldlM (DataType.fieldOfEngine udt (fieldReaders types)) acc = .ok out) :
    Collects types out := by
  induction row generalizing acc with
  | nil =>
    cases pure_eq_ok.mp hrow
    exact h
  | cons g row ih =>
    rw [List.foldlM_cons] at hrow
    obtain ⟨mid, hmid, hrow⟩ := bind_eq_ok.mp hrow
    exact ih (h.fieldOfEngine hn hts hmid) hrow

end Collects

theorem ReadsExact.udt {keyspace name : String} (hn : (types.map Prod.fst).Nodup)
    (hts : ∀ f ∈ types, f.2.ReadsExact) : (udt keyspace name types).ReadsExact := by
  intro x v h
  simp only [ofEngine] at h
  split at h
  next =>
    cases h
    exact .inl rfl
  next row =>
    obtain ⟨fields, hfields, rfl⟩ := map_eq_ok.mp h
    have collected := Collects.nil.foldlM hn hts hfields
    exact .inr ⟨fields, rfl, ⟨collected.canonical, collected.declared⟩,
      fitsFields_iff.mpr collected.fits⟩
  next => cases h

theorem readsExact (hn : t.WellNamed) : t.ReadsExact := by
  induction t with
  | leaf kind => exact readsExact_leaf kind
  | list t ih => exact (ih (wellNamed_list.mp hn)).list
  | set t ih => exact (ih (wellNamed_set.mp hn)).set
  | map k t ihk iht =>
    obtain ⟨hk, ht⟩ := wellNamed_map.mp hn
    exact (ihk hk).map (iht ht)
  | tuple ts ih => exact .tuple fun t ht => ih t ht (wellNamed_tuple.mp hn t ht)
  | udt keyspace name types ih =>
    obtain ⟨distinct, inside⟩ := wellNamed_udt.mp hn
    exact .udt distinct fun f hf => ih f hf (inside f hf)
  | frozen t ih => exact ih (wellNamed_frozen.mp hn)

/-- Reading keeps leaf values to no bounds. -/
theorem exists_ofEngine_of_not_inBounds {kind : Kind} (hv : kind.Holds v) (out : ¬v.InBounds) :
    ∃ x, (leaf kind).ofEngine x = .ok v := by
  -- Only time stamps can be out of the engine's range, and these have no bounds here.
  obtain ⟨x, hx⟩ : ∃ x, kind.toEngine v = .ok x :=
    (Kind.exists_toEngine_iff hv).mpr fun millis heq => absurd (heq ▸ trivial) out
  obtain ⟨hnull, hback⟩ := Kind.ofEngine_toEngine hv hx
  exact ⟨x, by rw [ofEngine, if_neg (by simp [hnull]), hback]⟩

theorem inBounds_of_encode {kind : Kind} {r : Registry} {nested : Bool} {bytes : Bytes}
    (hv : kind.Holds v) (he : encode r (leaf kind) v nested = .ok bytes) : v.InBounds := by
  obtain ⟨-, he⟩ := Value.encode_eq_ok.mp he
  rw [Value.encodeAs_leaf rfl] at he
  exact hv.admits_iff.mp (Leaf.admits_of_encode he)

/-- What is read from the engine is exactly of its type, and is written by the codec just when its leaf
values are within bounds at every depth, and counts and lengths have less than 31 bits. Reading
keeps no leaf value to its bounds: any that is out of them is read and not written. -/
theorem ofEngine_encodable (r : Registry) (nested : Bool) :
    (∀ (t : DataType) (x : EngineValue) (v : Value), t.WellNamed → r.Mirrors t →
      t.ofEngine x = .ok v → v ≠ .null →
        t.Fits .exact v ∧ ((∃ bytes, encode r t v nested = .ok bytes) ↔
          v.Bounded ∧ ∀ n, r.WritesSize t nested v n → n < Frame.limit)) ∧
    ∀ (kind : Kind) (v : Value), kind.Holds v → ¬v.InBounds →
      ∃ x, (leaf kind).ofEngine x = .ok v ∧ ∀ bytes, encode r (leaf kind) v nested ≠ .ok bytes := by
  refine ⟨fun t x v hn mirrors h hv => ?_, fun kind v holds out => ?_⟩
  · have fits := readsExact hn x v h
    exact ⟨fits, mirrors.exists_encode_iff fits hv⟩
  · obtain ⟨x, hx⟩ := exists_ofEngine_of_not_inBounds holds out
    exact ⟨x, hx, fun bytes he => out (inBounds_of_encode holds he)⟩

/-- A record with a time of the day, and the same record with a time before it. -/
theorem ofEngine_encodable_time :
    let p : Udt := ⟨"ks", "p", [("at", .leaf .time), ("tags", .set (.leaf .ascii))]⟩
    let r : Registry := ⟨[p]⟩
    let x (nanos : Int64) : EngineValue :=
      .row [("tags", .array [.text "a"]), ("at", .long nanos)]
    let v (nanos : Int64) : Value := .record [("at", .time nanos), ("tags", .set [.ascii "a"])]
    let u : Value := .timeuuid ⟨0⟩
    (p.type.WellNamed ∧ r.Mirrors p.type ∧ Kind.timeuuid.Holds u ∧ ¬u.InBounds) ∧
      (p.type.ofEngine (x 0) = .ok (v 0) ∧ v 0 ≠ .null ∧ (v 0).Bounded ∧
        ∃ bytes, encode r p.type (v 0) false = .ok bytes) ∧
      (p.type.ofEngine (x (-1)) = .ok (v (-1)) ∧ v (-1) ≠ .null ∧ p.type.Fits .exact (v (-1)) ∧
        ∀ bytes, encode r p.type (v (-1)) false ≠ .ok bytes) ∧
      ∃ y, (leaf .timeuuid).ofEngine y = .ok u ∧
        ∀ bytes, encode r (leaf .timeuuid) u false ≠ .ok bytes := by
  intro p r x v u
  have named : p.type.WellNamed := by simp [p, Udt.type]
  have mirrors : r.Mirrors p.type := by
    intro u hu
    cases List.mem_singleton.mp hu
    rfl
  have early : ¬(v (-1)).Bounded := by
    intro bounded
    have day : Value.InBounds (.time (-1)) :=
      bounded (.time (-1)) (.single ⟨.recordField, List.mem_cons_self⟩)
    exact absurd day.1 (by decide)
  have random : ¬u.InBounds := show ¬(⟨0⟩ : Uuid).version = 1 by decide
  have some (nanos : Int64) : v nanos ≠ .null := by simp [v]
  obtain ⟨read, unwritten⟩ := ofEngine_encodable r false
  obtain ⟨-, written⟩ := read p.type (x 0) (v 0) named mirrors rfl (some 0)
  obtain ⟨fits, refused⟩ := read p.type (x (-1)) (v (-1)) named mirrors rfl (some (-1))
  obtain ⟨bytes, he⟩ : ∃ bytes, encode r p.type (v 0) false = .ok bytes := ⟨_, rfl⟩
  exact ⟨⟨named, mirrors, ⟨_, rfl⟩, random⟩, ⟨rfl, some 0, (written.mp ⟨bytes, he⟩).1, bytes, he⟩,
    ⟨rfl, some (-1), fits, fun bytes he => early (refused.mp ⟨bytes, he⟩).1⟩,
    unwritten .timeuuid u ⟨_, rfl⟩ random⟩

end DataType

end CqlWire
