import CqlWire.Proofs.EngineLeaf
import CqlWire.Proofs.Laying
import CqlWire.Proofs.Members
import CqlWire.Proofs.Throughout

namespace CqlWire

namespace Value

variable {v w : Value} {items : List Value} {entries : List (Value × Value)} {fields : Fields}

/-- Every time stamp in the value, at any depth, is within the engine's range. -/
def Timely (v : Value) : Prop :=
  ∀ millis, Relation.ReflTransGen Holds v (.timestamp millis) → Kind.InRange millis

theorem timely_iff : v.Timely ↔
    (∀ millis, v = .timestamp millis → Kind.InRange millis) ∧ ∀ w, v.Holds w → w.Timely := by
  constructor
  · exact fun h => ⟨fun millis hv => h millis (hv ▸ .refl),
      fun w hw millis path => h millis (.head hw path)⟩
  · rintro ⟨here, inside⟩ millis path
    rcases path.cases_head with rfl | ⟨w, hw, path⟩
    · exact here millis rfl
    · exact inside w hw millis path

theorem timely_of_isLeaf (h : v.IsLeaf) :
    v.Timely ↔ ∀ millis, v = .timestamp millis → Kind.InRange millis := by
  rw [timely_iff, and_iff_left]
  rintro w ⟨place, hw⟩
  cases v <;> cases h <;> cases hw

theorem timely_null : Value.null.Timely :=
  (timely_of_isLeaf (show Value.null.IsLeaf from trivial)).mpr nofun

theorem timely_list : (list items).Timely ↔ ∀ v ∈ items, v.Timely := by
  rw [timely_iff, and_iff_right nofun]
  simp [Holds, contents]

theorem timely_set : (set items).Timely ↔ ∀ v ∈ items, v.Timely := by
  rw [timely_iff, and_iff_right nofun]
  simp [Holds, contents]

theorem timely_tuple : (tuple items).Timely ↔ ∀ v ∈ items, v.Timely := by
  rw [timely_iff, and_iff_right nofun]
  simp [Holds, contents]

theorem timely_map : (map entries).Timely ↔ ∀ e ∈ entries, e.1.Timely ∧ e.2.Timely := by
  rw [timely_iff, and_iff_right nofun]
  constructor
  · intro h e he
    exact ⟨h e.1 ⟨.mapKey, List.mem_flatMap.mpr ⟨e, he, by simp⟩⟩,
      h e.2 ⟨.mapValue, List.mem_flatMap.mpr ⟨e, he, by simp⟩⟩⟩
  · rintro h w ⟨place, hw⟩
    obtain ⟨e, he, hw⟩ := List.mem_flatMap.mp hw
    rcases List.mem_pair.mp hw with hw | hw <;> cases hw
    · exact (h e he).1
    · exact (h e he).2

theorem timely_record : (record fields).Timely ↔ ∀ f ∈ fields, f.2.Timely := by
  rw [timely_iff, and_iff_right nofun]
  constructor
  · exact fun h f hf => h f.2 ⟨.recordField, List.mem_map_of_mem hf⟩
  · rintro h w ⟨place, hw⟩
    obtain ⟨f, hf, hfw⟩ := List.mem_map.mp hw
    cases hfw
    exact h f hf

/-- The first of equal items are among the items, and each item has an equal among them. -/
theorem distinct_fold (items kept : List Value) :
    let out := items.foldl (fun kept v => if kept.any (· == v) then kept else v :: kept) kept
    (∀ v ∈ out, v ∈ kept ∨ v ∈ items) ∧ (∀ v ∈ kept, v ∈ out) ∧
      ∀ v ∈ items, ∃ w ∈ out, same w v = true := by
  induction items generalizing kept with
  | nil => exact ⟨fun v hv => .inl hv, fun v hv => hv, nofun⟩
  | cons u items ih =>
    dsimp only
    rw [List.foldl_cons]
    split
    next hany =>
      obtain ⟨among, keeps, covers⟩ := ih kept
      obtain ⟨w, hw, heq⟩ := List.any_eq_true.mp hany
      refine ⟨fun v hv => (among v hv).imp_right (List.mem_cons_of_mem u), keeps, ?_⟩
      exact List.forall_mem_cons.mpr ⟨⟨w, keeps w hw, heq⟩, covers⟩
    next =>
      obtain ⟨among, keeps, covers⟩ := ih (u :: kept)
      obtain ⟨first, others⟩ := List.forall_mem_cons.mp keeps
      refine ⟨fun v hv => ?_, others, List.forall_mem_cons.mpr ⟨⟨u, first, same_refl u⟩, covers⟩⟩
      rcases among v hv with hv | hv
      · rcases List.mem_cons.mp hv with rfl | hv
        · exact .inr List.mem_cons_self
        · exact .inl hv
      · exact .inr (List.mem_cons_of_mem u hv)

theorem same_distinct (items : List Value) : same (.set (distinct items)) (.set items) = true := by
  obtain ⟨among, -, covers⟩ := distinct_fold items []
  refine same_set_iff.mpr ⟨fun v hv => ?_, fun v hv => ?_⟩
  · exact ⟨v, (among v (List.mem_reverse.mp hv)).resolve_left nofun, same_refl v⟩
  · obtain ⟨w, hw, hsame⟩ := covers v hv
    exact ⟨w, List.mem_reverse.mpr hw, hsame⟩

theorem same_set_of_forall₂ {x y : List Value} (h : List.Forall₂ (fun a b => same a b = true) x y) :
    same (.set x) (.set y) = true :=
  same_set_iff.mpr ⟨fun _ ha => h.exists_mem_right ha, fun _ hb => h.exists_mem_left hb⟩

/-- Maps are equal when their entries are, one by one. -/
theorem same_map_of_forall₂ {x y : List (Value × Value)}
    (h : List.Forall₂ (fun e f => same e.1 f.1 = true ∧ same e.2 f.2 = true) x y) :
    same (.map x) (.map y) = true := by
  refine same_map_iff.mpr fun c => ?_
  induction h with
  | nil => exact .none
  | @cons e f x y hef _ ih =>
    have keys : same c e.1 = true ↔ same c f.1 = true :=
      ⟨fun h => same_trans h hef.1, fun h => same_trans h (same_symm hef.1)⟩
    rw [valueAt_cons c e.1 e.2, valueAt_cons c f.1 f.2]
    by_cases hc : same c e.1 = true
    · rw [if_pos hc, if_pos (keys.mp hc)]
      exact .some hef.2
    · rw [if_neg hc, if_neg fun h => hc (keys.mpr h)]
      exact ih

end Value

theorem EngineValue.isNull_iff {x : EngineValue} : x.isNull = true ↔ x = .null := by
  cases x <;> simp [isNull]

namespace DataType

variable {t : DataType} {v : Value} {x : EngineValue} {ts : List DataType} {types : FieldTypes}
  {items : List Value} {values : Fields}

attribute [local simp] toEngine positionsToEngine fieldsToEngine
attribute [local simp] ofEngine positionsOfEngine fieldReaders

theorem positionsToEngine_snd (n : Nat) (ts : List DataType) (items : List Value) :
    List.map Prod.snd <$> positionsToEngine n ts items =
      (positions ts items).mapM fun p => p.1.toEngine p.2 := by
  induction ts generalizing items n with
  | nil => rfl
  | cons t ts ih =>
    rw [positions, List.mapM_cons, ← ih (n + 1), positionsToEngine]
    simp only [map_bind, bind_map_left, map_pure, List.map_cons]

theorem fieldsToEngine_eq_mapM (types : FieldTypes) (values : Fields) :
    fieldsToEngine types values =
      types.mapM fun f => Prod.mk f.1 <$> f.2.toEngine (values.getD f.1) := by
  induction types with
  | nil => rfl
  | cons f types ih =>
    rw [fieldsToEngine, ih, List.mapM_cons]
    simp only [bind_map_left]

theorem positionsOfEngine_eq_mapM (ts : List DataType) (xs : List EngineValue) :
    positionsOfEngine ts xs = (ts.zip xs).mapM fun p => p.1.ofEngine p.2 := by
  induction ts generalizing xs with
  | nil => cases xs <;> rfl
  | cons t ts ih =>
    cases xs with
    | nil => rfl
    | cons x xs => rw [positionsOfEngine, ih, List.zip_cons_cons, List.mapM_cons]

theorem fieldReaders_eq_map (types : FieldTypes) :
    fieldReaders types = types.map fun f => (f.1, f.2.ofEngine) := by
  induction types with
  | nil => rfl
  | cons f types ih => rw [fieldReaders, ih, List.map_cons]

theorem toEngine_leaf {kind : Kind} (hv : v ≠ .null) :
    (leaf kind).toEngine v = kind.toEngine v := by
  rw [toEngine, if_neg fun h => hv (Value.isNull_iff.mp h)]

/-- Of the values exactly of a type those go over to the engine whose time stamps do. -/
theorem exists_toEngine_iff (h : t.Fits .exact v) : (∃ x, t.toEngine v = .ok x) ↔ v.Timely := by
  induction t generalizing v with
  | leaf kind =>
    rcases h with rfl | h
    · exact iff_of_true ⟨_, rfl⟩ Value.timely_null
    · rw [toEngine_leaf h.ne_null, Kind.exists_toEngine_iff h, Value.timely_of_isLeaf h.isLeaf]
  | list t ih =>
    rcases h with rfl | ⟨items, rfl, hi⟩
    · exact iff_of_true ⟨_, rfl⟩ Value.timely_null
    · simp only [toEngine]
      rw [exists_map_iff, exists_mapM_iff, Value.timely_list]
      exact forall₂_congr fun v hv => ih (hi v hv)
  | set t ih =>
    rcases h with rfl | ⟨items, rfl, hi⟩
    · exact iff_of_true ⟨_, rfl⟩ Value.timely_null
    · simp only [toEngine]
      rw [exists_map_iff, exists_mapM_iff, Value.timely_set]
      exact forall₂_congr fun v hv => ih (hi v hv)
  | map k t ihk iht =>
    rcases h with rfl | ⟨entries, rfl, -, he⟩
    · exact iff_of_true ⟨_, rfl⟩ Value.timely_null
    · simp only [toEngine]
      rw [exists_map_iff, exists_mapM_iff, Value.timely_map]
      refine forall₂_congr fun e hm => ?_
      rw [exists_pair_iff, ihk (he e hm).1, iht (he e hm).2]
  | tuple ts ih =>
    rcases h with rfl | ⟨items, rfl, hl, hi⟩
    · exact iff_of_true ⟨_, rfl⟩ Value.timely_null
    · simp only [toEngine]
      -- The names of the positions are dropped: only the values are converted.
      rw [exists_map_iff, ← exists_map_iff (f := List.map Prod.snd), positionsToEngine_snd,
        positions_eq_zip hl, exists_mapM_iff, Value.timely_tuple]
      have fits := (fitsEach_iff hl).mp hi
      have second : (ts.zip items).map Prod.snd = items := List.map_snd_zip (Nat.le_of_eq hl)
      conv_rhs => rw [← second, List.forall_mem_map]
      exact forall₂_congr fun p hp => ih p.1 (List.of_mem_zip hp).1 (List.forall₂_zip fits hp)
  | udt keyspace name types ih =>
    rcases h with rfl | ⟨values, rfl, ⟨hcanonical, hnames⟩, hf⟩
    · exact iff_of_true ⟨_, rfl⟩ Value.timely_null
    · simp only [toEngine]
      rw [exists_map_iff, fieldsToEngine_eq_mapM, exists_mapM_iff, Value.timely_record]
      rw [forall₂_congr fun f hm => exists_map_iff.trans (ih f hm (fitsFields_iff.mp hf f hm))]
      constructor
      · intro each f hm
        obtain ⟨g, hg, hname⟩ := List.mem_map.mp (hnames f hm)
        have timely := each g hg
        rwa [hname, hcanonical.getD_of_mem hm] at timely
      · exact fun each f _ => Fields.getD_of_forall Value.timely_null each f.1
  | frozen t ih => exact ih h

theorem toEngine_null (t : DataType) : t.toEngine .null = .ok .null := by
  induction t with
  | frozen t ih => exact ih
  | _ => rfl

theorem ofEngine_null (t : DataType) : t.ofEngine .null = .ok .null := by
  induction t with
  | frozen t ih => exact ih
  | _ => rfl

/-- The value comes back from the engine as an equal one. -/
def ComesBack (t : DataType) (x : EngineValue) (v : Value) : Prop :=
  ∃ w, t.ofEngine x = .ok w ∧ w.same v = true

theorem ComesBack.of_null (h : t.toEngine .null = .ok x) : t.ComesBack x .null := by
  cases (toEngine_null t).symm.trans h
  exact ⟨.null, ofEngine_null t, Value.same_refl _⟩

section Records

variable (udt : Udt) {acc : Fields} {f : String × DataType} {g : String × EngineValue}

theorem find?_fieldReaders (hn : (types.map Prod.fst).Nodup) (hf : f ∈ types) :
    (fieldReaders types).find? (fun r => r.1 = f.1) = some (f.1, f.2.ofEngine) := by
  obtain ⟨g, hg⟩ : ∃ g, types.find? (fun g => g.1 = f.1) = some g :=
    Option.isSome_iff_exists.mp (List.find?_isSome.mpr ⟨f, hf, by simp⟩)
  have same : g.1 = f.1 := by simpa using List.find?_some hg
  cases List.inj_on_of_nodup_map hn (List.mem_of_find?_eq_some hg) hf same
  rw [fieldReaders_eq_map, List.find?_map]
  exact congrArg (Option.map _) hg

/-- A field that is read for the first time gets its value back. -/
theorem exists_fieldOfEngine (hn : (types.map Prod.fst).Nodup) (hf : f ∈ types) (hg : f.1 = g.1)
    (back : f.2.ComesBack g.2 v) (hacc : acc.Canonical) (fresh : acc.getD f.1 = .null) :
    ∃ out, fieldOfEngine udt (fieldReaders types) acc g = .ok out ∧ out.Canonical ∧
      (out.getD f.1).same v = true ∧ ∀ name, name ≠ f.1 → out.getD name = acc.getD name := by
  obtain ⟨w, hw, hsame⟩ := back
  unfold fieldOfEngine
  rw [← hg, find?_fieldReaders hn hf]
  by_cases hx : g.2.isNull = true
  · rw [EngineValue.isNull_iff.mp hx, ofEngine_null] at hw
    cases hw
    refine ⟨acc, if_pos hx, hacc, ?_, fun _ _ => rfl⟩
    rwa [fresh]
  · refine ⟨acc.set f.1 w, (if_neg hx).trans (bind_eq_ok.mpr ⟨w, hw, rfl⟩), hacc.set, ?_, ?_⟩
    · rwa [Fields.getD_set, if_pos rfl]
    · intro name hne
      rw [Fields.getD_set, if_neg hne.symm]

/-- Each field gets its value back when those before it have theirs already. -/
theorem exists_foldlM_fieldOfEngine {fs : FieldTypes} {row : EngineRow}
    (hn : (types.map Prod.fst).Nodup) (hfs : fs.Sublist types)
    (back : List.Forall₂ (fun f g => f.1 = g.1 ∧ f.2.ComesBack g.2 (values.getD f.1)) fs row)
    (hacc : acc.Canonical) (fresh : ∀ f ∈ fs, acc.getD f.1 = .null) :
    ∃ out, row.foldlM (fieldOfEngine udt (fieldReaders types)) acc = .ok out ∧ out.Canonical ∧
      (∀ f ∈ fs, (out.getD f.1).same (values.getD f.1) = true) ∧
      ∀ name, name ∉ fs.map Prod.fst → out.getD name = acc.getD name := by
  -- The fields still to come get fewer; the readers stay those of all fields.
  induction back generalizing acc with
  | nil => exact ⟨acc, rfl, hacc, nofun, fun _ _ => rfl⟩
  | @cons f g fs row hfg _ ih =>
    have apart := (List.nodup_cons.mp ((hfs.map Prod.fst).nodup hn)).1
    obtain ⟨now, later⟩ := List.forall_mem_cons.mp fresh
    obtain ⟨mid, hmid, hcanonical, hsame, hothers⟩ := exists_fieldOfEngine udt hn
      (hfs.subset List.mem_cons_self) hfg.1 hfg.2 hacc now
    have untouched : ∀ f' ∈ fs, mid.getD f'.1 = .null := by
      intro f' hf'
      rw [hothers f'.1 fun heq => apart (heq ▸ List.mem_map_of_mem hf'), later f' hf']
    obtain ⟨out, hout, hcanonical', hsame', hothers'⟩ :=
      ih (List.sublist_of_cons_sublist hfs) hcanonical untouched
    refine ⟨out, ?_, hcanonical', List.forall_mem_cons.mpr ⟨?_, hsame'⟩, fun name hname => ?_⟩
    · rw [List.foldlM_cons, hmid]
      exact hout
    · rwa [hothers' f.1 apart]
    · rw [List.map_cons, List.mem_cons, not_or] at hname
      rw [hothers' name hname.2, hothers name hname.1]

end Records

/-- A list comes back when its items do. -/
theorem comesBack_list (back : ∀ v ∈ items, ∀ x, t.toEngine v = .ok x → t.ComesBack x v)
    (h : (list t).toEngine (.list items) = .ok x) : (list t).ComesBack x (.list items) := by
  simp only [toEngine] at h
  obtain ⟨xs, hxs, rfl⟩ := map_eq_ok.mp h
  have each : List.Forall₂ t.ComesBack xs items :=
    (mapM_eq_ok.mp hxs).flip.imp_mem fun x _ v hv hx => back v hv x hx
  obtain ⟨ws, hws, hsame⟩ := exists_mapM_forall₂ each
  exact ⟨.list ws, map_eq_ok.mpr ⟨ws, hws, rfl⟩, Value.same_list_iff.mpr hsame⟩

/-- A set comes back when its elements do, though equal ones are read as one. -/
theorem comesBack_set (back : ∀ v ∈ items, ∀ x, t.toEngine v = .ok x → t.ComesBack x v)
    (h : (set t).toEngine (.set items) = .ok x) : (set t).ComesBack x (.set items) := by
  simp only [toEngine] at h
  obtain ⟨xs, hxs, rfl⟩ := map_eq_ok.mp h
  have each : List.Forall₂ t.ComesBack xs items :=
    (mapM_eq_ok.mp hxs).flip.imp_mem fun x _ v hv hx => back v hv x hx
  obtain ⟨ws, hws, hsame⟩ := exists_mapM_forall₂ each
  refine ⟨.set (Value.distinct ws), bind_eq_ok.mpr ⟨ws, hws, rfl⟩, ?_⟩
  exact Value.same_trans (Value.same_distinct ws) (Value.same_set_of_forall₂ hsame)

theorem comesBack_map {k : DataType} {entries : List (Value × Value)}
    (keys : ∀ e ∈ entries, ∀ x, k.toEngine e.1 = .ok x → k.ComesBack x e.1)
    (back : ∀ e ∈ entries, ∀ x, t.toEngine e.2 = .ok x → t.ComesBack x e.2)
    (h : (map k t).toEngine (.map entries) = .ok x) : (map k t).ComesBack x (.map entries) := by
  simp only [toEngine] at h
  obtain ⟨xs, hxs, rfl⟩ := map_eq_ok.mp h
  have each : List.Forall₂ (fun x e => ∃ w, (do return (← k.ofEngine x.1, ← t.ofEngine x.2)) =
      .ok w ∧ w.1.same e.1 = true ∧ w.2.same e.2 = true) xs entries := by
    refine (mapM_eq_ok.mp hxs).flip.imp_mem fun x _ e he hx => ?_
    obtain ⟨a, ha, hx⟩ := bind_eq_ok.mp hx
    obtain ⟨b, hb, hx⟩ := bind_eq_ok.mp hx
    cases pure_eq_ok.mp hx
    obtain ⟨c, hc, hca⟩ := keys e he a ha
    obtain ⟨d, hd, hdb⟩ := back e he b hb
    exact ⟨(c, d), bind_eq_ok.mpr ⟨c, hc, bind_eq_ok.mpr ⟨d, hd, rfl⟩⟩, hca, hdb⟩
  obtain ⟨ws, hws, hsame⟩ := exists_mapM_forall₂ each
  exact ⟨.map ws, map_eq_ok.mpr ⟨ws, hws, rfl⟩, Value.same_map_of_forall₂ hsame⟩

theorem comesBack_tuple (hl : items.length = ts.length)
    (back : ∀ p ∈ ts.zip items, ∀ x, p.1.toEngine p.2 = .ok x → p.1.ComesBack x p.2)
    (h : (tuple ts).toEngine (.tuple items) = .ok x) : (tuple ts).ComesBack x (.tuple items) := by
  simp only [toEngine] at h
  obtain ⟨row, hrow, rfl⟩ := map_eq_ok.mp h
  have written : (ts.zip items).mapM (fun p => p.1.toEngine p.2) = .ok (row.map Prod.snd) := by
    rw [← positions_eq_zip hl, ← positionsToEngine_snd 1, hrow]
    rfl
  have width : row.length = ts.length := by
    have aligned := (mapM_eq_ok.mp written).length_eq
    rw [List.length_map, List.length_zip, hl, Nat.min_self] at aligned
    exact aligned.symm
  have each : List.Forall₂ (fun p x => p.1.ComesBack x p.2) (ts.zip items) (row.map Prod.snd) :=
    (mapM_eq_ok.mp written).imp_mem fun p hp x _ hx => back p hp x hx
  obtain ⟨ws, hws, hsame⟩ :=
    exists_mapM_forall₂ (each.zip_swap (R := fun t v x => t.ComesBack x v) hl)
  refine ⟨.tuple ws, ?_, Value.same_tuple_iff.mpr hsame⟩
  simp only [ofEngine]
  rw [if_pos width, positionsOfEngine_eq_mapM, hws]
  rfl

/-- A record comes back when its fields do, those that are absent as null. -/
theorem comesBack_record {keyspace name : String} (distinct : (types.map Prod.fst).Nodup)
    (hv : Fields.Canonical values) (declared : ∀ f ∈ values, f.1 ∈ types.map Prod.fst)
    (back : ∀ f ∈ types, ∀ x, f.2.toEngine (values.getD f.1) = .ok x →
      f.2.ComesBack x (values.getD f.1))
    (h : (udt keyspace name types).toEngine (.record values) = .ok x) :
    (udt keyspace name types).ComesBack x (.record values) := by
  simp only [toEngine] at h
  obtain ⟨row, hrow, rfl⟩ := map_eq_ok.mp h
  rw [fieldsToEngine_eq_mapM] at hrow
  have each : List.Forall₂ (fun f g => f.1 = g.1 ∧ f.2.ComesBack g.2 (Fields.getD values f.1))
      types row := by
    refine (mapM_eq_ok.mp hrow).imp_mem fun f hf g _ hg => ?_
    obtain ⟨x, hx, rfl⟩ := map_eq_ok.mp hg
    exact ⟨rfl, back f hf x hx⟩
  obtain ⟨out, hout, hcanonical, hsame, hothers⟩ := exists_foldlM_fieldOfEngine
    ⟨keyspace, name, types⟩ distinct (List.Sublist.refl types) each Fields.canonical_nil
    fun _ _ => rfl
  refine ⟨.record out, map_eq_ok.mpr ⟨out, hout, rfl⟩, Value.same_record_iff.mpr ?_⟩
  refine Fields.forall₂_of_same_getD hcanonical hv fun field => ?_
  by_cases hfield : field ∈ types.map Prod.fst
  · obtain ⟨f, hf, rfl⟩ := List.mem_map.mp hfield
    exact hsame f hf
  · have absent : Fields.getD values field = .null :=
      Fields.getD_of_not_mem fun f hf heq => hfield (heq ▸ declared f hf)
    rw [hothers field hfield, absent]
    exact Value.same_refl _

/-- What goes over to the engine comes back. -/
theorem comesBack (hn : t.WellNamed) (hv : t.Fits .exact v) (h : t.toEngine v = .ok x) :
    t.ComesBack x v := by
  induction t generalizing v x with
  | leaf kind =>
    rcases hv with rfl | hv
    · exact .of_null h
    · rw [toEngine_leaf hv.ne_null] at h
      obtain ⟨hx, hback⟩ := Kind.ofEngine_toEngine hv h
      refine ⟨v, ?_, Value.same_refl v⟩
      rw [ofEngine, if_neg (by simp [hx]), hback]
  | list t ih =>
    rcases hv with rfl | ⟨items, rfl, hi⟩
    · exact .of_null h
    · have inside := (throughout_list.mp hn).2
      exact comesBack_list (fun v hv x hx => ih inside (hi v hv) hx) h
  | set t ih =>
    rcases hv with rfl | ⟨items, rfl, hi⟩
    · exact .of_null h
    · have inside := (throughout_set.mp hn).2
      exact comesBack_set (fun v hv x hx => ih inside (hi v hv) hx) h
  | map k t ihk iht =>
    rcases hv with rfl | ⟨entries, rfl, -, fits⟩
    · exact .of_null h
    · obtain ⟨-, hk, ht⟩ := throughout_map.mp hn
      exact comesBack_map (fun e he x hx => ihk hk (fits e he).1 hx)
        (fun e he x hx => iht ht (fits e he).2 hx) h
  | tuple ts ih =>
    rcases hv with rfl | ⟨items, rfl, hl, hi⟩
    · exact .of_null h
    · have inside := (throughout_tuple.mp hn).2
      have fits := (fitsEach_iff hl).mp hi
      refine comesBack_tuple hl (fun p hp x hx => ?_) h
      have ht := (List.of_mem_zip hp).1
      exact ih p.1 ht (inside p.1 ht) (List.forall₂_zip fits hp) hx
  | udt keyspace name types ih =>
    rcases hv with rfl | ⟨values, rfl, ⟨hcanonical, declared⟩, hf⟩
    · exact .of_null h
    · obtain ⟨distinct, inside⟩ := throughout_udt.mp hn
      refine comesBack_record (distinct keyspace name types rfl) hcanonical declared ?_ h
      exact fun f hm x hx => ih f hm (inside f hm) (fitsFields_iff.mp hf f hm) hx
  | frozen t ih => exact ih (throughout_frozen.mp hn).2 hv h

theorem toEngine_fails_iff (hv : t.Fits .exact v) : (∃ e, t.toEngine v = .error e) ↔
    ∃ millis, Relation.ReflTransGen Value.Holds v (.timestamp millis) ∧ ¬Kind.InRange millis := by
  have fails : (∃ e, t.toEngine v = .error e) ↔ ¬∃ x, t.toEngine v = .ok x := by
    cases t.toEngine v <;> simp
  rw [fails, exists_toEngine_iff hv, Value.Timely]
  simp only [not_forall, exists_prop]

end DataType

namespace EngineRow

open DataType (ComesBack)

variable {columns : List (String × DataType)} {values : List Value}

theorem checkWidth_self (n : Nat) : checkWidth n n = .ok () :=
  if_pos rfl

theorem toValues_ofValues (h : List.Forall₂ (fun c v => c.2.WellNamed ∧ c.2.Fits .exact v ∧
      ∃ x, c.2.toEngine v = .ok x) columns values) :
    ∃ row ws, ofValues columns values = .ok row ∧ toValues (columns.map Prod.snd) row = .ok ws ∧
      List.Forall₂ (fun w v => w.same v = true) ws values := by
  obtain ⟨row, hrow⟩ : ∃ row, (columns.zip values).mapM (fun c => do
      return (c.1.1, ← c.1.2.toEngine c.2)) = .ok row := by
    refine exists_mapM fun p hp => ?_
    obtain ⟨-, -, x, hx⟩ := List.forall₂_zip h hp
    exact ⟨(p.1.1, x), bind_eq_ok.mpr ⟨x, hx, rfl⟩⟩
  have width : columns.length = row.length := by
    have aligned := (mapM_eq_ok.mp hrow).length_eq
    rwa [List.length_zip, ← h.length_eq, Nat.min_self] at aligned
  have each : List.Forall₂ (fun p g => p.1.2.ComesBack g.2 p.2) (columns.zip values) row := by
    refine (mapM_eq_ok.mp hrow).imp_mem fun p hp g _ hg => ?_
    obtain ⟨x, hx, hg⟩ := bind_eq_ok.mp hg
    cases pure_eq_ok.mp hg
    obtain ⟨hn, hv, -⟩ := List.forall₂_zip h hp
    exact DataType.comesBack hn hv hx
  have back : List.Forall₂ (fun q v => q.1.2.ComesBack q.2.2 v) (columns.zip row) values :=
    each.zip_swap (R := fun c v (g : String × EngineValue) => ComesBack c.2 g.2 v)
      h.length_eq.symm
  obtain ⟨ws, hws, hsame⟩ := exists_mapM_forall₂ back
  refine ⟨row, ws, bind_eq_ok.mpr ⟨(), ?_, hrow⟩, bind_eq_ok.mpr ⟨(), ?_, ?_⟩, hsame⟩
  · rw [← h.length_eq, checkWidth_self]
  · rw [List.length_map, width, checkWidth_self]
  · rw [List.zip_map_left, List.mapM_map]
    exact hws

/-- A value exactly of a type goes over to the engine unless the microseconds of some time stamp in it
are no number of 64 bits, and comes back equal to what it was. So do the values of a row, whether or
not columns share a name. -/
theorem round_trip :
    (∀ (t : DataType) (v : Value), t.WellNamed → t.Fits .exact v →
      ((∃ e, t.toEngine v = .error e) ↔ ∃ millis,
        Relation.ReflTransGen Value.Holds v (.timestamp millis) ∧ ¬Kind.InRange millis) ∧
      ∀ x, t.toEngine v = .ok x → ∃ w, t.ofEngine x = .ok w ∧ w.same v = true) ∧
    ∀ (columns : List (String × DataType)) (values : List Value),
      List.Forall₂ (fun c v => c.2.WellNamed ∧ c.2.Fits .exact v ∧ ∃ x, c.2.toEngine v = .ok x)
        columns values →
      ∃ row ws, ofValues columns values = .ok row ∧ toValues (columns.map Prod.snd) row = .ok ws ∧
        List.Forall₂ (fun w v => w.same v = true) ws values :=
  ⟨fun _ _ hn hv => ⟨DataType.toEngine_fails_iff hv, fun _ h => DataType.comesBack hn hv h⟩,
    fun _ _ h => toValues_ofValues h⟩

theorem round_trip_repeated_column :
    let t : DataType := .udt "k" "p" [("x", .leaf .timestamp), ("y", .leaf .text)]
    let u : DataType := .set (.leaf .text)
    let v : Value := .record [("x", .timestamp (-1))]
    let w : Value := .set [.text "", .null, .text ""]
    let late : Value := .record [("x", .timestamp Int64.maxValue)]
    (t.WellNamed ∧ u.WellNamed ∧ t.Fits .exact v ∧ u.Fits .exact w ∧ t.Fits .exact late ∧
        (∃ x, t.toEngine v = .ok x) ∧ ∃ x, u.toEngine w = .ok x) ∧
      (∃ e, t.toEngine late = .error e) ∧
      (∃ x v', t.toEngine v = .ok x ∧ t.ofEngine x = .ok v' ∧ v'.same v = true) ∧
      ∃ row ws, ofValues [("a", t), ("a", u)] [v, w] = .ok row ∧ toValues [t, u] row = .ok ws ∧
        List.Forall₂ (fun w v => w.same v = true) ws [v, w] := by
  intro t u v w late
  have ht : t.WellNamed := by simp [t, DataType.WellNamed]
  have hu : u.WellNamed := by simp [u, DataType.WellNamed]
  have fits (millis : Int64) : t.Fits .exact (.record [("x", .timestamp millis)]) :=
    .inr ⟨_, rfl, ⟨⟨List.pairwise_singleton _ _, by simp⟩, by simp⟩, .inr ⟨millis, rfl⟩, .inl rfl,
      trivial⟩
  have hw : u.Fits .exact w := by simp [u, w, DataType.Fits, Strictness.exact, Kind.Holds]
  have hvx : ∃ x, t.toEngine v = .ok x := ⟨_, rfl⟩
  have hwx : ∃ x, u.toEngine w = .ok x := ⟨_, rfl⟩
  obtain ⟨single, rows⟩ := round_trip
  obtain ⟨x, hx⟩ := hvx
  obtain ⟨v', hback, hsame⟩ := (single t v ht (fits (-1))).2 x hx
  refine ⟨⟨ht, hu, fits (-1), hw, fits _, ⟨x, hx⟩, hwx⟩, ?_, ⟨x, v', hx, hback, hsame⟩, ?_⟩
  · refine (single t late ht (fits _)).1.mpr ⟨Int64.maxValue, .single ⟨.recordField, ?_⟩, ?_⟩
    · exact List.mem_singleton_self _
    · exact fun hrange => absurd hrange.2 (by decide)
  · exact rows [("a", t), ("a", u)] [v, w]
      (.cons ⟨ht, fits (-1), x, hx⟩ (.cons ⟨hu, hw, hwx⟩ .nil))

end EngineRow

end CqlWire
