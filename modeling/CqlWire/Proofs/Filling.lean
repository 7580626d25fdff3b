import CqlWire.Proofs.Holders
import CqlWire.Proofs.Laying

namespace CqlWire

open Value (encode encodeAs encodeElement)

variable {r : Registry} {t : DataType} {v : Value} {bytes : Bytes} {ps : List Payload}
  {items : List Value}

theorem DataType.positions_map {α : Type} (l : List α) (type : α → DataType) (value : α → Value) :
    positions (l.map type) (l.map value) = l.map fun a => (type a, value a) := by
  induction l with
  | nil => rfl
  | cons a l ih =>
    rw [List.map_cons, List.map_cons, List.map_cons, positions, List.tail_cons, ih]
    rfl

theorem DataType.udt?_eq_some {udt : Udt} : t.udt? = some udt ↔ t.shape = .udt udt := by
  unfold udt?
  split
  next h => rw [h, Option.some.injEq, Shape.udt.injEq]
  next hne => exact iff_of_false (Option.some_ne_none udt).symm (hne udt)

namespace Registry

theorem shape_eq_tuple {ts : List DataType} : r.shape t = .ok (.tuple ts) ↔ t.shape = .tuple ts := by
  unfold shape
  split
  next declared ht => simp [map_eq_ok, ht]
  next => rw [Except.ok.injEq]

theorem shape_eq_udt {udt : Udt} : r.shape t = .ok (.udt udt) ↔
    ∃ declared, t.shape = .udt declared ∧ r.lookup declared.keyspace declared.name = .ok udt := by
  unfold shape
  split
  next declared ht => simp [map_eq_ok, ht]
  next s hne =>
    constructor
    · exact fun h => absurd (Except.ok.inj h) (hne udt)
    · rintro ⟨declared, ht, -⟩
      exact absurd ht (hne declared)

end Registry

namespace Value

/-- The payloads at the positions of a tuple: those of its items, and null beyond them. -/
def FillsPositions (r : Registry) (ts : List DataType) (items : List Value) (ps : List Payload) :
    Prop :=
  List.Forall₂ (fun x p => encodeElement r x.1 x.2 = .ok p) (DataType.positions ts items) ps

theorem fillsPositions_nil {ts : List DataType} :
    FillsPositions r ts [] ps ↔ ps = List.replicate ts.length none := by
  unfold FillsPositions
  induction ts generalizing ps with
  | nil => rw [DataType.positions, List.forall₂_nil_left_iff]; rfl
  | cons t ts ih =>
    rw [DataType.positions, List.forall₂_cons_left_iff, List.length_cons, List.replicate_succ]
    constructor
    · rintro ⟨p, rest, hp, hrest, rfl⟩
      cases hp
      rw [ih.mp hrest]
    · rintro rfl
      exact ⟨none, _, rfl, ih.mpr rfl, rfl⟩

theorem fillsPositions_cons {ts : List DataType} : FillsPositions r (t :: ts) (v :: items) ps ↔
    ∃ p rest, encodeElement r t v = .ok p ∧ FillsPositions r ts items rest ∧ ps = p :: rest :=
  List.forall₂_cons_left_iff

theorem FillsPositions.length_eq {ts : List DataType} (h : FillsPositions r ts items ps) :
    ps.length = ts.length := by
  rw [← DataType.length_positions ts items]
  exact (List.Forall₂.length_eq h).symm

theorem encode_tuple_iff {ts : List DataType} (ht : t.shape = .tuple ts) {nested : Bool} :
    encode r t v nested = .ok bytes ↔ ∃ items ps, v = .tuple items ∧ items.length ≤ ts.length ∧
      FillsPositions r ts items ps ∧ Frame.payloads ps = .ok bytes := by
  rw [encode_eq_ok]
  constructor
  · rintro ⟨-, h⟩
    obtain ⟨items, rfl⟩ := exists_of_encodeAs_tuple ht h
    obtain ⟨ps, hps, room, hb⟩ := (encodeAs_positions ht).mp h
    exact ⟨items, ps, rfl, room, hps, hb⟩
  · rintro ⟨items, ps, rfl, room, hps, hb⟩
    exact ⟨nofun, (encodeAs_positions ht).mpr ⟨ps, hps, room, hb⟩⟩

theorem encode_record_iff {declared udt : Udt} (ht : t.shape = .udt declared)
    (hu : r.lookup declared.keyspace declared.name = .ok udt) :
    encode r t v true = .ok bytes ↔ ∃ (fields : Fields) (ps : List Payload), v = .record fields ∧
      (∀ f ∈ fields, f.1 ∈ udt.fields.map Prod.fst) ∧
      List.Forall₂ (fun f p => encodeElement r f.2 (fields.getD f.1) = .ok p) udt.fields ps ∧
      Frame.payloads ps = .ok bytes := by
  rw [encode_eq_ok, encodeAs_udt ht hu]
  constructor
  · exact And.right
  · rintro ⟨fields, ps, rfl, h⟩
    exact ⟨nofun, fields, ps, rfl, h⟩

end Value

open Value (FillsPositions)

namespace Holder

variable {h h' : Holder} {p : Payload} {i : Nat}

theorem eq_of_cells (hc : h.composite = h'.composite) (hp : h.cells = h'.cells) : h = h' := by
  cases h
  cases h'
  cases hc
  cases hp
  rfl

theorem exists_setPayload (hi : i < h.size) (p : Payload) : ∃ h', h.setPayload i p = .ok h' ∧
    h'.composite = h.composite ∧ h'.cells = h.cells.set i p :=
  ⟨_, if_pos hi, rfl, rfl⟩

theorem set_of_elementType? (ht : h.elementType? i = some t) :
    h.set r i v = encodeElement r t v >>= h.setPayload i := by
  unfold set
  rw [ht]

/-- A value at the first position that is not filled yet. -/
theorem setAll_cons {done : List Payload} {ts us : List DataType} {n : Nat}
    (types : h.composite.types = ts ++ t :: us) (cells : h.cells = done ++ List.replicate (n + 1) none)
    (hd : done.length = ts.length) :
    h.setAll r done.length (v :: items) = .ok h' ↔ ∃ (p : Payload) (mid : Holder),
      encodeElement r t v = .ok p ∧ mid.composite = h.composite ∧
      mid.cells = (done ++ [p]) ++ List.replicate n none ∧
      mid.setAll r (done ++ [p]).length items = .ok h' := by
  have here : h.elementType? done.length = some t := by
    rw [elementType?, types, hd, List.getElem?_append_right (Nat.le_refl _)]
    simp
  have inside : done.length < h.size := by
    rw [size, cells]
    simp
  have filled (p : Payload) : h.cells.set done.length p = (done ++ [p]) ++ List.replicate n none := by
    rw [cells, List.set_append_right _ _ (Nat.le_refl _), Nat.sub_self, List.replicate_succ]
    simp
  simp only [setAll, set_of_elementType? here, List.length_append, List.length_singleton]
  constructor
  · intro hall
    obtain ⟨mid, hput, hrest⟩ := bind_eq_ok.mp hall
    obtain ⟨p, hp, hput⟩ := bind_eq_ok.mp hput
    obtain ⟨hc, hcells, -⟩ := setPayload_eq_ok hput
    exact ⟨p, mid, hp, hc, hcells.trans (filled p), hrest⟩
  · rintro ⟨p, mid, hp, hc, hcells, hrest⟩
    obtain ⟨mid', hput, hc', hcells'⟩ := exists_setPayload inside p
    have same : mid' = mid :=
      eq_of_cells (hc'.trans hc.symm) (hcells'.trans ((filled p).trans hcells.symm))
    refine bind_eq_ok.mpr ⟨mid', bind_eq_ok.mpr ⟨p, hp, hput⟩, ?_⟩
    rw [same]
    exact hrest

/-- Items put one after the other fill the positions that follow those filled before. -/
theorem setAll_eq_ok {done : List Payload} {ts us : List DataType}
    (types : h.composite.types = ts ++ us) (cells : h.cells = done ++ List.replicate us.length none)
    (room : items.length ≤ us.length) :
    h.setAll r done.length items = .ok h' ↔ h'.composite = h.composite ∧
      ∃ ps, FillsPositions r us items ps ∧ h'.cells = done ++ ps := by
  have hd : done.length = ts.length := by
    have width := h.length_cells
    rw [types, cells, List.length_append, List.length_append, List.length_replicate] at width
    omega
  induction items generalizing h done ts us with
  | nil =>
    simp only [Value.fillsPositions_nil, exists_eq_left]
    constructor
    · intro hall
      cases pure_eq_ok.mp hall
      exact ⟨rfl, cells⟩
    · rintro ⟨hc, hcells⟩
      exact pure_eq_ok.mpr (eq_of_cells hc.symm (cells.trans hcells.symm))
  | cons v items ih =>
    obtain ⟨t, us, rfl⟩ := List.exists_cons_of_length_pos (Nat.lt_of_lt_of_le (Nat.succ_pos _) room)
    have room' : items.length ≤ us.length := Nat.le_of_succ_le_succ room
    -- The position just filled joins those filled before.
    have next (p : Payload) (mid : Holder) (hc : mid.composite = h.composite)
        (hcells : mid.cells = (done ++ [p]) ++ List.replicate us.length none) :
        mid.setAll r (done ++ [p]).length items = .ok h' ↔ h'.composite = mid.composite ∧
          ∃ ps, FillsPositions r us items ps ∧ h'.cells = (done ++ [p]) ++ ps := by
      have types' : mid.composite.types = (ts ++ [t]) ++ us := by
        rw [hc, types, List.append_assoc, List.singleton_append]
      exact ih types' hcells room' (by simp [hd])
    rw [setAll_cons types cells hd]
    constructor
    · rintro ⟨p, mid, hp, hc, hcells, hrest⟩
      obtain ⟨hcomposite, ps, hps, hfilled⟩ := (next p mid hc hcells).mp hrest
      refine ⟨hcomposite.trans hc, p :: ps, Value.fillsPositions_cons.mpr ⟨p, ps, hp, hps, rfl⟩, ?_⟩
      rw [hfilled, List.append_assoc, List.singleton_append]
    · rintro ⟨hcomposite, _, hall, hfilled⟩
      obtain ⟨p, ps, hp, hps, rfl⟩ := Value.fillsPositions_cons.mp hall
      have width : ((done ++ [p]) ++ List.replicate us.length none).length =
          h.composite.types.length := by
        rw [types]
        simp [hd]
      let mid : Holder := ⟨h.composite, _, width⟩
      refine ⟨p, mid, hp, rfl, rfl, (next p mid rfl rfl).mpr ⟨hcomposite, ps, hps, ?_⟩⟩
      rw [hfilled, List.append_assoc, List.singleton_append]

/-- What is put into a holder from its start fills its positions. -/
theorem setAll_empty {c : Composite} (room : items.length ≤ c.types.length) :
    (empty c).setAll r 0 items = .ok h ↔
      h.composite = c ∧ FillsPositions r c.types items h.cells := by
  have types : (empty c).composite.types = [] ++ c.types := rfl
  have cells : (empty c).cells = [] ++ List.replicate c.types.length none := rfl
  have fills : (empty c).setAll r 0 items = .ok h ↔
      h.composite = c ∧ ∃ ps, FillsPositions r c.types items ps ∧ h.cells = [] ++ ps :=
    setAll_eq_ok types cells room
  rw [fills]
  exact and_congr_right fun _ => ⟨fun ⟨_, hps, heq⟩ => heq ▸ hps, fun hps => ⟨_, hps, rfl⟩⟩

theorem ofTuple_eq_ok : ofTuple r t v = .ok h ↔ ∃ items, v = .tuple items ∧
    Composite.ofType r t = .ok h.composite ∧ items.length ≤ h.composite.types.length ∧
    FillsPositions r h.composite.types items h.cells := by
  cases v
  case tuple items =>
    have made : ofTuple r t (.tuple items) = .ok h ↔ ∃ c, Composite.ofType r t = .ok c ∧
        items.length ≤ c.types.length ∧ (empty c).setAll r 0 items = .ok h := by
      simp only [ofTuple, ofType, bind_map_left, bind_eq_ok]
      refine exists_congr fun c => and_congr_right fun _ => ?_
      have size : (empty c).size = c.types.length := List.length_replicate
      rw [size]
      split
      next room => simp [room]
      next room => simp [room, throw, throwThe, MonadExceptOf.throw]
    rw [made]
    constructor
    · rintro ⟨c, hc, room, hall⟩
      obtain ⟨rfl, fills⟩ := (setAll_empty room).mp hall
      exact ⟨items, rfl, hc, room, fills⟩
    · rintro ⟨_, ⟨⟩, hc, room, fills⟩
      exact ⟨_, hc, room, (setAll_empty room).mpr ⟨rfl, fills⟩⟩
  all_goals
    constructor
    · intro made
      cases made
    · rintro ⟨_, ⟨⟩, -⟩

theorem ofRecord_eq_ok : ofRecord r t v = .ok h ↔ ∃ (fields : Fields) (udt : Udt),
    v = .record fields ∧ Composite.ofType r t = .ok (.record udt) ∧ h.composite = .record udt ∧
    (∀ f ∈ fields, f.1 ∈ udt.fields.map Prod.fst) ∧
    List.Forall₂ (fun f p => encodeElement r f.2 (fields.getD f.1) = .ok p) udt.fields h.cells := by
  cases v
  case record fields =>
    have made : ofRecord r t (.record fields) = .ok h ↔ ∃ udt : Udt,
        Composite.ofType r t = .ok (.record udt) ∧ (∀ f ∈ fields, f.1 ∈ udt.fields.map Prod.fst) ∧
        (empty (.record udt)).setAll r 0 (udt.fields.map fun f => Fields.getD fields f.1) = .ok h := by
      simp only [ofRecord, ofType, bind_map_left, bind_eq_ok, ← Value.find?_unknown_eq_none]
      constructor
      · rintro ⟨c, hc, hall⟩
        cases c with
        | tuple ts => cases hall
        | record udt =>
          refine ⟨udt, hc, ?_⟩
          dsimp only [empty] at hall
          split at hall
          next => cases hall
          next known => exact ⟨known, hall⟩
      · rintro ⟨udt, hc, known, hall⟩
        refine ⟨.record udt, hc, ?_⟩
        dsimp only [empty]
        rw [known]
        exact hall
    have fills (udt : Udt) : FillsPositions r (Composite.record udt).types
        (udt.fields.map fun f => Fields.getD fields f.1) h.cells ↔
        List.Forall₂ (fun f p => encodeElement r f.2 (Fields.getD fields f.1) = .ok p) udt.fields
          h.cells := by
      unfold FillsPositions
      rw [Composite.types, DataType.positions_map, List.forall₂_map_left_iff]
    have room (udt : Udt) : (udt.fields.map fun f => Fields.getD fields f.1).length ≤
        (Composite.record udt).types.length := by
      rw [Composite.types, List.length_map, List.length_map]
    rw [made]
    constructor
    · rintro ⟨udt, hc, known, hall⟩
      obtain ⟨hcomposite, hcells⟩ := (setAll_empty (room udt)).mp hall
      exact ⟨fields, udt, rfl, hc, hcomposite, known, (fills udt).mp hcells⟩
    · rintro ⟨_, udt, ⟨⟩, hc, hcomposite, known, hcells⟩
      exact ⟨udt, hc, known, (setAll_empty (room udt)).mpr ⟨hcomposite, (fills udt).mpr hcells⟩⟩
  all_goals
    constructor
    · intro made
      cases made
    · rintro ⟨_, _, ⟨⟩, -⟩

theorem fit_self (ps : List Payload) : fit ps.length ps = ps := by
  rw [fit, List.take_append_of_le_length (Nat.le_refl _), List.take_length]

theorem ofBytes_of_toBytes (hc : Composite.ofType r t = .ok h.composite) (hb : h.toBytes = .ok bytes) :
    ofBytes r t bytes = .ok h := by
  have read : Frame.read h.composite.types.length (.ofBytes bytes) = (h.cells, .clean) := by
    rw [← h.length_cells]
    exact Frame.read_payloads 0 hb
  have whole : fit h.composite.types.length h.cells = h.cells := by
    rw [← h.length_cells, fit_self]
  exact (ofBytes_eq_ok hc).mpr ⟨h.cells, read, eq_of_cells rfl whole.symm⟩

/-- A holder of a record is written as the codec writes the record inside other values: it has bytes
if and only if the type is a user-defined one and the codec encodes the value, and these are the same.
The bytes read back as the holder. -/
theorem record_writes :
    (∀ bytes, (ofRecord r t v >>= toBytes) = .ok bytes ↔
      t.udt?.isSome = true ∧ encode r t v true = .ok bytes) ∧
    ∀ h bytes, ofRecord r t v = .ok h → h.toBytes = .ok bytes → ofBytes r t bytes = .ok h := by
  constructor
  · intro bytes
    rw [bind_eq_ok]
    constructor
    · rintro ⟨h, hh, hb⟩
      obtain ⟨fields, udt, rfl, hc, -, known, hcells⟩ := ofRecord_eq_ok.mp hh
      obtain ⟨declared, ht, hu⟩ := Registry.shape_eq_udt.mp (Composite.ofType_eq_ok.mp hc)
      have top : t.udt?.isSome = true := by rw [DataType.udt?, ht]; rfl
      exact ⟨top, (Value.encode_record_iff ht hu).mpr ⟨fields, h.cells, rfl, known, hcells, hb⟩⟩
    · rintro ⟨top, he⟩
      obtain ⟨declared, ht⟩ := Option.isSome_iff_exists.mp top
      replace ht := DataType.udt?_eq_some.mp ht
      obtain ⟨udt, hu⟩ := Value.exists_lookup_of_encodeAs_udt ht (Value.encode_eq_ok.mp he).2
      obtain ⟨fields, ps, rfl, known, hps, hb⟩ := (Value.encode_record_iff ht hu).mp he
      have hc : Composite.ofType r t = .ok (.record udt) :=
        Composite.ofType_eq_ok.mpr (Registry.shape_eq_udt.mpr ⟨declared, ht, hu⟩)
      have width : ps.length = (Composite.record udt).types.length := by
        rw [← hps.length_eq, Composite.types, List.length_map]
      let h : Holder := ⟨.record udt, ps, width⟩
      exact ⟨h, ofRecord_eq_ok.mpr ⟨fields, udt, rfl, hc, rfl, known, hps⟩, hb⟩
  · intro h bytes hh hb
    obtain ⟨fields, udt, -, hc, hcomposite, -⟩ := ofRecord_eq_ok.mp hh
    exact ofBytes_of_toBytes (hcomposite ▸ hc) hb

/-- A type that declares other fields than those on record, and a value without one of these. -/
theorem record_writes_stale :
    let udt : Udt := ⟨"k", "p", [("x", .leaf .int), ("y", .list (.leaf .text))]⟩
    let r : Registry := ⟨[udt]⟩
    let t : DataType := .udt "k" "p" [("z", .leaf .blob), ("y", .leaf .text)]
    let v : Value := .record [("y", .list [.text "a", .null])]
    let h : Holder :=
      ⟨.record udt, [none, some [0, 0, 0, 2, 0, 0, 0, 1, 97, 255, 255, 255, 255]], rfl⟩
    ∃ bytes, ofRecord r t v = .ok h ∧ h.toBytes = .ok bytes ∧ t.udt?.isSome = true ∧
      encode r t v true = .ok bytes ∧ ofBytes r t bytes = .ok h := by
  intro udt r t v h
  have made : ofRecord r t v = .ok h := rfl
  obtain ⟨bytes, hb⟩ : ∃ bytes, h.toBytes = .ok bytes := ⟨_, rfl⟩
  obtain ⟨written, back⟩ := record_writes (r := r) (t := t) (v := v)
  have agree := (written bytes).mp (bind_eq_ok.mpr ⟨h, made, hb⟩)
  exact ⟨bytes, made, hb, agree.1, agree.2, back h bytes made hb⟩

/-- A holder of a tuple is written as the codec writes the tuple inside other values, unless the type
is a user-defined one: its holder takes a tuple too, and is written as a tuple of the types of the
fields on record, where the codec refuses. -/
theorem tuple_writes : (ofTuple r t v >>= toBytes) = .ok bytes ↔
    (∃ ts, t.shape = .tuple ts) ∧ encode r t v true = .ok bytes ∨
    ∃ udt : Udt, r.shape t = .ok (.udt udt) ∧
      encode r (.tuple (udt.fields.map Prod.snd)) v true = .ok bytes ∧
      ∀ other, encode r t v true ≠ .ok other := by
  rw [bind_eq_ok]
  constructor
  · rintro ⟨h, hh, hb⟩
    obtain ⟨items, rfl, hc, room, fills⟩ := ofTuple_eq_ok.mp hh
    have hs := Composite.ofType_eq_ok.mp hc
    cases hcomposite : h.composite with
    | tuple ts =>
      rw [hcomposite] at hs room fills
      have ht := Registry.shape_eq_tuple.mp hs
      exact .inl ⟨⟨ts, ht⟩, (Value.encode_tuple_iff ht).mpr ⟨items, h.cells, rfl, room, fills, hb⟩⟩
    | record udt =>
      rw [hcomposite] at hs room fills
      have filled : encode r (.tuple (udt.fields.map Prod.snd)) (.tuple items) true = .ok bytes :=
        (Value.encode_tuple_iff rfl).mpr ⟨items, h.cells, rfl, room, fills, hb⟩
      refine .inr ⟨udt, hs, filled, fun other he => ?_⟩
      obtain ⟨declared, ht, hu⟩ := Registry.shape_eq_udt.mp hs
      obtain ⟨_, _, ⟨⟩, -⟩ := (Value.encode_record_iff ht hu).mp he
  · have holder {c : Composite} (hc : Composite.ofType r t = .ok c) {u : DataType}
        (hu : u.shape = .tuple c.types) (he : encode r u v true = .ok bytes) :
        ∃ h, ofTuple r t v = .ok h ∧ h.toBytes = .ok bytes := by
      obtain ⟨items, ps, rfl, room, fills, hb⟩ := (Value.encode_tuple_iff hu).mp he
      let h : Holder := ⟨c, ps, fills.length_eq⟩
      exact ⟨h, ofTuple_eq_ok.mpr ⟨items, rfl, hc, room, fills⟩, hb⟩
    rintro (⟨⟨ts, ht⟩, he⟩ | ⟨udt, hs, he, -⟩)
    · have hc : Composite.ofType r t = .ok (.tuple ts) :=
        Composite.ofType_eq_ok.mpr (Registry.shape_eq_tuple.mpr ht)
      exact holder hc ht he
    · have hc : Composite.ofType r t = .ok (.record udt) := Composite.ofType_eq_ok.mpr hs
      exact holder hc rfl he

end Holder

end CqlWire
