import CqlWire.Proofs.Declarations
import CqlWire.Proofs.Records

namespace CqlWire.Registry

open Value (encode decode depthBound decodeWithin decoder decodePositions)

variable {r : Registry} {t u : DataType} {keyspace name : String} {declared : FieldTypes} {udt : Udt}

/-- A record of the type starts with the number of its fields where it stands at the top, and is
laid out as inside another value behind it. Fewer bytes than such a number takes are a record of
nulls. -/
structure CountsFields (r : Registry) (t : DataType) (fields : FieldTypes) : Prop where
  encode : ∀ v bytes, encode r t v false = .ok bytes ↔
    ∃ head body, Frame.count fields.length = .ok head ∧ encode r t v true = .ok body ∧
      head ++ body = bytes
  decode : ∀ bytes v, decode r t bytes false = .ok v ↔
    (bytes.length < lengthSize ∧ .record [] = v) ∨
    ∃ head body, Frame.count fields.length = .ok head ∧ head ++ body = bytes ∧
      decode r t body true = .ok v

theorem encode_counts (hu : r.lookup keyspace name = .ok udt) (v : Value) (bytes : Bytes) :
    encode r (.udt keyspace name declared) v false = .ok bytes ↔
      ∃ head body, Frame.count udt.fields.length = .ok head ∧
        encode r (.udt keyspace name declared) v true = .ok body ∧ head ++ body = bytes := by
  have shape : (DataType.udt keyspace name declared).shape = .udt ⟨keyspace, name, declared⟩ := rfl
  simp only [Value.encode_eq_ok, Value.encodeAs_udt shape hu]
  constructor
  · rintro ⟨hn, fields, ps, rfl, known, hps, head, body, hc, hb, rfl⟩
    exact ⟨head, body, hc, ⟨hn, fields, ps, rfl, known, hps, hb⟩, rfl⟩
  · rintro ⟨head, body, hc, ⟨hn, fields, ps, rfl, known, hps, hb⟩, rfl⟩
    exact ⟨hn, fields, ps, rfl, known, hps, head, body, hc, hb, rfl⟩

/-- Without frames all fields of a record are null. -/
theorem record_of_no_frames {depth : Nat} {items : List Value}
    (h : decodePositions (decoder r depth) .element (udt.fields.map Prod.snd) [] = .ok items) :
    Fields.ofList ((udt.fields.map Prod.fst).zip items) = [] := by
  have hitems : items = (udt.fields.map Prod.snd).map fun _ => Value.null := by
    cases hts : udt.fields.map Prod.snd <;> rw [hts] at h <;> exact (pure_eq_ok.mp h).symm
  apply Fields.ofList_nulls
  intro f hf
  have hmem := (List.of_mem_zip hf).2
  rw [hitems] at hmem
  obtain ⟨_, -, he⟩ := List.mem_map.mp hmem
  exact he.symm

/-- The bytes of a frozen record may stand anywhere and may be decoded at any depth that they
cannot use up. -/
theorem decode_frozen_eq_ok (hu : r.lookup keyspace name = .ok udt) {body : Bytes} {v : Value}
    {depth : Nat} (hd : body.length / lengthSize ≤ depth) (position : Nat) :
    decode r (.udt keyspace name declared) body true = .ok v ↔ ∃ ps items,
      Frame.read udt.fields.length ⟨position, body⟩ = (ps, .clean) ∧
      decodePositions (decoder r depth) .element (udt.fields.map Prod.snd) ps = .ok items ∧
      .record (Fields.ofList ((udt.fields.map Prod.fst).zip items)) = v := by
  have shape : (DataType.udt keyspace name declared).shape = .udt ⟨keyspace, name, declared⟩ := rfl
  have deep : decode r (.udt keyspace name declared) body true =
      decodeWithin r (depth + 1) (.udt keyspace name declared) true body :=
    Value.decodeWithin_congr rfl (fun _ => rfl) (Nat.lt_succ_self _) (Nat.lt_succ_of_le hd)
  have place : (Cursor.mk position body).rest = (Cursor.ofBytes body).rest := rfl
  rw [deep, Value.decodeWithin_udt shape hu]
  constructor
  · rintro ⟨_, ps, items, ⟨⟩, hread, hitems, rfl⟩
    exact ⟨ps, items, (Frame.read_clean_congr place).mpr hread, hitems, rfl⟩
  · rintro ⟨ps, items, hread, hitems, rfl⟩
    exact ⟨.ofBytes body, ps, items, rfl, (Frame.read_clean_congr place).mp hread, hitems, rfl⟩

theorem decode_counts (hu : r.lookup keyspace name = .ok udt) (bytes : Bytes) (v : Value) :
    decode r (.udt keyspace name declared) bytes false = .ok v ↔
      (bytes.length < lengthSize ∧ .record [] = v) ∨
      ∃ head body, Frame.count udt.fields.length = .ok head ∧ head ++ body = bytes ∧
        decode r (.udt keyspace name declared) body true = .ok v := by
  have shape : (DataType.udt keyspace name declared).shape = .udt ⟨keyspace, name, declared⟩ := rfl
  have shallow (head body : Bytes) :
      body.length / lengthSize ≤ (head ++ body).length / lengthSize := by
    rw [List.length_append]
    exact Nat.div_le_div_right (Nat.le_add_left _ _)
  have no_frames (short : bytes.length < lengthSize) :
      Frame.read udt.fields.length (.ofBytes bytes) = ([], .clean) := by
    have hc : (Cursor.ofBytes bytes).hasLength = false := decide_eq_false (Nat.not_le.mpr short)
    exact Frame.read_of_not_hasLength hc _
  rw [decode, depthBound, Value.decodeWithin_udt shape hu]
  constructor
  · rintro ⟨start, ps, items, hstart, hread, hitems, rfl⟩
    rcases Value.skipFieldCount_eq_ok.mp hstart with ⟨short, rfl⟩ | ⟨head, body, hc, rfl, rfl⟩
    · rw [no_frames short] at hread
      cases hread
      rw [record_of_no_frames hitems]
      exact .inl ⟨short, rfl⟩
    · refine .inr ⟨head, body, hc, rfl, ?_⟩
      exact (decode_frozen_eq_ok hu (shallow head body) lengthSize).mpr ⟨ps, items, hread, hitems, rfl⟩
  · rintro (⟨short, rfl⟩ | ⟨head, body, hc, rfl, h⟩)
    · have hnulls : decodePositions (decoder r (bytes.length / lengthSize)) .element
          (udt.fields.map Prod.snd) [] = .ok ((udt.fields.map Prod.snd).map fun _ => .null) := by
        cases udt.fields.map Prod.snd <;> rfl
      refine ⟨.ofBytes bytes, [], _, Value.skipFieldCount_eq_ok.mpr (.inl ⟨short, rfl⟩),
        no_frames short, hnulls, ?_⟩
      rw [record_of_no_frames hnulls]
    · obtain ⟨ps, items, hread, hitems, rfl⟩ :=
        (decode_frozen_eq_ok hu (shallow head body) lengthSize).mp h
      exact ⟨⟨lengthSize, body⟩, ps, items,
        Value.skipFieldCount_eq_ok.mpr (.inr ⟨head, body, hc, rfl, rfl⟩), hread, hitems, rfl⟩

theorem countsFields (hu : r.lookup keyspace name = .ok udt) (declared : FieldTypes) :
    r.CountsFields (.udt keyspace name declared) udt.fields :=
  ⟨encode_counts hu, decode_counts hu⟩

theorem SameLayout.of_thaw (h : t.thaw = u.thaw) (hf : t.isFrozen = u.isFrozen) (nested : Bool) :
    r.SameLayout t nested u nested :=
  .of_skeleton (DataType.skeleton_eq_of_thaw h) fun _ => by rw [hf]

theorem sameLayout_frozen (r : Registry) (t : DataType) (nested : Bool) :
    r.SameLayout t true (.frozen t) nested := by
  have skeleton : t.skeleton = t.frozen.skeleton := rfl
  apply SameLayout.of_skeleton skeleton
  intro _
  cases nested <;> rfl

theorem sameLayout_nested (h : t.udt? = none ∨ t.isFrozen = true) :
    r.SameLayout t false t true := by
  apply SameLayout.of_skeleton rfl
  intro hudt
  rcases h with h | h
  · rw [h] at hudt
    cases hudt
  · exact h

/-- Freezing takes away the count of the record at the top and does nothing else: wrappers below the
outermost constructor change no encoding, no decoded value and no order. -/
theorem freezing (r : Registry) (t : DataType) :
    (∀ u, t.thaw = u.thaw → (t.isFrozen = u.isFrozen → ∀ nested, r.SameLayout t nested u nested) ∧
        t.order = u.order ∧ ∀ a b, r.order t a b = r.order u a b) ∧
      (∀ nested, r.SameLayout t true (.frozen t) nested) ∧
      (t.udt? = none ∨ t.isFrozen = true → r.SameLayout t false t true) ∧
      ∀ keyspace name declared udt, t = .udt keyspace name declared →
        r.lookup keyspace name = .ok udt → r.CountsFields t udt.fields := by
  refine ⟨fun u h => ⟨SameLayout.of_thaw h, ?_, ?_⟩, sameLayout_frozen r t, sameLayout_nested, ?_⟩
  · exact DataType.order_eq_of_thaw h
  · exact order_congr (DataType.skeleton_eq_of_thaw h)
  · rintro keyspace name declared udt rfl hu
    exact countsFields hu declared

theorem freezing_record :
    let fields : FieldTypes := [("x", .leaf .int), ("y", .list (.leaf .text))]
    let r : Registry := ⟨[⟨"k", "p", fields⟩]⟩
    let t : DataType := .udt "k" "p" [("y", .frozen (.list (.leaf .text)))]
    let u : DataType := .udt "k" "p" [("y", .list (.leaf .text))]
    let v : Value := .record [("x", .int 7)]
    let head : Bytes := [0, 0, 0, 2]
    let body : Bytes := [0, 0, 0, 4, 0, 0, 0, 7, 255, 255, 255, 255]
    (t.thaw = u.thaw ∧ t.isFrozen = u.isFrozen ∧ r.lookup "k" "p" = .ok ⟨"k", "p", fields⟩ ∧
      encode r t v true = .ok body) ∧
      encode r t v false = .ok (head ++ body) ∧ encode r u v false = .ok (head ++ body) ∧
      encode r (.frozen t) v false = .ok body ∧
      decode r t (head ++ body) false = decode r t body true := by
  intro fields r t u v head body
  have hlookup : r.lookup "k" "p" = .ok ⟨"k", "p", fields⟩ := rfl
  have hc : Frame.count fields.length = .ok head := by
    simp only [fields, head]
    rfl
  have he : encode r t v true = .ok body := by
    simp only [r, t, v, body, fields]
    rfl
  have hd : decode r t body true = .ok v := by
    simp only [r, t, v, body, fields]
    rfl
  obtain ⟨below, frozen, -, top⟩ := freezing r t
  have counts := top "k" "p" _ ⟨"k", "p", fields⟩ rfl hlookup
  have layout := (below u rfl).1 rfl false
  have written := (counts.encode v (head ++ body)).mpr ⟨head, body, hc, he, rfl⟩
  have read := (counts.decode (head ++ body) v).mpr (.inr ⟨head, body, hc, rfl, hd⟩)
  refine ⟨⟨rfl, rfl, hlookup, he⟩, written, (layout.encode v _).mp written, ?_, read.trans hd.symm⟩
  exact ((frozen false).encode v body).mp he

end CqlWire.Registry
