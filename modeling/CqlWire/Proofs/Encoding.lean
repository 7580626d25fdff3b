import CqlWire.Proofs.Agreement
import CqlWire.Proofs.Frames
import CqlWire.Wire.Encode

namespace CqlWire.Value

variable {r : Registry} {t e k : DataType} {v : Value} {items : List Value} {fields : Fields}
  {types : FieldTypes} {p : Payload} {bytes : Bytes} {frozen : Bool}

attribute [local simp] encodeAs encodeItems encodePositions encodeFields elementPayloads entryPayloads

theorem encode_eq_ok {nested : Bool} :
    encode r t v nested = .ok bytes ↔ v ≠ .null ∧ encodeAs r v t nested = .ok bytes := by
  unfold encode
  split
  next hn => simp [isNull_iff.mp hn]
  next hn => exact ⟨fun h => ⟨mt isNull_iff.mpr hn, h⟩, And.right⟩

@[simp] theorem encodeElement_null (r : Registry) (t : DataType) :
    encodeElement r t .null = .ok none := rfl

theorem encodeElement_of_ne_null (h : v ≠ .null) :
    encodeElement r t v = .ok p ↔ ∃ bytes, encodeAs r v t true = .ok bytes ∧ some bytes = p := by
  rw [encodeElement, payloadOf, if_neg (mt isNull_iff.mp h), map_eq_ok]

theorem exists_encodeElement_iff (h : v ≠ .null) :
    (∃ p, encodeElement r t v = .ok p) ↔ ∃ bytes, encodeAs r v t true = .ok bytes := by
  rw [encodeElement, payloadOf, if_neg (mt isNull_iff.mp h), exists_map_iff]

/-- The frames of elements, encoded one after the other. -/
def framesOf : List (Except Error Payload) → Except Error Bytes
  | [] => return []
  | element :: rest => do
    let frame ← Frame.payload (← element)
    return frame ++ (← framesOf rest)

theorem framesOf_eq_ok {elements : List (Except Error Payload)} :
    framesOf elements = .ok bytes ↔
      ∃ ps, List.Forall₂ (fun element p => element = .ok p) elements ps ∧
        Frame.payloads ps = .ok bytes := by
  induction elements generalizing bytes with
  | nil => simp [framesOf, Frame.payloads, pure_eq_ok]
  | cons element rest ih =>
    simp only [framesOf, bind_eq_ok, pure_eq_ok, ih]
    constructor
    · rintro ⟨p, hp, frame, hf, body, ⟨ps, hps, hb⟩, rfl⟩
      exact ⟨p :: ps, .cons hp hps, Frame.payloads_cons_eq_ok.mpr ⟨frame, body, hf, hb, rfl⟩⟩
    · rintro ⟨_, hps, h⟩
      cases hps with
      | cons hp hps =>
        obtain ⟨frame, body, hf, hb, rfl⟩ := Frame.payloads_cons_eq_ok.mp h
        exact ⟨_, hp, frame, hf, body, ⟨_, hps, hb⟩, rfl⟩

theorem framesOf_map_eq_ok {α : Type} {encode : α → Except Error Payload} {l : List α} :
    framesOf (l.map encode) = .ok bytes ↔
      ∃ ps, List.Forall₂ (fun a p => encode a = .ok p) l ps ∧ Frame.payloads ps = .ok bytes := by
  simp only [framesOf_eq_ok, List.forall₂_map_left_iff]

theorem encodeItems_eq_framesOf (r : Registry) (items : List Value) (t : DataType) :
    encodeItems r items t = framesOf (items.map (encodeElement r t)) := by
  induction items with
  | nil => rfl
  | cons v items ih =>
    rw [encodeItems, ih]
    rfl

theorem encodePositions_eq_framesOf {ts : List DataType} (h : items.length = ts.length) :
    encodePositions r items ts = framesOf ((ts.zip items).map fun x => encodeElement r x.1 x.2) := by
  induction ts generalizing items with
  | nil =>
    rw [List.length_eq_zero_iff.mp h]
    rfl
  | cons t ts ih =>
    obtain ⟨v, items, rfl⟩ := List.exists_cons_of_length_eq_add_one h
    rw [encodePositions, ih (by simpa using h)]
    rfl

theorem find?_fieldEncoders (fields : Fields) (name : String) (t : DataType) :
    (match (fieldEncoders r fields).find? fun e => e.1 = name with
      | some e => e.2 t
      | none => pure none) = encodeElement r t (fields.getD name) := by
  induction fields with
  | nil => rfl
  | cons f fields ih =>
    obtain ⟨other, v⟩ := f
    rw [fieldEncoders, Fields.getD_cons, List.find?_cons]
    by_cases h : other = name
    · simp only [h, decide_true, if_true]
      rfl
    · simp only [h, decide_false, if_false]
      exact ih

theorem encodeFields_eq_framesOf (r : Registry) (fields : Fields) (types : FieldTypes) :
    encodeFields (fieldEncoders r fields) types =
      framesOf (types.map fun f => encodeElement r f.2 (fields.getD f.1)) := by
  induction types with
  | nil => rfl
  | cons f types ih =>
    obtain ⟨name, t⟩ := f
    rw [encodeFields, ih, List.map_cons, framesOf, ← find?_fieldEncoders]
    cases (fieldEncoders r fields).find? fun e => e.1 = name <;> rfl

theorem elementPayloads_eq_mapM (r : Registry) (items : List Value) (t : DataType) :
    elementPayloads r items t = items.mapM fun v => Prod.mk v <$> encodeElement r t v := by
  induction items with
  | nil => rfl
  | cons v items ih =>
    rw [elementPayloads, List.mapM_cons, ih, bind_map_left]
    rfl

theorem elementPayloads_eq_ok {elements : List (Value × Payload)} :
    elementPayloads r items t = .ok elements ↔
      List.Forall₂ (fun v x => x.1 = v ∧ encodeElement r t v = .ok x.2) items elements := by
  have each (v : Value) (x : Value × Payload) :
      Prod.mk v <$> encodeElement r t v = .ok x ↔ x.1 = v ∧ encodeElement r t v = .ok x.2 := by
    rw [map_eq_ok]
    constructor
    · rintro ⟨p, hp, rfl⟩
      exact ⟨rfl, hp⟩
    · rintro ⟨rfl, hp⟩
      exact ⟨x.2, hp, rfl⟩
  simp only [elementPayloads_eq_mapM, mapM_eq_ok, each]

theorem entryPayloads_eq_mapM (r : Registry) (entries : List (Value × Value)) (k t : DataType) :
    entryPayloads r entries k t = entries.mapM fun e => do
      let p ← encodeElement r k e.1
      let q ← encodeElement r t e.2
      return ((e.1, p), q) := by
  induction entries with
  | nil => rfl
  | cons e entries ih =>
    rw [entryPayloads, List.mapM_cons, ih]
    simp only [bind_assoc, pure_bind]
    rfl

theorem entryPayloads_eq_ok {entries : List (Value × Value)}
    {encoded : List ((Value × Payload) × Payload)} :
    entryPayloads r entries k t = .ok encoded ↔
      List.Forall₂ (fun e x => x.1.1 = e.1 ∧ encodeElement r k e.1 = .ok x.1.2 ∧
        encodeElement r t e.2 = .ok x.2) entries encoded := by
  have each (e : Value × Value) (x : (Value × Payload) × Payload) :
      (do
        let p ← encodeElement r k e.1
        let q ← encodeElement r t e.2
        return ((e.1, p), q)) = .ok x ↔
      x.1.1 = e.1 ∧ encodeElement r k e.1 = .ok x.1.2 ∧ encodeElement r t e.2 = .ok x.2 := by
    simp only [bind_eq_ok, pure_eq_ok]
    constructor
    · rintro ⟨p, hp, q, hq, rfl⟩
      exact ⟨rfl, hp, hq⟩
    · rintro ⟨he, hp, hq⟩
      exact ⟨_, hp, _, hq, by rw [← he]⟩
  simp only [entryPayloads_eq_mapM, mapM_eq_ok, each]

section Shapes

theorem encodeAs_leaf {kind : Kind} (h : t.shape = .leaf kind) (v : Value) (frozen : Bool) :
    encodeAs r v t frozen = Leaf.encode kind v := by
  cases v <;> simp only [encodeAs, h] <;> cases kind <;> rfl

theorem encodeAs_of_isLeaf (hv : v.IsLeaf) (t : DataType) (frozen : Bool) :
    encodeAs r v t frozen =
      match t.shape with
      | .leaf kind => Leaf.encode kind v
      | s => .error (.mismatch s.expected v.kindName) := by
  cases v <;> cases hv <;> rfl

theorem encodeAs_list (h : t.shape = .list e) :
    encodeAs r v t frozen = .ok bytes ↔ ∃ items ps, v = .list items ∧
      List.Forall₂ (fun x p => encodeElement r e x = .ok p) items ps ∧
      Frame.Counted items.length ps bytes := by
  cases v
  case list items =>
    simp only [encodeAs, h, encodeItems_eq_framesOf, bind_eq_ok, pure_eq_ok, framesOf_map_eq_ok]
    constructor
    · rintro ⟨head, hc, body, ⟨ps, hps, hb⟩, rfl⟩
      exact ⟨items, ps, rfl, hps, head, body, hc, hb, rfl⟩
    · rintro ⟨_, ps, ⟨⟩, hps, head, body, hc, hb, rfl⟩
      exact ⟨head, hc, body, ⟨ps, hps, hb⟩, rfl⟩
  all_goals simp [h]

theorem encodeAs_set {o : DataType} (h : t.shape = .set e) (ho : r.resolve e = .ok o) :
    encodeAs r v t frozen = .ok bytes ↔ ∃ items elements, v = .set items ∧
      List.Forall₂ (fun x y => y.1 = x ∧ encodeElement r e x = .ok y.2) items elements ∧
      Frame.Counted (writtenElements o elements).length ((writtenElements o elements).map Prod.snd)
        bytes := by
  cases v
  case set items =>
    simp only [encodeAs, h, bind_eq_ok, pure_eq_ok, elementPayloads_eq_ok, ho]
    constructor
    · rintro ⟨elements, he, _, ⟨⟩, head, hc, body, hb, rfl⟩
      exact ⟨items, elements, rfl, he, head, body, hc, hb, rfl⟩
    · rintro ⟨_, elements, ⟨⟩, he, head, body, hc, hb, rfl⟩
      exact ⟨elements, he, o, rfl, head, hc, body, hb, rfl⟩
  all_goals simp [h]

theorem encodeAs_map {o : DataType} (h : t.shape = .map k e) (ho : r.resolve k = .ok o) :
    encodeAs r v t frozen = .ok bytes ↔ ∃ entries encoded, v = .map entries ∧
      List.Forall₂ (fun x y => y.1.1 = x.1 ∧ encodeElement r k x.1 = .ok y.1.2 ∧
        encodeElement r e x.2 = .ok y.2) entries encoded ∧
      Frame.Counted (writtenEntries o encoded).length
        ((writtenEntries o encoded).flatMap fun y => [y.1.2, y.2]) bytes := by
  cases v
  case map entries =>
    simp only [encodeAs, h, bind_eq_ok, pure_eq_ok, entryPayloads_eq_ok, ho]
    constructor
    · rintro ⟨encoded, he, _, ⟨⟩, head, hc, body, hb, rfl⟩
      exact ⟨entries, encoded, rfl, he, head, body, hc, hb, rfl⟩
    · rintro ⟨_, encoded, ⟨⟩, he, head, body, hc, hb, rfl⟩
      exact ⟨encoded, he, o, rfl, head, hc, body, hb, rfl⟩
  all_goals simp [h]

theorem exists_resolve_of_encodeAs_set (ht : t.shape = .set e)
    (h : encodeAs r v t frozen = .ok bytes) : ∃ o, r.resolve e = .ok o := by
  cases v
  case set items =>
    simp only [encodeAs, ht, bind_eq_ok] at h
    obtain ⟨_, -, o, ho, -⟩ := h
    exact ⟨o, ho⟩
  all_goals simp [encodeAs, ht] at h

theorem exists_resolve_of_encodeAs_map (ht : t.shape = .map k e)
    (h : encodeAs r v t frozen = .ok bytes) : ∃ o, r.resolve k = .ok o := by
  cases v
  case map entries =>
    simp only [encodeAs, ht, bind_eq_ok] at h
    obtain ⟨_, -, o, ho, -⟩ := h
    exact ⟨o, ho⟩
  all_goals simp [encodeAs, ht] at h

theorem exists_lookup_of_encodeAs_udt {declared : Udt} (ht : t.shape = .udt declared)
    (h : encodeAs r v t frozen = .ok bytes) :
    ∃ udt, r.lookup declared.keyspace declared.name = .ok udt := by
  cases v
  case record fields =>
    simp only [encodeAs, ht, bind_eq_ok] at h
    obtain ⟨udt, hu, -⟩ := h
    exact ⟨udt, hu⟩
  all_goals simp [encodeAs, ht] at h

theorem encodeAs_tuple {ts : List DataType} (h : t.shape = .tuple ts)
    (hl : items.length = ts.length) :
    encodeAs r (.tuple items) t frozen = .ok bytes ↔ ∃ ps,
      List.Forall₂ (fun x p => encodeElement r x.1 x.2 = .ok p) (ts.zip items) ps ∧
      Frame.payloads ps = .ok bytes := by
  simp only [encodeAs, h, if_pos (Nat.le_of_eq hl), encodePositions_eq_framesOf hl,
    framesOf_map_eq_ok]

theorem exists_of_encodeAs_tuple {ts : List DataType} (h : t.shape = .tuple ts)
    (he : encodeAs r v t frozen = .ok bytes) : ∃ items, v = .tuple items := by
  cases v <;> simp [h] at he
  exact ⟨_, rfl⟩

/-- The frames of a record, behind their number where the record is not frozen. -/
def RecordFrames (counted : Bool) (n : Nat) (ps : List Payload) (bytes : Bytes) : Prop :=
  if counted then Frame.Counted n ps bytes else Frame.payloads ps = .ok bytes

theorem isNone_position? {name : String} :
    (types.position? name).isNone = true ↔ name ∉ types.map Prod.fst := by
  rw [FieldTypes.position?, Option.isNone_iff_eq_none, List.findIdx?_eq_none_iff, List.mem_map]
  simp only [decide_eq_false_iff_not, not_exists, not_and]

theorem RecordFrames.eq_iff {counted : Bool} {n : Nat} {ps qs : List Payload} {x y : Bytes}
    (hx : RecordFrames counted n ps x) (hy : RecordFrames counted n qs y) (hp : ps.length = n)
    (hq : qs.length = n) : x = y ↔ ps = qs := by
  cases counted with
  | false => exact Frame.payloads_eq_iff hx hy (hp.trans hq.symm)
  | true =>
    exact Frame.Counted.eq_iff hx hy Nat.one_pos (hp.trans n.mul_one.symm) (hq.trans n.mul_one.symm)

theorem recordFrames_not_iff {frozen : Bool} {n : Nat} {ps : List Payload} :
    RecordFrames (!frozen) n ps bytes ↔ ∃ head, (if frozen then .ok [] else Frame.count n) = .ok head ∧
      ∃ body, Frame.payloads ps = .ok body ∧ head ++ body = bytes := by
  cases frozen with
  | false =>
    simp only [RecordFrames, Frame.Counted]
    exact exists_congr fun _ => exists_and_left
  | true => simp [RecordFrames]

section Record

variable {declared udt : Udt}

theorem find?_unknown_eq_none :
    (fields.find? fun f => (types.position? f.1).isNone) = none ↔
      ∀ f ∈ fields, f.1 ∈ types.map Prod.fst := by
  simp only [List.find?_eq_none, isNone_position?, Classical.not_not]

theorem encodeAs_unknown {f : String × Value} (h : t.shape = .udt declared)
    (hu : r.lookup declared.keyspace declared.name = .ok udt)
    (hunknown : (fields.find? fun f => (udt.fields.position? f.1).isNone) = some f) :
    encodeAs r (.record fields) t frozen =
      .error (.mismatch ("a field of " ++ udt.qualifiedName) ("field '" ++ f.1 ++ "'")) := by
  simp only [encodeAs, h, hu, bind, Except.bind, hunknown]
  rfl

theorem encodeAs_record (h : t.shape = .udt declared)
    (hu : r.lookup declared.keyspace declared.name = .ok udt)
    (hknown : ∀ f ∈ fields, f.1 ∈ udt.fields.map Prod.fst) :
    encodeAs r (.record fields) t frozen = do
      let head ← (if frozen || t.isFrozen then .ok [] else Frame.count udt.fields.length)
      return head ++ (← framesOf (udt.fields.map fun f => encodeElement r f.2 (fields.getD f.1))) := by
  have hnone := find?_unknown_eq_none.mpr hknown
  simp only [encodeAs, h, hu, bind, Except.bind, hnone, encodeFields_eq_framesOf]
  cases frozen || t.isFrozen <;> rfl

theorem encodeAs_udt (h : t.shape = .udt declared)
    (hu : r.lookup declared.keyspace declared.name = .ok udt) :
    encodeAs r v t frozen = .ok bytes ↔ ∃ (fields : Fields) (ps : List Payload), v = .record fields ∧
      (∀ f ∈ fields, f.1 ∈ udt.fields.map Prod.fst) ∧
      List.Forall₂ (fun f p => encodeElement r f.2 (fields.getD f.1) = .ok p) udt.fields ps ∧
      RecordFrames (!(frozen || t.isFrozen)) udt.fields.length ps bytes := by
  cases v
  case record fields =>
    cases hunknown : fields.find? fun f => (udt.fields.position? f.1).isNone with
    | some f =>
      rw [encodeAs_unknown h hu hunknown]
      constructor
      · exact nofun
      · rintro ⟨_, ps, ⟨⟩, hknown, -⟩
        rw [find?_unknown_eq_none.mpr hknown] at hunknown
        cases hunknown
    | none =>
      have hknown := find?_unknown_eq_none.mp hunknown
      rw [encodeAs_record h hu hknown]
      simp only [recordFrames_not_iff, bind_eq_ok, pure_eq_ok, framesOf_map_eq_ok]
      constructor
      · rintro ⟨head, hc, body, ⟨ps, hps, hb⟩, rfl⟩
        exact ⟨fields, ps, rfl, hknown, hps, head, hc, body, hb, rfl⟩
      · rintro ⟨_, ps, ⟨⟩, -, hps, head, hc, body, hb, rfl⟩
        exact ⟨head, hc, body, ⟨ps, hps, hb⟩, rfl⟩
  all_goals simp [h]

end Record

end Shapes

end CqlWire.Value
