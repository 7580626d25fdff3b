import CqlWire.Proofs.Encoding

namespace CqlWire

namespace Frame

variable {count : Option Nat} {p : Payload} {ps : List Payload} {bytes : Bytes}

/-- Frames behind their number, where it is written. -/
def laid : (count : Option Nat) → List Payload → Except Error Bytes
  | none, ps => payloads ps
  | some n, ps => do
    let head ← Frame.count n
    return head ++ (← payloads ps)

theorem length_lt_of_payloads (h : payloads ps = .ok bytes) {body : Bytes} (hb : some body ∈ ps) :
    body.length < limit := by
  induction ps generalizing bytes with
  | nil => cases hb
  | cons p ps ih =>
    obtain ⟨frame, rest, hf, hrest, -⟩ := payloads_cons_eq_ok.mp h
    rcases List.mem_cons.mp hb with rfl | hb
    · exact (payload_some_eq_ok.mp hf).1
    · exact ih hrest hb

theorem exists_payloads_iff : (∃ bytes, payloads ps = .ok bytes) ↔
    ∀ body, some body ∈ ps → body.length < limit :=
  ⟨fun ⟨_, h⟩ _ => length_lt_of_payloads h, exists_payloads ps⟩

theorem exists_laid_iff : (∃ bytes, laid count ps = .ok bytes) ↔
    (∀ n ∈ count, n < limit) ∧ ∀ body, some body ∈ ps → body.length < limit := by
  cases count with
  | none => simp only [laid, exists_payloads_iff, Option.not_mem_none, false_imp_iff, implies_true,
      true_and]
  | some n =>
    rw [← exists_payloads_iff]
    constructor
    · rintro ⟨bytes, h⟩
      obtain ⟨head, hc, h⟩ := bind_eq_ok.mp h
      obtain ⟨body, hb, -⟩ := bind_eq_ok.mp h
      refine ⟨?_, body, hb⟩
      rintro n ⟨⟩
      exact (count_eq_ok.mp hc).1
    · rintro ⟨hc, body, hb⟩
      have hn := count_eq_ok.mpr ⟨hc n rfl, rfl⟩
      exact ⟨_, bind_eq_ok.mpr ⟨_, hn, bind_eq_ok.mpr ⟨body, hb, rfl⟩⟩⟩

end Frame

/-- The items at the positions of a tuple, each with its type; items that are missing as null. -/
def DataType.positions : List DataType → List Value → List (DataType × Value)
  | [], _ => []
  | t :: ts, items => (t, items.headD .null) :: positions ts items.tail

theorem DataType.length_positions (ts : List DataType) (items : List Value) :
    (positions ts items).length = ts.length := by
  induction ts generalizing items with
  | nil => rfl
  | cons t ts ih => rw [positions, List.length_cons, ih, List.length_cons]

theorem DataType.eq_null_or_mem_zip {ts : List DataType} {items : List Value} {x : DataType × Value}
    (h : x ∈ positions ts items) : x.2 = .null ∨ x ∈ ts.zip items := by
  induction ts generalizing items with
  | nil => cases h
  | cons t ts ih =>
    cases items with
    | nil =>
      rcases List.mem_cons.mp h with rfl | h
      · exact .inl rfl
      · exact .inl ((ih h).resolve_right (by simp))
    | cons v items =>
      rcases List.mem_cons.mp h with rfl | h
      · exact .inr List.mem_cons_self
      · exact (ih h).imp_right (List.mem_cons_of_mem _)

theorem DataType.mem_positions {ts : List DataType} {items : List Value} {x : DataType × Value}
    (h : x ∈ ts.zip items) : x ∈ positions ts items := by
  induction ts generalizing items with
  | nil => cases h
  | cons t ts ih =>
    cases items with
    | nil => cases h
    | cons v items => exact (List.mem_cons.mp h).elim (fun h => h ▸ List.mem_cons_self) fun h =>
        List.mem_cons_of_mem _ (ih h)

/-- The positions that have an item. -/
theorem DataType.positions_take {ts : List DataType} {items : List Value}
    (h : items.length ≤ ts.length) : (positions ts items).take items.length = ts.zip items := by
  induction ts generalizing items with
  | nil => rw [List.length_eq_zero_iff.mp (Nat.le_zero.mp h)]; rfl
  | cons t ts ih =>
    cases items with
    | nil => rfl
    | cons v items =>
      rw [positions, List.length_cons, List.take_succ_cons, List.tail_cons,
        ih (Nat.le_of_succ_le_succ h), List.zip_cons_cons, List.headD_cons]

theorem DataType.positions_eq_zip {ts : List DataType} {items : List Value}
    (h : items.length = ts.length) : positions ts items = ts.zip items := by
  rw [← positions_take (Nat.le_of_eq h), h, ← length_positions ts items, List.take_length]

namespace Value

variable {r : Registry} {t : DataType} {v : Value} {count : Option Nat} {ps : List Payload}
  {frozen : Bool}

/-- The number, where it is written, and the payloads that the encoding of a value consists of. -/
inductive Lays (r : Registry) (t : DataType) (frozen : Bool) :
    Value → Option Nat → List Payload → Prop
  | list {e : DataType} {items : List Value} {ps : List Payload} (ht : t.shape = .list e)
    (h : List.Forall₂ (fun x p => encodeElement r e x = .ok p) items ps) :
    Lays r t frozen (.list items) (some items.length) ps
  | set {e o : DataType} {items : List Value} {elements : List (Value × Payload)}
    (ht : t.shape = .set e) (ho : r.resolve e = .ok o)
    (h : elementPayloads r items e = .ok elements) :
    Lays r t frozen (.set items) (some (writtenElements o elements).length)
      ((writtenElements o elements).map Prod.snd)
  | map {k e o : DataType} {entries : List (Value × Value)}
    {encoded : List ((Value × Payload) × Payload)} (ht : t.shape = .map k e)
    (ho : r.resolve k = .ok o) (h : entryPayloads r entries k e = .ok encoded) :
    Lays r t frozen (.map entries) (some (writtenEntries o encoded).length)
      ((writtenEntries o encoded).flatMap fun x => [x.1.2, x.2])
  | tuple {ts : List DataType} {items : List Value} {ps : List Payload} (ht : t.shape = .tuple ts)
    (hl : items.length ≤ ts.length)
    (h : List.Forall₂ (fun x p => encodeElement r x.1 x.2 = .ok p) (DataType.positions ts items) ps) :
    Lays r t frozen (.tuple items) none ps
  | record {declared udt : Udt} {fields : Fields} {count : Option Nat} {ps : List Payload}
    (ht : t.shape = .udt declared) (hu : r.lookup declared.keyspace declared.name = .ok udt)
    (hknown : ∀ f ∈ fields, f.1 ∈ udt.fields.map Prod.fst)
    (hc : count = if frozen || t.isFrozen then none else some udt.fields.length)
    (h : List.Forall₂ (fun f p => encodeElement r f.2 (fields.getD f.1) = .ok p) udt.fields ps) :
    Lays r t frozen (.record fields) count ps

theorem Lays.leaf?_eq_none (h : Lays r t frozen v count ps) : t.leaf? = none := by
  cases h <;> simp only [DataType.leaf?, *]

theorem framesOf_eq_payloads {elements : List (Except Error Payload)}
    (h : List.Forall₂ (fun element p => element = .ok p) elements ps) :
    framesOf elements = Frame.payloads ps := by
  induction h with
  | nil => rfl
  | cons h _ ih =>
    rw [framesOf, h, ih]
    rfl

/-- Positions without an item have the frames of nulls. -/
theorem encodePositions_nil (ts : List DataType) :
    encodePositions r [] ts =
      framesOf ((DataType.positions ts []).map fun x => encodeElement r x.1 x.2) := by
  have frames (ts : List DataType) : encodePositions r [] ts = Frame.payloads (ts.map fun _ => none) := by
    rw [encodePositions]
    exact nofun
  induction ts with
  | nil => rfl
  | cons t ts ih =>
    rw [frames] at ih
    rw [frames, List.map_cons, Frame.payloads, ih]
    rfl

theorem encodePositions_eq (items : List Value) (ts : List DataType) :
    encodePositions r items ts =
      framesOf ((DataType.positions ts items).map fun x => encodeElement r x.1 x.2) := by
  induction ts generalizing items with
  | nil => cases items <;> rfl
  | cons t ts ih =>
    cases items with
    | nil => exact encodePositions_nil (t :: ts)
    | cons v items =>
      rw [encodePositions, ih]
      rfl

/-- The encoding of a composite value is framed from what it lays out. -/
theorem Lays.encodeAs_eq (h : Lays r t frozen v count ps) :
    encodeAs r v t frozen = Frame.laid count ps := by
  cases h with
  | list ht h =>
    have frames := framesOf_eq_payloads (List.forall₂_map_left_iff.mpr h)
    simp only [encodeAs, ht, encodeItems_eq_framesOf, frames, Frame.laid]
  | set ht ho h => simp only [encodeAs, ht, ho, h, Frame.laid, bind, Except.bind]
  | map ht ho h => simp only [encodeAs, ht, ho, h, Frame.laid, bind, Except.bind]
  | tuple ht hl h =>
    have frames := framesOf_eq_payloads (List.forall₂_map_left_iff.mpr h)
    simp only [encodeAs, ht, if_pos hl, encodePositions_eq, frames, Frame.laid]
  | record ht hu hknown hc h =>
    have frames := framesOf_eq_payloads (List.forall₂_map_left_iff.mpr h)
    rw [encodeAs_record ht hu hknown, frames, hc]
    cases frozen || t.isFrozen with
    | false => rfl
    | true => exact bind_pure (Frame.payloads ps)

theorem encodeAs_positions {ts : List DataType} {items : List Value} {bytes : Bytes}
    (ht : t.shape = .tuple ts) : encodeAs r (.tuple items) t frozen = .ok bytes ↔ ∃ ps,
      List.Forall₂ (fun x p => encodeElement r x.1 x.2 = .ok p) (DataType.positions ts items) ps ∧
      items.length ≤ ts.length ∧ Frame.payloads ps = .ok bytes := by
  simp only [encodeAs, ht]
  split
  next hl => simp only [encodePositions_eq, framesOf_map_eq_ok, hl, true_and]
  next hl => simp [hl]

/-- A value of a composite type is encoded from what it lays out only. -/
theorem exists_lays {bytes : Bytes} (hl : t.leaf? = none) (h : encodeAs r v t frozen = .ok bytes) :
    ∃ count ps, Lays r t frozen v count ps := by
  cases ht : t.shape with
  | leaf kind => simp [DataType.leaf?, ht] at hl
  | list e =>
    obtain ⟨items, ps, rfl, hps, -⟩ := (encodeAs_list ht).mp h
    exact ⟨_, ps, .list ht hps⟩
  | set e =>
    obtain ⟨o, ho⟩ := exists_resolve_of_encodeAs_set ht h
    obtain ⟨items, elements, rfl, he, -⟩ := (encodeAs_set ht ho).mp h
    exact ⟨_, _, .set ht ho (elementPayloads_eq_ok.mpr he)⟩
  | map k e =>
    obtain ⟨o, ho⟩ := exists_resolve_of_encodeAs_map ht h
    obtain ⟨entries, encoded, rfl, he, -⟩ := (encodeAs_map ht ho).mp h
    exact ⟨_, _, .map ht ho (entryPayloads_eq_ok.mpr he)⟩
  | tuple ts =>
    obtain ⟨items, rfl⟩ := exists_of_encodeAs_tuple ht h
    obtain ⟨ps, hps, hlen, -⟩ := (encodeAs_positions ht).mp h
    exact ⟨_, _, .tuple ht hlen hps⟩
  | udt declared =>
    obtain ⟨udt, hu⟩ := exists_lookup_of_encodeAs_udt ht h
    obtain ⟨fields, ps, rfl, hknown, hps, -⟩ := (encodeAs_udt ht hu).mp h
    exact ⟨_, ps, .record ht hu hknown rfl hps⟩

end Value

end CqlWire
