import CqlWire.Holder
import CqlWire.Proofs.Assembly
import CqlWire.Proofs.Members
import CqlWire.Proofs.Records
import CqlWire.Proofs.Typing

namespace CqlWire

open Value (decode decodePositions ofPayload unbounded)

variable {r : Registry} {t : DataType} {c : Composite} {v x : Value} {bytes body : Bytes}
  {ps : List Payload} {n i : Nat}

namespace Frame

/-- A length that is read is one that can be written. -/
theorem length_lt_of_split? {rest : Bytes} (h : split? bytes = some (some body, rest)) :
    body.length < limit := by
  simp only [split?] at h
  split at h
  next => cases h
  next hpos =>
    split at h
    next hfit =>
      cases h
      obtain ⟨hnat, hsmall⟩ := Bytes.toNat_of_toInt_nonneg (Int.not_lt.mp hpos)
      have width : 256 ^ (bytes.take lengthSize).length ≤ 2 * limit :=
        Nat.pow_le_pow_right (by decide) (List.length_take_le lengthSize bytes)
      rw [hnat, Int.toNat_natCast] at hfit ⊢
      rw [List.length_take, Nat.min_eq_left hfit]
      omega
    next => cases h

theorem length_lt_of_mem_read {c : Cursor} (h : some body ∈ (read n c).1) :
    body.length < limit := by
  induction n generalizing c with
  | zero => cases h
  | succ n ih =>
    rw [read] at h
    split at h
    next hc =>
      cases hs : split? c.rest with
      | none =>
        obtain ⟨e, he⟩ := payload_of_split?_none hc hs
        rw [he] at h
        cases h
      | some s =>
        obtain ⟨p, rest⟩ := s
        obtain ⟨position, hp⟩ := payload_of_split? hc hs
        rw [hp] at h
        rcases List.mem_cons.mp h with rfl | h
        · exact length_lt_of_split? hs
        · exact ih h
    next => cases h

end Frame

namespace Value

variable {d : Decoder} {slot : Slot}

theorem decodePositions_eq_mapM_zip {ts : List DataType} (hl : ps.length = ts.length) :
    decodePositions d slot ts ps = (ts.zip ps).mapM fun x => ofPayload d slot x.1 x.2 := by
  induction ts generalizing ps with
  | nil => cases ps <;> rfl
  | cons t ts ih =>
    obtain ⟨p, ps, rfl⟩ := List.exists_cons_of_length_eq_add_one hl
    rw [decodePositions, ih (Nat.succ.inj hl), List.zip_cons_cons, List.mapM_cons]

end Value

namespace Holder

theorem fit_succ_cons (n : Nat) (p : Payload) (ps : List Payload) :
    fit (n + 1) (p :: ps) = p :: fit n ps := by
  rw [fit, List.cons_append, List.take_succ_cons, List.replicate_succ', ← List.append_assoc,
    List.take_append_of_le_length (by simp)]
  rfl

theorem fit_succ_nil (n : Nat) : fit (n + 1) [] = none :: fit n [] := by
  simp [fit, List.replicate_succ]

theorem mem_of_some_mem_fit (h : some body ∈ fit n ps) : some body ∈ ps :=
  (List.mem_append.mp (List.mem_of_mem_take h)).resolve_right
    fun h => nomatch List.eq_of_mem_replicate h

/-- Positions that are filled up with nulls read as if they were missing. -/
theorem decodePositions_fit (d : Value.Decoder) (slot : Slot) (ts : List DataType)
    (ps : List Payload) :
    decodePositions d slot ts (fit ts.length ps) = decodePositions d slot ts ps := by
  induction ts generalizing ps with
  | nil => cases ps <;> rfl
  | cons t ts ih =>
    cases ps with
    | nil =>
      rw [List.length_cons, fit_succ_nil, decodePositions, ih]
      cases ts <;> rfl
    | cons p ps => rw [List.length_cons, fit_succ_cons, decodePositions, decodePositions, ih]

end Holder

namespace Composite

/-- The composite as what a type is below its wrappers. -/
def shape : Composite → Shape
  | tuple ts => .tuple ts
  | record udt => .udt udt

/-- The value that has these values at its positions. -/
def assemble : Composite → List Value → Value
  | tuple _, items => .tuple items
  | record udt, items => .record (Fields.ofList ((udt.fields.map Prod.fst).zip items))

/-- The value at a position of a tuple or a record; a field that is absent is null. -/
def item? : Composite → Value → Nat → Option Value
  | tuple _, .tuple items, i => items[i]?
  | record udt, .record fields, i => udt.fields[i]?.map fun f => Fields.getD fields f.1
  | _, _, _ => none

theorem ofType_eq_ok : ofType r t = .ok c ↔ r.shape t = .ok c.shape := by
  unfold ofType Registry.shape
  cases ht : t.shape with
  | tuple ts => cases c <;> simp [shape]
  | udt declared => cases c <;> simp [shape, map_eq_ok]
  | _ => cases c <;> simp [shape]

theorem shape_toType (h : ofType r t = .ok c) : r.shape c.toType = .ok c.shape := by
  cases c with
  | tuple ts => rfl
  | record udt =>
    have hs := ofType_eq_ok.mp h
    unfold Registry.shape at hs
    split at hs
    next declared _ =>
      obtain ⟨u, hu, heq⟩ := map_eq_ok.mp hs
      cases heq
      obtain ⟨hk, hn⟩ := Registry.names_of_lookup hu
      rw [← hk, ← hn] at hu
      exact map_eq_ok.mpr ⟨udt, hu, rfl⟩
    next hne => exact absurd (Except.ok.inj hs) (hne udt)

theorem ofType_toType (h : ofType r t = .ok c) : ofType r c.toType = .ok c :=
  ofType_eq_ok.mpr (shape_toType h)

/-- A tuple or a record is made of its positions. -/
theorem decode_eq (h : ofType r t = .ok c) (bytes : Bytes) :
    decode r t bytes true = (do
      let (ps, tail) := Frame.read c.types.length (.ofBytes bytes)
      let items ← decodePositions (unbounded r) c.slot c.types ps
      tail.close (c.assemble items)) := by
  have hs := ofType_eq_ok.mp h
  cases c with
  | tuple ts =>
    simp only [Value.decode_composite hs trivial, Bool.true_or, Value.decodePositions_eq_mapM,
      bind_map_left]
    rfl
  | record udt =>
    simp only [Value.decode_composite hs trivial, Bool.true_or, Value.decodePositions_eq_mapM,
      bind_map_left, types, List.length_map, List.zipWith_map_left]
    rfl

variable {items : List Value}

theorem item?_assemble (hn : ∀ udt, c = record udt → udt.HasDistinctNames)
    (hl : items.length = c.types.length) (i : Nat) : c.item? (c.assemble items) i = items[i]? := by
  cases c with
  | tuple ts => rfl
  | record udt =>
    have width : items.length = udt.fields.length := hl.trans (List.length_map _)
    simp only [assemble, item?]
    by_cases hi : i < udt.fields.length
    · have hitem : i < items.length := width ▸ hi
      have mem : (udt.fields[i].1, items[i]) ∈ (udt.fields.map Prod.fst).zip items := by
        refine List.mem_iff_getElem.mpr ⟨i, by simp [hi, hitem], ?_⟩
        simp
      have names : (((udt.fields.map Prod.fst).zip items).map Prod.fst).Nodup := by
        rw [List.map_fst_zip (by simp [width])]
        exact hn udt rfl
      rw [List.getElem?_eq_getElem hi, List.getElem?_eq_getElem hitem, Option.map_some,
        Fields.getD_ofList_of_nodup names mem]
    · rw [List.getElem?_eq_none (Nat.not_lt.mp hi), List.getElem?_eq_none (by omega)]
      rfl

end Composite

namespace Holder

variable {h h' : Holder} {p : Payload}

/-- A holder for a type whose payloads all have lengths that can be written. -/
structure Made (r : Registry) (t : DataType) (h : Holder) : Prop where
  composite : Composite.ofType r t = .ok h.composite
  short : ∀ b, some b ∈ h.cells → b.length < Frame.limit

/-- A holder for a type after any puts of payloads and values, each payload of a length that can be
written. -/
inductive Reached (r : Registry) (t : DataType) : Holder → Prop
  | ofType {h : Holder} (made : ofType r t = .ok h) : Reached r t h
  | ofBytes {h : Holder} {bytes : Bytes} (made : ofBytes r t bytes = .ok h) : Reached r t h
  | setPayload {h h' : Holder} {position : Nat} {p : Payload} (reached : Reached r t h)
    (short : ∀ b, p = some b → b.length < Frame.limit) (put : h.setPayload position p = .ok h') :
    Reached r t h'
  | set {h h' : Holder} {position : Nat} {v : Value} (reached : Reached r t h)
    (short : ∀ b, h'.payload position = some b → b.length < Frame.limit)
    (put : h.set r position v = .ok h') : Reached r t h'

theorem made_of_ofType (hh : ofType r t = .ok h) : Made r t h := by
  obtain ⟨c, hc, rfl⟩ := map_eq_ok.mp hh
  exact ⟨hc, fun b hb => nomatch List.eq_of_mem_replicate hb⟩

theorem ofBytes_eq_ok (hc : Composite.ofType r t = .ok c) :
    ofBytes r t bytes = .ok h ↔ ∃ ps, Frame.read c.types.length (.ofBytes bytes) = (ps, .clean) ∧
      h = ⟨c, fit c.types.length ps, length_fit _ ps⟩ := by
  constructor
  · intro hh
    obtain ⟨c', hc', hh⟩ := bind_eq_ok.mp hh
    cases hc.symm.trans hc'
    split at hh
    next ps hread => exact ⟨ps, hread, (pure_eq_ok.mp hh).symm⟩
    next => cases hh
  · rintro ⟨ps, hread, rfl⟩
    refine bind_eq_ok.mpr ⟨c, hc, ?_⟩
    rw [hread]
    rfl

theorem made_of_ofBytes (hh : ofBytes r t bytes = .ok h) : Made r t h := by
  obtain ⟨c, hc, -⟩ := bind_eq_ok.mp hh
  obtain ⟨ps, hread, rfl⟩ := (ofBytes_eq_ok hc).mp hh
  refine ⟨hc, fun b hb => ?_⟩
  have mem := mem_of_some_mem_fit hb
  rw [show ps = (Frame.read c.types.length (.ofBytes bytes)).1 by rw [hread]] at mem
  exact Frame.length_lt_of_mem_read mem

theorem setPayload_eq_ok {position : Nat} (hp : h.setPayload position p = .ok h') :
    h'.composite = h.composite ∧ h'.cells = h.cells.set position p ∧ position < h.size := by
  unfold setPayload at hp
  split at hp
  next hlt =>
    cases hp
    exact ⟨rfl, rfl, hlt⟩
  next => cases hp

theorem Made.setPayload {position : Nat} (made : Made r t h)
    (short : ∀ b, p = some b → b.length < Frame.limit) (hp : h.setPayload position p = .ok h') :
    Made r t h' := by
  obtain ⟨hcomposite, hcells, -⟩ := setPayload_eq_ok hp
  refine ⟨hcomposite ▸ made.composite, fun b hb => ?_⟩
  rw [hcells] at hb
  rcases List.mem_or_eq_of_mem_set hb with hb | hb
  · exact made.short b hb
  · exact short b hb.symm

theorem set_eq_ok {position : Nat} (hp : h.set r position v = .ok h') :
    ∃ p, h.setPayload position p = .ok h' ∧ h'.payload position = p := by
  unfold Holder.set at hp
  split at hp
  next =>
    obtain ⟨p, -, hp⟩ := bind_eq_ok.mp hp
    obtain ⟨-, hcells, hlt⟩ := setPayload_eq_ok hp
    refine ⟨p, hp, ?_⟩
    rw [payload, hcells, List.getElem?_set_self hlt]
    rfl
  next => cases hp

/-- Whatever is put into a holder, it stays one for its type. -/
theorem Reached.made (reached : Reached r t h) : Made r t h := by
  induction reached with
  | ofType made => exact made_of_ofType made
  | ofBytes made => exact made_of_ofBytes made
  | setPayload _ short put ih => exact ih.setPayload short put
  | set _ short put ih =>
    obtain ⟨p, put, rfl⟩ := set_eq_ok put
    exact ih.setPayload short put

theorem get_of_lt (ht : i < h.composite.types.length) (hi : i < h.cells.length) :
    h.get r i =
      ofPayload (unbounded r) h.composite.slot h.composite.types[i] h.cells[i] := by
  unfold get elementType? payload
  rw [List.getElem?_eq_getElem ht, List.getElem?_eq_getElem hi]
  rfl

theorem lt_of_get (hx : h.get r i = .ok x) : i < h.cells.length := by
  rw [h.length_cells]
  refine Nat.lt_of_not_le fun hle => ?_
  unfold get elementType? at hx
  rw [List.getElem?_eq_none hle] at hx
  cases hx

/-- A holder's value is made of the values of its positions. -/
theorem Made.toValue_eq (made : Made r t h) :
    h.toValue r = h.composite.assemble <$>
      decodePositions (unbounded r) h.composite.slot h.composite.types h.cells := by
  obtain ⟨body, hbody⟩ := Frame.exists_payloads _ made.short
  have hread := Frame.read_payloads 0 hbody
  rw [h.length_cells] at hread
  rw [toValue, toBytes, hbody]
  show decode r h.composite.toType body true = _
  rw [Composite.decode_eq (Composite.ofType_toType made.composite), Cursor.ofBytes, hread]
  exact bind_pure_comp h.composite.assemble _

theorem decodePositions_cells (items : List Value) :
    decodePositions (unbounded r) h.composite.slot h.composite.types h.cells = .ok items ↔
      items.length = h.size ∧ ∀ i x, h.get r i = .ok x ↔ items[i]? = some x := by
  rw [Value.decodePositions_eq_mapM_zip h.length_cells, mapM_eq_ok, List.forall₂_iff_get]
  simp only [List.length_zip, ← h.length_cells, Nat.min_self, List.get_eq_getElem, List.getElem_zip]
  constructor
  · rintro ⟨hl, each⟩
    refine ⟨hl.symm, fun i x => ?_⟩
    by_cases hi : i < h.cells.length
    · rw [get_of_lt (h.length_cells ▸ hi) hi, each i hi (hl ▸ hi), List.getElem?_eq_getElem (hl ▸ hi)]
      simp
    · rw [List.getElem?_eq_none (by omega)]
      exact ⟨fun hx => absurd (lt_of_get hx) hi, nofun⟩
  · rintro ⟨hl, each⟩
    refine ⟨hl.symm, fun i hi hitem => ?_⟩
    rw [← get_of_lt (h.length_cells ▸ hi) hi]
    exact (each i _).mpr (List.getElem?_eq_getElem hitem)

theorem Made.exists_toValue_iff (made : Made r t h) :
    (∃ v, h.toValue r = .ok v) ↔ ∀ i < h.size, ∃ x, h.get r i = .ok x := by
  rw [made.toValue_eq]
  constructor
  · rintro ⟨v, hv⟩ i hi
    obtain ⟨items, hitems, -⟩ := map_eq_ok.mp hv
    obtain ⟨hl, each⟩ := (decodePositions_cells items).mp hitems
    have hitem : i < items.length := hl ▸ hi
    exact ⟨items[i], (each i _).mpr (List.getElem?_eq_getElem hitem)⟩
  · intro each
    obtain ⟨items, hitems⟩ : ∃ items, decodePositions (unbounded r) h.composite.slot
        h.composite.types h.cells = .ok items := by
      rw [Value.decodePositions_eq_mapM_zip h.length_cells]
      refine exists_mapM fun x hx => ?_
      obtain ⟨i, hi, rfl⟩ := List.mem_iff_getElem.mp hx
      have hcell : i < h.cells.length := by
        rw [List.length_zip] at hi
        omega
      rw [List.getElem_zip, ← get_of_lt (h.length_cells ▸ hcell) hcell]
      exact each i hcell
    exact ⟨_, map_eq_ok.mpr ⟨items, hitems, rfl⟩⟩

/-- A holder over bytes has the value that they decode to. -/
theorem toValue_ofBytes (hc : Composite.ofType r t = .ok c) :
    (ofBytes r t bytes >>= fun h => h.toValue r) = .ok v ↔ decode r t bytes true = .ok v := by
  rw [Composite.decode_eq hc, bind_eq_ok]
  constructor
  · rintro ⟨h, hh, hv⟩
    have made := made_of_ofBytes hh
    obtain ⟨ps, hread, rfl⟩ := (ofBytes_eq_ok hc).mp hh
    rw [made.toValue_eq, decodePositions_fit] at hv
    rw [hread]
    obtain ⟨items, hitems, rfl⟩ := map_eq_ok.mp hv
    exact bind_eq_ok.mpr ⟨items, hitems, rfl⟩
  · intro hv
    obtain ⟨items, hitems, hclose⟩ := bind_eq_ok.mp hv
    obtain ⟨hclean, rfl⟩ := Value.close_eq_ok.mp hclose
    have hh := (ofBytes_eq_ok hc).mpr ⟨_, Prod.ext rfl hclean, rfl⟩
    refine ⟨_, hh, ?_⟩
    rw [(made_of_ofBytes hh).toValue_eq, decodePositions_fit]
    exact map_eq_ok.mpr ⟨items, hitems, rfl⟩

/-- A holder reads as the decoder does: over bytes it has the value that they decode to, if any.
After any puts it has a value if and only if each position has one, and these are then the items of
the tuple, or the fields of the record as they are on record. -/
theorem reads_as_decode (hr : r.WellFormed) (hc : Composite.ofType r t = .ok c) :
    (∀ bytes v, (ofBytes r t bytes >>= fun h => h.toValue r) = .ok v ↔
      decode r t bytes true = .ok v) ∧
    ∀ h, Reached r t h → ((∃ v, h.toValue r = .ok v) ↔ ∀ i < h.size, ∃ x, h.get r i = .ok x) ∧
      ∀ v, h.toValue r = .ok v → ∀ i x, h.get r i = .ok x ↔ c.item? v i = some x := by
  refine ⟨fun bytes v => toValue_ofBytes hc, fun h reached => ?_⟩
  have made := reached.made
  cases made.composite.symm.trans hc
  refine ⟨made.exists_toValue_iff, fun v hv => ?_⟩
  rw [made.toValue_eq] at hv
  obtain ⟨items, hitems, rfl⟩ := map_eq_ok.mp hv
  obtain ⟨hl, each⟩ := (decodePositions_cells items).mp hitems
  have named : ∀ udt, h.composite = .record udt → udt.HasDistinctNames := by
    intro udt hudt
    have hs := Composite.ofType_eq_ok.mp hc
    rw [hudt] at hs
    exact hr.shape hs
  simp only [Composite.item?_assemble named (hl.trans h.length_cells)]
  exact each

theorem reads_as_decode_empty_cell :
    let udt : Udt := ⟨"k", "p", [("x", .leaf .int), ("y", .leaf .text)]⟩
    let r : Registry := ⟨[udt]⟩
    let t : DataType := .frozen (.udt "k" "p" [])
    let h : Holder := ⟨.record udt, [some [], some [104]], rfl⟩
    let h' : Holder := ⟨.record udt, [some [1], some [104]], rfl⟩
    (r.WellFormed ∧ Composite.ofType r t = .ok (.record udt) ∧ Reached r t h ∧ Reached r t h') ∧
      (ofBytes r t [0, 0, 0, 0] >>= fun h => h.toValue r) = .ok (.record []) ∧
      (∃ v, h.toValue r = .ok v ∧ (Composite.record udt).item? v 0 = some .null ∧
        (Composite.record udt).item? v 1 = some (.text "h")) ∧
      ¬∃ v, h'.toValue r = .ok v := by
  intro udt r t h h'
  have hr : r.WellFormed := by
    rintro _ (_ | ⟨_, ⟨⟩⟩)
    simp [udt, Udt.HasDistinctNames]
  have hc : Composite.ofType r t = .ok (.record udt) := rfl
  have start : ofBytes r t [0, 0, 0, 0] = .ok ⟨.record udt, [some [], none], rfl⟩ := rfl
  have written : Holder.set r ⟨.record udt, [some [], none], rfl⟩ 1 (.text "h") = .ok h := rfl
  have reached : Reached r t h := .set (.ofBytes start) (by decide) written
  have reached' : Reached r t h' :=
    .setPayload reached (by decide) (show h.setPayload 0 (some [1]) = .ok h' from rfl)
  obtain ⟨whole, after⟩ := reads_as_decode hr hc
  obtain ⟨v, hv⟩ := (after h reached).1.mpr fun i hi => match i, hi with
    | 0, _ => ⟨.null, rfl⟩
    | 1, _ => ⟨.text "h", rfl⟩
  have items := (after h reached).2 v hv
  refine ⟨⟨hr, hc, reached, reached'⟩, (whole _ _).mpr rfl,
    ⟨v, hv, (items 0 _).mp rfl, (items 1 _).mp rfl⟩, ?_⟩
  intro hv'
  obtain ⟨x, hx⟩ := (after h' reached').1.mp hv' 0 (by decide)
  exact nomatch hx

end Holder

end CqlWire
