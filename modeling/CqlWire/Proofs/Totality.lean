import CqlWire.Proofs.Encoding
import CqlWire.Proofs.Typing

namespace CqlWire

open Value (encode encodeAs encodeElement framesOf)

/-- The errors of a count or length of more than 31 bits. -/
def Error.IsTooLarge (e : Error) : Prop :=
  ∃ n, Frame.limit ≤ n ∧ (e = .malformed (.countTooLarge n) ∨ e = .malformed (.payloadTooLarge n))

variable {α β : Type} {r : Registry} {t o e f k l : DataType} {v : Value} {bytes : Bytes}

/-- What fails for the size of a count or length only. -/
def FailsOnSize (x : Except Error α) : Prop :=
  ∀ e, x = .error e → e.IsTooLarge

namespace FailsOnSize

theorem ok (a : α) : FailsOnSize (.ok a : Except Error α) :=
  fun _ h => nomatch h

theorem of_eq_ok {x : Except Error α} {a : α} (h : x = .ok a) : FailsOnSize x :=
  h ▸ ok a

theorem bind {x : Except Error α} {g : α → Except Error β} (hx : FailsOnSize x)
    (hg : ∀ a, x = .ok a → FailsOnSize (g a)) : FailsOnSize (x >>= g) := by
  cases x with
  | error e => exact fun e' h => hx e' (by cases h; rfl)
  | ok a => exact hg a rfl

theorem map {x : Except Error α} {g : α → β} (hx : FailsOnSize x) : FailsOnSize (g <$> x) := by
  cases x with
  | error e => exact fun e' h => hx e' (by cases h; rfl)
  | ok a => exact ok (g a)

theorem count (n : Nat) : FailsOnSize (Frame.count n) := by
  unfold Frame.count
  split
  next => exact ok _
  next h =>
    rintro _ ⟨⟩
    exact ⟨n, Nat.not_lt.mp h, .inl rfl⟩

theorem payload (p : Payload) : FailsOnSize (Frame.payload p) := by
  cases p with
  | none => exact ok _
  | some bytes =>
    rw [Frame.payload]
    split
    next => exact ok _
    next h =>
      rintro _ ⟨⟩
      exact ⟨bytes.length, Nat.not_lt.mp h, .inr rfl⟩

theorem payloads (ps : List Payload) : FailsOnSize (Frame.payloads ps) := by
  induction ps with
  | nil => exact ok _
  | cons p ps ih => exact bind (payload p) fun _ _ => bind ih fun _ _ => ok _

end FailsOnSize

namespace Value

variable {items : List Value}

/-- An error of frames is that of an element or comes from the size of a payload. -/
theorem framesOf_eq_error {elements : List (Except Error Payload)} {err : Error}
    (h : framesOf elements = .error err) : (∃ x ∈ elements, x = .error err) ∨ err.IsTooLarge := by
  induction elements with
  | nil => cases h
  | cons x elements ih =>
    rcases bind_eq_error.mp h with hx | ⟨p, -, h⟩
    · exact .inl ⟨x, by simp, hx⟩
    rcases bind_eq_error.mp h with hp | ⟨frame, -, h⟩
    · exact .inr (FailsOnSize.payload p err hp)
    rcases bind_eq_error.mp h with hrest | ⟨rest, -, h⟩
    · rcases ih hrest with ⟨y, hy, he⟩ | hsize
      · exact .inl ⟨y, by simp [hy], he⟩
      · exact .inr hsize
    · cases h

theorem elementPayloads_eq_error {err : Error} (h : elementPayloads r items t = .error err) :
    ∃ v ∈ items, encodeElement r t v = .error err := by
  rw [elementPayloads_eq_mapM] at h
  obtain ⟨v, hv, he⟩ := mapM_eq_error h
  exact ⟨v, hv, map_eq_error.mp he⟩

theorem entryPayloads_eq_error {entries : List (Value × Value)} {err : Error}
    (h : entryPayloads r entries k t = .error err) :
    ∃ x ∈ entries, encodeElement r k x.1 = .error err ∨ encodeElement r t x.2 = .error err := by
  rw [entryPayloads_eq_mapM] at h
  obtain ⟨x, hx, he⟩ := mapM_eq_error h
  rcases bind_eq_error.mp he with hkey | ⟨p, -, he⟩
  · exact ⟨x, hx, .inl hkey⟩
  rcases bind_eq_error.mp he with hvalue | ⟨q, -, he⟩
  · exact ⟨x, hx, .inr hvalue⟩
  · cases he

end Value

namespace FailsOnSize

theorem framesOf {elements : List (Except Error Payload)} (h : ∀ x ∈ elements, FailsOnSize x) :
    FailsOnSize (Value.framesOf elements) := by
  intro err he
  rcases Value.framesOf_eq_error he with ⟨x, hx, hxe⟩ | hsize
  · exact h x hx err hxe
  · exact hsize

theorem elementPayloads {items : List Value}
    (h : ∀ v ∈ items, FailsOnSize (encodeElement r t v)) :
    FailsOnSize (Value.elementPayloads r items t) := by
  intro err he
  obtain ⟨v, hv, hve⟩ := Value.elementPayloads_eq_error he
  exact h v hv err hve

theorem entryPayloads {entries : List (Value × Value)}
    (h : ∀ e ∈ entries, FailsOnSize (encodeElement r k e.1) ∧ FailsOnSize (encodeElement r t e.2)) :
    FailsOnSize (Value.entryPayloads r entries k t) := by
  intro err he
  obtain ⟨x, hx, hc | hv⟩ := Value.entryPayloads_eq_error he
  · exact (h x hx).1 err hc
  · exact (h x hx).2 err hv

end FailsOnSize

namespace Registry

/-- The values of a type have an encoding, but for the size of a count or length. -/
def Encodes (r : Registry) (t o : DataType) : Prop :=
  ∀ (frozen : Bool) (v : Value), v ≠ .null → o.Fits .encodable v → FailsOnSize (encodeAs r v t frozen)

theorem Encodes.element (h : r.Encodes t o) (hv : o.Fits .encodable v) :
    FailsOnSize (encodeElement r t v) := by
  unfold encodeElement Value.payloadOf
  split
  next => exact .ok none
  next hn => exact .map (h true v (mt Value.isNull_iff.mpr hn) hv)

theorem Encodes.leaf {kind : Kind} (ht : t.shape = .leaf kind) (ho : o.shape = .leaf kind) :
    r.Encodes t o := by
  intro frozen v hn hv
  rw [DataType.fits_shape, ho] at hv
  obtain ⟨-, bytes, hb⟩ := hv.resolve_left hn
  rw [Value.encodeAs_leaf ht]
  exact .of_eq_ok hb

theorem Encodes.list (ht : t.shape = .list e) (ho : o.shape = .list f) (h : r.Encodes e f) :
    r.Encodes t o := by
  intro frozen v hn hv
  rw [DataType.fits_shape, ho] at hv
  obtain ⟨items, rfl, fits⟩ := hv.resolve_left hn
  simp only [encodeAs, ht, Value.encodeItems_eq_framesOf]
  refine .bind (.count _) fun _ _ => .bind (.framesOf ?_) fun _ _ => .ok _
  exact List.forall_mem_map.mpr fun x hx => h.element (fits x hx)

theorem Encodes.set (ht : t.shape = .set e) (ho : o.shape = .set f) (hr : r.resolve e = .ok f)
    (h : r.Encodes e f) : r.Encodes t o := by
  intro frozen v hn hv
  rw [DataType.fits_shape, ho] at hv
  obtain ⟨items, rfl, fits⟩ := hv.resolve_left hn
  simp only [encodeAs, ht]
  refine .bind (.elementPayloads fun x hx => h.element (fits x hx)) fun _ _ => .bind (.of_eq_ok hr) ?_
  exact fun _ _ => .bind (.count _) fun _ _ => .bind (.payloads _) fun _ _ => .ok _

theorem Encodes.map {w : DataType} (ht : t.shape = .map k e) (ho : o.shape = .map l w)
    (hr : r.resolve k = .ok l) (hk : r.Encodes k l) (h : r.Encodes e w) : r.Encodes t o := by
  intro frozen v hn hv
  rw [DataType.fits_shape, ho] at hv
  obtain ⟨entries, rfl, -, fits⟩ := hv.resolve_left hn
  simp only [encodeAs, ht]
  have each := fun x hx => And.intro (hk.element (fits x hx).1) (h.element (fits x hx).2)
  refine .bind (.entryPayloads each) fun _ _ => .bind (.of_eq_ok hr) ?_
  exact fun _ _ => .bind (.count _) fun _ _ => .bind (.payloads _) fun _ _ => .ok _

theorem Encodes.tuple {ts os : List DataType} (ht : t.shape = .tuple ts) (ho : o.shape = .tuple os)
    (h : List.Forall₂ r.Encodes ts os) : r.Encodes t o := by
  intro frozen v hn hv
  rw [DataType.fits_shape, ho] at hv
  obtain ⟨items, rfl, hl, fits⟩ := hv.resolve_left hn
  replace hl : items.length = ts.length := hl.trans h.length_eq.symm
  simp only [encodeAs, ht, if_pos (Nat.le_of_eq hl), Value.encodePositions_eq_framesOf hl]
  have each := h.comp ((DataType.fitsEach_iff (hl.trans h.length_eq)).mp fits)
  refine .framesOf (List.forall_mem_map.mpr fun x hx => ?_)
  obtain ⟨o, -, hto, ho⟩ := (List.forall₂_iff_zip.mp each).2 hx
  exact Encodes.element hto ho

theorem Encodes.udt {declared udt : Udt} {fields : FieldTypes}
    (ht : t.shape = .udt declared) (ho : o.shape = .udt ⟨udt.keyspace, udt.name, fields⟩)
    (hu : r.lookup declared.keyspace declared.name = .ok udt)
    (h : List.Forall₂ (fun f g => f.1 = g.1 ∧ r.Encodes f.2 g.2) udt.fields fields) :
    r.Encodes t o := by
  intro frozen v hn hv
  rw [DataType.fits_shape, ho] at hv
  obtain ⟨values, rfl, hknown, fits⟩ := hv.resolve_left hn
  have names : udt.fields.map Prod.fst = fields.map Prod.fst := (h.imp fun _ _ h => h.1).map_eq_map
  have known : ∀ f ∈ values, f.1 ∈ udt.fields.map Prod.fst := by
    rw [names]
    exact hknown.2
  have frames : FailsOnSize (framesOf (udt.fields.map fun f => encodeElement r f.2 (Fields.getD values f.1))) := by
    refine .framesOf (List.forall_mem_map.mpr fun f hf => ?_)
    obtain ⟨g, hg, hname, hfg⟩ := h.exists_mem_right hf
    have hfits := DataType.fitsFields_iff.mp fits g hg
    rw [← hname] at hfits
    exact hfg.element hfits
  rw [Value.encodeAs_record ht hu known]
  refine .bind ?_ fun _ _ => .bind frames fun _ _ => .ok _
  split
  next => exact .ok []
  next => exact .count _

/-- Every value of a type whose leaf values have an encoding has one. -/
theorem encodes (h : r.resolve t = .ok o) : r.Encodes t o :=
  resolve_induct .leaf .list .set .map .tuple .udt h

theorem failsOnSize_encode (h : r.resolve t = .ok o) (hn : v ≠ .null) (hv : o.Fits .encodable v)
    (nested : Bool) : FailsOnSize (encode r t v nested) := by
  unfold encode
  rw [if_neg (mt Value.isNull_iff.mp hn)]
  exact encodes h nested v hn hv

end Registry

end CqlWire
