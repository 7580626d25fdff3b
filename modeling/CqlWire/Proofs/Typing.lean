import CqlWire.Proofs.Agreement
import CqlWire.Proofs.Decoding
import CqlWire.Proofs.LeafCodec
import CqlWire.Proofs.WellFormed

namespace CqlWire

open Value (decodeWithin decoder decodeElements decodePositions ofPayload)

namespace Strictness

/-- Values exactly of a type whose leaf values all have an encoding. -/
def encodable : Strictness :=
  { exact with leaf := fun kind v => kind.Holds v ∧ ∃ bytes, Leaf.encode kind v = .ok bytes }

theorem encodable_implies_exact : encodable.Implies exact where
  leaf _ _ h := h.1
  entries _ _ _ := id
  arity _ _ := id
  record _ _ := id

end Strictness

theorem DataType.leaf?_eq_some {t : DataType} {kind : Kind} :
    t.leaf? = some kind ↔ t.shape = .leaf kind := by
  unfold DataType.leaf?
  split
  next h => rw [h, Option.some.injEq, Shape.leaf.injEq]
  next hne => exact ⟨nofun, fun h => absurd h (hne kind)⟩

namespace Registry

variable {r : Registry} {t o e f k l : DataType} {v : Value} {slot : Slot} {p : Payload}
  {depth : Nat}

/-- What is decoded as one type fits another one, and none of its elements is void. -/
def DecodesInto (r : Registry) (t o : DataType) : Prop :=
  ∀ (depth : Nat) (frozen : Bool) (bytes : Bytes) (v : Value),
    decodeWithin r depth t frozen bytes = .ok v →
      v ≠ .null ∧ o.Fits .encodable v ∧ v.Filled ∧ (v.isVoid = true → bytes = [])

theorem decode_nil_of_keepsEmpty (ht : t.leaf?.any Slot.element.keepsEmpty = true)
    (h : decoder r depth t [] = .ok v) : v = .empty := by
  obtain ⟨kind, hk, he⟩ := (Option.any_eq_true _ _).mp ht
  cases of_decide_eq_true he
  cases depth with
  | zero => cases h
  | succ depth =>
    rw [decoder, Value.decodeWithin_leaf (DataType.leaf?_eq_some.mp hk)] at h
    exact (Except.ok.inj h).symm

theorem DecodesInto.element (h : r.DecodesInto t o)
    (hp : ofPayload (decoder r depth) slot t p = .ok v) :
    o.Fits .encodable v ∧ v.Filled ∧ (slot = .element → v.isVoid = false) := by
  have null : o.Fits .encodable .null ∧ Value.Filled .null ∧
      (slot = .element → Value.isVoid .null = false) :=
    ⟨DataType.fits_null _ o, Value.everywhere_null, fun _ => rfl⟩
  match p with
  | none =>
    cases hp
    exact null
  | some [] =>
    simp only [ofPayload] at hp
    split at hp
    next hs =>
      obtain ⟨-, hf, hc, -⟩ := h depth true [] v hp
      refine ⟨hf, hc, ?_⟩
      rintro rfl
      rw [decode_nil_of_keepsEmpty hs hp]
      rfl
    next =>
      cases hp
      exact null
  | some (b :: bytes) =>
    obtain ⟨-, hf, hc, hv⟩ := h depth true (b :: bytes) v hp
    exact ⟨hf, hc, fun _ => Bool.eq_false_iff.mpr fun he => nomatch hv he⟩

theorem DecodesInto.leaf {kind : Kind} (ht : t.shape = .leaf kind) (ho : o.shape = .leaf kind) :
    r.DecodesInto t o := by
  intro depth frozen bytes v h
  cases depth with
  | zero => cases h
  | succ depth =>
    rw [Value.decodeWithin_leaf ht] at h
    obtain ⟨hv, he⟩ := Leaf.encode_of_decode h
    refine ⟨hv.ne_null, ?_, Value.everywhere_of_isLeaf hv.isLeaf, Leaf.decode_isVoid h⟩
    rw [DataType.fits_shape, ho]
    exact .inr ⟨hv, he⟩

theorem DecodesInto.elements (h : r.DecodesInto e f) {ps : List Payload}
    {elements : List (Payload × Value)} (he : decodeElements (decoder r depth) e ps = .ok elements) :
    ∀ x ∈ elements, f.Fits .encodable x.2 ∧ x.2.Filled ∧ x.2.isVoid = false := by
  intro x hx
  obtain ⟨p, -, hp, -⟩ := (Value.decodeElements_eq_ok.mp he).exists_mem_left hx
  obtain ⟨hf, hc, hv⟩ := h.element hp
  exact ⟨hf, hc, hv rfl⟩

theorem DecodesInto.list (ht : t.shape = .list e) (ho : o.shape = .list f)
    (h : r.DecodesInto e f) : r.DecodesInto t o := by
  intro depth frozen bytes v hd
  cases depth with
  | zero => cases hd
  | succ depth =>
    obtain ⟨ps, elements, -, he, rfl⟩ := (Value.decodeWithin_list ht).mp hd
    have items : ∀ x ∈ elements.map Prod.snd, f.Fits .encodable x ∧ x.Filled ∧ x.isVoid = false :=
      List.forall_mem_map.mpr (h.elements he)
    refine ⟨nofun, ?_, Value.everywhere_list.mpr fun x hx => ?_, nofun⟩
    · rw [DataType.fits_shape, ho]
      exact .inr ⟨_, rfl, fun x hx => (items x hx).1⟩
    · exact ⟨fun _ => (items x hx).2.2, (items x hx).2.1⟩

theorem DecodesInto.set (ht : t.shape = .set e) (ho : o.shape = .set f) (_ : r.resolve e = .ok f)
    (h : r.DecodesInto e f) : r.DecodesInto t o := by
  intro depth frozen bytes v hd
  cases depth with
  | zero => cases hd
  | succ depth =>
    obtain ⟨ps, elements, -, he, rfl⟩ := (Value.decodeWithin_set ht).mp hd
    refine ⟨nofun, ?_, Value.everywhere_set.mpr fun x hx => ?_, nofun⟩
    · rw [DataType.fits_shape, ho]
      refine .inr ⟨_, rfl, fun x hx => ?_⟩
      obtain ⟨y, hy, rfl⟩ := List.mem_map.mp hx
      exact (h.elements he y (mem_of_mem_distinctBy hy)).1
    · obtain ⟨y, hy, rfl⟩ := List.mem_map.mp hx
      obtain ⟨-, hc, hv⟩ := h.elements he y (mem_of_mem_distinctBy hy)
      exact ⟨fun _ => hv, hc⟩

theorem DecodesInto.map {w : DataType} (ht : t.shape = .map k e) (ho : o.shape = .map l w)
    (_ : r.resolve k = .ok l) (hk : r.DecodesInto k l) (h : r.DecodesInto e w) :
    r.DecodesInto t o := by
  intro depth frozen bytes v hd
  cases depth with
  | zero => cases hd
  | succ depth =>
    obtain ⟨ps, entries, -, he, rfl⟩ := (Value.decodeWithin_map ht).mp hd
    refine ⟨nofun, ?_, Value.everywhere_map.mpr fun x hx => ?_, nofun⟩
    · rw [DataType.fits_shape, ho]
      refine .inr ⟨_, rfl, trivial, fun x hx => ?_⟩
      obtain ⟨y, hy, rfl⟩ := List.mem_map.mp hx
      obtain ⟨u, -, hp, hq⟩ := Value.exists_of_mem_decodeEntries he (mem_of_mem_distinctBy hy)
      exact ⟨(hk.element hp).1, (h.element hq).1⟩
    · obtain ⟨y, hy, rfl⟩ := List.mem_map.mp hx
      obtain ⟨u, -, hp, hq⟩ := Value.exists_of_mem_decodeEntries he (mem_of_mem_distinctBy hy)
      obtain ⟨-, ck, vk⟩ := hk.element hp
      obtain ⟨-, cw, vw⟩ := h.element hq
      exact ⟨⟨fun _ => vk rfl, ck⟩, ⟨fun _ => vw rfl, cw⟩⟩

theorem DecodesInto.tuple {ts os : List DataType} (ht : t.shape = .tuple ts)
    (ho : o.shape = .tuple os) (h : List.Forall₂ r.DecodesInto ts os) : r.DecodesInto t o := by
  intro depth frozen bytes v hd
  cases depth with
  | zero => cases hd
  | succ depth =>
    obtain ⟨ps, items, -, he, rfl⟩ := (Value.decodeWithin_tuple ht).mp hd
    have each : List.Forall₂ (fun o x => o.Fits .encodable x ∧ x.Filled) os items :=
      (h.flip.comp (Value.decodePositions_forall₂ he)).imp fun o x ⟨t, _, hto, p, hp⟩ =>
        have hx := DecodesInto.element hto hp
        ⟨hx.1, hx.2.1⟩
    refine ⟨nofun, ?_, Value.everywhere_tuple.mpr fun x hx => ?_, nofun⟩
    · rw [DataType.fits_shape, ho]
      have hl := each.length_eq.symm
      exact .inr ⟨items, rfl, hl, (DataType.fitsEach_iff hl).mpr (each.imp fun _ _ h => h.1)⟩
    · obtain ⟨_, -, -, hc⟩ := each.exists_mem_left hx
      exact ⟨fun hne => absurd rfl hne, hc⟩

theorem DecodesInto.udt (hr : r.WellFormed) {declared udt : Udt} {fields : FieldTypes}
    (ht : t.shape = .udt declared) (ho : o.shape = .udt ⟨udt.keyspace, udt.name, fields⟩)
    (hu : r.lookup declared.keyspace declared.name = .ok udt)
    (h : List.Forall₂ (fun f g => f.1 = g.1 ∧ r.DecodesInto f.2 g.2) udt.fields fields) :
    r.DecodesInto t o := by
  intro depth frozen bytes v hd
  cases depth with
  | zero => cases hd
  | succ depth =>
    obtain ⟨start, ps, items, -, -, he, rfl⟩ := (Value.decodeWithin_udt ht hu).mp hd
    have given := (Value.decodePositions_forall₂ he).zip_fst
    have names : udt.fields.map Prod.fst = fields.map Prod.fst := (h.imp fun _ _ h => h.1).map_eq_map
    refine ⟨nofun, ?_, Value.everywhere_record.mpr fun x hx => ?_, nofun⟩
    · rw [DataType.fits_shape, ho]
      refine .inr ⟨_, rfl, ⟨Fields.ofList_canonical _, fun x hx => ?_⟩, ?_⟩
      · obtain ⟨f, hf, hx, -⟩ := given.exists_mem_left (Fields.mem_ofList hx)
        rw [← hx, ← names]
        exact List.mem_map_of_mem hf
      · refine DataType.fitsFields_iff.mpr fun g hg => ?_
        obtain ⟨f, hf, hname, hfg⟩ := h.exists_mem_left hg
        obtain ⟨x, hx, hfx, -⟩ := given.exists_mem_right hf
        have hm := Fields.getD_ofList hx
        obtain ⟨f', hf', hname', p, hp⟩ := given.exists_mem_left hm
        have hff : f' = f := List.inj_on_of_nodup_map (hr.lookup hu) hf' hf (hname'.trans hfx.symm)
        rw [hff, ← hfx, hname] at hp
        exact (hfg.element hp).1
    · obtain ⟨f, hf, -, p, hp⟩ := given.exists_mem_left (Fields.mem_ofList hx)
      obtain ⟨g, -, -, hfg⟩ := h.exists_mem_right hf
      obtain ⟨-, hc, hv⟩ := hfg.element hp
      exact ⟨fun _ => hv rfl, hc⟩

/-- What decodes fits the type that the declared one resolves to. -/
theorem decodesInto (hr : r.WellFormed) (h : r.resolve t = .ok o) : r.DecodesInto t o :=
  resolve_induct .leaf .list .set .map .tuple (.udt hr) h

end Registry

end CqlWire
