import CqlWire.Proofs.Interchange
import CqlWire.Proofs.Separation
import CqlWire.Proofs.Throughout
import CqlWire.Proofs.Typing

namespace CqlWire

open Value (encodeAs encodeElement decodeWithin decoder ofPayload RecordFrames recordStart)

variable {r : Registry} {t o e f k l : DataType} {v : Value} {slot : Slot} {p : Payload}
  {ps : List Payload} {bytes : Bytes} {depth n : Nat}

theorem Frame.Counted.depth_lt (h : Frame.Counted n ps bytes)
    (hd : bytes.length / lengthSize < depth + 1) :
    ∀ p ∈ ps, ∀ body, p = some body → body.length / lengthSize < depth := by
  rintro _ hm body rfl
  have hle := h.length_le hm
  simp only [lengthSize] at hd hle ⊢
  omega

theorem Frame.payloads_depth_lt (h : Frame.payloads ps = .ok bytes)
    (hd : bytes.length / lengthSize < depth + 1) :
    ∀ p ∈ ps, ∀ body, p = some body → body.length / lengthSize < depth := by
  rintro _ hm body rfl
  have hle := Frame.length_le_of_mem_payloads h hm
  simp only [lengthSize] at hd hle ⊢
  omega

theorem Value.RecordFrames.depth_lt {counted : Bool} (h : RecordFrames counted n ps bytes)
    (hd : bytes.length / lengthSize < depth + 1) :
    ∀ p ∈ ps, ∀ body, p = some body → body.length / lengthSize < depth := by
  cases counted with
  | false => exact Frame.payloads_depth_lt h hd
  | true => exact Frame.Counted.depth_lt h hd

/-- The frames of a record are read back, whether their number stands before them or not. -/
theorem Value.RecordFrames.read {counted : Bool} {udt : Udt}
    (h : RecordFrames counted udt.fields.length ps bytes) (hl : ps.length = udt.fields.length) :
    ∃ start, recordStart counted udt bytes = .ok start ∧
      Frame.read udt.fields.length start = (ps, .clean) := by
  cases counted with
  | false => exact ⟨.ofBytes bytes, rfl, hl ▸ Frame.read_payloads _ h⟩
  | true =>
    obtain ⟨head, body, hc, hb, rfl⟩ := h
    have hcount := Reading.count_append 0 body hc
    have hlen : Cursor.hasLength (.ofBytes (head ++ body)) = true := by
      obtain ⟨-, rfl⟩ := Frame.count_eq_ok.mp hc
      simp [Cursor.hasLength, Cursor.remaining, Cursor.ofBytes]
    refine ⟨⟨0 + lengthSize, body⟩, ?_, hl ▸ Frame.read_payloads _ hb⟩
    simp only [recordStart, if_true, Value.skipFieldCount, hlen]
    rw [Cursor.ofBytes, hcount]
    simp only [if_true]

namespace Registry

/-- A payload is read as a value that it encodes. -/
def ReadsBack (r : Registry) (depth : Nat) (slot : Slot) (t : DataType) (p : Payload) (w : Value) :
    Prop :=
  ofPayload (decoder r depth) slot t p = .ok w ∧ encodeElement r t w = .ok p

/-- What encodes the values of a type is decoded into a value with the same encoding, and is empty
for empty values only. -/
structure RoundTrips (r : Registry) (t o : DataType) : Prop where
  nil : ∀ v, o.Populated → o.Fits .exact v → encodeAs r v t true = .ok [] →
    ∃ kind, t.shape = .leaf kind ∧ kind.allowsEmpty = true ∧ (kind = .empty ∨ v.isVoid = true)
  decodes : ∀ (depth : Nat) (frozen : Bool) (v : Value) (bytes : Bytes), o.PopulatedBelow →
    o.Fits .exact v → v.Settled → v.Filled → encodeAs r v t frozen = .ok bytes →
    bytes.length / lengthSize < depth + 1 →
    ∃ w, decodeWithin r (depth + 1) t frozen bytes = .ok w ∧ encodeAs r w t frozen = .ok bytes

theorem RoundTrips.element (h : r.RoundTrips t o) (hp : o.Populated) (hv : o.Fits .exact v)
    (hs : v.Settled) (hf : v.Filled) (hslot : slot = .element → v.isVoid = false)
    (he : encodeElement r t v = .ok p)
    (hd : ∀ bytes, p = some bytes → bytes.length / lengthSize < depth) :
    ∃ w, r.ReadsBack depth slot t p w := by
  by_cases hn : v = .null
  · subst hn
    cases he
    exact ⟨.null, rfl, rfl⟩
  · obtain ⟨bytes, hb, rfl⟩ := (Value.encodeElement_of_ne_null hn).mp he
    obtain ⟨depth, rfl⟩ := Nat.exists_eq_add_one_of_ne_zero (Nat.ne_zero_of_lt (hd bytes rfl))
    obtain ⟨w, hw, hwb⟩ := h.decodes depth true v bytes hp.populatedBelow hv hs hf hb (hd bytes rfl)
    refine ⟨w, ?_, (Value.encodeElement_of_ne_null (Value.ne_null_of_encodeAs hwb)).mpr ⟨bytes, hwb, rfl⟩⟩
    by_cases hnil : bytes = []
    · subst hnil
      obtain ⟨kind, hk, hempty, hvoid⟩ := h.nil v hp hv hb
      have hkeeps : t.leaf?.any slot.keepsEmpty = true := by
        rw [DataType.leaf?_eq_some.mpr hk, Option.any_some]
        cases slot with
        | position => exact hempty
        | element =>
          rw [hslot rfl] at hvoid
          exact decide_eq_true (hvoid.resolve_right nofun)
      rw [ofPayload, if_pos hkeeps]
      exact hw
    · rw [Value.ofPayload_of_ne_nil hnil]
      exact hw

theorem wireKey_of_readsBack {w : Value} (h : r.ReadsBack depth slot t p w) :
    Value.wireKey p w = p := by
  rw [Value.wireKey]
  split
  next hn =>
    have he := h.2
    rw [Value.isNull_iff.mp hn, Value.encodeElement_null] at he
    exact Except.ok.inj he
  next => rfl

theorem decodeElements_of_readsBack {cs : List (Value × Payload)}
    (h : ∀ c ∈ cs, r.ReadsBack depth .element e c.2 c.1) :
    Value.decodeElements (decoder r depth) e (cs.map Prod.snd) = .ok (cs.map Prod.swap) := by
  rw [Value.decodeElements_eq_ok, List.forall₂_map_left_iff, List.forall₂_map_right_iff,
    List.forall₂_same]
  exact fun c hc => ⟨(h c hc).1, rfl⟩

section Keys

variable {β : Type} {key : β → Value × Payload} {cs : List β}

theorem keysEncoded_of_readsBack (hr : r.WellFormed) (ht : r.resolve t = .ok o)
    (h : ∀ c ∈ cs, r.ReadsBack depth slot t (key c).2 (key c).1) : r.KeysEncoded t o .exact key cs :=
  fun c hm => ⟨((decodesInto hr ht).element (h c hm).1).1.mono Strictness.encodable_implies_exact,
    (h c hm).2⟩

/-- What is read back at distinct encodings is kept as it is. -/
theorem distinctBy_of_readsBack {γ : Type} {f : β → γ} {tag : γ → Payload} (key : β → Value × Payload)
    (htag : ∀ c, tag (f c) = Value.wireKey (key c).2 (key c).1)
    (h : ∀ c ∈ cs, r.ReadsBack depth slot t (key c).2 (key c).1)
    (hne : cs.Pairwise fun c d => (key c).2 ≠ (key d).2) :
    distinctBy tag [] (cs.map f) = cs.map f := by
  refine distinctBy_eq_self (List.pairwise_map.mpr (hne.imp_of_mem fun mc md hcd => ?_))
  rw [htag, htag, wireKey_of_readsBack (h _ mc), wireKey_of_readsBack (h _ md)]
  exact hcd

end Keys

theorem RoundTrips.leaf {kind : Kind} (ht : t.shape = .leaf kind) (ho : o.shape = .leaf kind) :
    r.RoundTrips t o where
  nil v _ hv he := by
    rw [DataType.fits_shape, ho] at hv
    have hk := hv.resolve_left (Value.ne_null_of_encodeAs he)
    rw [Value.encodeAs_leaf ht] at he
    exact ⟨kind, ht, Leaf.encode_eq_nil hk he⟩
  decodes depth frozen v bytes _ hv _ _ he _ := by
    rw [DataType.fits_shape, ho] at hv
    have hk := hv.resolve_left (Value.ne_null_of_encodeAs he)
    refine ⟨v, ?_, he⟩
    rw [Value.encodeAs_leaf ht] at he
    rw [Value.decodeWithin_leaf ht]
    exact Leaf.decode_encode hk he

theorem RoundTrips.list (ht : t.shape = .list e) (ho : o.shape = .list f)
    (h : r.RoundTrips e f) : r.RoundTrips t o where
  nil v _ _ he := by
    obtain ⟨_, _, -, -, hc⟩ := (Value.encodeAs_list ht).mp he
    exact absurd rfl hc.ne_nil
  decodes depth frozen v bytes hp hv hs hf he hd := by
    obtain ⟨items, ps, rfl, hps, hc⟩ := (Value.encodeAs_list ht).mp he
    rw [DataType.fits_shape, ho] at hv
    obtain ⟨_, ⟨⟩, fits⟩ := hv.resolve_left nofun
    have settled := Value.everywhere_list.mp hs
    have filled := Value.everywhere_list.mp hf
    have each : ∀ p ∈ ps, ∃ c : Value × Payload, c.2 = p ∧ r.ReadsBack depth .element e c.2 c.1 := by
      intro p hm
      obtain ⟨x, hx, hxp⟩ := hps.exists_mem_left hm
      obtain ⟨w, hw⟩ := h.element (hp.of_shape ho (by simp [Shape.toType, DataType.children])) (fits x hx)
        (settled x hx).2 (filled x hx).2 (fun _ => (filled x hx).1 nofun) hxp (hc.depth_lt hd p hm)
      exact ⟨(w, p), rfl, hw⟩
    obtain ⟨cs, rfl, hcs⟩ := List.exists_map_eq each
    refine ⟨.list (cs.map Prod.fst), (Value.decodeWithin_list ht).mpr
      ⟨cs.map Prod.snd, cs.map Prod.swap, ?_, ?_, ?_⟩, (Value.encodeAs_list ht).mpr ⟨_, cs.map Prod.snd, rfl, ?_, ?_⟩⟩
    · exact Value.countedFrames_eq hc (hps.length_eq.symm.trans (Nat.mul_one _).symm)
    · exact decodeElements_of_readsBack hcs
    · rw [List.map_map]
      rfl
    · rw [List.forall₂_map_left_iff, List.forall₂_map_right_iff, List.forall₂_same]
      exact fun c hm => (hcs c hm).2
    · rw [List.length_map, ← List.length_map Prod.snd, ← hps.length_eq]
      exact hc

theorem RoundTrips.set (hr : r.WellFormed) (ht : t.shape = .set e) (ho : o.shape = .set f)
    (hef : r.resolve e = .ok f) (h : r.RoundTrips e f) : r.RoundTrips t o where
  nil v _ _ he := by
    obtain ⟨_, _, -, -, hc⟩ := (Value.encodeAs_set ht hef).mp he
    exact absurd rfl hc.ne_nil
  decodes depth frozen v bytes hp hv hs hf he hd := by
    obtain ⟨items, us, rfl, hus, hc⟩ := (Value.encodeAs_set ht hef).mp he
    rw [DataType.fits_shape, ho] at hv
    obtain ⟨_, ⟨⟩, fits⟩ := hv.resolve_left nofun
    have settled := Value.everywhere_set.mp hs
    have filled := Value.everywhere_set.mp hf
    have mus : ∀ u ∈ us, u.1 ∈ items ∧ encodeElement r e u.1 = .ok u.2 := fun u hu => by
      obtain ⟨_, hx, rfl, hxp⟩ := hus.exists_mem_left hu
      exact ⟨hx, hxp⟩
    have ku : r.KeysEncoded e f .steady id us := fun u hu =>
      have hx := (mus u hu).1
      ⟨(fits _ hx).steady (settled _ hx).2, (mus u hu).2⟩
    have each : ∀ p ∈ (Value.writtenElements f us).map Prod.snd,
        ∃ c : Value × Payload, c.2 = p ∧ r.ReadsBack depth .element e c.2 c.1 := by
      intro p hm
      obtain ⟨u, hu, rfl⟩ := List.mem_map.mp hm
      obtain ⟨hx, hxp⟩ := mus u (Value.mem_of_mem_written hu)
      obtain ⟨w, hw⟩ := h.element (hp.of_shape ho (by simp [Shape.toType, DataType.children])) (fits _ hx)
        (settled _ hx).2 (filled _ hx).2 (fun _ => (filled _ hx).1 nofun) hxp (hc.depth_lt hd _ hm)
      exact ⟨(w, u.2), rfl, hw⟩
    obtain ⟨cs, hps, hcs⟩ := List.exists_map_eq each
    have kc : r.KeysEncoded e f .exact id cs := keysEncoded_of_readsBack hr hef hcs
    obtain ⟨hself, hne⟩ := (interchanges hef).written_eq_self ku kc (.of_map_eq_map hps.symm)
    have hlen : cs.length = (Value.writtenElements f us).length := by
      rw [← List.length_map Prod.snd, hps, List.length_map]
    rw [← hps, ← hlen] at hc
    refine ⟨.set (cs.map Prod.fst), (Value.decodeWithin_set ht).mpr
      ⟨cs.map Prod.snd, cs.map Prod.swap, ?_, ?_, ?_⟩, (Value.encodeAs_set ht hef).mpr ⟨_, cs, rfl, ?_, ?_⟩⟩
    · exact Value.countedFrames_eq hc (by simp)
    · exact decodeElements_of_readsBack hcs
    · rw [distinctBy_of_readsBack id (fun _ => rfl) hcs hne, List.map_map]
      rfl
    · rw [List.forall₂_map_left_iff, List.forall₂_same]
      exact fun c hm => ⟨rfl, (hcs c hm).2⟩
    · rw [Value.writtenElements_eq, hself]
      exact hc

theorem RoundTrips.map {w : DataType} (hr : r.WellFormed) (ht : t.shape = .map k e)
    (ho : o.shape = .map l w) (hkl : r.resolve k = .ok l) (hk : r.RoundTrips k l)
    (h : r.RoundTrips e w) : r.RoundTrips t o where
  nil v _ _ he := by
    obtain ⟨_, _, -, -, hc⟩ := (Value.encodeAs_map ht hkl).mp he
    exact absurd rfl hc.ne_nil
  decodes depth frozen v bytes hp hv hs hf he hd := by
    obtain ⟨entries, us, rfl, hus, hc⟩ := (Value.encodeAs_map ht hkl).mp he
    rw [DataType.fits_shape, ho] at hv
    obtain ⟨_, ⟨⟩, -, fits⟩ := hv.resolve_left (Value.ne_null_of_encodeAs he)
    have settled := Value.everywhere_map.mp hs
    have filled := Value.everywhere_map.mp hf
    have ku : r.KeysEncoded k l .steady Prod.fst us := EntriesEncoded.keys hus fun x mx =>
      (fits x mx).1.steady (settled x mx).1.2
    have each : ∀ q ∈ (Value.writtenEntries l us).map Value.entryPayload,
        ∃ c : (Value × Payload) × (Value × Payload), (c.1.2, c.2.2) = q ∧
          r.ReadsBack depth .element k c.1.2 c.1.1 ∧ r.ReadsBack depth .element e c.2.2 c.2.1 := by
      intro q hm
      obtain ⟨u, hu, rfl⟩ := List.mem_map.mp hm
      obtain ⟨x, hx, -, hkey, hvalue⟩ := hus.exists_mem_left (Value.mem_of_mem_written hu)
      have shallow : ∀ p ∈ [u.1.2, u.2], ∀ body, p = some body → body.length / lengthSize < depth :=
        fun p hm => hc.depth_lt hd p (List.mem_flatMap.mpr ⟨u, hu, hm⟩)
      obtain ⟨a, ha⟩ := hk.element (hp.of_shape ho (by simp [Shape.toType, DataType.children]))
        (fits x hx).1 (settled x hx).1.2 (filled x hx).1.2 (fun _ => (filled x hx).1.1 (by decide)) hkey
        (shallow _ (by simp))
      obtain ⟨b, hb⟩ := h.element (hp.of_shape ho (by simp [Shape.toType, DataType.children]))
        (fits x hx).2 (settled x hx).2.2 (filled x hx).2.2 (fun _ => (filled x hx).2.1 (by decide)) hvalue
        (shallow _ (by simp))
      exact ⟨((a, u.1.2), (b, u.2)), rfl, ha, hb⟩
    obtain ⟨cs, hps, hcs⟩ := List.exists_map_eq each
    let encoded (c : (Value × Payload) × (Value × Payload)) := (c.1, c.2.2)
    have kc : r.KeysEncoded k l .exact Prod.fst (cs.map encoded) :=
      keysEncoded_of_readsBack hr hkl (List.forall_mem_map.mpr fun c hm => (hcs c hm).1)
    have hpairs : (Value.writtenEntries l us).map Value.entryPayload =
        (cs.map encoded).map Value.entryPayload := by
      rw [← hps, List.map_map]
      rfl
    obtain ⟨hself, hne⟩ := (interchanges hkl).written_eq_self ku kc
      ((List.Forall₂.of_map_eq_map hpairs).imp fun _ _ h => congrArg Prod.fst h)
    have hlen : (Value.writtenEntries l us).length = (cs.map encoded).length := by
      simpa using congrArg List.length hpairs
    rw [Value.flatMap_entryPayload_inj.mpr hpairs, hlen] at hc
    refine ⟨.map (cs.map fun c => (c.1.1, c.2.1)), (Value.decodeWithin_map ht).mpr
      ⟨(cs.map encoded).flatMap fun v => [v.1.2, v.2], cs.map fun c => (c.1.2, c.1.1, c.2.1), ?_, ?_, ?_⟩,
      (Value.encodeAs_map ht hkl).mpr ⟨_, cs.map encoded, rfl, ?_, ?_⟩⟩
    · exact Value.countedFrames_eq hc (by simp [Function.comp_def])
    · have hread : List.Forall₂ (Value.ReadsEntry (decoder r depth) k e)
          (cs.map fun c => (c.1.2, c.2.2)) (cs.map fun c => (c.1.2, c.1.1, c.2.1)) := by
        rw [List.forall₂_map_left_iff, List.forall₂_map_right_iff, List.forall₂_same]
        exact fun c hm => ⟨rfl, (hcs c hm).1.1, (hcs c hm).2.1⟩
      have hdecode := Value.decodeEntries_of_forall₂ hread
      rw [List.flatMap_map] at hdecode ⊢
      exact hdecode
    · have distinct := List.pairwise_map.mp hne
      rw [distinctBy_of_readsBack Prod.fst ?_ (fun c hm => (hcs c hm).1) distinct, List.map_map]
      · rfl
      · exact fun _ => rfl
    · rw [List.forall₂_map_left_iff, List.forall₂_map_right_iff, List.forall₂_same]
      exact fun c hm => ⟨rfl, (hcs c hm).1.2, (hcs c hm).2.2⟩
    · rw [Value.writtenEntries_eq, hself]
      exact hc

/-- The payloads of positions are read back one by one. -/
theorem exists_readsBack_of_positions {ts os : List DataType} (h : List.Forall₂ r.RoundTrips ts os)
    {items : List Value} (hp : ∀ o ∈ os, o.Populated) (hv : DataType.FitsEach .exact os items)
    (hl : items.length = ts.length) (hs : ∀ x ∈ items, x.Settled) (hf : ∀ x ∈ items, x.Filled)
    (hps : List.Forall₂ (fun z p => encodeElement r z.1 z.2 = .ok p) (ts.zip items) ps)
    (hd : ∀ p ∈ ps, ∀ body, p = some body → body.length / lengthSize < depth) :
    List.Forall₂ (fun t p => ∃ w, r.ReadsBack depth .position t p w) ts ps := by
  induction h generalizing items ps with
  | nil =>
    cases hps
    exact .nil
  | cons hto _ ih =>
    obtain ⟨v, items, rfl⟩ := List.exists_cons_of_length_eq_add_one hl
    cases hps with
    | cons hvp hps =>
      refine .cons ?_ (ih (fun o ho => hp o (by simp [ho])) hv.2 (by simpa using hl)
        (fun x hx => hs x (List.mem_cons_of_mem v hx))
        (fun x hx => hf x (List.mem_cons_of_mem v hx)) hps
        fun p hm => hd p (by simp [hm]))
      exact hto.element (hp _ (by simp)) hv.1 (hs v (by simp)) (hf v (by simp)) nofun hvp
        (hd _ (by simp))

theorem RoundTrips.tuple {ts os : List DataType} (ht : t.shape = .tuple ts)
    (ho : o.shape = .tuple os) (h : List.Forall₂ r.RoundTrips ts os) : r.RoundTrips t o where
  nil v hp hv he := by
    rw [DataType.fits_shape, ho] at hv
    obtain ⟨_, rfl, hl, -⟩ := hv.resolve_left (Value.ne_null_of_encodeAs he)
    replace hl := hl.trans h.length_eq.symm
    obtain ⟨ps, hps, hb⟩ := (Value.encodeAs_tuple ht hl).mp he
    refine absurd rfl (Frame.payloads_ne_nil hb fun hnil => hp.shape_ne_tuple ?_)
    have hz := hps.length_eq
    rw [hnil, List.length_zip, hl, Nat.min_self, h.length_eq] at hz
    rw [ho, List.length_eq_zero_iff.mp hz]
  decodes depth frozen v bytes hp hv hs hf he hd := by
    obtain ⟨items, rfl⟩ := Value.exists_of_encodeAs_tuple ht he
    rw [DataType.fits_shape, ho] at hv
    obtain ⟨_, ⟨⟩, hl, fits⟩ := hv.resolve_left nofun
    replace hl : items.length = ts.length := hl.trans h.length_eq.symm
    obtain ⟨ps, hps, hb⟩ := (Value.encodeAs_tuple ht hl).mp he
    have each := exists_readsBack_of_positions h (fun o hm => hp.of_shape ho hm) fits hl
      (fun x hx => (Value.everywhere_tuple.mp hs x hx).2)
      (fun x hx => (Value.everywhere_tuple.mp hf x hx).2) hps (Frame.payloads_depth_lt hb hd)
    obtain ⟨ws, hws, hread⟩ := each.exists_zip
    have hn : ps.length = ts.length := by rw [← each.length_eq]
    refine ⟨.tuple ws, (Value.decodeWithin_tuple ht).mpr ⟨ps, ws, ?_, ?_, rfl⟩,
      (Value.encodeAs_tuple ht hws).mpr ⟨ps, hread.imp fun _ _ h => h.2, hb⟩⟩
    · rw [← hn, Cursor.ofBytes, Frame.read_payloads _ hb]
    · exact Value.decodePositions_of_forall₂ hws (hread.imp fun _ _ h => h.1)

theorem RoundTrips.udt (hr : r.WellFormed) {declared udt : Udt} {fields : FieldTypes}
    (ht : t.shape = .udt declared) (ho : o.shape = .udt ⟨udt.keyspace, udt.name, fields⟩)
    (hu : r.lookup declared.keyspace declared.name = .ok udt)
    (h : List.Forall₂ (fun f g => f.1 = g.1 ∧ r.RoundTrips f.2 g.2) udt.fields fields) :
    r.RoundTrips t o where
  nil v hp _ he := by
    obtain ⟨_, ps, -, -, hps, hb⟩ := (Value.encodeAs_udt ht hu).mp he
    rw [RecordFrames, Bool.true_or] at hb
    refine absurd rfl (Frame.payloads_ne_nil hb fun hnil => hp.shape_ne_udt udt.keyspace udt.name ?_)
    rw [hnil, List.forall₂_nil_right_iff] at hps
    rw [hps, List.forall₂_nil_left_iff] at h
    rw [ho, h]
  decodes depth frozen v bytes hp hv hs hf he hd := by
    obtain ⟨values, ps, rfl, hknown, hps, hb⟩ := (Value.encodeAs_udt ht hu).mp he
    rw [DataType.fits_shape, ho] at hv
    obtain ⟨_, ⟨⟩, -, fits⟩ := hv.resolve_left (Value.ne_null_of_encodeAs he)
    have settled := Value.everywhere_record.mp hs
    have filled := Value.everywhere_record.mp hf
    have each : List.Forall₂ (fun f p => ∃ w, r.ReadsBack depth .element f.2 p w) udt.fields ps :=
      hps.imp_mem fun f hm p hpm hfp => by
        obtain ⟨g, hg, hname, hfg⟩ := h.exists_mem_right hm
        have hfits := DataType.fitsFields_iff.mp fits g hg
        rw [← hname] at hfits
        exact hfg.element (hp.of_shape ho (List.mem_map_of_mem hg)) hfits
          (Fields.getD_of_forall Value.everywhere_null (fun x hx => (settled x hx).2) f.1)
          (Fields.getD_of_forall Value.everywhere_null (fun x hx => (filled x hx).2) f.1)
          (fun _ => Fields.getD_of_forall (P := fun v => v.isVoid = false) rfl
            (fun x hx => (filled x hx).1 (by decide)) f.1) hfp
          (hb.depth_lt hd p hpm)
    obtain ⟨ws, hws, hread⟩ := each.exists_zip
    obtain ⟨start, hstart, hframes⟩ := hb.read hps.length_eq.symm
    have names : ((udt.fields.map Prod.fst).zip ws).map Prod.fst = udt.fields.map Prod.fst :=
      List.map_fst_zip (by rw [List.length_map, hws])
    have hnodup : (((udt.fields.map Prod.fst).zip ws).map Prod.fst).Nodup := by
      rw [names]
      exact hr.lookup hu
    refine ⟨.record (Fields.ofList ((udt.fields.map Prod.fst).zip ws)),
      (Value.decodeWithin_udt ht hu).mpr ⟨start, ps, ws, hstart, hframes, ?_, rfl⟩,
      (Value.encodeAs_udt ht hu).mpr ⟨_, ps, rfl, fun f hm => ?_, ?_, hb⟩⟩
    · refine Value.decodePositions_of_forall₂ (by rw [List.length_map, hws]) ?_
      rw [List.zip_map_left, List.forall₂_map_left_iff]
      exact hread.imp fun _ _ h => h.1
    · rw [← names]
      exact List.mem_map_of_mem (Fields.mem_ofList hm)
    · have hself : List.Forall₂ (fun f p => encodeElement r f.2 ((Fields.ofList
          ((udt.fields.map Prod.fst).zip ws)).getD f.1) = .ok p) ((udt.fields.zip ws).map Prod.fst) ps := by
        refine List.forall₂_map_left_iff.mpr (hread.imp_mem fun x hm p _ hx => ?_)
        have hmem : (x.1.1, x.2) ∈ (udt.fields.map Prod.fst).zip ws := by
          rw [List.zip_map_left]
          exact List.mem_map_of_mem (f := Prod.map Prod.fst id) hm
        rw [Fields.getD_ofList_of_nodup hnodup hmem]
        exact hx.2
      rw [List.map_fst_zip hws.ge] at hself
      exact hself

/-- Encodings are decoded into values with the same encoding. -/
theorem roundTrips (hr : r.WellFormed) (h : r.resolve t = .ok o) : r.RoundTrips t o :=
  resolve_induct .leaf .list (.set hr) (.map hr) .tuple (.udt hr) h

end Registry

namespace Value

/-- What is encoded is decoded again, as an equal value with the same encoding. -/
theorem exists_decode_of_encode (hr : r.WellFormed) (h : r.resolve t = .ok o) (hp : o.PopulatedBelow)
    (hv : o.Fits .exact v) (hs : v.Settled) (hf : v.Filled) {nested : Bool}
    (he : encode r t v nested = .ok bytes) :
    ∃ w, decode r t bytes nested = .ok w ∧ same w v = true ∧ encode r t w nested = .ok bytes := by
  obtain ⟨-, he⟩ := encode_eq_ok.mp he
  obtain ⟨w, hd, hw⟩ := (Registry.roundTrips hr h).decodes _ nested v bytes hp hv hs hf he
    (Nat.lt_succ_self _)
  obtain ⟨hn, hfits, -, -⟩ := Registry.decodesInto hr h _ nested bytes w hd
  have hsame := Registry.interchanges h nested v w bytes bytes (hv.steady hs)
    (hfits.mono Strictness.encodable_implies_exact) he hw
  exact ⟨w, hd, same_symm (hsame.mpr rfl), encode_eq_ok.mpr ⟨hn, hw⟩⟩

/-- Decoding gives back what was encoded. -/
theorem same_of_decode_encode (hr : r.WellFormed) (h : r.resolve t = .ok o) (hp : o.PopulatedBelow)
    (hv : o.Fits .exact v) (hs : v.Settled) (hf : v.Filled) {nested : Bool}
    (he : encode r t v nested = .ok bytes) :
    ∃ w, decode r t bytes nested = .ok w ∧ same w v = true := by
  obtain ⟨w, hd, hsame, -⟩ := exists_decode_of_encode hr h hp hv hs hf he
  exact ⟨w, hd, hsame⟩

theorem same_of_decode_encode_repeated_key :
    let fields : FieldTypes := [("a", .set (.leaf .int)), ("b", .leaf .text)]
    let r : Registry := ⟨[⟨"k", "p", fields⟩]⟩
    let t : DataType := .map (.leaf .int) (.udt "k" "p" [])
    let o : DataType := .map (.leaf .int) (.udt "k" "p" fields)
    let v : Value := .map [(.int 2, .record [("a", .set [.int 3, .int 1, .int 3])]), (.int 1, .null),
      (.int 2, .null)]
    let bytes : Bytes := [0, 0, 0, 2, 0, 0, 0, 4, 0, 0, 0, 1, 255, 255, 255, 255, 0, 0, 0, 4, 0, 0, 0, 2,
      0, 0, 0, 28, 0, 0, 0, 20, 0, 0, 0, 2, 0, 0, 0, 4, 0, 0, 0, 1, 0, 0, 0, 4, 0, 0, 0, 3,
      255, 255, 255, 255]
    (r.WellFormed ∧ r.resolve t = .ok o ∧ o.PopulatedBelow ∧ o.Fits .exact v ∧ v.Settled ∧ v.Filled ∧
      encode r t v false = .ok bytes) ∧ ∃ w, decode r t bytes false = .ok w ∧ same w v = true := by
  intro fields r t o v bytes
  have hr : r.WellFormed := by
    simp [r, fields, Registry.WellFormed, Udt.HasDistinctNames]
  have ho : r.resolve t = .ok o := rfl
  have hp : o.PopulatedBelow := by
    simp [DataType.PopulatedBelow, DataType.Populated, DataType.base, DataType.children, o, fields]
  have int (n : Int32) : (DataType.leaf .int).Fits .exact (.int n) := .inr ⟨n, rfl⟩
  have set : (DataType.set (.leaf .int)).Fits .exact (.set [.int 3, .int 1, .int 3]) :=
    .inr ⟨_, rfl, by simp [int]⟩
  have record : (DataType.udt "k" "p" fields).Fits .exact
      (.record [("a", .set [.int 3, .int 1, .int 3])]) := by
    refine .inr ⟨_, rfl, ⟨⟨by simp, by simp⟩, by simp [fields]⟩, DataType.fitsFields_iff.mpr ?_⟩
    simp [fields, Fields.getD_cons, Fields.getD_of_not_mem, set]
  have hv : o.Fits .exact v := .inr ⟨_, rfl, trivial, by simp [int, record]⟩
  have hs : v.Settled := by simp [v, Settled, Solid, everywhere_iff (v := .int _), contents]
  have hf : v.Filled := by simp [v, Filled, isVoid, everywhere_iff (v := .int _), contents]
  have he : encode r t v false = .ok bytes := rfl
  exact ⟨⟨hr, ho, hp, hv, hs, hf, he⟩, same_of_decode_encode hr ho hp hv hs hf he⟩

end Value

end CqlWire
