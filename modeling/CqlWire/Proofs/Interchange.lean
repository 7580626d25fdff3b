import CqlWire.Proofs.Encoding
import CqlWire.Proofs.LeafCodec
import CqlWire.Proofs.Writing

namespace CqlWire

open Value (same encodeAs encodeElement)

variable {r : Registry} {t o e f k l : DataType} {a b v : Value} {p q : Payload} {x y : Bytes}
  {frozen : Bool}

theorem Value.ne_null_of_encodeAs (h : encodeAs r v t frozen = .ok x) : v ≠ .null := by
  rintro rfl
  simp only [encodeAs] at h
  split at h
  next kind _ => cases kind <;> cases h
  next => cases h

namespace Registry

/-- Values of a type are equal exactly when their encodings are. -/
def Interchanges (r : Registry) (t o : DataType) : Prop :=
  ∀ (frozen : Bool) (a b : Value) (x y : Bytes), o.Fits .steady a → o.Fits .exact b →
    encodeAs r a t frozen = .ok x → encodeAs r b t frozen = .ok y → (same a b = true ↔ x = y)

theorem Interchanges.element (h : r.Interchanges t o) (ha : o.Fits .steady a)
    (hb : o.Fits .exact b) (hp : encodeElement r t a = .ok p) (hq : encodeElement r t b = .ok q) :
    same a b = true ↔ p = q := by
  by_cases na : a = .null
  · subst na
    cases hp
    by_cases nb : b = .null
    · subst nb
      cases hq
      simp
    · obtain ⟨y, -, rfl⟩ := (Value.encodeElement_of_ne_null nb).mp hq
      simp [Value.same_iff_of_isLeaf (a := .null) trivial, Ne.symm nb]
  · obtain ⟨x, hx, rfl⟩ := (Value.encodeElement_of_ne_null na).mp hp
    by_cases nb : b = .null
    · subst nb
      cases hq
      simp [Value.same_null_right, na]
    · obtain ⟨y, hy, rfl⟩ := (Value.encodeElement_of_ne_null nb).mp hq
      rw [h true a b x y ha hb hx hy, Option.some.injEq]

theorem Interchanges.leaf {kind : Kind} (ht : t.shape = .leaf kind) (ho : o.shape = .leaf kind) :
    r.Interchanges t o := by
  intro frozen a b x y ha hb hx hy
  have na := Value.ne_null_of_encodeAs hx
  have nb := Value.ne_null_of_encodeAs hy
  rw [DataType.fits_shape, ho] at ha hb
  have la : kind.Holds a := ha.resolve_left na
  have lb : kind.Holds b := hb.resolve_left nb
  rw [Value.encodeAs_leaf ht] at hx hy
  rw [Value.same_iff_of_isLeaf la.isLeaf]
  constructor
  · rintro rfl
    exact Except.ok.inj (hx.symm.trans hy)
  · rintro rfl
    exact Leaf.encode_injective la lb hx hy

theorem Interchanges.list (ht : t.shape = .list e) (ho : o.shape = .list f)
    (h : r.Interchanges e f) : r.Interchanges t o := by
  intro frozen a b x y ha hb hx hy
  obtain ⟨xs, ps, rfl, hps, hx⟩ := (Value.encodeAs_list ht).mp hx
  obtain ⟨ys, qs, rfl, hqs, hy⟩ := (Value.encodeAs_list ht).mp hy
  rw [DataType.fits_shape, ho] at ha hb
  obtain ⟨_, ⟨⟩, fx⟩ := ha.resolve_left nofun
  obtain ⟨_, ⟨⟩, fy⟩ := hb.resolve_left nofun
  have items := hps.iff_eq hqs (T := fun a b => same a b = true) fun a ha b hb p q hp hq =>
    h.element (fx a ha) (fy b hb) hp hq
  have hn := hps.length_eq.symm.trans (Nat.mul_one _).symm
  have hm := hqs.length_eq.symm.trans (Nat.mul_one _).symm
  rw [Value.same_list_iff, items, hx.eq_iff hy Nat.one_pos hn hm]

/-- Tuples with an item at each position are equal exactly when the payloads of the items are. -/
theorem forall₂_iff_of_positions {ts os : List DataType} (h : List.Forall₂ r.Interchanges ts os)
    {xs ys : List Value} {ps qs : List Payload} (hx : DataType.FitsEach .steady os xs)
    (hy : DataType.FitsEach .exact os ys) (lx : xs.length = ts.length) (ly : ys.length = ts.length)
    (hps : List.Forall₂ (fun z p => encodeElement r z.1 z.2 = .ok p) (ts.zip xs) ps)
    (hqs : List.Forall₂ (fun z p => encodeElement r z.1 z.2 = .ok p) (ts.zip ys) qs) :
    List.Forall₂ (fun a b => same a b = true) xs ys ↔ ps = qs := by
  induction h generalizing xs ys ps qs with
  | nil =>
    rw [List.length_eq_zero_iff.mp lx, List.length_eq_zero_iff.mp ly]
    cases hps
    cases hqs
    simp
  | cons hto _ ih =>
    obtain ⟨a, xs, rfl⟩ := List.exists_cons_of_length_eq_add_one lx
    obtain ⟨b, ys, rfl⟩ := List.exists_cons_of_length_eq_add_one ly
    cases hps with
    | cons hp hps =>
      cases hqs with
      | cons hq hqs =>
        have head : same a b = true ↔ _ := hto.element hx.1 hy.1 hp hq
        have tail : List.Forall₂ _ xs ys ↔ _ :=
          ih hx.2 hy.2 (by simpa using lx) (by simpa using ly) hps hqs
        rw [List.forall₂_cons, List.cons.injEq, head, tail]

theorem Interchanges.tuple {ts os : List DataType} (ht : t.shape = .tuple ts)
    (ho : o.shape = .tuple os) (h : List.Forall₂ r.Interchanges ts os) : r.Interchanges t o := by
  intro frozen a b x y ha hb hx hy
  obtain ⟨xs, rfl⟩ := Value.exists_of_encodeAs_tuple ht hx
  obtain ⟨ys, rfl⟩ := Value.exists_of_encodeAs_tuple ht hy
  rw [DataType.fits_shape, ho] at ha hb
  obtain ⟨_, ⟨⟩, lx, fx⟩ := ha.resolve_left nofun
  obtain ⟨_, ⟨⟩, ly, fy⟩ := hb.resolve_left nofun
  replace lx : xs.length = ts.length := lx.trans h.length_eq.symm
  replace ly : ys.length = ts.length := ly.trans h.length_eq.symm
  obtain ⟨ps, hps, hx⟩ := (Value.encodeAs_tuple ht lx).mp hx
  obtain ⟨qs, hqs, hy⟩ := (Value.encodeAs_tuple ht ly).mp hy
  have hl : ps.length = qs.length := by
    rw [← hps.length_eq, ← hqs.length_eq, List.length_zip, List.length_zip, lx, ly]
  rw [Value.same_tuple_iff, forall₂_iff_of_positions h fx fy lx ly hps hqs,
    Frame.payloads_eq_iff hx hy hl]

theorem Interchanges.udt {declared udt : Udt} {fields : FieldTypes} (ht : t.shape = .udt declared)
    (ho : o.shape = .udt ⟨udt.keyspace, udt.name, fields⟩)
    (hu : r.lookup declared.keyspace declared.name = .ok udt)
    (h : List.Forall₂ (fun f g => f.1 = g.1 ∧ r.Interchanges f.2 g.2) udt.fields fields) :
    r.Interchanges t o := by
  intro frozen a b x y ha hb hx hy
  obtain ⟨xs, ps, rfl, nx, hps, hx⟩ := (Value.encodeAs_udt ht hu).mp hx
  obtain ⟨ys, qs, rfl, ny, hqs, hy⟩ := (Value.encodeAs_udt ht hu).mp hy
  rw [DataType.fits_shape, ho] at ha hb
  obtain ⟨_, ⟨⟩, ⟨cx, -⟩, fx⟩ := ha.resolve_left nofun
  obtain ⟨_, ⟨⟩, ⟨cy, -⟩, fy⟩ := hb.resolve_left nofun
  have each := hps.forall_iff_eq hqs (T := fun f => same (xs.getD f.1) (ys.getD f.1) = true)
    fun f hf p q hp hq => by
      obtain ⟨g, hg, hname, hfg⟩ := h.exists_mem_right hf
      have gx := DataType.fitsFields_iff.mp fx g hg
      have gy := DataType.fitsFields_iff.mp fy g hg
      rw [← hname] at gx gy
      exact hfg.element gx gy hp hq
  rw [Value.same_record_iff, hx.eq_iff hy hps.length_eq.symm hqs.length_eq.symm, ← each]
  constructor
  · exact fun hsame f _ => Fields.same_getD hsame f.1
  · refine fun hsame => Fields.forall₂_of_same_getD cx cy fun name => ?_
    by_cases hname : name ∈ udt.fields.map Prod.fst
    · obtain ⟨f, hf, rfl⟩ := List.mem_map.mp hname
      exact hsame f hf
    · have missing {z : Fields} (nz : ∀ f ∈ z, f.1 ∈ udt.fields.map Prod.fst) :
          z.getD name = .null :=
        Fields.getD_of_not_mem fun f hf (he : f.1 = name) => hname (he ▸ nz f hf)
      rw [missing nx, missing ny]
      exact Value.same_refl _

section Keys

variable {α : Type} {key : α → Value × Payload} {us vs : List α}

/-- The keys fit a type under a strictness and stand with their encodings. -/
def KeysEncoded (r : Registry) (t o : DataType) (s : Strictness) (key : α → Value × Payload)
    (l : List α) : Prop :=
  ∀ a ∈ l, o.Fits s (key a).1 ∧ encodeElement r t (key a).1 = .ok (key a).2

theorem KeysEncoded.exact (h : r.KeysEncoded t o .steady key us) :
    r.KeysEncoded t o .exact key us :=
  fun a ha => ⟨(h a ha).1.exact, (h a ha).2⟩

theorem Interchanges.same_key_iff (h : r.Interchanges t o)
    (hu : r.KeysEncoded t o .steady key us) (hv : r.KeysEncoded t o .exact key vs) :
    ∀ u ∈ us, ∀ v ∈ vs, same (key u).1 (key v).1 = true ↔ (key u).2 = (key v).2 :=
  fun u mu v mv => h.element (hu u mu).1 (hv v mv).1 (hu u mu).2 (hv v mv).2

/-- Keys with one encoding compare equal, also those of a second list that the first one covers. -/
theorem Interchanges.coherent (h : r.Interchanges t o) (hu : r.KeysEncoded t o .steady key us)
    (hv : r.KeysEncoded t o .exact key vs) (cover : ∀ v ∈ vs, ∃ u ∈ us, (key u).2 = (key v).2) :
    Value.Coherent o key (us ++ vs) := by
  refine .append (fun u mu => (hu u mu).1.exact.comparable) (fun v mv => (hv v mv).1.comparable)
    (fun a ma b mb hab => ?_) cover
  have hb : r.KeysEncoded t o .exact key (us ++ vs) := fun c mc =>
    (List.mem_append.mp mc).elim (hu.exact c) (hv c)
  exact o.order_eq_of_same (hu a ma).1 (hb b mb).1 ((h.same_key_iff hu hb a ma b mb).mpr hab)

theorem Interchanges.coherent_self (h : r.Interchanges t o) (hu : r.KeysEncoded t o .steady key us) :
    Value.Coherent o key us :=
  (h.coherent hu hu.exact fun u mu => ⟨u, mu, rfl⟩).subset fun _ mu => List.mem_append_left us mu

/-- Keys with the encodings of keys that are written are written as they stand. -/
theorem Interchanges.written_eq_self (h : r.Interchanges t o)
    (hu : r.KeysEncoded t o .steady key us) (hv : r.KeysEncoded t o .exact key vs)
    (huv : List.Forall₂ (fun u v => (key u).2 = (key v).2) (Value.written o key us) vs) :
    Value.written o key vs = vs ∧ vs.Pairwise fun v w => (key v).2 ≠ (key w).2 := by
  have cu := h.coherent_self hu
  have hw : r.KeysEncoded t o .steady key (Value.written o key us) := fun u mu =>
    hu u (Value.mem_of_mem_written mu)
  have cv := h.coherent hw hv fun v mv => huv.exists_mem_left mv
  refine ⟨cv.written_of_forall₂ cu.written_pairwise huv, ?_⟩
  refine huv.pairwise (cu.written.distinct_of_pairwise cu.written_pairwise) ?_
  intro u v u' v' e e' hne
  rw [← e, ← e']
  exact hne

end Keys

theorem Interchanges.set (ht : t.shape = .set e) (ho : o.shape = .set f) (hr : r.resolve e = .ok f)
    (h : r.Interchanges e f) : r.Interchanges t o := by
  intro frozen a b x y ha hb hx hy
  obtain ⟨xs, us, rfl, hus, hx⟩ := (Value.encodeAs_set ht hr).mp hx
  obtain ⟨ys, vs, rfl, hvs, hy⟩ := (Value.encodeAs_set ht hr).mp hy
  rw [DataType.fits_shape, ho] at ha hb
  obtain ⟨_, ⟨⟩, fx⟩ := ha.resolve_left nofun
  obtain ⟨_, ⟨⟩, fy⟩ := hb.resolve_left nofun
  have mus : ∀ u ∈ us, u.1 ∈ xs ∧ encodeElement r e u.1 = .ok u.2 := fun u hu => by
    obtain ⟨_, ha, rfl, hp⟩ := hus.exists_mem_left hu
    exact ⟨ha, hp⟩
  have mvs : ∀ v ∈ vs, v.1 ∈ ys ∧ encodeElement r e v.1 = .ok v.2 := fun v hv => by
    obtain ⟨_, hb, rfl, hq⟩ := hvs.exists_mem_left hv
    exact ⟨hb, hq⟩
  have ku : r.KeysEncoded e f .steady id us := fun u hu => ⟨fx _ (mus u hu).1, (mus u hu).2⟩
  have kv : r.KeysEncoded e f .exact id vs := fun v hv => ⟨fy _ (mvs v hv).1, (mvs v hv).2⟩
  have hiff := h.same_key_iff ku kv
  rw [Value.same_set_iff, hx.eq_iff hy Nat.one_pos (by simp) (by simp), Value.writtenElements_eq,
    Value.writtenElements_eq]
  constructor
  · rintro ⟨hxy, hyx⟩
    have huv : ∀ u ∈ us, ∃ v ∈ vs, u.2 = v.2 := fun u hu => by
      obtain ⟨_, hb, hab⟩ := hxy u.1 (mus u hu).1
      obtain ⟨v, hv, rfl, -⟩ := hvs.exists_mem_right hb
      exact ⟨v, hv, (hiff u hu v hv).mp hab⟩
    have hvu : ∀ v ∈ vs, ∃ u ∈ us, u.2 = v.2 := fun v hv => by
      obtain ⟨_, ha, hab⟩ := hyx v.1 (mvs v hv).1
      obtain ⟨u, hu, rfl, -⟩ := hus.exists_mem_right ha
      exact ⟨u, hu, (hiff u hu v hv).mp hab⟩
    exact ((h.coherent ku kv hvu).written_forall₂ huv hvu).map_eq_map
  · intro hw
    constructor
    · intro a ha
      obtain ⟨u, hu, rfl, -⟩ := hus.exists_mem_right ha
      obtain ⟨v, hv, huv⟩ := Value.exists_mem_of_written_eq hw hu
      exact ⟨v.1, (mvs v hv).1, (hiff u hu v hv).mpr huv⟩
    · intro b hb
      obtain ⟨v, hv, rfl, -⟩ := hvs.exists_mem_right hb
      obtain ⟨u, hu, hvu⟩ := Value.exists_mem_of_written_eq hw.symm hv
      exact ⟨u.1, (mus u hu).1, (hiff u hu v hv).mpr hvu.symm⟩

section Entries

variable {xs ys : List (Value × Value)} {us vs : List ((Value × Payload) × Payload)}

/-- The entries of a map stand with the encodings of their keys and values. -/
def EntriesEncoded (r : Registry) (k t : DataType) (xs : List (Value × Value))
    (us : List ((Value × Payload) × Payload)) : Prop :=
  List.Forall₂ (fun x u => u.1.1 = x.1 ∧ encodeElement r k x.1 = .ok u.1.2 ∧
    encodeElement r t x.2 = .ok u.2) xs us

theorem EntriesEncoded.keys {s : Strictness} (h : r.EntriesEncoded k t xs us)
    (hx : ∀ x ∈ xs, l.Fits s x.1) : r.KeysEncoded k l s Prod.fst us := fun u hu => by
  obtain ⟨x, hm, e, hp, -⟩ := h.exists_mem_left hu
  rw [e]
  exact ⟨hx x hm, hp⟩

/-- The value of a key and the payload at the encoding of the key belong together. -/
theorem EntriesEncoded.valueAt {s : Strictness} (h : r.EntriesEncoded k t xs us)
    (hx : ∀ x ∈ xs, o.Fits s x.2) {c : Value}
    (hc : ∀ u ∈ us, same c u.1.1 = true ↔ u.1.2 = p) :
    Option.Rel (fun v q => o.Fits s v ∧ encodeElement r t v = .ok q) (Value.valueAt xs c)
      (Value.payloadAt us p) := by
  have found := (h.imp_mem (S := fun x u => (o.Fits s x.2 ∧ encodeElement r t x.2 = .ok u.2) ∧
    same c x.1 = decide (u.1.2 = p)) fun x mx u mu hxu => by
      refine ⟨⟨hx x mx, hxu.2.2⟩, ?_⟩
      rw [← hxu.1, Bool.eq_iff_iff, hc u mu, decide_eq_true_iff]).find? fun _ _ h => h.2
  exact found.map fun _ _ h => h.1

/-- Maps are equal exactly when each key encoding has the same value encoding in both, where each
has the key encodings of the other. -/
theorem same_map_iff_payloadAt {w : DataType} (hk : r.Interchanges k l) (ht : r.Interchanges t w)
    (hus : r.EntriesEncoded k t xs us) (hvs : r.EntriesEncoded k t ys vs)
    (fx : ∀ x ∈ xs, l.Fits .steady x.1 ∧ w.Fits .steady x.2)
    (fy : ∀ y ∈ ys, l.Fits .exact y.1 ∧ w.Fits .exact y.2)
    (cover : ∀ v ∈ vs, ∃ u ∈ us, u.1.2 = v.1.2) :
    same (.map xs) (.map ys) = true ↔ ∀ p, Value.payloadAt us p = Value.payloadAt vs p := by
  have ku := hus.keys fun x mx => (fx x mx).1
  have kv := hvs.keys fun y my => (fy y my).1
  have at_key : ∀ u ∈ us, Option.Rel (fun a b => same a b = true) (Value.valueAt xs u.1.1)
      (Value.valueAt ys u.1.1) ↔ Value.payloadAt us u.1.2 = Value.payloadAt vs u.1.2 := by
    intro u mu
    have hx := hus.valueAt (p := u.1.2) (c := u.1.1) (fun x mx => (fx x mx).2) fun u' mu' =>
      (hk.same_key_iff ku ku.exact u mu u' mu').trans eq_comm
    have hy := hvs.valueAt (p := u.1.2) (c := u.1.1) (fun y my => (fy y my).2) fun v mv =>
      (hk.same_key_iff ku kv u mu v mv).trans eq_comm
    exact hx.iff_eq hy fun a b p q ha hb => ht.element ha.1 hb.1 ha.2 hb.2
  rw [Value.same_map_iff]
  constructor
  · intro h p
    by_cases hp : ∃ u ∈ us, u.1.2 = p
    · obtain ⟨u, mu, rfl⟩ := hp
      exact (at_key u mu).mp (h u.1.1)
    · rw [Value.payloadAt_eq_none.mpr fun u mu e => hp ⟨u, mu, e⟩]
      refine (Value.payloadAt_eq_none.mpr fun v mv e => hp ?_).symm
      obtain ⟨u, mu, e'⟩ := cover v mv
      exact ⟨u, mu, e'.trans e⟩
  · intro h c
    by_cases hc : ∃ u ∈ us, same c u.1.1 = true
    · obtain ⟨u, mu, hcu⟩ := hc
      rw [Value.valueAt_eq_of_same hcu, Value.valueAt_eq_of_same hcu]
      exact (at_key u mu).mpr (h u.1.2)
    · have none_xs : Value.valueAt xs c = none := Value.valueAt_eq_none.mpr fun x mx => by
        obtain ⟨u, mu, e, -⟩ := hus.exists_mem_right mx
        rw [Bool.eq_false_iff, ← e]
        exact fun hcu => hc ⟨u, mu, hcu⟩
      have none_ys : Value.valueAt ys c = none := Value.valueAt_eq_none.mpr fun y my => by
        obtain ⟨v, mv, e, -⟩ := hvs.exists_mem_right my
        obtain ⟨u, mu, huv⟩ := cover v mv
        have hsame := (hk.same_key_iff ku kv u mu v mv).mpr huv
        rw [Bool.eq_false_iff, ← e]
        exact fun hcv => hc ⟨u, mu, Value.same_trans hcv (Value.same_symm hsame)⟩
      rw [none_xs, none_ys]
      exact .none

theorem Interchanges.map {w : DataType} (ht : t.shape = .map k e) (ho : o.shape = .map l w)
    (hr : r.resolve k = .ok l) (hk : r.Interchanges k l) (he : r.Interchanges e w) :
    r.Interchanges t o := by
  intro frozen a b x y ha hb hx hy
  obtain ⟨xs, us, rfl, hus, hx⟩ := (Value.encodeAs_map ht hr).mp hx
  obtain ⟨ys, vs, rfl, hvs, hy⟩ := (Value.encodeAs_map ht hr).mp hy
  rw [DataType.fits_shape, ho] at ha hb
  obtain ⟨_, ⟨⟩, -, fx⟩ := ha.resolve_left nofun
  obtain ⟨_, ⟨⟩, -, fy⟩ := hb.resolve_left nofun
  have ku := EntriesEncoded.keys hus fun x mx => (fx x mx).1
  have kv := EntriesEncoded.keys hvs fun y my => (fy y my).1
  have hiff := hk.same_key_iff ku kv
  rw [hx.eq_iff hy Nat.two_pos (by simp) (by simp), Value.writtenEntries_eq,
    Value.writtenEntries_eq, Value.flatMap_entryPayload_inj]
  constructor
  · intro hsame
    have huv : ∀ u ∈ us, ∃ v ∈ vs, u.1.2 = v.1.2 := fun u mu => by
      obtain ⟨x, mx, ex, -⟩ := hus.exists_mem_left mu
      obtain ⟨y, my, hxy⟩ := Value.exists_same_key hsame mx
      obtain ⟨v, mv, ey, -⟩ := hvs.exists_mem_right my
      exact ⟨v, mv, (hiff u mu v mv).mp (by rw [ex, ey, hxy])⟩
    have hvu : ∀ v ∈ vs, ∃ u ∈ us, u.1.2 = v.1.2 := fun v mv => by
      obtain ⟨y, my, ey, -⟩ := hvs.exists_mem_left mv
      obtain ⟨x, mx, hyx⟩ := Value.exists_same_key (Value.same_symm hsame) my
      obtain ⟨u, mu, ex, -⟩ := hus.exists_mem_right mx
      exact ⟨u, mu, (hiff u mu v mv).mp (by rw [ex, ey, Value.same_symm hyx])⟩
    rw [(hk.coherent ku kv hvu).written_entries_iff huv hvu]
    exact (same_map_iff_payloadAt hk he hus hvs fx fy hvu).mp hsame
  · intro hw
    have hkeys := congrArg (List.map Prod.fst) hw
    simp only [List.map_map] at hkeys
    have huv : ∀ u ∈ us, ∃ v ∈ vs, u.1.2 = v.1.2 := fun u mu =>
      Value.exists_mem_of_written_eq hkeys mu
    have hvu : ∀ v ∈ vs, ∃ u ∈ us, u.1.2 = v.1.2 := fun v mv => by
      obtain ⟨u, mu, e⟩ := Value.exists_mem_of_written_eq hkeys.symm mv
      exact ⟨u, mu, e.symm⟩
    rw [(hk.coherent ku kv hvu).written_entries_iff huv hvu] at hw
    exact (same_map_iff_payloadAt hk he hus hvs fx fy hvu).mpr hw

end Entries

/-- Two values of a type that both have an encoding are equal exactly when the encodings are, where
the first one is steady. -/
theorem interchanges (h : r.resolve t = .ok o) : r.Interchanges t o := by
  refine resolve_induct .leaf .list .set .map .tuple .udt h

end Registry

end CqlWire
