import CqlWire.Proofs.Interchange
import CqlWire.Proofs.Laying
import CqlWire.Proofs.Separation

namespace CqlWire

open Value (encodeAs encodeElement)

variable {r : Registry} {t o e f k l w : DataType} {a b v : Value} {p q : Payload} {x y : Bytes}
  {frozen : Bool} {kind : Kind}

namespace Kind

/-- The kinds of text, whose values may be of either variant. -/
def IsText (kind : Kind) : Prop :=
  kind = .ascii ∨ kind = .text

theorem Admits.exists_text (h : kind.Admits v) (hk : kind.IsText) :
    ∃ s, v = .ascii s ∨ v = .text s := by
  rcases hk with rfl | rfl
  · obtain ⟨s, hv, -⟩ := h
    exact ⟨s, hv⟩
  · exact h

theorem Admits.holds (h : kind.Admits v) (hk : ¬kind.IsText) : kind.Holds v := by
  cases kind
  case ascii => exact absurd (.inl rfl) hk
  case text => exact absurd (.inr rfl) hk
  case time | timeuuid =>
    obtain ⟨u, hv, -⟩ := h
    exact ⟨u, hv⟩
  all_goals exact h

theorem Admits.alike (h : kind.Admits v) : kind.HoldsAlike v := by
  by_cases hk : kind.IsText
  · obtain ⟨s, hv⟩ := h.exists_text hk
    have either : ascii.Holds v ∨ text.Holds v := hv.imp (⟨s, ·⟩) (⟨s, ·⟩)
    rcases hk with rfl | rfl
    · exact either
    · exact either
  · exact (h.holds hk).alike

end Kind

namespace Leaf

theorem toBytes_of_encode {s : String} (hk : kind.IsText) (hv : v = .ascii s ∨ v = .text s)
    (h : encode kind v = .ok x) : Text.toBytes s = x := by
  rcases hk with rfl | rfl
  · rcases hv with rfl | rfl
    · exact (encodeAscii_eq_ok.mp h).2
    · exact (encodeAscii_eq_ok.mp h).2
  · rcases hv with rfl | rfl
    · exact Except.ok.inj h
    · exact Except.ok.inj h

/-- Leaf values of a kind compare equal exactly when they have one encoding, also texts of different
variants. -/
theorem encode_eq_iff (hx : encode kind a = .ok x) (hy : encode kind b = .ok y) :
    Value.leafOrder kind a b = .eq ↔ x = y := by
  have ha := admits_of_encode hx
  have hb := admits_of_encode hy
  by_cases hk : kind.IsText
  · obtain ⟨s, hs⟩ := ha.exists_text hk
    obtain ⟨u, hu⟩ := hb.exists_text hk
    rw [← toBytes_of_encode hk hs hx, ← toBytes_of_encode hk hu hy]
    have order : Value.leafOrder kind a b = Text.order s u := by
      rcases hs with rfl | rfl <;> rcases hu with rfl | rfl <;> rfl
    rw [order, Text.order_eq_iff]
    exact ⟨congrArg Text.toBytes, Text.toBytes_injective⟩
  · rw [Value.leafOrder_eq_iff (ha.holds hk) (hb.holds hk)]
    constructor
    · rintro rfl
      exact Except.ok.inj (hx.symm.trans hy)
    · rintro rfl
      exact encode_injective (ha.holds hk) (hb.holds hk) hx hy

end Leaf

namespace DataType

theorem order_shape (t : DataType) (a b : Value) : t.order a b = t.shape.toType.order a b := by
  induction t with
  | frozen t ih => exact ih
  | _ => rfl

end DataType

namespace Value

variable {α β : Type} {key : β → Value × Payload} {R : α → β → Prop} {xs : List α} {us : List β}

/-- Keys compare equal exactly when they have one encoding. -/
def Faithful (o : DataType) (key : β → Value × Payload) (us : List β) : Prop :=
  ∀ u ∈ us, ∀ u' ∈ us, o.order (key u).1 (key u').1 = .eq ↔ (key u).2 = (key u').2

/-- Where the order tells keys apart as their encodings do, those written are the first of each
class in the order. -/
theorem Faithful.forall₂_written (h : Faithful o key us) (key' : α → Value)
    (hR : ∀ a u, R a u → (key u).1 = key' a) (hxs : List.Forall₂ R xs us) :
    List.Forall₂ R (firstOfEach (fun a b => o.order (key' a) (key' b)) xs) (written o key us) := by
  have aligned := hxs.imp_mem (S := fun a u => R a u ∧ u ∈ us) fun _ _ _ hu hau => ⟨hau, hu⟩
  have tells : ∀ a a' u u', R a u ∧ u ∈ us → R a' u' ∧ u' ∈ us →
      (o.order (key' a) (key' a') = .eq ↔ (key u).2 = (key u').2) := by
    intro a a' u u' hau hau'
    rw [← hR a u hau.1, ← hR a' u' hau'.1]
    exact h u hau.2 u' hau'.2
  have orders : ∀ a a' u u', R a u ∧ u ∈ us → R a' u' ∧ u' ∈ us →
      o.order (key' a) (key' a') = wireOrder o (key u) (key u') := by
    intro a a' u u' hau hau'
    rw [wireOrder, hR a u hau.1, hR a' u' hau'.1]
    cases ho : o.order (key' a) (key' a') with
    | eq =>
      rw [(tells a a' u u' hau hau').mp ho]
      exact (Std.ReflOrd.compare_self (a := (key u').2)).symm
    | _ => rfl
  exact (collapse_forall₂ (fun a a' u u' hau hau' =>
    decide_eq_decide.mpr (tells a a' u u' hau hau')) (sortBy_forall₂ orders aligned)).imp fun _ _ h => h.1

end Value

namespace Registry

/-- Values that have an encoding are values that the order of their type compares. -/
def Compares (r : Registry) (t o : DataType) : Prop :=
  ∀ (frozen : Bool) (a : Value) (x : Bytes), encodeAs r a t frozen = .ok x → o.Fits .comparable a

theorem Compares.element (h : r.Compares t o) (hp : encodeElement r t a = .ok p) :
    o.Fits .comparable a := by
  by_cases na : a = .null
  · rw [na]
    exact DataType.fits_null _ o
  · obtain ⟨x, hx, -⟩ := (Value.encodeElement_of_ne_null na).mp hp
    exact h true a x hx

theorem fitsEach_of_positions {ts os : List DataType} {items : List Value} {ps : List Payload}
    (h : List.Forall₂ r.Compares ts os)
    (hps : List.Forall₂ (fun x p => encodeElement r x.1 x.2 = .ok p) (DataType.positions ts items) ps) :
    DataType.FitsEach .comparable os items := by
  induction h generalizing items ps with
  | nil => trivial
  | cons hto _ ih =>
    cases hps with
    | cons hp hps => exact ⟨hto.element hp, ih hps⟩

theorem compares (h : r.resolve t = .ok o) : r.Compares t o := by
  refine resolve_induct ?leaf ?list ?set ?map ?tuple ?udt h
  case leaf =>
    intro t o kind ht ho frozen a x hx
    rw [Value.encodeAs_leaf ht] at hx
    rw [DataType.fits_shape, ho]
    exact .inr (Leaf.admits_of_encode hx).alike
  case list =>
    intro t o e f ht ho ih frozen a x hx
    obtain ⟨items, ps, rfl, hps, -⟩ := (Value.encodeAs_list ht).mp hx
    rw [DataType.fits_shape, ho]
    refine .inr ⟨items, rfl, fun v hv => ?_⟩
    obtain ⟨p, -, hp⟩ := hps.exists_mem_right hv
    exact ih.element hp
  case set =>
    intro t o e f ht ho hr ih frozen a x hx
    obtain ⟨items, us, rfl, hus, -⟩ := (Value.encodeAs_set ht hr).mp hx
    rw [DataType.fits_shape, ho]
    refine .inr ⟨items, rfl, fun v hv => ?_⟩
    obtain ⟨u, -, -, hp⟩ := hus.exists_mem_right hv
    exact ih.element hp
  case map =>
    intro t o k e l w ht ho hr ihk ihe frozen a x hx
    obtain ⟨entries, us, rfl, hus, -⟩ := (Value.encodeAs_map ht hr).mp hx
    rw [DataType.fits_shape, ho]
    refine .inr ⟨entries, rfl, trivial, fun v hv => ?_⟩
    obtain ⟨u, -, -, hp, hq⟩ := hus.exists_mem_right hv
    exact ⟨ihk.element hp, ihe.element hq⟩
  case tuple =>
    intro t o ts os ht ho ih frozen a x hx
    obtain ⟨items, rfl⟩ := Value.exists_of_encodeAs_tuple ht hx
    obtain ⟨ps, hps, -⟩ := (Value.encodeAs_positions ht).mp hx
    rw [DataType.fits_shape, ho]
    exact .inr ⟨items, rfl, trivial, fitsEach_of_positions ih hps⟩
  case udt =>
    intro t o declared udt types ht ho hu ih frozen a x hx
    obtain ⟨fields, ps, rfl, -, hps, -⟩ := (Value.encodeAs_udt ht hu).mp hx
    rw [DataType.fits_shape, ho]
    refine .inr ⟨fields, rfl, trivial, DataType.fitsFields_iff.mpr fun g hg => ?_⟩
    obtain ⟨d, hd, hname, hcompares⟩ := ih.exists_mem_left hg
    obtain ⟨p, -, hp⟩ := hps.exists_mem_right hd
    rw [← hname]
    exact hcompares.element hp

/-- Values with one encoding compare equal, if the keys of maps in the first one hold no null in a
list or set, and without such nulls values that compare equal have one encoding. -/
def Concords (r : Registry) (t o : DataType) : Prop :=
  ∀ (frozen : Bool) (a b : Value) (x y : Bytes), encodeAs r a t frozen = .ok x →
    encodeAs r b t frozen = .ok y →
    (a.Settled → x = y → o.order a b = .eq) ∧ (a.Solid → b.Solid → o.order a b = .eq → x = y)

theorem Concords.element (h : r.Concords t o) (hp : encodeElement r t a = .ok p)
    (hq : encodeElement r t b = .ok q) :
    (a.Settled → p = q → o.order a b = .eq) ∧ (a.Solid → b.Solid → o.order a b = .eq → p = q) := by
  by_cases na : a = .null
  · subst na
    cases hp
    by_cases nb : b = .null
    · subst nb
      cases hq
      exact ⟨fun _ _ => DataType.order_null_left o .null, fun _ _ _ => rfl⟩
    · obtain ⟨y, -, rfl⟩ := (Value.encodeElement_of_ne_null nb).mp hq
      exact ⟨nofun, fun _ _ ho => absurd (DataType.eq_null_of_order_left ho) nb⟩
  · obtain ⟨x, hx, rfl⟩ := (Value.encodeElement_of_ne_null na).mp hp
    by_cases nb : b = .null
    · subst nb
      cases hq
      exact ⟨nofun, fun _ _ ho => absurd (DataType.eq_null_of_order_right ho) na⟩
    · obtain ⟨y, hy, rfl⟩ := (Value.encodeElement_of_ne_null nb).mp hq
      obtain ⟨compare, tell⟩ := h true a b x y hx hy
      exact ⟨fun sa e => compare sa (Option.some.inj e), fun sa sb ho => congrArg some (tell sa sb ho)⟩

section Keys

variable {β : Type} {key : β → Value × Payload} {keys : List Value} {us vs : List β}

/-- Keys stand with their encodings. -/
def KeysAligned (r : Registry) (t : DataType) (key : β → Value × Payload) (keys : List Value)
    (us : List β) : Prop :=
  List.Forall₂ (fun a u => (key u).1 = a ∧ encodeElement r t a = .ok (key u).2) keys us

theorem KeysAligned.encoded (h : r.KeysAligned t key keys us) (hr : r.resolve t = .ok o) :
    r.KeysEncoded t o .comparable key us := by
  intro u mu
  obtain ⟨a, -, rfl, hp⟩ := h.exists_mem_left mu
  exact ⟨(compares hr).element hp, hp⟩

theorem KeysAligned.fits (h : r.KeysAligned t key keys us) (hr : r.resolve t = .ok o) :
    ∀ a ∈ keys, o.Fits .comparable a := by
  intro a ha
  obtain ⟨u, -, -, hp⟩ := h.exists_mem_right ha
  exact (compares hr).element hp

theorem KeysAligned.forall_key {P : Value → Prop} (h : r.KeysAligned t key keys us)
    (hP : ∀ a ∈ keys, P a) : ∀ u ∈ us, P (key u).1 := by
  intro u mu
  obtain ⟨a, ha, rfl, -⟩ := h.exists_mem_left mu
  exact hP _ ha

/-- Keys with one encoding compare equal, also those of a second list that the first one covers. -/
theorem Concords.coherent (h : r.Concords t o) (hu : r.KeysEncoded t o .comparable key us)
    (settled : ∀ u ∈ us, (key u).1.Settled) (hv : r.KeysEncoded t o .comparable key vs)
    (cover : ∀ v ∈ vs, ∃ u ∈ us, (key u).2 = (key v).2) : Value.Coherent o key (us ++ vs) := by
  refine .append (fun u mu => (hu u mu).1) (fun v mv => (hv v mv).1) (fun u mu v mv e => ?_) cover
  have hv' := (List.mem_append.mp mv).elim (hu v) (hv v)
  exact (h.element (hu u mu).2 hv'.2).1 (settled u mu) e

theorem Concords.faithful (h : r.Concords t o) (hu : r.KeysEncoded t o .comparable key us)
    (solid : ∀ u ∈ us, (key u).1.Solid) : Value.Faithful o key us := by
  intro u mu u' mu'
  obtain ⟨compare, tell⟩ := h.element (hu u mu).2 (hu u' mu').2
  exact ⟨tell (solid u mu) (solid u' mu'), compare (solid u mu).settled⟩

/-- Keys with the encodings of others that hold no nulls are told apart like those. -/
theorem Concords.faithful_of_cover (h : r.Concords t o) (hu : r.KeysEncoded t o .comparable key us)
    (solid : ∀ u ∈ us, (key u).1.Solid) (hv : r.KeysEncoded t o .comparable key vs)
    (cover : ∀ v ∈ vs, ∃ u ∈ us, (key u).2 = (key v).2) : Value.Faithful o key vs := by
  have coherent := h.coherent hu (fun u mu => (solid u mu).settled) hv cover
  have ord := o.order_orderedOn
  intro v mv v' mv'
  refine ⟨fun hvv => ?_, coherent.agree v (List.mem_append_right us mv) v' (List.mem_append_right us mv')⟩
  obtain ⟨u, mu, hu'⟩ := cover v mv
  obtain ⟨u', mu', hu''⟩ := cover v' mv'
  have first := coherent.agree u (List.mem_append_left vs mu) v (List.mem_append_right us mv) hu'
  have last := coherent.agree v' (List.mem_append_right us mv') u' (List.mem_append_left vs mu') hu''.symm
  have along := ord.eq_trans (hu u mu).1 (hv v mv).1 (hv v' mv').1 first hvv
  have whole := ord.eq_trans (hu u mu).1 (hv v' mv').1 (hu u' mu').1 along last
  exact hu'.symm.trans (((h.faithful hu solid u mu u' mu').mp whole).trans hu'')

theorem KeysAligned.faithful (h : r.KeysAligned t key keys us) (hr : r.resolve t = .ok o)
    (hc : r.Concords t o) (solid : ∀ a ∈ keys, a.Solid) : Value.Faithful o key us :=
  hc.faithful (h.encoded hr) (h.forall_key solid)

end Keys

theorem EntriesEncoded.keysAligned {entries : List (Value × Value)}
    {us : List ((Value × Payload) × Payload)} (h : r.EntriesEncoded k e entries us) :
    r.KeysAligned k Prod.fst (entries.map Prod.fst) us :=
  List.forall₂_map_left_iff.mpr (h.imp fun _ _ h => ⟨h.1, h.2.1⟩)

theorem Concords.leaf (ht : t.shape = .leaf kind) (ho : o.shape = .leaf kind) : r.Concords t o := by
  intro frozen a b x y hx hy
  have order : o.order a b = Value.leafOrder kind a b := by
    rw [DataType.order_shape, ho]
    exact Value.nullsFirst_of_ne_null (Value.ne_null_of_encodeAs hx) (Value.ne_null_of_encodeAs hy) _
  rw [Value.encodeAs_leaf ht] at hx hy
  rw [order, Leaf.encode_eq_iff hx hy]
  exact ⟨fun _ => id, fun _ _ => id⟩

theorem Concords.list (ht : t.shape = .list e) (ho : o.shape = .list f) (h : r.Concords e f) :
    r.Concords t o := by
  intro frozen a b x y hx hy
  obtain ⟨xs, ps, rfl, hps, hx⟩ := (Value.encodeAs_list ht).mp hx
  obtain ⟨ys, qs, rfl, hqs, hy⟩ := (Value.encodeAs_list ht).mp hy
  have frames : x = y ↔ ps = qs := hx.eq_iff hy Nat.one_pos (by rw [Nat.mul_one, hps.length_eq])
    (by rw [Nat.mul_one, hqs.length_eq])
  rw [frames, DataType.order_shape, ho]
  constructor
  · rintro sa rfl
    have sx := Value.everywhere_list.mp sa
    have pairs : List.Forall₂ (fun a b => f.order a b = .eq) xs ys := by
      refine (hps.comp hqs.flip).imp_mem fun a ha b _ hab => ?_
      obtain ⟨p, -, hp, hq⟩ := hab
      exact (h.element hp hq).1 (sx a ha).2 rfl
    exact DataType.sequenceOrder_eq pairs
  · intro sa sb horder
    have sx := Value.everywhere_list.mp sa
    have sy := Value.everywhere_list.mp sb
    have pairs := DataType.forall₂_of_sequenceOrder (fun a ha => (sx a ha).1 (.inl rfl))
      (fun b hb => (sy b hb).1 (.inl rfl)) horder
    have payloads := hps.flip.comp (pairs.comp hqs)
    rw [← List.forall₂_eq_eq_eq]
    refine payloads.imp fun p q hpq => ?_
    obtain ⟨a, ha, hp, b, hb, hab, hq⟩ := hpq
    exact (h.element hp hq).2 (sx a ha).2 (sy b hb).2 hab

theorem Concords.set (ht : t.shape = .set e) (ho : o.shape = .set f) (hr : r.resolve e = .ok f)
    (h : r.Concords e f) : r.Concords t o := by
  intro frozen a b x y hx hy
  obtain ⟨xs, us, rfl, hus, hx⟩ := (Value.encodeAs_set ht hr).mp hx
  obtain ⟨ys, vs, rfl, hvs, hy⟩ := (Value.encodeAs_set ht hr).mp hy
  replace hus : r.KeysAligned e id xs us := hus
  replace hvs : r.KeysAligned e id ys vs := hvs
  rw [hx.eq_iff hy Nat.one_pos (by simp) (by simp), Value.writtenElements_eq, Value.writtenElements_eq,
    DataType.order_shape, ho]
  constructor
  · intro sa hw
    have sx := Value.everywhere_set.mp sa
    have huv : ∀ a ∈ xs, ∃ b ∈ ys, f.order a b = .eq := by
      intro a ha
      obtain ⟨u, mu, rfl, hp⟩ := hus.exists_mem_right ha
      obtain ⟨v, mv, huv⟩ := Value.exists_mem_of_written_eq hw mu
      obtain ⟨b, hb, rfl, hq⟩ := hvs.exists_mem_left mv
      exact ⟨v.1, hb, (h.element hp hq).1 (sx u.1 ha).2 huv⟩
    have hvu : ∀ b ∈ ys, ∃ a ∈ xs, f.order a b = .eq := by
      intro b hb
      obtain ⟨v, mv, rfl, hq⟩ := hvs.exists_mem_right hb
      obtain ⟨u, mu, hvu⟩ := Value.exists_mem_of_written_eq hw.symm mv
      obtain ⟨a, ha, rfl, hp⟩ := hus.exists_mem_left mu
      exact ⟨u.1, ha, (h.element hp hq).1 (sx u.1 ha).2 hvu.symm⟩
    exact DataType.sequenceOrder_eq
      (f.order_orderedOn.firstOfEach_forall₂ (hus.fits hr) (hvs.fits hr) huv hvu)
  · intro sa sb horder
    have sx := Value.everywhere_set.mp sa
    have sy := Value.everywhere_set.mp sb
    have pairs := DataType.forall₂_of_sequenceOrder
      (fun a ha => (sx a (mem_of_mem_firstOfEach ha)).1 (.inr rfl))
      (fun b hb => (sy b (mem_of_mem_firstOfEach hb)).1 (.inr rfl)) horder
    have au := (hus.faithful hr h fun a ha => (sx a ha).2).forall₂_written id (fun _ _ h => h.1) hus
    have av := (hvs.faithful hr h fun b hb => (sy b hb).2).forall₂_written id (fun _ _ h => h.1) hvs
    have payloads := au.flip.comp (pairs.comp av)
    refine (payloads.imp fun u v huv => ?_).map_eq_map
    obtain ⟨a, ha, ⟨-, hp⟩, b, hb, hab, -, hq⟩ := huv
    exact (h.element hp hq).2 (sx a (mem_of_mem_firstOfEach ha)).2
      (sy b (mem_of_mem_firstOfEach hb)).2 hab

theorem Concords.map (ht : t.shape = .map k e) (ho : o.shape = .map l w) (hr : r.resolve k = .ok l)
    (hk : r.Concords k l) (he : r.Concords e w) : r.Concords t o := by
  intro frozen a b x y hx hy
  obtain ⟨xs, us, rfl, hus, hx⟩ := (Value.encodeAs_map ht hr).mp hx
  obtain ⟨ys, vs, rfl, hvs, hy⟩ := (Value.encodeAs_map ht hr).mp hy
  have ku : r.KeysAligned k Prod.fst (xs.map Prod.fst) us := EntriesEncoded.keysAligned hus
  have kv : r.KeysAligned k Prod.fst (ys.map Prod.fst) vs := EntriesEncoded.keysAligned hvs
  have aligned {zs : List (Value × Value)} {ws : List ((Value × Payload) × Payload)}
      (hws : r.EntriesEncoded k e zs ws) (faithful : Value.Faithful l Prod.fst ws) :
      r.EntriesEncoded k e (Value.sortedEntries l.order zs) (Value.written l Prod.fst ws) :=
    faithful.forall₂_written Prod.fst (fun _ _ h => h.1) hws
  rw [hx.eq_iff hy Nat.two_pos (by simp) (by simp), Value.writtenEntries_eq, Value.writtenEntries_eq,
    Value.flatMap_entryPayload_inj, DataType.order_shape, ho]
  constructor
  · intro sa hw
    have sx := Value.everywhere_map.mp sa
    have solid : ∀ a ∈ xs.map Prod.fst, a.Solid := List.forall_mem_map.mpr fun x hx => (sx x hx).1.1 rfl
    have hkeys := congrArg (List.map Prod.fst) hw
    simp only [List.map_map] at hkeys
    have cover : ∀ v ∈ vs, ∃ u ∈ us, u.1.2 = v.1.2 := fun v mv => by
      obtain ⟨u, mu, hvu⟩ := Value.exists_mem_of_written_eq hkeys.symm mv
      exact ⟨u, mu, hvu.symm⟩
    have au := aligned hus (ku.faithful hr hk solid)
    have av := aligned hvs
      (hk.faithful_of_cover (ku.encoded hr) (ku.forall_key solid) (kv.encoded hr) cover)
    have pairs := au.comp ((List.Forall₂.of_map_eq_map hw).comp av.flip)
    refine DataType.entriesOrder_eq_iff.mpr (pairs.imp_mem fun c hc d _ hcd => ?_)
    obtain ⟨u, -, ⟨-, hp, hp'⟩, v, -, huv, -, hq, hq'⟩ := hcd
    obtain ⟨hkey, hvalue⟩ := Prod.mk.inj huv
    have sc := sx c (mem_of_mem_firstOfEach hc)
    exact ⟨(hk.element hp hq).1 sc.1.2 hkey, (he.element hp' hq').1 sc.2.2 hvalue⟩
  · intro sa sb horder
    have sx := Value.everywhere_map.mp sa
    have sy := Value.everywhere_map.mp sb
    have au := aligned hus (ku.faithful hr hk (List.forall_mem_map.mpr fun x hx => (sx x hx).1.2))
    have av := aligned hvs (kv.faithful hr hk (List.forall_mem_map.mpr fun y hy => (sy y hy).1.2))
    have payloads := au.flip.comp ((DataType.entriesOrder_eq_iff.mp horder).comp av)
    refine (payloads.imp fun u v huv => ?_).map_eq_map
    obtain ⟨c, hc, ⟨-, hp, hp'⟩, d, hd, ⟨hkey, hvalue⟩, -, hq, hq'⟩ := huv
    have sc := sx c (mem_of_mem_firstOfEach hc)
    have sd := sy d (mem_of_mem_firstOfEach hd)
    exact Prod.ext ((hk.element hp hq).2 sc.1.2 sd.1.2 hkey) ((he.element hp' hq').2 sc.2.2 sd.2.2 hvalue)

theorem concords_of_positions {ts os : List DataType} (h : List.Forall₂ r.Concords ts os)
    {xs ys : List Value} {ps qs : List Payload}
    (hps : List.Forall₂ (fun z p => encodeElement r z.1 z.2 = .ok p) (DataType.positions ts xs) ps)
    (hqs : List.Forall₂ (fun z p => encodeElement r z.1 z.2 = .ok p) (DataType.positions ts ys) qs) :
    ((∀ a ∈ xs, a.Settled) → ps = qs → DataType.positionsOrder os xs ys = .eq) ∧
    ((∀ a ∈ xs, a.Solid) → (∀ b ∈ ys, b.Solid) → DataType.positionsOrder os xs ys = .eq → ps = qs) := by
  have first {P : Value → Prop} (hnull : P .null) {zs : List Value} (hz : ∀ z ∈ zs, P z) :
      P (zs.headD .null) := by
    cases zs with
    | nil => exact hnull
    | cons z zs => exact hz z (by simp)
  have rest {P : Value → Prop} {zs : List Value} (hz : ∀ z ∈ zs, P z) : ∀ z ∈ zs.tail, P z :=
    fun z hm => hz z (List.mem_of_mem_tail hm)
  induction h generalizing xs ys ps qs with
  | nil =>
    cases hps
    cases hqs
    exact ⟨fun _ _ => rfl, fun _ _ _ => rfl⟩
  | cons hto _ ih =>
    cases hps with
    | cons hp hps =>
      cases hqs with
      | cons hq hqs =>
        obtain ⟨compare, tell⟩ := hto.element hp hq
        obtain ⟨compareRest, tellRest⟩ := ih hps hqs
        constructor
        · intro sx e
          obtain ⟨hpq, hrest⟩ := List.cons.inj e
          exact Ordering.then_eq_eq.mpr
            ⟨compare (first Value.everywhere_null sx) hpq, compareRest (rest sx) hrest⟩
        · intro sx sy horder
          obtain ⟨hhead, htail⟩ := Ordering.then_eq_eq.mp horder
          rw [tell (first Value.everywhere_null sx) (first Value.everywhere_null sy) hhead,
            tellRest (rest sx) (rest sy) htail]

theorem Concords.tuple {ts os : List DataType} (ht : t.shape = .tuple ts) (ho : o.shape = .tuple os)
    (h : List.Forall₂ r.Concords ts os) : r.Concords t o := by
  intro frozen a b x y hx hy
  obtain ⟨xs, rfl⟩ := Value.exists_of_encodeAs_tuple ht hx
  obtain ⟨ys, rfl⟩ := Value.exists_of_encodeAs_tuple ht hy
  obtain ⟨ps, hps, -, hx⟩ := (Value.encodeAs_positions ht).mp hx
  obtain ⟨qs, hqs, -, hy⟩ := (Value.encodeAs_positions ht).mp hy
  have hl : ps.length = qs.length := by
    rw [← hps.length_eq, ← hqs.length_eq, DataType.length_positions, DataType.length_positions]
  obtain ⟨compare, tell⟩ := concords_of_positions h hps hqs
  rw [Frame.payloads_eq_iff hx hy hl, DataType.order_shape, ho]
  constructor
  · exact fun sa => compare fun a ha => (Value.everywhere_tuple.mp sa a ha).2
  · exact fun sa sb => tell (fun a ha => (Value.everywhere_tuple.mp sa a ha).2)
      fun b hb => (Value.everywhere_tuple.mp sb b hb).2

theorem Concords.udt {declared udt : Udt} {types : FieldTypes} (ht : t.shape = .udt declared)
    (ho : o.shape = .udt ⟨udt.keyspace, udt.name, types⟩)
    (hu : r.lookup declared.keyspace declared.name = .ok udt)
    (h : List.Forall₂ (fun f g => f.1 = g.1 ∧ r.Concords f.2 g.2) udt.fields types) :
    r.Concords t o := by
  intro frozen a b x y hx hy
  obtain ⟨xs, ps, rfl, -, hps, hx⟩ := (Value.encodeAs_udt ht hu).mp hx
  obtain ⟨ys, qs, rfl, -, hqs, hy⟩ := (Value.encodeAs_udt ht hu).mp hy
  have inside {P : Value → Prop} (hnull : P .null) {fields : Fields} (hz : ∀ f ∈ fields, P f.2)
      (name : String) : P (fields.getD name) := Fields.getD_of_forall hnull hz name
  -- Each field has one encoding in both records exactly when the payloads agree throughout.
  have each := hps.forall_iff_eq hqs
    (T := fun f => encodeElement r f.2 (xs.getD f.1) = encodeElement r f.2 (ys.getD f.1))
    fun f _ p q hp hq => by rw [hp, hq, Except.ok.injEq]
  rw [hx.eq_iff hy hps.length_eq.symm hqs.length_eq.symm, ← each, DataType.order_shape, ho]
  constructor
  · intro sa e
    refine DataType.fieldsOrder_eq_iff.mpr fun g hg => ?_
    obtain ⟨d, hd, hname, hdg⟩ := h.exists_mem_left hg
    obtain ⟨p, -, hp⟩ := hps.exists_mem_right hd
    have sx := inside Value.everywhere_null (fun f hf => (Value.everywhere_record.mp sa f hf).2) d.1
    rw [← hname]
    exact (hdg.element hp (e d hd ▸ hp)).1 sx rfl
  · intro sa sb horder d hd
    obtain ⟨g, hg, hname, hdg⟩ := h.exists_mem_right hd
    obtain ⟨p, -, hp⟩ := hps.exists_mem_right hd
    obtain ⟨q, -, hq⟩ := hqs.exists_mem_right hd
    have sx := inside Value.everywhere_null (fun f hf => (Value.everywhere_record.mp sa f hf).2) d.1
    have sy := inside Value.everywhere_null (fun f hf => (Value.everywhere_record.mp sb f hf).2) d.1
    have hfield := DataType.fieldsOrder_eq_iff.mp horder g hg
    rw [← hname] at hfield
    rw [hp, hq, (hdg.element hp hq).2 sx sy hfield]

/-- The order of a type and its encodings tell the same values apart. -/
theorem concords (h : r.resolve t = .ok o) : r.Concords t o :=
  resolve_induct .leaf .list .set .map .tuple .udt h

end Registry

end CqlWire
