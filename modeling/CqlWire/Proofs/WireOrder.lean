import CqlWire.Proofs.Concord
import Mathlib.Data.List.Dedup
import Mathlib.Data.List.Perm.Basic

namespace CqlWire

open Value (encode encodeAs encodeElement wireOrder)

variable {r : Registry} {t o e k l : DataType} {bytes : Bytes} {nested : Bool}

namespace Registry

/-- What is written of some keys: they increase in the order of their type and by payload where they
compare equal, and each payload of a key is written once. -/
structure WritesKeys (r : Registry) (t : DataType) (keys : List Value)
    (written : List (Value × Payload)) : Prop where
  increasing : ∃ o, r.resolve t = .ok o ∧ written.Pairwise fun a b => wireOrder o a b = .lt
  own : ∀ w ∈ written, w.1 ∈ keys ∧ encodeElement r t w.1 = .ok w.2
  covers : ∀ a ∈ keys, ∃ w ∈ written, encodeElement r t a = .ok w.2
  distinct : (written.map Prod.snd).Nodup
  count : ∃ ps, keys.mapM (encodeElement r t) = .ok ps ∧ written.length = ps.dedup.length

/-- What is written of a map's entries: their keys, each with the value of an entry that has it. -/
structure WritesEntries (r : Registry) (k e : DataType) (entries : List (Value × Value))
    (written : List ((Value × Payload) × Payload)) : Prop where
  keys : r.WritesKeys k (entries.map Prod.fst) (written.map Prod.fst)
  values : ∀ w ∈ written, ∃ x ∈ entries, w.1.1 = x.1 ∧ encodeElement r e x.2 = .ok w.2

section Keys

variable {β : Type} {key : β → Value × Payload} {keys : List Value} {us vs : List β}

theorem KeysAligned.coherent (hu : r.KeysAligned t key keys us) (hr : r.resolve t = .ok o)
    (hs : ∀ a ∈ keys, a.Settled) {others : List Value} (hv : r.KeysAligned t key others vs)
    (cover : ∀ v ∈ vs, ∃ u ∈ us, (key u).2 = (key v).2) : Value.Coherent o key (us ++ vs) :=
  (concords hr).coherent (hu.encoded hr) (hu.forall_key hs) (hv.encoded hr) cover

theorem KeysAligned.writesKeys (h : r.KeysAligned t key keys us) (hr : r.resolve t = .ok o)
    (hs : ∀ a ∈ keys, a.Settled) : r.WritesKeys t keys ((Value.written o key us).map key) := by
  have coherent : Value.Coherent o key us :=
    (h.coherent hr hs h fun u mu => ⟨u, mu, rfl⟩).subset fun u mu => List.mem_append_left us mu
  have increasing := coherent.written_pairwise
  have distinct := coherent.written.distinct_of_pairwise increasing
  have nodup : (((Value.written o key us).map key).map Prod.snd).Nodup := by
    rw [List.Nodup, List.pairwise_map, List.pairwise_map]
    exact distinct
  refine ⟨⟨o, hr, List.pairwise_map.mpr increasing⟩, List.forall_mem_map.mpr fun u mu => ?_,
    fun a ha => ?_, nodup, us.map fun u => (key u).2, ?_, ?_⟩
  · obtain ⟨a, ha, rfl, hp⟩ := h.exists_mem_left (Value.mem_of_mem_written mu)
    exact ⟨ha, hp⟩
  · obtain ⟨u, mu, -, hp⟩ := h.exists_mem_right ha
    obtain ⟨v, mv, huv⟩ := Value.exists_mem_written o key mu
    exact ⟨key v, List.mem_map_of_mem mv, huv ▸ hp⟩
  · rw [mapM_eq_ok, List.forall₂_map_right_iff]
    exact h.imp fun _ _ h => h.2
  · have members : ∀ p, p ∈ ((Value.written o key us).map key).map Prod.snd ↔
        p ∈ (us.map fun u => (key u).2).dedup := by
      intro p
      simp only [List.mem_dedup, List.mem_map, exists_exists_and_eq_and]
      constructor
      · rintro ⟨u, mu, rfl⟩
        exact ⟨u, Value.mem_of_mem_written mu, rfl⟩
      · rintro ⟨u, mu, rfl⟩
        obtain ⟨v, mv, huv⟩ := Value.exists_mem_written o key mu
        exact ⟨v, mv, huv.symm⟩
    have perm := (List.perm_ext_iff_of_nodup nodup (List.nodup_dedup _)).mpr members
    rw [← perm.length_eq, List.length_map, List.length_map, List.length_map]

end Keys

section Set

variable {items others : List Value} {elements : List (Value × Payload)}

/-- Elements that occur in both lists are written alike. -/
theorem encodeAs_set_congr (ht : t.shape = .set e) (hs : ∀ a ∈ items, a.Settled)
    (hm : ∀ a, a ∈ others ↔ a ∈ items) (h : encodeAs r (.set items) t frozen = .ok bytes) :
    encodeAs r (.set others) t frozen = .ok bytes := by
  obtain ⟨o, ho⟩ := Value.exists_resolve_of_encodeAs_set ht h
  obtain ⟨_, us, ⟨⟩, hus, hcounted⟩ := (Value.encodeAs_set ht ho).mp h
  have aligned : r.KeysAligned e id items us := hus
  obtain ⟨vs, hvs⟩ : ∃ vs, Value.elementPayloads r others e = .ok vs := by
    rw [Value.elementPayloads_eq_mapM]
    refine exists_mapM fun a ha => exists_map_iff.mpr ?_
    obtain ⟨u, -, -, hp⟩ := hus.exists_mem_right ((hm a).mp ha)
    exact ⟨u.2, hp⟩
  have aligned' : r.KeysAligned e id others vs := Value.elementPayloads_eq_ok.mp hvs
  have covers {xs ys : List Value} {ws zs : List (Value × Payload)} (hw : r.KeysAligned e id xs ws)
      (hz : r.KeysAligned e id ys zs) (sub : ∀ a ∈ ys, a ∈ xs) : ∀ z ∈ zs, ∃ w ∈ ws, w.2 = z.2 := by
    intro z mz
    obtain ⟨a, ha, -, hq⟩ := hz.exists_mem_left mz
    obtain ⟨w, mw, -, hp⟩ := hw.exists_mem_right (sub a ha)
    exact ⟨w, mw, Except.ok.inj (hp.symm.trans hq)⟩
  have cover := covers aligned aligned' fun a ha => (hm a).mp ha
  have coherent := aligned.coherent ho hs aligned' cover
  have alike : (Value.written o id us).map Prod.snd = (Value.written o id vs).map Prod.snd := by
    refine (coherent.written_forall₂ (fun u mu => ?_) cover).map_eq_map
    obtain ⟨v, mv, hvu⟩ := covers aligned' aligned (fun a ha => (hm a).mpr ha) u mu
    exact ⟨v, mv, hvu.symm⟩
  have length := congrArg List.length alike
  rw [List.length_map, List.length_map] at length
  rw [Value.writtenElements_eq, alike, length] at hcounted
  exact (Value.encodeAs_set ht ho).mpr ⟨others, vs, rfl, aligned', hcounted⟩

end Set

section Map

variable {entries others : List (Value × Value)} {x : Value × Value} {q : Payload}
  {us vs : List ((Value × Payload) × Payload)}

/-- Entries with the same first value for each key encoding are written alike. -/
theorem encodeAs_map_congr (ht : t.shape = .map k e) (ho : r.resolve k = .ok o)
    (hs : ∀ x ∈ entries, x.1.Settled) (hus : r.EntriesEncoded k e entries us)
    (hvs : r.EntriesEncoded k e others vs)
    (hp : ∀ p, Value.payloadAt us p = Value.payloadAt vs p)
    (h : encodeAs r (.map entries) t frozen = .ok bytes) :
    encodeAs r (.map others) t frozen = .ok bytes := by
  obtain ⟨_, ws, ⟨⟩, hws, hcounted⟩ := (Value.encodeAs_map ht ho).mp h
  have hwu : ws = us := by
    have hw := Value.entryPayloads_eq_ok.mpr hws
    rw [Value.entryPayloads_eq_ok.mpr hus] at hw
    exact (Except.ok.inj hw).symm
  subst hwu
  -- A key encoding has a value in both lists or in none.
  have covers {ws zs : List ((Value × Payload) × Payload)}
      (hp : ∀ p, Value.payloadAt ws p = Value.payloadAt zs p) : ∀ z ∈ zs, ∃ w ∈ ws, w.1.2 = z.1.2 := by
    intro z mz
    by_contra hne
    have none : Value.payloadAt ws z.1.2 = none :=
      Value.payloadAt_eq_none.mpr fun w mw hwz => hne ⟨w, mw, hwz⟩
    exact Value.payloadAt_eq_none.mp (hp z.1.2 ▸ none) z mz rfl
  have settled : ∀ a ∈ entries.map Prod.fst, a.Settled := List.forall_mem_map.mpr hs
  have cover := covers hp
  have coherent := hus.keysAligned.coherent ho settled hvs.keysAligned cover
  have alike := (coherent.written_entries_iff (fun u mu => ?_) cover).mpr hp
  · have length := congrArg List.length alike
    rw [List.length_map, List.length_map] at length
    rw [Value.writtenEntries_eq, Value.flatMap_entryPayload_inj.mpr alike, length] at hcounted
    exact (Value.encodeAs_map ht ho).mpr ⟨others, vs, rfl, hvs, hcounted⟩
  · obtain ⟨v, mv, hvu⟩ := covers (fun p => (hp p).symm) u mu
    exact ⟨v, mv, hvu.symm⟩

/-- Entries with different key encodings may stand in any order. -/
theorem encodeAs_map_perm (ht : t.shape = .map k e) (hs : ∀ x ∈ entries, x.1.Settled)
    (hd : entries.Pairwise fun x y => encodeElement r k x.1 ≠ encodeElement r k y.1)
    (hm : others.Perm entries) (h : encodeAs r (.map entries) t frozen = .ok bytes) :
    encodeAs r (.map others) t frozen = .ok bytes := by
  obtain ⟨o, ho⟩ := Value.exists_resolve_of_encodeAs_map ht h
  obtain ⟨_, us, ⟨⟩, hus, -⟩ := (Value.encodeAs_map ht ho).mp h
  obtain ⟨vs, hvs, hvu⟩ := List.perm_comp_forall₂ hm hus
  have distinct : us.Pairwise fun u v => u.1.2 ≠ v.1.2 := by
    refine hus.pairwise hd fun x y u v hxu hyv hne e => hne ?_
    rw [hxu.2.1, hyv.2.1, e]
  refine encodeAs_map_congr ht ho hs hus hvs (fun p => ?_) h
  by_cases hp : ∃ u ∈ us, u.1.2 = p
  · obtain ⟨u, mu, rfl⟩ := hp
    rw [Value.payloadAt_of_distinct distinct mu, Value.payloadAt_of_distinct
      (distinct.perm hvu.symm fun h => h.symm) (hvu.mem_iff.mpr mu)]
  · rw [Value.payloadAt_eq_none.mpr fun u mu e => hp ⟨u, mu, e⟩,
      Value.payloadAt_eq_none.mpr fun v mv e => hp ⟨v, hvu.mem_iff.mp mv, e⟩]

/-- An entry whose key encoding stands before it is not written. -/
theorem encodeAs_map_append (ht : t.shape = .map k e) (hs : ∀ x ∈ entries, x.1.Settled)
    (hx : ∃ y ∈ entries, encodeElement r k y.1 = encodeElement r k x.1)
    (hq : encodeElement r e x.2 = .ok q) (h : encodeAs r (.map entries) t frozen = .ok bytes) :
    encodeAs r (.map (entries ++ [x])) t frozen = .ok bytes := by
  obtain ⟨o, ho⟩ := Value.exists_resolve_of_encodeAs_map ht h
  obtain ⟨_, us, ⟨⟩, hus, -⟩ := (Value.encodeAs_map ht ho).mp h
  obtain ⟨y, hy, hyx⟩ := hx
  obtain ⟨u, mu, -, hp, -⟩ := hus.exists_mem_right hy
  have last : r.EntriesEncoded k e [x] [((x.1, u.1.2), q)] := .cons ⟨rfl, hyx ▸ hp, hq⟩ .nil
  refine encodeAs_map_congr ht ho hs hus (List.rel_append hus last) (fun p => ?_) h
  cases hfind : us.find? fun u => u.1.2 = p with
  | some v => rw [Value.payloadAt, Value.payloadAt, List.find?_append, hfind, Option.some_or]
  | none =>
    have hne : u.1.2 ≠ p := by simpa using List.find?_eq_none.mp hfind u mu
    rw [Value.payloadAt, Value.payloadAt, List.find?_append, hfind]
    simp [hne]

theorem EntriesEncoded.writesEntries (h : r.EntriesEncoded k e entries us) (ho : r.resolve k = .ok o)
    (hs : ∀ x ∈ entries, x.1.Settled) :
    r.WritesEntries k e entries (Value.written o Prod.fst us) := by
  refine ⟨h.keysAligned.writesKeys ho (List.forall_mem_map.mpr hs), fun u mu => ?_⟩
  obtain ⟨x, hx, hux, -, hq⟩ := h.exists_mem_left (Value.mem_of_mem_written mu)
  exact ⟨x, hx, hux, hq⟩

end Map

/-- A set whose elements are settled, in particular one without nulls in the lists and sets inside
them, is written in increasing order without repeats, and so is a map by its keys. The encoding is
the same for the elements in any order and repeated, for entries with different key encodings in any
order, and with another entry behind the one that has its key encoding. -/
theorem writes_in_order (r : Registry) (t : DataType) (nested : Bool) (bytes : Bytes) :
    (∀ e items, t.shape = .set e → (∀ a ∈ items, a.Settled) →
      encode r t (.set items) nested = .ok bytes →
        (∃ written, r.WritesKeys e items written ∧
          Frame.Counted written.length (written.map Prod.snd) bytes) ∧
        ∀ others, (∀ a, a ∈ others ↔ a ∈ items) → encode r t (.set others) nested = .ok bytes) ∧
    ∀ k e entries, t.shape = .map k e → (∀ x ∈ entries, x.1.Settled) →
      encode r t (.map entries) nested = .ok bytes →
        (∃ written, r.WritesEntries k e entries written ∧
          Frame.Counted written.length (written.flatMap fun w => [w.1.2, w.2]) bytes) ∧
        (∀ others, others.Perm entries →
          (entries.Pairwise fun x y => encodeElement r k x.1 ≠ encodeElement r k y.1) →
          encode r t (.map others) nested = .ok bytes) ∧
        ∀ x q, (∃ y ∈ entries, encodeElement r k y.1 = encodeElement r k x.1) →
          encodeElement r e x.2 = .ok q → encode r t (.map (entries ++ [x])) nested = .ok bytes := by
  simp only [Value.encode_eq_ok]
  refine ⟨fun e items ht hs ⟨_, h⟩ => ⟨?_, fun others hm => ?_⟩,
    fun k e entries ht hs ⟨_, h⟩ => ⟨?_, fun others hm hd => ?_, fun x q hx hq => ?_⟩⟩
  · obtain ⟨o, ho⟩ := Value.exists_resolve_of_encodeAs_set ht h
    obtain ⟨_, us, ⟨⟩, hus, hcounted⟩ := (Value.encodeAs_set ht ho).mp h
    have aligned : r.KeysAligned e id items us := hus
    have writes := aligned.writesKeys ho hs
    rw [List.map_id] at writes
    exact ⟨_, writes, hcounted⟩
  · exact ⟨nofun, encodeAs_set_congr ht hs hm h⟩
  · obtain ⟨o, ho⟩ := Value.exists_resolve_of_encodeAs_map ht h
    obtain ⟨_, us, ⟨⟩, hus, hcounted⟩ := (Value.encodeAs_map ht ho).mp h
    exact ⟨_, EntriesEncoded.writesEntries hus ho hs, hcounted⟩
  · exact ⟨nofun, encodeAs_map_perm ht hs hd hm h⟩
  · exact ⟨nofun, encodeAs_map_append ht hs hx hq h⟩

/-- Tuples with text of both variants, with and without their last item. -/
theorem writes_in_order_mixed :
    let k : DataType := .tuple [.leaf .text, .leaf .int]
    let a : Value := .tuple [.ascii "a"]
    let a' : Value := .tuple [.text "a", .null]
    let b : Value := .tuple [.text "b", .int 1]
    let r := Registry.empty
    (∃ bytes written, encode r (.set k) (.set [b, a, a']) false = .ok bytes ∧
      r.WritesKeys k [b, a, a'] written ∧
      Frame.Counted written.length (written.map Prod.snd) bytes ∧
      encode r (.set k) (.set [a', a, b, a]) false = .ok bytes) ∧
    ∃ bytes written, encode r (.map k k) (.map [(b, a), (a, b)]) true = .ok bytes ∧
      r.WritesEntries k k [(b, a), (a, b)] written ∧
      Frame.Counted written.length (written.flatMap fun w => [w.1.2, w.2]) bytes ∧
      encode r (.map k k) (.map [(a, b), (b, a)]) true = .ok bytes ∧
      encode r (.map k k) (.map [(b, a), (a, b), (a', a')]) true = .ok bytes := by
  intro k a a' b r
  have settled : ∀ v ∈ [b, a, a'], v.Settled := by
    simp [a, a', b, Value.Settled, Value.everywhere_of_isLeaf (v := .ascii _) trivial,
      Value.everywhere_of_isLeaf (v := .text _) trivial,
      Value.everywhere_of_isLeaf (v := .int _) trivial]
  constructor
  · obtain ⟨bytes, h⟩ : ∃ bytes, encode r (.set k) (.set [b, a, a']) false = .ok bytes := ⟨_, rfl⟩
    obtain ⟨⟨written, hw, hc⟩, congr⟩ :=
      (writes_in_order r (.set k) false bytes).1 k [b, a, a'] rfl settled h
    exact ⟨bytes, written, h, hw, hc, congr [a', a, b, a] (by simp; grind)⟩
  · obtain ⟨bytes, h⟩ : ∃ bytes, encode r (.map k k) (.map [(b, a), (a, b)]) true = .ok bytes :=
      ⟨_, rfl⟩
    obtain ⟨⟨written, hw, hc⟩, perm, append⟩ :=
      (writes_in_order r (.map k k) true bytes).2 k k [(b, a), (a, b)] rfl
        (by simpa using ⟨settled b (by simp), settled a (by simp)⟩) h
    refine ⟨bytes, written, h, hw, hc, perm _ (.swap _ _ _) ?_, append (a', a') _ ⟨(a, b), ?_, rfl⟩ rfl⟩
    · have hne : encodeElement r k b ≠ encodeElement r k a := by decide
      simpa using hne
    · simp

end Registry

end CqlWire
