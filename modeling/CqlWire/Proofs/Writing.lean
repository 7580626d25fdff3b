import CqlWire.Proofs.Agreement
import CqlWire.Wire.Encode

namespace CqlWire

section Fixpoint

variable {α : Type _} {order : α → α → Ordering} {same : α → α → Bool} {l : List α}

/-- A list that increases is sorted already. -/
theorem sortBy_eq_self (h : l.Pairwise fun a b => order b a ≠ .lt) : sortBy order l = l := by
  have placed : ∀ (l acc : List α), (l.Pairwise fun a b => order b a ≠ .lt) →
      (∀ a ∈ l, ∀ b ∈ acc, order a b ≠ .lt) →
      l.foldl (fun sorted a => place order a sorted) acc = l.reverse ++ acc := by
    intro l
    induction l with
    | nil => exact fun _ _ _ => rfl
    | cons a l ih =>
      intro acc hs hacc
      obtain ⟨ha, hs⟩ := List.pairwise_cons.mp hs
      have hplace : place order a acc = a :: acc := by
        cases acc with
        | nil => rfl
        | cons b acc => rw [place, if_neg (hacc a (by simp) b (by simp))]
      rw [List.foldl_cons, hplace, ih (a :: acc) hs]
      · simp
      · intro b hb c hc
        rcases List.mem_cons.mp hc with rfl | hc
        · exact ha b hb
        · exact hacc b (by simp [hb]) c hc
  simp [sortBy, placed l [] h (by simp)]

/-- A list without neighbours that are the same is kept whole. -/
theorem collapse_eq_self (h : l.Pairwise fun a b => same b a = false) : collapse same l = l := by
  have after : ∀ (l : List α) (kept : α), ((kept :: l).Pairwise fun a b => same b a = false) →
      collapseAfter same kept l = l := by
    intro l
    induction l with
    | nil => exact fun _ _ => rfl
    | cons a l ih =>
      intro kept h
      obtain ⟨hk, h⟩ := List.pairwise_cons.mp h
      rw [collapseAfter, if_neg (by simp [hk a (by simp)]), ih a h]
  cases l with
  | nil => rfl
  | cons a l => rw [collapse, after l a h]

end Fixpoint

namespace Value

variable {α : Type} {o : DataType} {key : α → Value × Payload} {l m : List α} {a b : α}

theorem wireOrder_orderedOn (o : DataType) :
    OrderedOn (fun x : Value × Payload => o.Fits .comparable x.1) (wireOrder o) :=
  ((o.order_orderedOn).comap Prod.fst fun _ h => h).lex
    ((OrderedOn.compareOn Prod.snd).mono fun _ _ => trivial)

theorem wireOrder_eq_iff {x y : Value × Payload} :
    wireOrder o x y = .eq ↔ o.order x.1 y.1 = .eq ∧ x.2 = y.2 := by
  rw [wireOrder, Ordering.then_eq_eq, Std.LawfulEqOrd.compare_eq_iff_eq]

/-- The items of a list in the order in which their keys are written, each key encoding once. -/
def written (o : DataType) (key : α → Value × Payload) (l : List α) : List α :=
  collapse (fun a b => (key a).2 = (key b).2) (sortBy (fun a b => wireOrder o (key a) (key b)) l)

theorem mem_of_mem_written (h : a ∈ written o key l) : a ∈ l :=
  mem_sortBy.mp ((collapse_sublist _ _).subset h)

theorem length_written_le (o : DataType) (key : α → Value × Payload) (l : List α) :
    (written o key l).length ≤ l.length := by
  rw [← (sortBy_perm (fun a b => wireOrder o (key a) (key b)) l).length_eq]
  exact (collapse_sublist _ _).length_le

theorem exists_mem_written (o : DataType) (key : α → Value × Payload) (h : a ∈ l) :
    ∃ b ∈ written o key l, (key a).2 = (key b).2 := by
  rcases exists_mem_collapse (fun a b => (key a).2 = (key b).2) (mem_sortBy.mpr h) with hm | hm
  · exact ⟨a, hm, rfl⟩
  · obtain ⟨b, hb, e⟩ := hm
    exact ⟨b, hb, of_decide_eq_true e⟩

theorem exists_mem_of_written_eq
    (h : (written o key l).map (fun a => (key a).2) = (written o key m).map fun a => (key a).2)
    (ha : a ∈ l) : ∃ b ∈ m, (key a).2 = (key b).2 := by
  obtain ⟨c, hc, hac⟩ := exists_mem_written o key ha
  have hm : (key c).2 ∈ (written o key m).map fun a => (key a).2 :=
    h ▸ List.mem_map_of_mem (f := fun a => (key a).2) hc
  obtain ⟨b, hb, hbc⟩ := List.mem_map.mp hm
  exact ⟨b, mem_of_mem_written hb, hac.trans hbc.symm⟩

/-- Keys with the same encoding compare equal. -/
structure Coherent (o : DataType) (key : α → Value × Payload) (l : List α) : Prop where
  fits : ∀ a ∈ l, o.Fits .comparable (key a).1
  agree : ∀ a ∈ l, ∀ b ∈ l, (key a).2 = (key b).2 → o.order (key a).1 (key b).1 = .eq

theorem Coherent.subset (h : Coherent o key m) (hl : ∀ a ∈ l, a ∈ m) : Coherent o key l :=
  ⟨fun a ha => h.fits a (hl a ha), fun a ha b hb => h.agree a (hl a ha) b (hl b hb)⟩

namespace Coherent

theorem written (h : Coherent o key l) : Coherent o key (written o key l) :=
  h.subset fun _ => mem_of_mem_written

theorem wireOrder_eq (h : Coherent o key l) (ha : a ∈ l) (hb : b ∈ l) (e : (key a).2 = (key b).2) :
    wireOrder o (key a) (key b) = .eq :=
  wireOrder_eq_iff.mpr ⟨h.agree a ha b hb e, e⟩

/-- The keys written increase. -/
theorem written_pairwise (h : Coherent o key l) :
    (Value.written o key l).Pairwise fun a b => wireOrder o (key a) (key b) = .lt := by
  have ord := (wireOrder_orderedOn o).comap (R := fun a => o.Fits .comparable (key a).1) key fun _ h => h
  have hs : ∀ a ∈ sortBy (fun a b => wireOrder o (key a) (key b)) l, o.Fits .comparable (key a).1 :=
    fun a ha => h.fits a (mem_sortBy.mp ha)
  refine collapse_pairwise ord hs (fun a _ b _ e => ?_) (sortBy_pairwise ord h.fits)
  exact decide_eq_true (wireOrder_eq_iff.mp e).2.symm

theorem distinct_of_pairwise (h : Coherent o key l)
    (hs : l.Pairwise fun a b => wireOrder o (key a) (key b) = .lt) :
    l.Pairwise fun a b => (key a).2 ≠ (key b).2 := by
  refine hs.imp_of_mem fun {a b} ha hb hlt e => ?_
  rw [h.wireOrder_eq ha hb e] at hlt
  cases hlt

/-- Of the items whose keys have one encoding, the first is written. -/
theorem find?_written (h : Coherent o key l) (p : Payload) :
    (Value.written o key l).find? (fun a => (key a).2 = p) = l.find? fun a => (key a).2 = p := by
  unfold Value.written
  rw [find?_collapse, find?_sortBy]
  · intro a ha b hb ea eb
    exact h.wireOrder_eq ha hb ((of_decide_eq_true ea).trans (of_decide_eq_true eb).symm)
  · intro a _ b _ e ea
    exact decide_eq_true ((of_decide_eq_true e).symm.trans (of_decide_eq_true ea))

/-- Lists whose keys have the same encodings are written with the same encodings in turn. -/
theorem written_forall₂ (h : Coherent o key (l ++ m)) (hlm : ∀ a ∈ l, ∃ b ∈ m, (key a).2 = (key b).2)
    (hml : ∀ b ∈ m, ∃ a ∈ l, (key a).2 = (key b).2) :
    List.Forall₂ (fun a b => (key a).2 = (key b).2) (Value.written o key l)
      (Value.written o key m) := by
  have ord := (wireOrder_orderedOn o).comap (R := fun a => o.Fits .comparable (key a).1) key fun _ h => h
  have hl : Coherent o key l := h.subset fun a ha => List.mem_append_left m ha
  have hm : Coherent o key m := h.subset fun a ha => List.mem_append_right l ha
  have eq_of : ∀ a ∈ Value.written o key l, ∀ b ∈ Value.written o key m, (key a).2 = (key b).2 →
      wireOrder o (key a) (key b) = .eq := fun a ha b hb =>
    h.wireOrder_eq (List.mem_append_left m (mem_of_mem_written ha))
      (List.mem_append_right l (mem_of_mem_written hb))
  have pairs := ord.forall₂_of_covers hl.written.fits hm.written.fits hl.written_pairwise
    hm.written_pairwise
    (fun a ha => by
      obtain ⟨b, hb, hab⟩ := hlm a (mem_of_mem_written ha)
      obtain ⟨c, hc, hbc⟩ := exists_mem_written o key hb
      exact ⟨c, hc, eq_of a ha c hc (hab.trans hbc)⟩)
    (fun b hb => by
      obtain ⟨a, ha, hab⟩ := hml b (mem_of_mem_written hb)
      obtain ⟨c, hc, hac⟩ := exists_mem_written o key ha
      exact ⟨c, hc, eq_of c hc b hb (hac.symm.trans hab)⟩)
  exact pairs.imp fun a b e => (wireOrder_eq_iff.mp e).2

/-- Where each key of a second list has its encoding in the first, only the first matters. -/
theorem append (hl : ∀ a ∈ l, o.Fits .comparable (key a).1) (hm : ∀ b ∈ m, o.Fits .comparable (key b).1)
    (agree : ∀ a ∈ l, ∀ b ∈ l ++ m, (key a).2 = (key b).2 → o.order (key a).1 (key b).1 = .eq)
    (cover : ∀ b ∈ m, ∃ a ∈ l, (key a).2 = (key b).2) : Coherent o key (l ++ m) := by
  have ord := o.order_orderedOn
  have fits : ∀ a ∈ l ++ m, o.Fits .comparable (key a).1 := fun a ha =>
    (List.mem_append.mp ha).elim (hl a) (hm a)
  refine ⟨fits, fun a ha b hb e => ?_⟩
  have hc : ∃ c ∈ l, (key c).2 = (key a).2 := by
    rcases List.mem_append.mp ha with ha | ha
    · exact ⟨a, ha, rfl⟩
    · exact cover a ha
  obtain ⟨c, hc, hca⟩ := hc
  have oca := agree c hc a ha hca
  have ocb := agree c hc b hb (hca.trans e)
  exact ord.eq_trans (fits a ha) (hl c hc) (fits b hb) (ord.eq_symm (hl c hc) (fits a ha) oca) ocb

/-- What increases is written as it stands. -/
theorem written_eq_self (h : Coherent o key l)
    (hs : l.Pairwise fun a b => wireOrder o (key a) (key b) = .lt) : Value.written o key l = l := by
  have ord := wireOrder_orderedOn o
  have hsort : sortBy (fun a b => wireOrder o (key a) (key b)) l = l := by
    refine sortBy_eq_self (hs.imp_of_mem fun {a b} ha hb hlt => ?_)
    rw [ord.swap (h.fits a ha) (h.fits b hb), hlt]
    decide
  rw [Value.written, hsort]
  refine collapse_eq_self ((h.distinct_of_pairwise hs).imp fun {a b} hne => ?_)
  exact decide_eq_false hne.symm

/-- What is aligned with items that increase and has their encodings is written as it stands. -/
theorem written_of_forall₂ (h : Coherent o key (l ++ m))
    (hs : l.Pairwise fun a b => wireOrder o (key a) (key b) = .lt)
    (hlm : List.Forall₂ (fun a b => (key a).2 = (key b).2) l m) : Value.written o key m = m := by
  have ord := wireOrder_orderedOn o
  have hm : Coherent o key m := h.subset fun a ha => List.mem_append_right l ha
  have same : List.Forall₂ (fun a b => (o.Fits .comparable (key a).1 ∧ o.Fits .comparable (key b).1) ∧
      wireOrder o (key a) (key b) = .eq) l m :=
    hlm.imp_mem fun a ha b hb e =>
      have ha := List.mem_append_left m ha
      have hb := List.mem_append_right l hb
      ⟨⟨h.fits a ha, h.fits b hb⟩, h.wireOrder_eq ha hb e⟩
  refine hm.written_eq_self (same.pairwise hs fun a c b d ⟨⟨ha, hb⟩, hab⟩ ⟨⟨hc, hd⟩, hcd⟩ hac => ?_)
  rw [← ord.congr_left ha hb hd hab, ← ord.congr_right ha hc hd hcd]
  exact hac

end Coherent

theorem writtenElements_eq (o : DataType) (elements : List (Value × Payload)) :
    writtenElements o elements = written o id elements := rfl

theorem writtenEntries_eq (o : DataType) (entries : List ((Value × Payload) × Payload)) :
    writtenEntries o entries = written o Prod.fst entries := rfl

/-- The encoding of the value of a key in a map, both given by their encodings. -/
def payloadAt (encoded : List ((Value × Payload) × Payload)) (p : Payload) : Option Payload :=
  (encoded.find? fun u => u.1.2 = p).map Prod.snd

section Entries

variable {us vs : List ((Value × Payload) × Payload)} {p : Payload}

theorem payloadAt_eq_none : payloadAt us p = none ↔ ∀ u ∈ us, u.1.2 ≠ p := by
  simp [payloadAt]

theorem payloadAt_written (h : Coherent o Prod.fst us) (p : Payload) :
    payloadAt (written o Prod.fst us) p = payloadAt us p := by
  rw [payloadAt, h.find?_written p, payloadAt]

theorem payloadAt_of_distinct (h : us.Pairwise fun u v => u.1.2 ≠ v.1.2)
    {u : (Value × Payload) × Payload} (hu : u ∈ us) : payloadAt us u.1.2 = some u.2 := by
  obtain ⟨before, after, rfl⟩ := List.append_of_mem hu
  have hfind : (before ++ u :: after).find? (fun w => w.1.2 = u.1.2) = some u := by
    refine List.find?_eq_some_iff_append.mpr ⟨by simp, before, after, rfl, fun w hw => ?_⟩
    simpa using (List.pairwise_append.mp h).2.2 w hw u (by simp)
  rw [payloadAt, hfind]
  rfl

/-- The encodings of an entry. -/
def entryPayload (u : (Value × Payload) × Payload) : Payload × Payload :=
  (u.1.2, u.2)

theorem payloadAt_congr (h : us.map entryPayload = vs.map entryPayload) (p : Payload) :
    payloadAt us p = payloadAt vs p := by
  have pairs (ws : List ((Value × Payload) × Payload)) :
      payloadAt ws p = ((ws.map entryPayload).find? fun u => u.1 = p).map Prod.snd := by
    rw [List.find?_map, payloadAt, Option.map_map]
    rfl
  rw [pairs, pairs, h]

/-- Two maps are written alike when each key encoding has the same value encoding in both. -/
theorem Coherent.written_entries_iff (h : Coherent o Prod.fst (us ++ vs))
    (huv : ∀ u ∈ us, ∃ v ∈ vs, u.1.2 = v.1.2) (hvu : ∀ v ∈ vs, ∃ u ∈ us, u.1.2 = v.1.2) :
    (Value.written o Prod.fst us).map entryPayload = (Value.written o Prod.fst vs).map entryPayload ↔
      ∀ p, payloadAt us p = payloadAt vs p := by
  have hus : Coherent o Prod.fst us := h.subset fun u hu => List.mem_append_left vs hu
  have hvs : Coherent o Prod.fst vs := h.subset fun v hv => List.mem_append_right us hv
  constructor
  · intro hw p
    rw [← payloadAt_written hus, ← payloadAt_written hvs, payloadAt_congr hw]
  · intro hp
    have pairs := h.written_forall₂ huv hvu
    refine (pairs.imp_mem fun u hu v hv e => ?_).map_eq_map
    have hpu := payloadAt_of_distinct (hus.written.distinct_of_pairwise hus.written_pairwise) hu
    have hpv := payloadAt_of_distinct (hvs.written.distinct_of_pairwise hvs.written_pairwise) hv
    rw [payloadAt_written hus, hp, ← payloadAt_written hvs, e, hpv] at hpu
    exact Prod.ext e (Option.some.inj hpu).symm

theorem flatMap_entryPayload_inj :
    us.flatMap (fun u => [u.1.2, u.2]) = vs.flatMap (fun v => [v.1.2, v.2]) ↔
      us.map entryPayload = vs.map entryPayload := by
  induction us generalizing vs with
  | nil => cases vs <;> simp
  | cons u us ih =>
    cases vs with
    | nil => simp
    | cons v vs => simp [entryPayload, ih, and_assoc]

end Entries

end Value

end CqlWire
