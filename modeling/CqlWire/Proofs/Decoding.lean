import CqlWire.Proofs.Frames

namespace CqlWire

section Distinct

variable {α β : Type} [BEq β] {key : α → β} {l : List α}

theorem distinctBy_sublist (key : α → β) (seen : List β) (l : List α) :
    (distinctBy key seen l).Sublist l := by
  induction l generalizing seen with
  | nil => exact .slnil
  | cons a l ih =>
    rw [distinctBy]
    split
    next => exact (ih seen).cons a
    next => exact (ih (key a :: seen)).cons_cons a

theorem mem_of_mem_distinctBy {a : α} {seen : List β} (h : a ∈ distinctBy key seen l) : a ∈ l :=
  (distinctBy_sublist key seen l).mem h

/-- For each item one with its key is kept, unless the key is given as seen. -/
theorem exists_mem_distinctBy [LawfulBEq β] {a : α} {seen : List β} (h : a ∈ l) :
    key a ∈ seen ∨ ∃ b ∈ distinctBy key seen l, key b = key a := by
  induction l generalizing seen with
  | nil => cases h
  | cons c l ih =>
    rw [distinctBy]
    split
    next hseen =>
      rcases List.mem_cons.mp h with rfl | h
      · exact .inl (by simpa using hseen)
      · exact ih h
    next =>
      rcases List.mem_cons.mp h with rfl | h
      · exact .inr ⟨a, List.mem_cons_self, rfl⟩
      · have rest : key a ∈ key c :: seen ∨ ∃ b ∈ distinctBy key (key c :: seen) l, key b = key a := ih h
        rcases rest with hs | ⟨b, hb, hkey⟩
        · rcases List.mem_cons.mp hs with hc | hs
          · exact .inr ⟨c, List.mem_cons_self, hc.symm⟩
          · exact .inl hs
        · exact .inr ⟨b, List.mem_cons_of_mem c hb, hkey⟩

/-- A list in which no key is repeated is kept whole. -/
theorem distinctBy_eq_self [LawfulBEq β] (h : l.Pairwise fun a b => key a ≠ key b) : distinctBy key [] l = l := by
  have unseen : ∀ (l : List α) (seen : List β), (l.Pairwise fun a b => key a ≠ key b) →
      (∀ a ∈ l, key a ∉ seen) → distinctBy key seen l = l := by
    intro l
    induction l with
    | nil => exact fun _ _ _ => rfl
    | cons a l ih =>
      intro seen h hseen
      obtain ⟨ha, h⟩ := List.pairwise_cons.mp h
      rw [distinctBy, if_neg (by simpa using hseen a (by simp)), ih _ h]
      intro b hb hmem
      rcases List.mem_cons.mp hmem with he | hmem
      · exact ha b hb he.symm
      · exact hseen b (by simp [hb]) hmem
  exact unseen l [] h (by simp)

end Distinct

namespace Value

variable {r : Registry} {t e k : DataType} {v : Value} {decode : Decoder} {slot : Slot}
  {ps : List Payload} {bytes : Bytes} {frozen : Bool} {depth : Nat}

/-- What decodes the values inside another one. -/
def decoder (r : Registry) (depth : Nat) : Decoder :=
  fun t bytes => decodeWithin r depth t true bytes

theorem ofPayload_of_ne_nil (h : bytes ≠ []) :
    ofPayload decode slot t (some bytes) = decode t bytes := by
  cases bytes with
  | nil => exact absurd rfl h
  | cons b bytes => rfl

theorem close_eq_ok {α : Type} {tail : Frame.Tail} {a b : α} :
    tail.close a = .ok b ↔ tail = .clean ∧ a = b := by
  cases tail <;> simp [Frame.Tail.close]

theorem decodeElements_eq_ok {elements : List (Payload × Value)} :
    decodeElements decode t ps = .ok elements ↔
      List.Forall₂ (fun p x => ofPayload decode .element t p = .ok x.2 ∧ p = x.1) ps elements := by
  rw [decodeElements, mapM_eq_ok]
  constructor
  · refine fun h => h.imp fun p x hx => ?_
    obtain ⟨y, hy, hx⟩ := bind_eq_ok.mp hx
    cases pure_eq_ok.mp hx
    exact ⟨hy, rfl⟩
  · refine fun h => h.imp fun p x ⟨hx, hp⟩ => ?_
    exact bind_eq_ok.mpr ⟨x.2, hx, by rw [hp]; rfl⟩

/-- An entry and the payloads that it is read from. -/
def ReadsEntry (decode : Decoder) (k t : DataType) (u : Payload × Payload)
    (e : Payload × Value × Value) : Prop :=
  e.1 = u.1 ∧ ofPayload decode .element k u.1 = .ok e.2.1 ∧
    ofPayload decode .element t u.2 = .ok e.2.2

theorem decodeEntries_of_forall₂ {pairs : List (Payload × Payload)}
    {entries : List (Payload × Value × Value)}
    (h : List.Forall₂ (ReadsEntry decode k t) pairs entries) :
    decodeEntries decode k t (pairs.flatMap fun u => [u.1, u.2]) = .ok entries := by
  induction h with
  | nil => rfl
  | cons hue _ ih =>
    obtain ⟨he, hk, ht⟩ := hue
    simp only [List.flatMap_cons, List.cons_append, List.nil_append, decodeEntries]
    refine bind_eq_ok.mpr ⟨_, hk, bind_eq_ok.mpr ⟨_, ht, bind_eq_ok.mpr ⟨_, ih, ?_⟩⟩⟩
    rw [← he]
    rfl

/-- Entries are read from pairs of payloads, after which one payload may be left. -/
theorem exists_pairs_of_decodeEntries {entries : List (Payload × Value × Value)}
    (h : decodeEntries decode k t ps = .ok entries) :
    ∃ (pairs : List (Payload × Payload)) (odd : Option Payload),
      ps = pairs.flatMap (fun u => [u.1, u.2]) ++ odd.toList ∧
        List.Forall₂ (ReadsEntry decode k t) pairs entries := by
  induction ps using decodeEntries.induct generalizing entries with
  | case1 =>
    cases pure_eq_ok.mp h
    exact ⟨[], none, rfl, .nil⟩
  | case2 p =>
    obtain ⟨_, -, h⟩ := bind_eq_ok.mp h
    cases pure_eq_ok.mp h
    exact ⟨[], some p, rfl, .nil⟩
  | case3 p q rest ih =>
    obtain ⟨key, hk, h⟩ := bind_eq_ok.mp h
    obtain ⟨value, ht, h⟩ := bind_eq_ok.mp h
    obtain ⟨entries, hrest, h⟩ := bind_eq_ok.mp h
    cases pure_eq_ok.mp h
    obtain ⟨pairs, odd, rfl, each⟩ := ih hrest
    exact ⟨(p, q) :: pairs, odd, rfl, .cons ⟨rfl, hk, ht⟩ each⟩

theorem exists_of_mem_decodeEntries {entries : List (Payload × Value × Value)}
    (h : decodeEntries decode k t ps = .ok entries) {x : Payload × Value × Value} (hx : x ∈ entries) :
    ∃ u, ReadsEntry decode k t u x := by
  obtain ⟨pairs, odd, -, each⟩ := exists_pairs_of_decodeEntries h
  obtain ⟨u, -, hu⟩ := each.exists_mem_left hx
  exact ⟨u, hu⟩

theorem decodePositions_of_forall₂ {ts : List DataType} {items : List Value}
    (hl : items.length = ts.length)
    (h : List.Forall₂ (fun x p => ofPayload decode slot x.1 p = .ok x.2) (ts.zip items) ps) :
    decodePositions decode slot ts ps = .ok items := by
  induction ts generalizing items ps with
  | nil =>
    rw [List.length_eq_zero_iff.mp hl]
    rfl
  | cons t ts ih =>
    obtain ⟨v, items, rfl⟩ := List.exists_cons_of_length_eq_add_one hl
    cases h with
    | cons hv h =>
      have hrest := ih (by simpa using hl) h
      exact bind_eq_ok.mpr ⟨v, hv, bind_eq_ok.mpr ⟨items, hrest, rfl⟩⟩

theorem decodePositions_forall₂ {ts : List DataType} {items : List Value}
    (h : decodePositions decode slot ts ps = .ok items) :
    List.Forall₂ (fun t x => ∃ p, ofPayload decode slot t p = .ok x) ts items := by
  induction ts generalizing items ps with
  | nil =>
    cases ps <;> cases pure_eq_ok.mp h <;> exact .nil
  | cons t ts ih =>
    cases ps with
    | nil =>
      cases pure_eq_ok.mp h
      exact List.forall₂_map_right_iff.mpr (List.forall₂_same.mpr fun _ _ => ⟨none, rfl⟩)
    | cons p ps =>
      obtain ⟨v, hv, h⟩ := bind_eq_ok.mp h
      obtain ⟨items, hrest, h⟩ := bind_eq_ok.mp h
      cases pure_eq_ok.mp h
      exact .cons ⟨p, hv⟩ (ih hrest)

section Shapes

attribute [local simp] decodeWithin

theorem decodeWithin_leaf {kind : Kind} (h : t.shape = .leaf kind) :
    decodeWithin r (depth + 1) t frozen bytes = Leaf.decode kind bytes := by
  simp only [decodeWithin, h]

theorem decodeWithin_list (h : t.shape = .list e) :
    decodeWithin r (depth + 1) t frozen bytes = .ok v ↔ ∃ ps elements,
      countedFrames 1 bytes = .ok (ps, .clean) ∧
      decodeElements (decoder r depth) e ps = .ok elements ∧ .list (elements.map Prod.snd) = v := by
  simp only [decodeWithin, h, bind_eq_ok, close_eq_ok]
  constructor
  · rintro ⟨⟨ps, tail⟩, hf, elements, he, rfl, rfl⟩
    exact ⟨ps, elements, hf, he, rfl⟩
  · rintro ⟨ps, elements, hf, he, rfl⟩
    exact ⟨(ps, .clean), hf, elements, he, rfl, rfl⟩

theorem decodeWithin_set (h : t.shape = .set e) :
    decodeWithin r (depth + 1) t frozen bytes = .ok v ↔ ∃ ps elements,
      countedFrames 1 bytes = .ok (ps, .clean) ∧
      decodeElements (decoder r depth) e ps = .ok elements ∧
      .set ((distinctBy (fun x => wireKey x.1 x.2) [] elements).map Prod.snd) = v := by
  simp only [decodeWithin, h, bind_eq_ok, close_eq_ok]
  constructor
  · rintro ⟨⟨ps, tail⟩, hf, elements, he, rfl, rfl⟩
    exact ⟨ps, elements, hf, he, rfl⟩
  · rintro ⟨ps, elements, hf, he, rfl⟩
    exact ⟨(ps, .clean), hf, elements, he, rfl, rfl⟩

theorem decodeWithin_map (h : t.shape = .map k e) :
    decodeWithin r (depth + 1) t frozen bytes = .ok v ↔ ∃ ps entries,
      countedFrames 2 bytes = .ok (ps, .clean) ∧
      decodeEntries (decoder r depth) k e ps = .ok entries ∧
      .map ((distinctBy (fun x => wireKey x.1 x.2.1) [] entries).map Prod.snd) = v := by
  simp only [decodeWithin, h, bind_eq_ok, close_eq_ok]
  constructor
  · rintro ⟨⟨ps, tail⟩, hf, entries, he, rfl, rfl⟩
    exact ⟨ps, entries, hf, he, rfl⟩
  · rintro ⟨ps, entries, hf, he, rfl⟩
    exact ⟨(ps, .clean), hf, entries, he, rfl, rfl⟩

theorem decodeWithin_tuple {ts : List DataType} (h : t.shape = .tuple ts) :
    decodeWithin r (depth + 1) t frozen bytes = .ok v ↔ ∃ ps items,
      Frame.read ts.length (.ofBytes bytes) = (ps, .clean) ∧
      decodePositions (decoder r depth) .position ts ps = .ok items ∧ .tuple items = v := by
  simp only [decodeWithin, h, bind_eq_ok, close_eq_ok]
  constructor
  · rintro ⟨items, he, ht, rfl⟩
    exact ⟨_, items, Prod.ext rfl ht, he, rfl⟩
  · rintro ⟨ps, items, hf, he, rfl⟩
    rw [hf]
    exact ⟨items, he, rfl, rfl⟩

/-- Where the frames of a record start. -/
def recordStart (counted : Bool) (udt : Udt) (bytes : Bytes) : Except Error Cursor :=
  if counted then skipFieldCount udt (.ofBytes bytes) else .ok (.ofBytes bytes)

theorem decodeWithin_udt {declared udt : Udt} (h : t.shape = .udt declared)
    (hu : r.lookup declared.keyspace declared.name = .ok udt) :
    decodeWithin r (depth + 1) t frozen bytes = .ok v ↔ ∃ start ps items,
      recordStart (!(frozen || t.isFrozen)) udt bytes = .ok start ∧
      Frame.read udt.fields.length start = (ps, .clean) ∧
      decodePositions (decoder r depth) .element (udt.fields.map Prod.snd) ps = .ok items ∧
      .record (Fields.ofList ((udt.fields.map Prod.fst).zip items)) = v := by
  simp only [decodeWithin, h, hu, bind_eq_ok, recordStart]
  cases frozen || t.isFrozen
  all_goals
    constructor
    · rintro ⟨_, ⟨⟩, h⟩
      obtain ⟨start, hs, h⟩ := bind_eq_ok.mp h
      obtain ⟨items, he, h⟩ := bind_eq_ok.mp h
      obtain ⟨ht, rfl⟩ := close_eq_ok.mp h
      exact ⟨start, _, items, hs, Prod.ext rfl ht, he, rfl⟩
    · rintro ⟨start, ps, items, hs, hf, he, rfl⟩
      refine ⟨udt, rfl, bind_eq_ok.mpr ⟨start, hs, ?_⟩⟩
      simp only [hf]
      exact bind_eq_ok.mpr ⟨items, he, rfl⟩

end Shapes

end Value

end CqlWire
