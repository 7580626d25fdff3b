import CqlWire.Proofs.Interchange
import CqlWire.Proofs.Members
import CqlWire.Proofs.Separation
import CqlWire.Proofs.Spelling
import Mathlib.Data.List.Dedup
import Mathlib.Data.List.Pairwise

namespace CqlWire

open Value (countedFrames decode encodeElement ofPayload same unbounded wireKey)

theorem map_distinctBy {α β γ : Type} [BEq β] (key : γ → β) (f : α → γ) (seen : List β) (l : List α) :
    (distinctBy (fun a => key (f a)) seen l).map f = distinctBy key seen (l.map f) := by
  induction l generalizing seen with
  | nil => rfl
  | cons a l ih =>
    rw [List.map_cons, distinctBy, distinctBy]
    split
    next => exact ih seen
    next => rw [List.map_cons, ih]

theorem distinctBy_pairwise {α β : Type} [BEq β] [LawfulBEq β] (key : α → β) (l : List α) :
    (distinctBy key [] l).Pairwise fun a b => key a ≠ key b := by
  have unseen : ∀ (l : List α) (seen : List β), (∀ a ∈ distinctBy key seen l, key a ∉ seen) ∧
      (distinctBy key seen l).Pairwise fun a b => key a ≠ key b := by
    intro l
    induction l with
    | nil => exact fun _ => ⟨nofun, .nil⟩
    | cons a l ih =>
      intro seen
      rw [distinctBy]
      split
      next => exact ih seen
      next hnew =>
        obtain ⟨hout, hpair⟩ := ih (key a :: seen)
        refine ⟨List.forall_mem_cons.mpr ⟨by simpa using hnew, fun b hb hm => ?_⟩,
          List.pairwise_cons.mpr ⟨fun b hb he => ?_, hpair⟩⟩
        · exact hout b hb (List.mem_cons_of_mem _ hm)
        · exact hout b hb (he ▸ List.mem_cons_self)
  exact (unseen l []).2

variable {r : Registry} {t u k e o : DataType} {v : Value} {x y : Payload × Value}
  {bytes : Bytes} {nested : Bool}

namespace Registry

/-- The payload is read as the value of an element. -/
def Reads (r : Registry) (e : DataType) (x : Payload × Value) : Prop :=
  ofPayload (unbounded r) .element e x.1 = .ok x.2

/-- The payload is the encoding of the value, in which no list or set in the key of a map holds a
null. -/
def WrittenAs (r : Registry) (e : DataType) (x : Payload × Value) : Prop :=
  x.2.Settled ∧ encodeElement r e x.2 = .ok x.1

/-- What is kept of values that are read from payloads: one for each payload, one for all nulls. -/
structure Keeps (r : Registry) (e : DataType) (read kept : List (Payload × Value)) : Prop where
  reads : ∀ x ∈ read, r.Reads e x
  sublist : kept.Sublist read
  apart : kept.Pairwise fun x y => wireKey x.1 x.2 ≠ wireKey y.1 y.2
  covers : ∀ x ∈ read, ∃ y ∈ kept, wireKey y.1 y.2 = wireKey x.1 x.2

/-- The values that are kept of the ones that payloads are read as, their number the number of
different payloads. They are unequal exactly if no two different payloads are read as equal values.
That holds where the type is spelled once, and for any two payloads that are the encodings of what
they spell. -/
def ReadApart (r : Registry) (e : DataType) (ps : List Payload) (values : List Value) (n : Nat) : Prop :=
  ∃ read kept, r.Keeps e read kept ∧ read.map Prod.fst = ps ∧ kept.map Prod.snd = values ∧
    n = (read.map fun x => wireKey x.1 x.2).dedup.length ∧
    ((values.Pairwise fun a b => same a b = false) ↔ ∀ x ∈ read, ∀ y ∈ read,
      wireKey x.1 x.2 ≠ wireKey y.1 y.2 → same x.2 y.2 = false) ∧
    (e.SpelledOnce → values.Pairwise fun a b => same a b = false) ∧
    ∀ o, r.resolve e = .ok o →
      kept.Pairwise fun x y => r.WrittenAs e x → r.WrittenAs e y → same x.2 y.2 = false

theorem Reads.exists_bytes (h : r.Reads e x) (hn : x.2 ≠ .null) :
    ∃ body, x.1 = some body ∧ decode r e body true = .ok x.2 :=
  (Value.ofPayload_eq_ok h).resolve_left hn

/-- A value of a type that is spelled once tells its payload. -/
theorem Reads.payload_unique (hx : r.Reads e x) (hy : r.Reads e y) (he : e.SpelledOnce)
    (hs : same x.2 y.2 = true) : wireKey x.1 x.2 = wireKey y.1 y.2 := by
  obtain ⟨kind, hl, hk⟩ := he
  have ht := DataType.leaf?_eq_some.mp hl
  by_cases hn : x.2 = .null
  · rw [hn, Value.same_iff_of_isLeaf (a := .null) trivial] at hs
    rw [wireKey, wireKey, hn, ← hs]
    rfl
  · have hn' : y.2 ≠ .null := by
      intro hy
      rw [hy] at hs
      exact hn (Value.same_null_right.mp hs)
    obtain ⟨a, ha, hda⟩ := hx.exists_bytes hn
    obtain ⟨b, hb, hdb⟩ := hy.exists_bytes hn'
    rw [Value.decode_leaf ht] at hda hdb
    have heq := (Value.same_iff_of_isLeaf (Leaf.encode_of_decode hda).1.isLeaf).mp hs
    have hea := Leaf.encode_of_decode_of_spelledOnce hk hda
    have heb := Leaf.encode_of_decode_of_spelledOnce hk hdb
    rw [← heq, hea] at heb
    cases heb
    rw [heq, ha, hb]

theorem WrittenAs.wireKey_eq (h : r.WrittenAs e x) : wireKey x.1 x.2 = x.1 := by
  rw [wireKey]
  split
  next hn =>
    have he := h.2
    rw [Value.isNull_iff.mp hn] at he
    exact Except.ok.inj he
  next => rfl

theorem Reads.fits (hr : r.WellFormed) (ho : r.resolve e = .ok o) (h : r.Reads e x) :
    o.Fits .exact x.2 := by
  by_cases hn : x.2 = .null
  · rw [hn]
    exact DataType.fits_null _ o
  · obtain ⟨body, -, hd⟩ := h.exists_bytes hn
    exact (decodesInto hr ho _ true body _ hd).2.1.mono Strictness.encodable_implies_exact

theorem WrittenAs.payload_unique (hr : r.WellFormed) (ho : r.resolve e = .ok o) (hx : r.Reads e x)
    (hy : r.Reads e y) (wx : r.WrittenAs e x) (wy : r.WrittenAs e y) (hs : same x.2 y.2 = true) :
    wireKey x.1 x.2 = wireKey y.1 y.2 := by
  have hp := ((interchanges ho).element ((hx.fits hr ho).steady wx.1) (hy.fits hr ho) wx.2 wy.2).mp hs
  rw [wx.wireKey_eq, wy.wireKey_eq, hp]

/-- What tells payloads apart tells what they are read as. -/
theorem Reads.value_eq (hx : r.Reads e x) (hy : r.Reads e y) (hk : wireKey x.1 x.2 = wireKey y.1 y.2) :
    x.2 = y.2 := by
  have null {x : Payload × Value} (h : r.Reads e x) : wireKey x.1 x.2 = none ↔ x.2 = .null := by
    rw [wireKey]
    split
    next hn => exact iff_of_true rfl (Value.isNull_iff.mp hn)
    next hn =>
      refine ⟨fun hp => ?_, fun hv => absurd (Value.isNull_iff.mpr hv) hn⟩
      rw [Reads, hp] at h
      exact (Except.ok.inj h).symm
  by_cases hn : x.2 = .null
  · rw [hn, (null hy).mp (hk.symm.trans ((null hx).mpr hn))]
  · have hn' : y.2 ≠ .null := fun h => hn ((null hx).mp (hk.trans ((null hy).mpr h)))
    rw [wireKey, wireKey, if_neg (mt Value.isNull_iff.mp hn), if_neg (mt Value.isNull_iff.mp hn')] at hk
    rw [Reads, hk, hy] at hx
    exact (Except.ok.inj hx).symm

namespace Keeps

variable {read kept : List (Payload × Value)}

theorem reads_of_kept (h : r.Keeps e read kept) (hx : x ∈ kept) : r.Reads e x :=
  h.reads x (h.sublist.mem hx)

theorem length_eq (h : r.Keeps e read kept) :
    kept.length = (read.map fun x => wireKey x.1 x.2).dedup.length := by
  have keys : (kept.map fun x => wireKey x.1 x.2).Perm (read.map fun x => wireKey x.1 x.2).dedup := by
    refine (List.perm_ext_iff_of_nodup (List.pairwise_map.mpr h.apart) (List.nodup_dedup _)).mpr fun p => ?_
    rw [List.mem_dedup]
    constructor
    · exact fun hp => (h.sublist.map _).mem hp
    · intro hp
      obtain ⟨x, hx, rfl⟩ := List.mem_map.mp hp
      obtain ⟨y, hy, hkey⟩ := h.covers x hx
      exact List.mem_map.mpr ⟨y, hy, hkey⟩
  rw [← keys.length_eq, List.length_map]

theorem unequal_iff (h : r.Keeps e read kept) :
    (kept.Pairwise fun x y => same x.2 y.2 = false) ↔ ∀ x ∈ read, ∀ y ∈ read,
      wireKey x.1 x.2 ≠ wireKey y.1 y.2 → same x.2 y.2 = false := by
  constructor
  · intro hd x hx y hy hne
    obtain ⟨x', hx', hkx⟩ := h.covers x hx
    obtain ⟨y', hy', hky⟩ := h.covers y hy
    rw [← (h.reads_of_kept hx').value_eq (h.reads x hx) hkx,
      ← (h.reads_of_kept hy').value_eq (h.reads y hy) hky]
    have symm : Std.Symm fun x y : Payload × Value => same x.2 y.2 = false :=
      ⟨fun a b hab => Bool.eq_false_iff.mpr fun hs => Bool.eq_false_iff.mp hab (Value.same_symm hs)⟩
    refine hd.forall hx' hy' ?_
    rintro rfl
    exact hne (hkx.symm.trans hky)
  · exact fun hd => h.apart.imp_of_mem fun hx hy hne =>
      hd _ (h.sublist.mem hx) _ (h.sublist.mem hy) hne

theorem readApart (hr : r.WellFormed) (h : r.Keeps e read kept) :
    r.ReadApart e (read.map Prod.fst) (kept.map Prod.snd) kept.length := by
  refine ⟨read, kept, h, rfl, rfl, h.length_eq, List.pairwise_map.trans h.unequal_iff,
    fun he => List.pairwise_map.mpr ?_, fun o ho => ?_⟩
  · exact h.apart.imp_of_mem fun hx hy hne =>
      Bool.eq_false_iff.mpr fun hs => hne ((h.reads_of_kept hx).payload_unique (h.reads_of_kept hy) he hs)
  · exact h.apart.imp_of_mem fun hx hy hne wx wy => Bool.eq_false_iff.mpr fun hs =>
      hne (wx.payload_unique hr ho (h.reads_of_kept hx) (h.reads_of_kept hy) wy hs)

end Keeps

/-- The first value of each payload is kept. -/
theorem keeps_distinctBy {read : List (Payload × Value)} (h : ∀ x ∈ read, r.Reads e x) :
    r.Keeps e read (distinctBy (fun x => wireKey x.1 x.2) [] read) where
  reads := h
  sublist := distinctBy_sublist _ [] read
  apart := distinctBy_pairwise _ read
  covers _ hx := (exists_mem_distinctBy hx).resolve_left List.not_mem_nil

end Registry

namespace Encoded

theorem readApart_of_set {x : Encoded} {items : List Value} (hr : r.WellFormed)
    (h : x.decode r = .ok (.set items)) :
    ∃ e ps n, r.shape x.type = .ok (.set e) ∧ countedFrames 1 x.bytes = .ok (ps, .clean) ∧
      (Value.set items).size? = some n ∧ r.ReadApart e ps items n := by
  obtain ⟨s, ps, xs, hs, hps, hxs, hx⟩ := exists_parts id h
  cases s <;> cases hx
  next e =>
  rw [Shape.parts, ← Value.decodeElements_eq_mapM] at hxs
  have each := Value.decodeElements_eq_ok.mp hxs
  have reads : ∀ x ∈ xs, r.Reads e x := by
    intro x hx
    obtain ⟨p, -, hp, rfl⟩ := each.exists_mem_left hx
    exact hp
  have payloads : ps.map id = xs.map Prod.fst := (each.imp fun _ _ h => h.2).map_eq_map
  have apart := (Registry.keeps_distinctBy reads).readApart hr
  rw [← payloads, List.map_id] at apart
  exact ⟨e, ps, _, hs, hps, congrArg some (List.length_map _), apart⟩

theorem readApart_of_map {x : Encoded} {entries : List (Value × Value)} (hr : r.WellFormed)
    (h : x.decode r = .ok (.map entries)) :
    ∃ k e n, ∃ (pairs : List (Payload × Payload)) (odd : Option Payload),
      r.shape x.type = .ok (.map k e) ∧
      countedFrames 2 x.bytes = .ok (pairs.flatMap (fun u => [u.1, u.2]) ++ odd.toList, .clean) ∧
      (Value.map entries).size? = some n ∧
      r.ReadApart k (pairs.map Prod.fst) (entries.map Prod.fst) n := by
  obtain ⟨s, ps, xs, hs, hps, hxs, hx⟩ := exists_parts id h
  cases s <;> cases hx
  next k e =>
  have entries : Value.decodeEntries (unbounded r) k e ps = .ok (Shape.entriesOf xs) := by
    rw [Value.decodeEntries_eq_mapM]
    exact map_eq_ok.mpr ⟨xs, hxs, rfl⟩
  obtain ⟨pairs, odd, rfl, each⟩ := Value.exists_pairs_of_decodeEntries entries
  let keyOf (x : Payload × Value × Value) : Payload × Value := (x.1, x.2.1)
  have reads : ∀ x ∈ (Shape.entriesOf xs).map keyOf, r.Reads k x := by
    refine List.forall_mem_map.mpr fun x hx => ?_
    obtain ⟨u, -, hu, hkey, -⟩ := each.exists_mem_left hx
    rw [← hu] at hkey
    exact hkey
  have payloads : pairs.map Prod.fst = ((Shape.entriesOf xs).map keyOf).map Prod.fst := by
    rw [List.map_map]
    exact (each.imp fun _ _ h => h.1.symm).map_eq_map
  have apart := (Registry.keeps_distinctBy reads).readApart hr
  rw [← payloads, ← map_distinctBy, List.map_map, List.length_map] at apart
  refine ⟨k, e, _, pairs, odd, hs, hps, congrArg some (List.length_map _), ?_⟩
  rwa [List.map_map]

end Encoded

namespace Value

theorem read_element {body : Bytes} (hb : body ≠ []) (h : decode r e body true = .ok v) :
    Part.read (unbounded r) ⟨.element, e, some body⟩ = .ok (some body, v) := by
  rw [Part.read, ofPayload_of_ne_nil hb, unbounded, h]
  rfl

/-- Payloads of any content are laid out as a value that is made of what they spell. -/
theorem exists_decode_of_opens {s : Shape} {ps : List Payload} {head : Bytes}
    {xs : List (Payload × Value)} (hs : r.shape t = .ok s)
    (hopens : ∀ frozen, s.Opens frozen ps head)
    (hsmall : ∀ body, some body ∈ ps → body.length < Frame.limit)
    (hxs : (s.parts ps).mapM (Part.read (unbounded r)) = .ok xs) :
    ∃ bytes, ∀ nested, decode r t bytes nested = .ok (s.assemble xs) := by
  obtain ⟨body, hbody⟩ := Frame.exists_payloads ps hsmall
  exact ⟨head ++ body, fun nested =>
    decode_of_framed hs ⟨head, body, hopens _, hbody, rfl⟩ hxs⟩

/-- Two spellings of one value make a set with two equal elements and a map with two equal keys. -/
theorem exists_equal_members {s : Shape} (hs : r.shape e = .ok s) (he : ¬e.SpelledOnce) :
    ∃ a, (∃ bytes, ∀ nested, decode r (.set e) bytes nested = .ok (.set [a, a])) ∧
      ∀ f, ∃ bytes, ∀ nested, decode r (.map e f) bytes nested = .ok (.map [(a, .null), (a, .null)]) := by
  obtain ⟨x, y, a, hxy, hnil, hx, hy, ha, hdx, hdy⟩ := exists_two_spellings hs he
  have hxnil : x ≠ [] := fun h => hnil (by simp [h])
  have hynil : y ≠ [] := fun h => hnil (by simp [h])
  have hcount : Frame.count 2 = .ok (Bytes.ofNat lengthSize 2) :=
    Frame.count_eq_ok.mpr ⟨by decide, rfl⟩
  have hsmall : ∀ body, body = x ∨ body = y → body.length < Frame.limit := by
    rintro _ (rfl | rfl) <;> simp only [Frame.limit] <;> omega
  have key (p : Payload) : wireKey p a = p := by
    rw [wireKey, if_neg (mt isNull_iff.mp ha)]
  refine ⟨a, ?_, fun f => ?_⟩
  · have hxs : ((Shape.set e).parts [some x, some y]).mapM (Part.read (unbounded r)) =
        .ok [(some x, a), (some y, a)] :=
      mapM_eq_ok.mpr (.cons (read_element hxnil hdx) (.cons (read_element hynil hdy) .nil))
    have hopens (frozen : Bool) :
        (Shape.set e).Opens frozen [some x, some y] (Bytes.ofNat lengthSize 2) := hcount
    obtain ⟨bytes, hd⟩ := exists_decode_of_opens (s := .set e) (t := .set e) rfl hopens
      (fun body hb => hsmall body (by simpa using hb)) hxs
    rw [Shape.assemble, distinctBy_eq_self (by simp [key, hxy])] at hd
    exact ⟨bytes, hd⟩
  · have hxs : ((Shape.map e f).parts [some x, none, some y, none]).mapM (Part.read (unbounded r)) =
        .ok [(some x, a), (none, .null), (some y, a), (none, .null)] :=
      mapM_eq_ok.mpr (.cons (read_element hxnil hdx) (.cons rfl
        (.cons (read_element hynil hdy) (.cons rfl .nil))))
    have hopens (frozen : Bool) : (Shape.map e f).Opens frozen [some x, none, some y, none]
        (Bytes.ofNat lengthSize 2) := ⟨2, rfl, hcount⟩
    obtain ⟨bytes, hd⟩ := exists_decode_of_opens (s := .map e f) (t := .map e f) rfl hopens
      (fun body hb => hsmall body (by simpa using hb)) hxs
    rw [Shape.assemble, distinctBy_eq_self (by simp [Shape.entriesOf, key, hxy])] at hd
    exact ⟨bytes, hd⟩

/-- Which members a decoded set or map has: one for each different payload, at every depth. They
are unequal where the type is spelled once; for every other type there are a set and a map with two
equal members, whose payloads differ. -/
theorem decode_members_distinct (hr : r.WellFormed) :
    (∀ (x : Encoded) v, x.decode r = .ok v → ∀ w, Relation.ReflTransGen Value.Holds v w →
      w = .null ∨ ∃ y, Relation.ReflTransGen (Encoded.Encloses r) x y ∧ y.decode r = .ok w) ∧
    (∀ (x : Encoded) items, x.decode r = .ok (.set items) →
      ∃ e ps n, r.shape x.type = .ok (.set e) ∧ countedFrames 1 x.bytes = .ok (ps, .clean) ∧
        (Value.set items).size? = some n ∧ r.ReadApart e ps items n) ∧
    (∀ (x : Encoded) entries, x.decode r = .ok (.map entries) →
      ∃ k e n, ∃ (pairs : List (Payload × Payload)) (odd : Option Payload), r.shape x.type = .ok (.map k e) ∧
        countedFrames 2 x.bytes =
          .ok (pairs.flatMap (fun u => [u.1, u.2]) ++ odd.toList, .clean) ∧
        (Value.map entries).size? = some n ∧
        r.ReadApart k (pairs.map Prod.fst) (entries.map Prod.fst) n) ∧
    ∀ e s, r.shape e = .ok s → ¬e.SpelledOnce →
      ∃ a, (∃ bytes, ∀ nested, decode r (.set e) bytes nested = .ok (.set [a, a])) ∧
        ∀ f, ∃ bytes, ∀ nested,
          decode r (.map e f) bytes nested = .ok (.map [(a, .null), (a, .null)]) :=
  ⟨fun _ _ h _ hw => Encoded.exists_inside h hw, fun _ _ h => Encoded.readApart_of_set hr h,
    fun _ _ h => Encoded.readApart_of_map hr h, fun _ _ => exists_equal_members⟩

/-- A set in a list, with one payload twice, and a map with two spellings of one key. -/
theorem decode_members_distinct_in_list :
    let listed : Encoded := ⟨.list (.set (.leaf .tinyint)),
      [0, 0, 0, 1, 0, 0, 0, 19, 0, 0, 0, 3, 0, 0, 0, 1, 1, 0, 0, 0, 1, 2, 0, 0, 0, 1, 1], false⟩
    let items : List Value := [.tinyint 1, .tinyint 2]
    let spelled : Encoded := ⟨.map (.leaf .boolean) (.leaf .int),
      [0, 0, 0, 2, 0, 0, 0, 1, 1, 255, 255, 255, 255, 0, 0, 0, 1, 2, 255, 255, 255, 255], false⟩
    let entries : List (Value × Value) := [(.boolean true, .null), (.boolean true, .null)]
    (Registry.empty.WellFormed ∧ listed.decode .empty = .ok (.list [.set items]) ∧
      spelled.decode .empty = .ok (.map entries)) ∧
      (∃ x, Relation.ReflTransGen (Encoded.Encloses .empty) listed x ∧
        x.decode .empty = .ok (.set items)) ∧
      (items.Pairwise fun a b => same a b = false) ∧
      ¬(entries.map Prod.fst).Pairwise fun a b => same a b = false := by
  intro listed items spelled entries
  have hlisted : listed.decode .empty = .ok (.list [.set items]) := by
    unfold listed items Encoded.decode
    rfl
  have hspelled : spelled.decode .empty = .ok (.map entries) := by
    unfold spelled entries Encoded.decode
    rfl
  obtain ⟨inside, sets, -⟩ := decode_members_distinct Registry.wellFormed_empty
  have holds : Value.Holds (.list [.set items]) (.set items) := ⟨.listItem, List.mem_singleton_self _⟩
  refine ⟨⟨Registry.wellFormed_empty, hlisted, hspelled⟩, ?_, ?_, fun apart => ?_⟩
  · exact (inside listed _ hlisted _ (.single holds)).resolve_left nofun
  · obtain ⟨e, ps, n, hs, -, -, read, kept, -, -, -, -, -, distinct, -⟩ :=
      sets ⟨.set (.leaf .tinyint), [0, 0, 0, 2, 0, 0, 0, 1, 1, 0, 0, 0, 1, 2], true⟩ items rfl
    cases hs
    exact distinct ⟨.tinyint, rfl, rfl⟩
  · have hne := List.rel_of_pairwise_cons apart (List.mem_singleton_self _)
    rw [same_refl] at hne
    cases hne

end Value

end CqlWire
