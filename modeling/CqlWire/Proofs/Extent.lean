import CqlWire.Proofs.Collapse
import CqlWire.Proofs.Generation
import CqlWire.Proofs.Laying
import CqlWire.Proofs.Writing

namespace CqlWire

open Value (encodeAs encodeElement Lays)

theorem Varint.length_encode_le {n : Int} {k : Nat} (low : -2 ^ k ≤ n) (high : n < 2 ^ k) :
    (encode n).length ≤ k / 8 + 1 := by
  have cast : ((2 ^ k : Nat) : Int) = 2 ^ k := Int.natCast_pow 2 k
  have hm : magnitude n < 2 ^ k := by
    unfold magnitude
    split <;> omega
  have hb : bitLength (magnitude n) ≤ k := by
    unfold bitLength
    split
    · exact Nat.zero_le k
    · next h => exact (Nat.log2_lt h).mpr hm
  rw [encode, Bytes.length_ofInt, width]
  exact Nat.add_le_add_right (Nat.div_le_div_right hb) 1

theorem Text.length_toBytes_le (s : String) : (toBytes s).length ≤ 4 * s.length := by
  have each (l : List Char) : (l.flatMap String.utf8EncodeChar).length ≤ 4 * l.length := by
    induction l with
    | nil => exact Nat.le_refl 0
    | cons c l ih =>
      have hc : (String.utf8EncodeChar c).length ≤ 4 := by
        rw [String.length_utf8EncodeChar]
        exact c.utf8Size_le_four
      rw [List.flatMap_cons, List.length_append, List.length_cons]
      omega
  rw [toBytes_eq_flatMap, ← String.length_toList]
  exact each s.toList

namespace Frame

variable {count : Option Nat} {ps : List Payload} {bytes : Bytes} {frames m n : Nat}

/-- The length of a count and as many frames of payloads of a length. -/
def extent (frames n : Nat) : Nat :=
  lengthSize + frames * (lengthSize + n)

theorem extent_mono (h : m ≤ frames) : extent m n ≤ extent frames n :=
  Nat.add_le_add_left (Nat.mul_le_mul_right _ h) _

theorem lt_extent (h : 0 < frames) : n < extent frames n := by
  have hn : lengthSize + n ≤ frames * (lengthSize + n) := Nat.le_mul_of_pos_left _ h
  simp only [extent, lengthSize] at hn ⊢
  omega

theorem le_extent (frames n : Nat) : frames ≤ extent frames n := by
  have hf : frames ≤ frames * (lengthSize + n) :=
    Nat.le_mul_of_pos_right _ (by simp only [lengthSize]; omega)
  exact Nat.le_trans hf (Nat.le_add_left _ _)

theorem lt_limit_of_mem {α : Type} {a : α} {l : List α} (ha : a ∈ l) (hn : l.length ≤ frames)
    (hl : extent frames n < limit) : n < limit :=
  Nat.lt_trans (lt_extent (Nat.lt_of_lt_of_le (List.length_pos_of_mem ha) hn)) hl

theorem length_payloads_le (h : payloads ps = .ok bytes) (hp : ∀ p ∈ ps, (p.getD []).length ≤ n) :
    bytes.length ≤ ps.length * (lengthSize + n) := by
  induction ps generalizing bytes with
  | nil =>
    cases h
    exact Nat.zero_le _
  | cons p ps ih =>
    obtain ⟨frame, rest, hframe, hrest, rfl⟩ := payloads_cons_eq_ok.mp h
    have first := hp p List.mem_cons_self
    have others := ih hrest fun q hq => hp q (List.mem_cons_of_mem p hq)
    rw [List.length_append, length_payload hframe, List.length_cons, Nat.add_mul, Nat.one_mul]
    omega

/-- Short payloads that are few enough have frames. -/
theorem exists_laid_le (hc : ∀ m ∈ count, m ≤ frames) (hf : ps.length ≤ frames)
    (hp : ∀ p ∈ ps, (p.getD []).length ≤ n) (hl : extent frames n < limit) :
    ∃ bytes, laid count ps = .ok bytes ∧ bytes.length ≤ extent frames n := by
  obtain ⟨bytes, h⟩ : ∃ bytes, laid count ps = .ok bytes := by
    refine exists_laid_iff.mpr ⟨fun m hm => ?_, fun body hb => ?_⟩
    · exact Nat.lt_of_le_of_lt (Nat.le_trans (hc m hm) (le_extent frames n)) hl
    · exact Nat.lt_of_le_of_lt (hp _ hb) (lt_limit_of_mem hb hf hl)
  refine ⟨bytes, h, Nat.le_trans ?_ (extent_mono hf)⟩
  cases count with
  | none => exact Nat.le_trans (length_payloads_le h hp) (Nat.le_add_left _ _)
  | some m =>
    obtain ⟨head, hhead, h⟩ := bind_eq_ok.mp h
    obtain ⟨body, hbody, h⟩ := bind_eq_ok.mp h
    cases pure_eq_ok.mp h
    obtain ⟨-, rfl⟩ := count_eq_ok.mp hhead
    rw [List.length_append, Bytes.length_ofNat]
    exact Nat.add_le_add_left (length_payloads_le hbody hp) _

/-- Payloads that are short each by itself are a list of short payloads. -/
theorem exists_payloads_le {α : Type} {encode : α → Except Error Payload} {l : List α}
    (h : ∀ a ∈ l, ∃ p, encode a = .ok p ∧ (p.getD []).length ≤ n) :
    ∃ ps, List.Forall₂ (fun a p => encode a = .ok p) l ps ∧ ∀ p ∈ ps, (p.getD []).length ≤ n := by
  obtain ⟨ps, hps⟩ := exists_mapM fun a ha => (h a ha).imp fun _ h => h.1
  replace hps := mapM_eq_ok.mp hps
  refine ⟨ps, hps, fun p hp => ?_⟩
  obtain ⟨a, ha, hap⟩ := hps.exists_mem_left hp
  obtain ⟨q, hq, hle⟩ := h a ha
  cases hap.symm.trans hq
  exact hle

end Frame

namespace Random

variable {settings : Settings} {least : Nat} {kind : Kind} {t : DataType} {v : Value} {bytes : Bytes}

/-- A length that no encoding of a random leaf value exceeds. -/
def leafExtent (settings : Settings) : Nat :=
  max 16 (4 * settings.maxText)

theorem AllowsLength.le_leafExtent {n : Nat} (h : AllowsLength settings n) :
    4 * n ≤ leafExtent settings := by
  have hn := h.2
  simp only [leafExtent]
  omega

theorem length_encode_leaf_le (hv : kind.Holds v) (hs : Sized settings least v)
    (h : Leaf.encode kind v = .ok bytes) : bytes.length ≤ leafExtent settings := by
  have short {n : Nat} (hn : n ≤ 16) : n ≤ leafExtent settings := Nat.le_trans hn (Nat.le_max_left _ _)
  cases kind
  case empty =>
    cases hv
    cases h
    exact Nat.zero_le _
  all_goals obtain ⟨x, rfl⟩ := hv
  case ascii =>
    obtain ⟨-, rfl⟩ := Leaf.encodeAscii_eq_ok.mp h
    exact Nat.le_trans (Text.length_toBytes_le x) hs.le_leafExtent
  case text =>
    cases h
    exact Nat.le_trans (Text.length_toBytes_le x) hs.le_leafExtent
  case blob =>
    cases h
    exact Nat.le_trans (by omega) hs.le_leafExtent
  case time | timeuuid =>
    obtain ⟨_, -, h⟩ := bind_eq_ok.mp h
    cases h
    exact short (by simp [Uuid.toBytes])
  case varint =>
    cases h
    exact short (Varint.length_encode_le hs.1 hs.2)
  case decimal =>
    cases h
    have hu := Varint.length_encode_le hs.1 hs.2
    exact short (by rw [List.length_append, Bytes.length_ofInt]; omega)
  case inet =>
    cases h
    exact short (by cases x <;> simp [Address.toBytes])
  all_goals
    cases h
    exact short (by simp [Uuid.toBytes])

mutual

/-- A length that no encoding of a random value of a type exceeds. -/
def extent (settings : Settings) (least : Nat) : DataType → Nat
  | .leaf _ => leafExtent settings
  | .list t | .set t => Frame.extent (least + settings.maxExtra) (extent settings least t)
  | .map k t =>
    Frame.extent (2 * (least + settings.maxExtra))
      (max (extent settings least k) (extent settings least t))
  | .tuple ts => Frame.extent ts.length (extentOfEach settings least ts)
  | .udt _ _ fields => Frame.extent fields.length (extentOfFields settings least fields)
  | .frozen t => extent settings least t

def extentOfEach (settings : Settings) (least : Nat) : List DataType → Nat
  | [] => 0
  | t :: ts => max (extent settings least t) (extentOfEach settings least ts)

def extentOfFields (settings : Settings) (least : Nat) : List (String × DataType) → Nat
  | [] => 0
  | (_, t) :: fields => max (extent settings least t) (extentOfFields settings least fields)

end

theorem extentOfFields_eq (types : FieldTypes) :
    extentOfFields settings least types = extentOfEach settings least (types.map Prod.snd) := by
  induction types with
  | nil => rfl
  | cons f types ih => rw [extentOfFields, ih, List.map_cons, extentOfEach]

theorem extent_le_of_mem (settings : Settings) (least : Nat) {ts : List DataType} (h : t ∈ ts) :
    extent settings least t ≤ extentOfEach settings least ts := by
  induction ts with
  | nil => cases h
  | cons u ts ih =>
    rcases List.mem_cons.mp h with rfl | h
    · exact Nat.le_max_left _ _
    · exact Nat.le_trans (ih h) (Nat.le_max_right _ _)

theorem extent_shape (settings : Settings) (least : Nat) (t : DataType) :
    extent settings least t = extent settings least t.shape.toType := by
  induction t with
  | frozen t ih => exact ih
  | _ => rfl

end Random

namespace Registry

open CqlWire.Random (Drawn extent)

variable {settings : Settings} {least : Nat} {r : Registry} {t o e f k l w : DataType} {v : Value}
  {p : Payload} {items : List Value}

/-- The random values of a type have an encoding no longer than its extent, if that is less than 31
bits. -/
def Spans (r : Registry) (settings : Settings) (least : Nat) (t o : DataType) : Prop :=
  ∀ (frozen : Bool) (v : Value), Drawn settings least o v → extent settings least o < Frame.limit →
    ∃ bytes, encodeAs r v t frozen = .ok bytes ∧ bytes.length ≤ extent settings least o

namespace Spans

theorem element (h : r.Spans settings least t o) (hv : Drawn settings least o v)
    (hl : extent settings least o < Frame.limit) :
    ∃ p, encodeElement r t v = .ok p ∧ (p.getD []).length ≤ extent settings least o := by
  obtain ⟨bytes, hb, hle⟩ := h true v hv hl
  exact ⟨some bytes, (Value.encodeElement_of_ne_null hv.ne_null).mpr ⟨bytes, hb, rfl⟩, hle⟩

theorem length_le (h : r.Spans settings least t o) (hv : Drawn settings least o v)
    (hl : extent settings least o < Frame.limit) (hp : encodeElement r t v = .ok p) :
    (p.getD []).length ≤ extent settings least o := by
  obtain ⟨q, hq, hle⟩ := h.element hv hl
  cases hp.symm.trans hq
  exact hle

/-- Where few and short payloads are laid out, their frames are no longer than the extent. -/
theorem of_lays (ho : o.shape.toType = f) {frames n : Nat}
    (hf : extent settings least f = Frame.extent frames n)
    (h : ∀ (frozen : Bool) (v : Value), Drawn settings least f v → Frame.extent frames n < Frame.limit →
      ∃ count ps, Lays r t frozen v count ps ∧ (∀ m ∈ count, m ≤ frames) ∧ ps.length ≤ frames ∧
        ∀ p ∈ ps, (p.getD []).length ≤ n) : r.Spans settings least t o := by
  intro frozen v hv hl
  rw [Random.drawn_shape, ho] at hv
  rw [Random.extent_shape, ho, hf] at hl ⊢
  obtain ⟨count, ps, lays, hcount, hframes, hp⟩ := h frozen v hv hl
  rw [lays.encodeAs_eq]
  exact Frame.exists_laid_le hcount hframes hp hl

theorem leaf {kind : Kind} (ht : t.shape = .leaf kind) (ho : o.shape = .leaf kind) :
    r.Spans settings least t o := by
  intro frozen v hv _
  rw [Random.drawn_shape, ho] at hv
  obtain ⟨holds, bytes, hb⟩ := hv.fits.resolve_left hv.ne_null
  rw [Random.extent_shape, ho]
  exact ⟨bytes, by rw [Value.encodeAs_leaf ht, hb], Random.length_encode_leaf_le holds hv.sized.1 hb⟩

theorem list (ht : t.shape = .list e) (ho : o.shape = .list f) (h : r.Spans settings least e f) :
    r.Spans settings least t o := by
  refine of_lays (congrArg Shape.toType ho) rfl fun frozen v hv hl => ?_
  obtain ⟨items, rfl, ⟨-, hn⟩, each⟩ := Random.drawn_list_iff.mp hv
  obtain ⟨ps, hps, short⟩ := Frame.exists_payloads_le fun x hx =>
    h.element (each x hx) (Frame.lt_limit_of_mem hx hn hl)
  refine ⟨_, ps, .list ht hps, ?_, hps.length_eq ▸ hn, short⟩
  rintro _ ⟨⟩
  exact hn

theorem set (ht : t.shape = .set e) (ho : o.shape = .set f) (hr : r.resolve e = .ok f)
    (h : r.Spans settings least e f) : r.Spans settings least t o := by
  refine of_lays (congrArg Shape.toType ho) rfl fun frozen v hv hl => ?_
  obtain ⟨items, rfl, hn, -, each⟩ := Random.drawn_set_iff.mp hv
  have inner : ∀ x ∈ items, extent settings least f < Frame.limit := fun x hx =>
    Frame.lt_limit_of_mem hx hn hl
  obtain ⟨elements, he⟩ : ∃ elements, Value.elementPayloads r items e = .ok elements := by
    rw [Value.elementPayloads_eq_mapM]
    exact exists_mapM fun x hx => exists_map_iff.mpr
      ((h.element (each x hx) (inner x hx)).imp fun _ h => h.1)
  have aligned := Value.elementPayloads_eq_ok.mp he
  have few : (Value.writtenElements f elements).length ≤ least + settings.maxExtra :=
    Nat.le_trans (Value.length_written_le f id elements) (aligned.length_eq ▸ hn)
  refine ⟨_, _, .set ht hr he, ?_, by rwa [List.length_map], List.forall_mem_map.mpr fun x hx => ?_⟩
  · rintro _ ⟨⟩
    exact few
  · obtain ⟨a, ha, -, hp⟩ := aligned.exists_mem_left (Value.mem_of_mem_written hx)
    exact h.length_le (each a ha) (inner a ha) hp

theorem map (ht : t.shape = .map k e) (ho : o.shape = .map l w) (hr : r.resolve k = .ok l)
    (hk : r.Spans settings least k l) (he : r.Spans settings least e w) :
    r.Spans settings least t o := by
  refine of_lays (congrArg Shape.toType ho) rfl fun frozen v hv hl => ?_
  obtain ⟨entries, rfl, ⟨hn, -, keys⟩, values⟩ := Random.drawn_map_iff.mp hv
  rw [List.length_map] at hn
  replace keys := List.forall_mem_map.mp keys
  have inner : ∀ x ∈ entries, extent settings least l < Frame.limit ∧ extent settings least w < Frame.limit := by
    exact fun x hx => max_lt_iff.mp (Frame.lt_limit_of_mem hx (by omega) hl)
  obtain ⟨encoded, henc⟩ : ∃ encoded, Value.entryPayloads r entries k e = .ok encoded := by
    rw [Value.entryPayloads_eq_mapM]
    refine exists_mapM fun x hx => ?_
    obtain ⟨p, hp, -⟩ := hk.element (keys x hx) (inner x hx).1
    obtain ⟨q, hq, -⟩ := he.element (values x hx) (inner x hx).2
    exact ⟨_, bind_eq_ok.mpr ⟨p, hp, bind_eq_ok.mpr ⟨q, hq, rfl⟩⟩⟩
  have aligned := Value.entryPayloads_eq_ok.mp henc
  have few : (Value.writtenEntries l encoded).length ≤ least + settings.maxExtra :=
    Nat.le_trans (Value.length_written_le l Prod.fst encoded) (aligned.length_eq ▸ hn)
  refine ⟨_, _, .map ht hr henc, ?_, ?_, fun p hp => ?_⟩
  · rintro _ ⟨⟩
    omega
  · simp only [List.length_flatMap, List.length_cons, List.length_nil, List.map_const',
      List.sum_replicate_nat]
    omega
  · obtain ⟨u, hu, hp⟩ := List.mem_flatMap.mp hp
    obtain ⟨x, hx, -, hkey, hvalue⟩ := aligned.exists_mem_left (Value.mem_of_mem_written hu)
    rcases List.mem_pair.mp hp with rfl | rfl
    · exact Nat.le_trans (hk.length_le (keys x hx) (inner x hx).1 hkey) (Nat.le_max_left _ _)
    · exact Nat.le_trans (he.length_le (values x hx) (inner x hx).2 hvalue) (Nat.le_max_right _ _)

theorem tuple {ts os : List DataType} (ht : t.shape = .tuple ts) (ho : o.shape = .tuple os)
    (h : List.Forall₂ (r.Spans settings least) ts os) : r.Spans settings least t o := by
  refine of_lays (congrArg Shape.toType ho) rfl fun frozen v hv hl => ?_
  obtain ⟨items, rfl, drawn⟩ := Random.drawn_tuple_iff.mp hv
  have hlen : items.length = ts.length := drawn.length_eq.symm.trans h.length_eq.symm
  have each : ∀ x ∈ DataType.positions ts items, ∃ p, encodeElement r x.1 x.2 = .ok p ∧
      (p.getD []).length ≤ Random.extentOfEach settings least os := by
    intro x hx
    rcases DataType.eq_null_or_mem_zip hx with hnull | hx
    · exact ⟨none, by rw [hnull, Value.encodeElement_null], Nat.zero_le _⟩
    · obtain ⟨o, mo, hspans, hdrawn⟩ := (List.forall₂_iff_zip.mp (h.comp drawn)).2 hx
      have hle := Random.extent_le_of_mem settings least mo
      obtain ⟨p, hp, hple⟩ := hspans.element hdrawn
        (Nat.lt_of_le_of_lt hle (Frame.lt_limit_of_mem mo (Nat.le_refl _) hl))
      exact ⟨p, hp, Nat.le_trans hple hle⟩
  obtain ⟨ps, hps, short⟩ := Frame.exists_payloads_le each
  refine ⟨none, ps, .tuple ht (Nat.le_of_eq hlen) hps, nofun, ?_, short⟩
  rw [← hps.length_eq, DataType.length_positions, h.length_eq]

theorem udt {declared udt : Udt} {types : FieldTypes} (ht : t.shape = .udt declared)
    (ho : o.shape = .udt ⟨udt.keyspace, udt.name, types⟩)
    (hu : r.lookup declared.keyspace declared.name = .ok udt)
    (h : List.Forall₂ (fun f g => f.1 = g.1 ∧ r.Spans settings least f.2 g.2) udt.fields types) :
    r.Spans settings least t o := by
  refine of_lays (congrArg Shape.toType ho) rfl fun frozen v hv hl => ?_
  obtain ⟨fields, rfl, ⟨-, known⟩, drawn⟩ := Random.drawn_udt_iff.mp hv
  have names : udt.fields.map Prod.fst = types.map Prod.fst := (h.imp fun _ _ h => h.1).map_eq_map
  have each : ∀ f ∈ udt.fields, ∃ p, encodeElement r f.2 (Fields.getD fields f.1) = .ok p ∧
      (p.getD []).length ≤ Random.extentOfFields settings least types := by
    intro f hf
    obtain ⟨g, hg, hname, hspans⟩ := h.exists_mem_right hf
    have hle := Random.extent_le_of_mem settings least (List.mem_map_of_mem (f := Prod.snd) hg)
    rw [← Random.extentOfFields_eq] at hle
    obtain ⟨p, hp, hple⟩ := hspans.element (hname ▸ drawn g hg)
      (Nat.lt_of_le_of_lt hle (Frame.lt_limit_of_mem hg (Nat.le_refl _) hl))
    exact ⟨p, hp, Nat.le_trans hple hle⟩
  obtain ⟨ps, hps, short⟩ := Frame.exists_payloads_le each
  refine ⟨_, ps, .record ht hu (names ▸ known) rfl hps, fun m hm => ?_, ?_, short⟩
  · split at hm
    · cases hm
    · cases hm
      exact h.length_eq.le
  · rw [← hps.length_eq, h.length_eq]

end Spans

/-- The random values of a type have an encoding, if the extent of the type is small enough. -/
theorem spans (settings : Settings) (least : Nat) (h : r.resolve t = .ok o) :
    r.Spans settings least t o :=
  resolve_induct .leaf .list .set .map .tuple .udt h

end Registry

end CqlWire
