import CqlWire.Proofs.Encoding
import CqlWire.Proofs.Faults
import CqlWire.Proofs.Writing

namespace CqlWire

open Value (decode encodeAs encodeElement encodePositions RecordFrames unbounded)

namespace Leaf

/-- A leaf encoder writes the encodings of values of its kind only. -/
theorem exists_holds_of_encode {kind : Kind} {v : Value} {bytes : Bytes}
    (h : encode kind v = .ok bytes) : ∃ w, kind.Holds w ∧ encode kind w = .ok bytes := by
  unfold encode at h
  split at h
  case h_22 => cases h
  case h_2 s | h_4 s => exact ⟨_, ⟨s, rfl⟩, h⟩
  case h_21 => exact ⟨_, rfl, h⟩
  all_goals exact ⟨_, ⟨_, rfl⟩, h⟩

end Leaf

variable {r : Registry} {t e k : DataType} {s : Shape} {v : Value} {ps : List Payload}
  {bytes head body : Bytes} {frozen : Bool}

/-- A payload is written for some value of the type, or for null. -/
def Registry.Writes (r : Registry) (t : DataType) (p : Payload) : Prop :=
  ∃ v, encodeElement r t v = .ok p

namespace Shape

/-- Payloads are as many as a value of the shape can have, and the bytes before their frames are
those that belong there. -/
def Opens (frozen : Bool) (ps : List Payload) (head : Bytes) : Shape → Prop
  | leaf _ => False
  | list _ | set _ => Frame.count ps.length = .ok head
  | map _ _ => ∃ n, ps.length = n * 2 ∧ Frame.count n = .ok head
  | tuple ts => ps.length = ts.length ∧ head = []
  | udt u => ps.length = u.fields.length ∧
    (if frozen then .ok [] else Frame.count u.fields.length) = .ok head

/-- The bytes are the frames of payloads behind what belongs before them. -/
def Framed (frozen : Bool) (ps : List Payload) (bytes : Bytes) (s : Shape) : Prop :=
  ∃ head body, s.Opens frozen ps head ∧ Frame.payloads ps = .ok body ∧ head ++ body = bytes

/-- The number of bytes before the frames. -/
def headSize (frozen : Bool) (s : Shape) : Nat :=
  if s.isCounted frozen then lengthSize else 0

theorem Opens.isComposite (h : s.Opens frozen ps head) : s.IsComposite := by
  cases s with
  | leaf kind => exact h
  | _ => trivial

theorem length_count {n : Nat} (h : Frame.count n = .ok head) : head.length = lengthSize := by
  obtain ⟨-, rfl⟩ := Frame.count_eq_ok.mp h
  exact Bytes.length_ofNat _ _

theorem Opens.length_eq (h : s.Opens frozen ps head) : head.length = s.headSize frozen := by
  cases s with
  | leaf kind => exact h.elim
  | list e | set e => exact length_count h
  | map k e =>
    obtain ⟨n, -, hc⟩ := h
    exact length_count hc
  | tuple ts => exact congrArg List.length h.2
  | udt u =>
    obtain ⟨-, hc⟩ := h
    cases frozen with
    | true =>
      cases hc
      rfl
    | false => exact length_count hc

theorem Opens.payloads_eq (h : s.Opens frozen ps head) : (s.parts ps).map Part.payload = ps := by
  refine (payloads_parts s ps).eq_of_length ?_
  cases s with
  | leaf kind => exact h.elim
  | list e | set e => rw [parts, List.length_map, List.length_map]
  | map k e => rw [parts, payloads_inTurn]
  | tuple ts => simp [parts, h.1]
  | udt u => simp [parts, h.1]

theorem countedFrames_head {n width : Nat} (h : Frame.count n = .ok head) (body : Bytes) :
    Value.countedFrames width (head ++ body) =
      .ok (Frame.read (n * width) ⟨head.length, body⟩) := by
  have hcount := Reading.count_append 0 body h
  have hlen : Cursor.hasLength (.ofBytes (head ++ body)) = true := by
    simp [Cursor.hasLength, Cursor.remaining, Cursor.ofBytes, length_count h]
  simp only [Value.countedFrames, hlen, if_true]
  rw [Cursor.ofBytes, hcount, length_count h, Nat.zero_add]

/-- The frames are read from where they start, whatever bytes stand there. -/
theorem Opens.frames (h : s.Opens frozen ps head) (body : Bytes) :
    s.frames frozen (head ++ body) = .ok (Frame.read ps.length ⟨head.length, body⟩) := by
  cases s with
  | leaf kind => exact h.elim
  | list e | set e =>
    rw [Shape.frames, countedFrames_head h, Nat.mul_one]
  | map k e =>
    obtain ⟨n, hn, hc⟩ := h
    rw [Shape.frames, countedFrames_head hc, hn]
  | tuple ts =>
    obtain ⟨hl, rfl⟩ := h
    rw [hl]
    rfl
  | udt u =>
    obtain ⟨hl, hc⟩ := h
    rw [Shape.frames, hl, Value.recordStart]
    cases frozen with
    | true =>
      cases hc
      rfl
    | false =>
      replace hc : Frame.count u.fields.length = .ok head := hc
      have hstart : Value.skipFieldCount u (.ofBytes (head ++ body)) = .ok ⟨lengthSize, body⟩ :=
        Value.skipFieldCount_eq_ok.mpr (.inr ⟨head, body, hc, rfl, rfl⟩)
      rw [length_count hc]
      exact map_eq_ok.mpr ⟨_, hstart, rfl⟩

namespace Framed

theorem isComposite (h : s.Framed frozen ps bytes) : s.IsComposite := by
  obtain ⟨head, body, hopens, -, -⟩ := h
  exact hopens.isComposite

theorem payloads_eq (h : s.Framed frozen ps bytes) : (s.parts ps).map Part.payload = ps := by
  obtain ⟨head, body, hopens, -, -⟩ := h
  exact hopens.payloads_eq

theorem frames (h : s.Framed frozen ps bytes) : s.frames frozen bytes = .ok (ps, .clean) := by
  obtain ⟨head, body, hopens, hbody, rfl⟩ := h
  rw [hopens.frames, Frame.read_payloads _ hbody]

end Framed

/-- Bytes too few for a length are no frames, also where a count should stand. -/
theorem frames_of_short (h : bytes.length < lengthSize) : s.frames frozen bytes = .ok ([], .clean) := by
  have short : (Cursor.ofBytes bytes).hasLength = false := decide_eq_false (Nat.not_le.mpr h)
  cases s with
  | leaf kind => rfl
  | list e | set e | map k e =>
    simp only [Shape.frames, Value.countedFrames, short]
    rfl
  | tuple ts => rw [Shape.frames, Frame.read_of_not_hasLength short]
  | udt u =>
    have hstart : Value.recordStart (!frozen) u bytes = .ok (.ofBytes bytes) := by
      cases frozen with
      | true => rfl
      | false => exact Value.skipFieldCount_eq_ok.mpr (.inl ⟨h, rfl⟩)
    rw [Shape.frames, hstart]
    exact congrArg Except.ok (Frame.read_of_not_hasLength short _)

theorem inTurn_flatMap {α : Type} (key value : α → Payload) (l : List α) :
    inTurn k e (l.flatMap fun a => [key a, value a]) =
      l.flatMap fun a => [⟨.element, k, key a⟩, ⟨.element, e, value a⟩] := by
  induction l with
  | nil => rfl
  | cons a l ih =>
    simp only [List.flatMap_cons, List.cons_append, List.nil_append, inTurn, ih]

end Shape

namespace Value

theorem exists_payloads_of_encodePositions {items : List Value} {ts : List DataType}
    (hl : items.length ≤ ts.length) (h : encodePositions r items ts = .ok bytes) :
    ∃ ps, List.Forall₂ r.Writes ts ps ∧ Frame.payloads ps = .ok bytes := by
  have nulls (ts : List DataType) : List.Forall₂ r.Writes ts (ts.map fun _ => none) :=
    List.forall₂_map_right_iff.mpr (List.forall₂_same.mpr fun _ _ => ⟨.null, rfl⟩)
  induction ts generalizing items bytes with
  | nil =>
    cases List.length_eq_zero_iff.mp (Nat.le_zero.mp hl)
    exact ⟨[], .nil, h⟩
  | cons t ts ih =>
    cases items with
    | nil => exact ⟨_, nulls (t :: ts), h⟩
    | cons v items =>
      simp only [encodePositions, bind_eq_ok, pure_eq_ok] at h
      obtain ⟨p, hp, frame, hf, body, hb, rfl⟩ := h
      obtain ⟨ps, hps, hbody⟩ := ih (Nat.le_of_succ_le_succ hl) hb
      exact ⟨p :: ps, .cons ⟨v, hp⟩ hps, Frame.payloads_cons_eq_ok.mpr ⟨frame, body, hf, hbody, rfl⟩⟩

theorem forall_mem_zipWith {α : Type} {type : α → DataType} {slot : Slot} {as : List α}
    (h : List.Forall₂ (fun a p => r.Writes (type a) p) as ps) :
    ∀ part ∈ List.zipWith (fun a p => Part.mk slot (type a) p) as ps,
      r.Writes part.type part.payload := by
  induction h with
  | nil => exact fun _ h => nomatch h
  | cons hap _ ih => exact List.forall_mem_cons.mpr ⟨hap, ih⟩

/-- An encoding is framed, and every part in it is written for some value. -/
theorem exists_framed_of_encodeAs (hl : t.leaf? = none) (h : encodeAs r v t frozen = .ok bytes) :
    ∃ s ps, r.shape t = .ok s ∧ s.Framed (frozen || t.isFrozen) ps bytes ∧
      ∀ part ∈ s.parts ps, r.Writes part.type part.payload := by
  cases ht : t.shape with
  | leaf kind =>
    rw [DataType.leaf?_eq_some.mpr ht] at hl
    cases hl
  | list e =>
    obtain ⟨items, ps, rfl, hps, head, body, hc, hb, rfl⟩ := (encodeAs_list ht).mp h
    refine ⟨.list e, ps, ?_, ⟨head, body, ?_, hb, rfl⟩, List.forall_mem_map.mpr fun p hp => ?_⟩
    · rw [Registry.shape, ht]
    · rw [Shape.Opens, ← hps.length_eq]
      exact hc
    · obtain ⟨x, -, hx⟩ := hps.exists_mem_left hp
      exact ⟨x, hx⟩
  | set e =>
    obtain ⟨o, ho⟩ := exists_resolve_of_encodeAs_set ht h
    obtain ⟨items, us, rfl, hus, head, body, hc, hb, rfl⟩ := (encodeAs_set ht ho).mp h
    refine ⟨.set e, (writtenElements o us).map Prod.snd, ?_, ⟨head, body, ?_, hb, rfl⟩,
      List.forall_mem_map.mpr fun p hp => ?_⟩
    · rw [Registry.shape, ht]
    · rw [Shape.Opens, List.length_map]
      exact hc
    · obtain ⟨u, hu, rfl⟩ := List.mem_map.mp hp
      obtain ⟨x, -, -, hx⟩ := hus.exists_mem_left (mem_of_mem_written hu)
      exact ⟨x, hx⟩
  | map k e =>
    obtain ⟨o, ho⟩ := exists_resolve_of_encodeAs_map ht h
    obtain ⟨entries, us, rfl, hus, head, body, hc, hb, rfl⟩ := (encodeAs_map ht ho).mp h
    refine ⟨.map k e, (writtenEntries o us).flatMap fun u => [u.1.2, u.2], ?_,
      ⟨head, body, ⟨_, ?_, hc⟩, hb, rfl⟩, ?_⟩
    · rw [Registry.shape, ht]
    · simp
    · rw [Shape.parts, Shape.inTurn_flatMap]
      intro part hpart
      obtain ⟨u, hu, hm⟩ := List.mem_flatMap.mp hpart
      obtain ⟨x, -, -, hkey, hvalue⟩ := hus.exists_mem_left (mem_of_mem_written hu)
      rcases List.mem_pair.mp hm with rfl | rfl
      · exact ⟨x.1, hkey⟩
      · exact ⟨x.2, hvalue⟩
  | tuple ts =>
    obtain ⟨items, rfl⟩ := exists_of_encodeAs_tuple ht h
    simp only [encodeAs, ht] at h
    split at h
    next hle =>
      obtain ⟨ps, hps, hb⟩ := exists_payloads_of_encodePositions hle h
      refine ⟨.tuple ts, ps, ?_, ⟨[], bytes, ⟨hps.length_eq.symm, rfl⟩, hb, rfl⟩,
        forall_mem_zipWith hps⟩
      rw [Registry.shape, ht]
    next => cases h
  | udt declared =>
    obtain ⟨udt, hu⟩ := exists_lookup_of_encodeAs_udt ht h
    obtain ⟨fields, ps, rfl, -, hps, hb⟩ := (encodeAs_udt ht hu).mp h
    obtain ⟨head, hc, body, hbody, rfl⟩ := recordFrames_not_iff.mp hb
    refine ⟨.udt udt, ps, ?_, ⟨head, body, ⟨hps.length_eq.symm, hc⟩, hbody, rfl⟩,
      forall_mem_zipWith (hps.imp fun f p hp => ⟨_, hp⟩)⟩
    rw [Registry.shape, ht]
    exact map_eq_ok.mpr ⟨udt, hu, rfl⟩

theorem exists_mapM_read {parts : List Part}
    (h : ∀ part ∈ parts, ∀ body, part.bytes? = some body → ∃ w, decode r part.type body true = .ok w) :
    ∃ xs, parts.mapM (Part.read (unbounded r)) = .ok xs := by
  cases hxs : parts.mapM (Part.read (unbounded r)) with
  | ok xs => exact ⟨xs, rfl⟩
  | error err =>
    obtain ⟨part, hpart, herr⟩ := mapM_eq_error hxs
    obtain ⟨body, hb, hbody⟩ := read_error herr
    obtain ⟨w, hw⟩ := h part hpart body hb
    cases hw.symm.trans hbody

theorem exists_items_of_writes (hf : s.Framed frozen ps bytes)
    (h : ∀ part ∈ s.parts ps, r.Writes part.type part.payload)
    (ih : ∀ u body w, body.length < bytes.length → encodeAs r w u true = .ok body →
      ∃ w', decode r u body true = .ok w') :
    ∃ xs, (s.parts ps).mapM (Part.read (unbounded r)) = .ok xs := by
  refine exists_mapM_read fun part hpart body hb => ?_
  obtain ⟨x, hx⟩ := h part hpart
  rw [Part.payload_of_bytes? hb] at hx
  have hne : x ≠ .null := by
    rintro rfl
    cases hx
  obtain ⟨_, he, ⟨⟩⟩ := (encodeElement_of_ne_null hne).mp hx
  exact ih part.type body x (Shape.length_lt_of_part hf.frames hpart hb) he

theorem decode_of_framed {xs : List (Payload × Value)} (hs : r.shape t = .ok s)
    (hf : s.Framed (frozen || t.isFrozen) ps bytes)
    (hxs : (s.parts ps).mapM (Part.read (unbounded r)) = .ok xs) :
    decode r t bytes frozen = .ok (s.assemble xs) :=
  (decode_of_frames hs hf.isComposite hf.frames hxs).1 rfl

/-- Encodings are decoded, whatever value they are of. -/
theorem exists_decode_of_encodeAs (h : encodeAs r v t frozen = .ok bytes) :
    ∃ w, decode r t bytes frozen = .ok w := by
  induction hn : bytes.length using Nat.strong_induction_on generalizing v t frozen bytes with
  | _ n ih =>
    subst hn
    cases hl : t.leaf? with
    | some kind =>
      have ht := DataType.leaf?_eq_some.mp hl
      rw [encodeAs_leaf ht] at h
      obtain ⟨w, hw, he⟩ := Leaf.exists_holds_of_encode h
      exact ⟨w, (decode_leaf ht frozen).trans (Leaf.decode_encode hw he)⟩
    | none =>
      obtain ⟨s, ps, hs, hf, hwrites⟩ := exists_framed_of_encodeAs hl h
      obtain ⟨xs, hxs⟩ := exists_items_of_writes hf hwrites fun u body w hlt he =>
        ih body.length hlt he rfl
      exact ⟨s.assemble xs, decode_of_framed hs hf hxs⟩

end Value

end CqlWire
