import CqlWire.Proofs.Resolution
import CqlWire.Proofs.Words
import CqlWire.Wire.Decode

namespace CqlWire

variable {p : Payload} {ps qs : List Payload} {frame body bytes : Bytes} {n width : Nat}

namespace Frame

theorem count_eq_ok : count n = .ok bytes ↔ n < limit ∧ Bytes.ofNat lengthSize n = bytes := by
  unfold count
  split
  next h => simp [h]
  next h => simp [h]

theorem payload_some_eq_ok :
    payload (some body) = .ok frame ↔
      body.length < limit ∧ Bytes.ofNat lengthSize body.length ++ body = frame := by
  rw [payload]
  split
  next h => simp [h]
  next h => simp [h]

theorem payloads_cons_eq_ok :
    payloads (p :: ps) = .ok bytes ↔
      ∃ frame body, payload p = .ok frame ∧ payloads ps = .ok body ∧ frame ++ body = bytes := by
  rw [payloads, bind_eq_ok]
  simp only [bind_eq_ok, pure_eq_ok]
  constructor
  · rintro ⟨frame, hf, body, hb, h⟩
    exact ⟨frame, body, hf, hb, h⟩
  · rintro ⟨frame, body, hf, hb, h⟩
    exact ⟨frame, hf, body, hb, h⟩

theorem exists_payloads (ps : List Payload) (h : ∀ body, some body ∈ ps → body.length < limit) :
    ∃ bytes, payloads ps = .ok bytes := by
  induction ps with
  | nil => exact ⟨[], rfl⟩
  | cons p ps ih =>
    obtain ⟨rest, hrest⟩ := ih fun body hb => h body (List.mem_cons_of_mem p hb)
    obtain ⟨frame, hframe⟩ : ∃ frame, payload p = .ok frame := by
      cases p with
      | none => exact ⟨_, rfl⟩
      | some body => exact ⟨_, payload_some_eq_ok.mpr ⟨h body List.mem_cons_self, rfl⟩⟩
    exact ⟨_, payloads_cons_eq_ok.mpr ⟨frame, rest, hframe, hrest, rfl⟩⟩

/-- The frames of payloads behind a count. -/
def Counted (n : Nat) (ps : List Payload) (bytes : Bytes) : Prop :=
  ∃ head body, count n = .ok head ∧ payloads ps = .ok body ∧ head ++ body = bytes

end Frame

namespace Reading

theorem bytes_append (position : Nat) (frame rest : Bytes) :
    Reading.bytes frame.length ⟨position, frame ++ rest⟩ = .ok frame ⟨position + frame.length, rest⟩ := by
  rw [Reading.bytes, if_pos (by simp [Cursor.remaining])]
  simp [Cursor.advance]

theorem int32_append (position : Nat) (rest : Bytes) (h : frame.length = lengthSize) :
    int32 ⟨position, frame ++ rest⟩ = .ok (Bytes.toInt frame) ⟨position + lengthSize, rest⟩ := by
  have hb := bytes_append position frame rest
  rw [h] at hb
  simp only [int32, bind, EStateM.bind, hb]
  rfl

theorem toInt_length (h : n < Frame.limit) : Bytes.toInt (Bytes.ofNat lengthSize n) = n := by
  refine Bytes.toInt_ofNat ?_
  simp only [Frame.limit] at h
  simp only [lengthSize, Nat.reducePow]
  omega

theorem count_eq {c c' : Cursor} {m : Int} (h : int32 c = .ok m c') (hm : 0 ≤ m) :
    count c = .ok m.toNat c' := by
  simp only [count, bind, EStateM.bind, h, if_neg (Int.not_lt.mpr hm), pure, EStateM.pure]

theorem payload_eq_none {c c' : Cursor} {m : Int} (h : int32 c = .ok m c') (hm : m < 0) :
    payload c = .ok none c' := by
  simp only [payload, bind, EStateM.bind, h, if_pos hm, pure, EStateM.pure]

theorem payload_eq_some {c c' d : Cursor} {m : Int} (h : int32 c = .ok m c') (hm : 0 ≤ m)
    (hb : Reading.bytes m.toNat c' = .ok body d) : payload c = .ok (some body) d := by
  simp only [payload, bind, EStateM.bind, h, if_neg (Int.not_lt.mpr hm), hb, pure, EStateM.pure]

theorem count_append (position : Nat) (rest : Bytes) (h : Frame.count n = .ok frame) :
    count ⟨position, frame ++ rest⟩ = .ok n ⟨position + lengthSize, rest⟩ := by
  obtain ⟨hn, rfl⟩ := Frame.count_eq_ok.mp h
  have hi := int32_append position rest (Bytes.length_ofNat lengthSize n)
  rw [toInt_length hn] at hi
  exact count_eq hi (Int.natCast_nonneg n)

theorem payload_append (position : Nat) (rest : Bytes) (h : Frame.payload p = .ok frame) :
    payload ⟨position, frame ++ rest⟩ = .ok p ⟨position + frame.length, rest⟩ := by
  cases p with
  | none =>
    cases h
    have hi := int32_append position rest (Bytes.length_ofInt lengthSize (-1))
    rw [Bytes.toInt_ofInt (by decide) (by decide)] at hi
    rw [Bytes.length_ofInt]
    exact payload_eq_none hi (by decide)
  | some body =>
    obtain ⟨hn, rfl⟩ := Frame.payload_some_eq_ok.mp h
    have hi := int32_append position (body ++ rest)
      (Bytes.length_ofNat lengthSize body.length)
    rw [toInt_length hn] at hi
    have hb := bytes_append (position + lengthSize) body rest
    rw [List.append_assoc, List.length_append, Bytes.length_ofNat, ← Nat.add_assoc]
    exact payload_eq_some hi (Int.natCast_nonneg _) hb

end Reading

namespace Frame

theorem length_payload (h : payload p = .ok frame) :
    frame.length = lengthSize + (p.getD []).length := by
  cases p with
  | none =>
    cases h
    rfl
  | some body =>
    obtain ⟨-, rfl⟩ := payload_some_eq_ok.mp h
    simp

/-- Payloads are read back from their frames. -/
theorem read_append (position : Nat) (rest : Bytes) (h : payloads ps = .ok body) :
    read ps.length ⟨position, body ++ rest⟩ = (ps, ending ⟨position + body.length, rest⟩) := by
  induction ps generalizing position body with
  | nil =>
    cases h
    rfl
  | cons p ps ih =>
    obtain ⟨frame, body, hf, hb, rfl⟩ := payloads_cons_eq_ok.mp h
    have hlen : Cursor.hasLength ⟨position, frame ++ body ++ rest⟩ = true := by
      simp only [Cursor.hasLength, Cursor.remaining, List.length_append, length_payload hf,
        decide_eq_true_eq]
      omega
    rw [List.length_cons, read, if_pos hlen, List.append_assoc, Reading.payload_append _ _ hf]
    simp only [ih _ hb, List.length_append, Nat.add_assoc]

theorem read_payloads (position : Nat) (h : payloads ps = .ok body) :
    read ps.length ⟨position, body⟩ = (ps, .clean) := by
  have hr := read_append position [] h
  rw [List.append_nil] at hr
  exact hr

theorem payloads_injective (hp : payloads ps = .ok body) (hq : payloads qs = .ok body)
    (hl : ps.length = qs.length) : ps = qs := by
  have hr := read_payloads 0 hp
  rw [hl, read_payloads 0 hq] at hr
  exact (congrArg Prod.fst hr).symm

/-- A payload is shorter than the frames it is part of by a length at least. -/
theorem length_le_of_mem_payloads (h : payloads ps = .ok body) (hm : some bytes ∈ ps) :
    bytes.length + lengthSize ≤ body.length := by
  induction ps generalizing body with
  | nil => cases hm
  | cons p ps ih =>
    obtain ⟨frame, body, hf, hb, rfl⟩ := payloads_cons_eq_ok.mp h
    rw [List.length_append]
    rcases List.mem_cons.mp hm with rfl | hm
    · have hlen := length_payload hf
      simp only [Option.getD_some] at hlen
      omega
    · have hle := ih hb hm
      omega

theorem Counted.length_le (h : Counted n ps bytes) (hm : some body ∈ ps) :
    body.length + lengthSize ≤ bytes.length := by
  obtain ⟨head, frames, -, hp, rfl⟩ := h
  have hle := length_le_of_mem_payloads hp hm
  rw [List.length_append]
  omega

theorem Counted.ne_nil (h : Counted n ps bytes) : bytes ≠ [] := by
  obtain ⟨head, body, hc, -, rfl⟩ := h
  obtain ⟨-, rfl⟩ := count_eq_ok.mp hc
  refine fun h => ?_
  have hl := congrArg List.length h
  simp [lengthSize] at hl

theorem payloads_ne_nil (h : payloads ps = .ok bytes) (hp : ps ≠ []) : bytes ≠ [] := by
  obtain ⟨p, ps, rfl⟩ := List.exists_cons_of_ne_nil hp
  obtain ⟨frame, body, hf, -, rfl⟩ := payloads_cons_eq_ok.mp h
  refine fun h => ?_
  have hl := congrArg List.length h
  simp only [List.length_append, length_payload hf, lengthSize, List.length_nil] at hl
  omega

end Frame

namespace Value

theorem countedFrames_eq (h : Frame.Counted n ps bytes) (hl : ps.length = n * width) :
    countedFrames width bytes = .ok (ps, .clean) := by
  obtain ⟨head, body, hc, hp, rfl⟩ := h
  have hcount := Reading.count_append 0 body hc
  have hlen : Cursor.hasLength (.ofBytes (head ++ body)) = true := by
    obtain ⟨-, rfl⟩ := Frame.count_eq_ok.mp hc
    simp [Cursor.hasLength, Cursor.remaining, Cursor.ofBytes]
  simp only [countedFrames, hlen, if_true]
  rw [Cursor.ofBytes, hcount]
  simp only [← hl, Frame.read_payloads _ hp]

end Value

namespace Frame

variable {m : Nat} {x y : Bytes}

/-- Bytes tell the payloads framed behind a count. -/
theorem Counted.eq_iff (hx : Counted n ps x) (hy : Counted m qs y) (hw : 0 < width)
    (hn : ps.length = n * width) (hm : qs.length = m * width) : x = y ↔ ps = qs := by
  constructor
  · rintro rfl
    have h := (Value.countedFrames_eq hx hn).symm.trans (Value.countedFrames_eq hy hm)
    exact congrArg Prod.fst (Except.ok.inj h)
  · rintro rfl
    have hnm : n = m := Nat.eq_of_mul_eq_mul_right hw (hn.symm.trans hm)
    obtain ⟨head, body, hc, hb, rfl⟩ := hx
    obtain ⟨head', body', hc', hb', rfl⟩ := hy
    rw [hnm, hc'] at hc
    rw [hb'] at hb
    cases hc
    cases hb
    rfl

theorem payloads_eq_iff (hx : payloads ps = .ok x) (hy : payloads qs = .ok y)
    (hl : ps.length = qs.length) : x = y ↔ ps = qs := by
  constructor
  · rintro rfl
    exact payloads_injective hx hy hl
  · rintro rfl
    exact Except.ok.inj (hx.symm.trans hy)

end Frame

end CqlWire
