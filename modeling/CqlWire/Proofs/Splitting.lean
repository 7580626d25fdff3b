import CqlWire.Proofs.Frames

namespace CqlWire

theorem Reading.payload_eq_error {c c' d : Cursor} {m : Int} {e : Error} (h : int32 c = .ok m c')
    (hm : 0 ≤ m) (hb : Reading.bytes m.toNat c' = .error e d) : payload c = .error e d := by
  simp only [payload, bind, EStateM.bind, h, if_neg (Int.not_lt.mpr hm), hb]

namespace Frame

/-- The payload in the frame at the front of bytes, and the bytes behind it. -/
def split? (bytes : Bytes) : Option (Payload × Bytes) :=
  let size := Bytes.toInt (bytes.take lengthSize)
  let body := bytes.drop lengthSize
  if size < 0 then some (none, body)
  else if size.toNat ≤ body.length then some (some (body.take size.toNat), body.drop size.toNat)
  else none

variable {c d : Cursor} {n : Nat} {p : Payload} {bytes rest body : Bytes}

theorem length_split? (hl : lengthSize ≤ bytes.length) (h : split? bytes = some (p, rest)) :
    (p.getD []).length + lengthSize + rest.length = bytes.length := by
  simp only [split?] at h
  split at h
  next =>
    cases h
    rw [List.length_drop]
    simp only [Option.getD_none, List.length_nil]
    omega
  next =>
    split at h
    next hfit =>
      cases h
      simp only [List.length_drop] at hfit
      simp only [Option.getD_some, List.length_take, List.length_drop]
      omega
    next => cases h

theorem int32_of_hasLength (hc : c.hasLength = true) :
    Reading.int32 c = .ok (Bytes.toInt (c.rest.take lengthSize)) (c.advance lengthSize) := by
  have hle : lengthSize ≤ c.remaining := of_decide_eq_true hc
  simp only [Reading.int32, bind, EStateM.bind, Reading.bytes, if_pos hle]
  rfl

theorem payload_of_split? (hc : c.hasLength = true) (h : split? c.rest = some (p, rest)) :
    ∃ position, Reading.payload c = .ok p ⟨position, rest⟩ := by
  have hsize := int32_of_hasLength hc
  simp only [split?] at h
  split at h
  next hneg =>
    cases h
    exact ⟨_, Reading.payload_eq_none hsize hneg⟩
  next hpos =>
    split at h
    next hfit =>
      cases h
      have hbytes : Reading.bytes _ (c.advance lengthSize) = _ := if_pos hfit
      exact ⟨_, Reading.payload_eq_some hsize (Int.not_lt.mp hpos) hbytes⟩
    next => cases h

theorem payload_of_split?_none (hc : c.hasLength = true) (h : split? c.rest = none) :
    ∃ e, Reading.payload c = .error e (c.advance lengthSize) := by
  have hsize := int32_of_hasLength hc
  simp only [split?] at h
  split at h
  next => cases h
  next hpos =>
    split at h
    next => cases h
    next hfit =>
      have hbytes : Reading.bytes _ (c.advance lengthSize) = _ := if_neg hfit
      exact ⟨_, Reading.payload_eq_error hsize (Int.not_lt.mp hpos) hbytes⟩

/-- A payload is shorter than the bytes it is read from by a length at least. -/
theorem length_le_of_mem_read (h : some body ∈ (read n c).1) :
    body.length + lengthSize ≤ c.remaining := by
  induction n generalizing c with
  | zero => cases h
  | succ n ih =>
    rw [read] at h
    split at h
    next hc =>
      have hle : lengthSize ≤ c.rest.length := of_decide_eq_true hc
      cases hs : split? c.rest with
      | none =>
        obtain ⟨e, he⟩ := payload_of_split?_none hc hs
        rw [he] at h
        cases h
      | some s =>
        obtain ⟨p, rest⟩ := s
        obtain ⟨position, hp⟩ := payload_of_split? hc hs
        have hlen := length_split? hle hs
        rw [hp] at h
        show body.length + lengthSize ≤ c.rest.length
        rcases List.mem_cons.mp h with rfl | h
        · rw [Option.getD_some] at hlen
          omega
        · have hrest : body.length + lengthSize ≤ rest.length := ih h
          omega
    next => cases h

/-- What is read does not depend on the place. -/
theorem read_congr (n : Nat) (h : c.rest = d.rest) :
    (read n c).1 = (read n d).1 ∧ ((read n c).2 = .clean ↔ (read n d).2 = .clean) := by
  have hlen {c d : Cursor} (h : c.rest = d.rest) : c.hasLength = d.hasLength := by
    rw [Cursor.hasLength, Cursor.hasLength, Cursor.remaining, Cursor.remaining, h]
  induction n generalizing c d with
  | zero =>
    rw [read, read, ending, ending, hlen h]
    cases d.hasLength <;> simp
  | succ n ih =>
    rw [read, read, hlen h]
    cases hd : d.hasLength with
    | false => simp
    | true =>
      have hc : c.hasLength = true := (hlen h).trans hd
      cases hs : split? c.rest with
      | none =>
        obtain ⟨e, he⟩ := payload_of_split?_none hc hs
        obtain ⟨e', he'⟩ := payload_of_split?_none hd (h ▸ hs)
        simp [he, he']
      | some s =>
        obtain ⟨p, rest⟩ := s
        obtain ⟨position, hp⟩ := payload_of_split? hc hs
        obtain ⟨position', hp'⟩ := payload_of_split? hd (h ▸ hs)
        have hrest := @ih ⟨position, rest⟩ ⟨position', rest⟩ rfl
        simp [hp, hp', hrest]

theorem read_clean_congr (h : c.rest = d.rest) {ps : List Payload} :
    read n c = (ps, .clean) ↔ read n d = (ps, .clean) := by
  have same := read_congr n h
  rw [Prod.ext_iff, Prod.ext_iff, same.1, same.2]

theorem read_of_not_hasLength (hc : c.hasLength = false) (n : Nat) : read n c = ([], .clean) := by
  cases n with
  | zero => simp [read, ending, hc]
  | succ n => simp [read, hc]

theorem count_of_hasLength (hc : c.hasLength = true) :
    Reading.count c = .ok n d ↔
      count n = .ok (c.rest.take lengthSize) ∧ c.advance lengthSize = d := by
  have hle : lengthSize ≤ c.rest.length := of_decide_eq_true hc
  have hwidth : (c.rest.take lengthSize).length = lengthSize := by
    rw [List.length_take]
    omega
  constructor
  · intro h
    have hsize := int32_of_hasLength hc
    by_cases hneg : Bytes.toInt (c.rest.take lengthSize) < 0
    · simp only [Reading.count, bind, EStateM.bind, hsize, if_pos hneg] at h
      cases h
    · have hpos := Int.not_lt.mp hneg
      rw [Reading.count_eq hsize hpos] at h
      cases h
      obtain ⟨hnat, hsmall⟩ := Bytes.toNat_of_toInt_nonneg hpos
      rw [hwidth] at hsmall
      have hbytes := Bytes.ofNat_toNat (c.rest.take lengthSize)
      rw [hwidth] at hbytes
      rw [hnat, Int.toNat_natCast]
      refine ⟨count_eq_ok.mpr ⟨?_, hbytes⟩, rfl⟩
      generalize Bytes.toNat (c.rest.take lengthSize) = m at hsmall
      simp only [lengthSize, Nat.reducePow] at hsmall
      simp only [limit]
      omega
  · rintro ⟨hcount, rfl⟩
    have hread := Reading.count_append c.position (c.rest.drop lengthSize) hcount
    rw [List.take_append_drop] at hread
    exact hread

end Frame

namespace Value

/-- A record at the top starts with its count, unless the bytes are too few for one. -/
theorem skipFieldCount_eq_ok {udt : Udt} {bytes : Bytes} {start : Cursor} :
    skipFieldCount udt (.ofBytes bytes) = .ok start ↔
      (bytes.length < lengthSize ∧ .ofBytes bytes = start) ∨
      ∃ head body, Frame.count udt.fields.length = .ok head ∧ head ++ body = bytes ∧
        ⟨lengthSize, body⟩ = start := by
  unfold skipFieldCount
  cases hc : (Cursor.ofBytes bytes).hasLength with
  | false =>
    have short : bytes.length < lengthSize := Nat.not_le.mp (of_decide_eq_false hc)
    simp only [Bool.false_eq_true, if_false, Except.ok.injEq]
    constructor
    · exact fun h => .inl ⟨short, h⟩
    · rintro (⟨-, h⟩ | ⟨head, body, hcount, rfl, -⟩)
      · exact h
      · obtain ⟨-, rfl⟩ := Frame.count_eq_ok.mp hcount
        rw [List.length_append, Bytes.length_ofNat] at short
        omega
  | true =>
    have long : lengthSize ≤ bytes.length := of_decide_eq_true hc
    simp only [if_true]
    constructor
    · intro h
      split at h
      next n c hn =>
        obtain ⟨hcount, rfl⟩ := (Frame.count_of_hasLength hc).mp hn
        split at h
        next heq =>
          cases h
          rw [heq] at hcount
          exact .inr ⟨_, _, hcount, List.take_append_drop lengthSize bytes, rfl⟩
        next => cases h
      next => cases h
    · rintro (⟨short, -⟩ | ⟨head, body, hcount, rfl, rfl⟩)
      · omega
      · have hread := Reading.count_append 0 body hcount
        rw [Cursor.ofBytes, hread]
        simp

end Value

end CqlWire
