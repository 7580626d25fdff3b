import CqlWire.Proofs.Readable

namespace CqlWire

open Value (decode encode unbounded wireKey)

variable {r : Registry} {t e k : DataType} {s : Shape} {v : Value} {ps : List Payload} {p : Payload}
  {bytes frame body : Bytes} {frozen : Bool} {n m position : Nat} {tail : Frame.Tail}
  {xs : List (Payload × Value)}

theorem mapM_take {α β : Type} {f : α → Except Error β} {l : List α} {ys : List β}
    (h : l.mapM f = .ok ys) (m : Nat) : (l.take m).mapM f = .ok (ys.take m) :=
  mapM_eq_ok.mpr (List.forall₂_take m (mapM_eq_ok.mp h))

namespace Frame

/-- How many frames of payloads are whole within their first `n` bytes, and how many of these bytes
are left after them. -/
def cut : List Payload → (n : Nat) → Nat × Nat
  | [], n => (0, n)
  | p :: ps, n =>
    if size p ≤ n then ((cut ps (n - size p)).1 + 1, (cut ps (n - size p)).2) else (0, n)

theorem cut_zero (ps : List Payload) : cut ps 0 = (0, 0) := by
  cases ps with
  | nil => rfl
  | cons p ps => exact if_neg (by simp [size, lengthSize])

theorem ending_eq_clean {c : Cursor} : ending c = .clean ↔ c.remaining < lengthSize := by
  simp [ending, Cursor.hasLength]

theorem read_short (h : bytes.length < lengthSize) (n : Nat) :
    read n ⟨position, bytes⟩ = ([], .clean) :=
  read_of_not_hasLength (c := ⟨position, bytes⟩) (decide_eq_false (Nat.not_le.mpr h)) n

/-- A frame that is cut after its length is a fault. -/
theorem payload_take (position : Nat) (h : payload p = .ok frame) (hn : lengthSize ≤ n)
    (hlt : n < frame.length) :
    ∃ err c, Reading.payload ⟨position, frame.take n⟩ = .error err c := by
  cases p with
  | none =>
    rw [length_payload h] at hlt
    exact absurd hlt (Nat.not_lt.mpr hn)
  | some body =>
    obtain ⟨hlimit, rfl⟩ := payload_some_eq_ok.mp h
    rw [List.length_append, Bytes.length_ofNat] at hlt
    have htake : (Bytes.ofNat lengthSize body.length ++ body).take n =
        Bytes.ofNat lengthSize body.length ++ body.take (n - lengthSize) := by
      rw [List.take_append, Bytes.length_ofNat, List.take_of_length_le (by simpa using hn)]
    have hsize := Reading.int32_append position (body.take (n - lengthSize))
      (Bytes.length_ofNat lengthSize body.length)
    rw [Reading.toInt_length hlimit] at hsize
    have hbytes : Reading.bytes (Int.toNat body.length)
        ⟨position + lengthSize, body.take (n - lengthSize)⟩ = .error _ _ := if_neg (by
      simp only [Int.toNat_natCast, Cursor.remaining, List.length_take]
      omega)
    rw [htake]
    exact ⟨_, _, Reading.payload_eq_error hsize (Int.natCast_nonneg _) hbytes⟩

theorem read_succ_of_error {c d : Cursor} {err : Error} (hc : c.hasLength = true)
    (h : Reading.payload c = .error err d) : read (n + 1) c = ([], .fault err) := by
  rw [read, if_pos hc, h]

theorem read_succ_of_ok {c d : Cursor} (hc : c.hasLength = true) (h : Reading.payload c = .ok p d) :
    read (n + 1) c = (p :: (read n d).1, (read n d).2) := by
  rw [read, if_pos hc, h]

/-- Frames that are cut are read up to the last one that is whole, and end in order when less than a
length is left. -/
theorem read_take (position : Nat) (h : payloads ps = .ok body) (hn : n ≤ body.length) :
    (read ps.length ⟨position, body.take n⟩).1 = ps.take (cut ps n).1 ∧
      ((read ps.length ⟨position, body.take n⟩).2 = .clean ↔ (cut ps n).2 < lengthSize) := by
  induction ps generalizing position body n with
  | nil =>
    cases h
    cases Nat.le_zero.mp hn
    exact ⟨rfl, iff_of_true rfl (by decide)⟩
  | cons p ps ih =>
    obtain ⟨frame, body, hf, hb, rfl⟩ := payloads_cons_eq_ok.mp h
    have hsize : frame.length = size p := length_payload hf
    rw [List.length_append, hsize] at hn
    -- The cut is behind the first frame, within its length, or within its bytes.
    by_cases hwhole : size p ≤ n
    · have htake : (frame ++ body).take n = frame ++ body.take (n - size p) := by
        rw [List.take_append, hsize, List.take_of_length_le (hsize ▸ hwhole)]
      have hlen : Cursor.hasLength ⟨position, frame ++ body.take (n - size p)⟩ = true := by
        simp only [Cursor.hasLength, Cursor.remaining, List.length_append, hsize, size,
          decide_eq_true_eq]
        omega
      have hread := read_succ_of_ok (n := ps.length) hlen (Reading.payload_append position _ hf)
      obtain ⟨hps, htail⟩ := ih (position + frame.length) hb (n := n - size p) (by omega)
      rw [htake, List.length_cons, hread, cut, if_pos hwhole, List.take_succ_cons]
      exact ⟨congrArg _ hps, htail⟩
    · have hlt : n < size p := Nat.not_le.mp hwhole
      have htake : (frame ++ body).take n = frame.take n := by
        rw [List.take_append_of_le_length (by omega)]
      have hlength : (frame.take n).length = n := by
        rw [List.length_take]
        omega
      rw [htake, List.length_cons, cut, if_neg hwhole]
      by_cases hshort : n < lengthSize
      · rw [read_short (by rwa [hlength])]
        exact ⟨rfl, iff_of_true rfl hshort⟩
      · have hlen : Cursor.hasLength ⟨position, frame.take n⟩ = true := by
          simp only [Cursor.hasLength, Cursor.remaining, hlength, decide_eq_true_eq]
          omega
        obtain ⟨err, c, herr⟩ := payload_take position hf (Nat.not_lt.mp hshort)
          (hsize ▸ hlt)
        rw [read_succ_of_error hlen herr]
        exact ⟨rfl, iff_of_false (by simp) hshort⟩

end Frame

namespace Shape

/-- The value that the first `m` frames make: the first `m` elements, the first `m / 2` entries, or
the first `m` positions with all later ones null. -/
def front (m : Nat) (xs : List (Payload × Value)) : Shape → Value
  | leaf _ => .null
  | list _ => .list ((xs.take m).map Prod.snd)
  | set _ => .set ((distinctBy (fun x => wireKey x.1 x.2) [] (xs.take m)).map Prod.snd)
  | map _ _ =>
    .map ((distinctBy (fun x => wireKey x.1 x.2.1) [] ((entriesOf xs).take (m / 2))).map Prod.snd)
  | tuple ts => .tuple (padded ts.length ((xs.take m).map Prod.snd))
  | udt u => .record (Fields.ofList ((u.fields.map Prod.fst).zip
      (padded u.fields.length ((xs.take m).map Prod.snd))))

/-- A key without its value is dropped. -/
theorem entriesOf_take (m : Nat) (xs : List (Payload × Value)) :
    entriesOf (xs.take m) = (entriesOf xs).take (m / 2) := by
  induction xs using entriesOf.induct generalizing m with
  | case1 x y rest ih =>
    obtain _ | _ | m := m
    · rfl
    · rfl
    · have hhalf : (m + 2) / 2 = m / 2 + 1 := by omega
      simp only [List.take_succ_cons, entriesOf, hhalf, ih]
  | case2 xs h =>
    match xs with
    | [] => simp [entriesOf]
    | [x] => cases m <;> simp [entriesOf]
    | x :: y :: rest => exact (h x y rest rfl).elim

theorem assemble_take (m : Nat) (xs : List (Payload × Value)) (s : Shape) :
    s.assemble (xs.take m) = s.front m xs := by
  cases s with
  | map k e => rw [assemble, front, entriesOf_take]
  | _ => rfl

theorem inTurn_take (m : Nat) (ps : List Payload) :
    inTurn k e (ps.take m) = (inTurn k e ps).take m := by
  induction ps using inTurn.induct generalizing m with
  | case1 => simp [inTurn]
  | case2 p => cases m <;> simp [inTurn]
  | case3 p q rest ih =>
    obtain _ | _ | m := m
    · rfl
    · rfl
    · simp only [List.take_succ_cons, inTurn, ih]

theorem zipWith_take {α β γ : Type} (f : α → β → γ) (as : List α) (bs : List β) (m : Nat) :
    List.zipWith f as (bs.take m) = (List.zipWith f as bs).take m := by
  induction as generalizing bs m with
  | nil => simp
  | cons a as ih => cases bs <;> cases m <;> simp [ih]

theorem parts_take (m : Nat) (ps : List Payload) (s : Shape) :
    s.parts (ps.take m) = (s.parts ps).take m := by
  cases s with
  | leaf kind => exact List.take_nil.symm
  | list e | set e => exact List.map_take
  | map k e => exact inTurn_take m ps
  | tuple ts => exact zipWith_take _ _ _ _
  | udt u => exact zipWith_take _ _ _ _

theorem headSize_le (s : Shape) (frozen : Bool) : s.headSize frozen ≤ lengthSize := by
  unfold headSize
  split <;> omega

theorem Framed.frames_take {k : Nat} (h : s.Framed frozen ps bytes) (hk : k ≤ bytes.length) :
    ∃ tail, s.frames frozen (bytes.take k) =
        .ok (ps.take (Frame.cut ps (k - s.headSize frozen)).1, tail) ∧
      (tail = .clean ↔ (Frame.cut ps (k - s.headSize frozen)).2 < lengthSize) := by
  obtain ⟨head, body, hopens, hbody, rfl⟩ := h
  have hhead := hopens.length_eq
  rw [List.length_append, hhead] at hk
  by_cases hlt : k < s.headSize frozen
  · have hshort : ((head ++ body).take k).length < lengthSize := by
      have hle := headSize_le s frozen
      rw [List.length_take]
      omega
    rw [frames_of_short hshort, Nat.sub_eq_zero_of_le hlt.le, Frame.cut_zero]
    exact ⟨.clean, rfl, iff_of_true rfl (by decide)⟩
  · have htake : (head ++ body).take k = head ++ body.take (k - s.headSize frozen) := by
      rw [List.take_append, hhead, List.take_of_length_le (by omega)]
    obtain ⟨hps, htail⟩ := Frame.read_take head.length hbody (n := k - s.headSize frozen) (by omega)
    rw [htake, hopens.frames]
    exact ⟨_, congrArg Except.ok (Prod.ext hps rfl), htail⟩

theorem Framed.frames_append (h : s.Framed frozen ps bytes) (suffix : Bytes) :
    ∃ tail, s.frames frozen (bytes ++ suffix) = .ok (ps, tail) ∧
      (tail = .clean ↔ suffix.length < lengthSize) := by
  obtain ⟨head, body, hopens, hbody, rfl⟩ := h
  rw [List.append_assoc, hopens.frames, Frame.read_append _ _ hbody]
  exact ⟨_, rfl, Frame.ending_eq_clean⟩

end Shape

namespace Value

theorem items_take (h : (s.parts ps).mapM (Part.read (unbounded r)) = .ok xs) (m : Nat) :
    (s.parts (ps.take m)).mapM (Part.read (unbounded r)) = .ok (xs.take m) := by
  rw [Shape.parts_take]
  exact mapM_take h m

theorem payloads_of_mapM_read {parts : List Part}
    (h : parts.mapM (Part.read (unbounded r)) = .ok xs) :
    xs.map Prod.fst = parts.map Part.payload := by
  have each : List.Forall₂ (fun part x => part.payload = x.1) parts xs :=
    (mapM_eq_ok.mp h).imp fun part x hx => by
      obtain ⟨v, -, rfl⟩ := map_eq_ok.mp hx
      rfl
  exact each.map_eq_map.symm

/-- What becomes of an encoding that is cut or followed by further bytes: the first `k` bytes are the
value of the frames that are whole among them while less than a length is left after these, further
bytes are passed over while they are less than a length, and all else is malformed. -/
theorem decode_truncated (hl : t.leaf? = none) (h : encode r t v nested = .ok bytes) :
    ∃ s ps xs, r.shape t = .ok s ∧ s.Framed (nested || t.isFrozen) ps bytes ∧
      (s.parts ps).mapM (Part.read (unbounded r)) = .ok xs ∧ xs.map Prod.fst = ps ∧
      decode r t bytes nested = .ok (s.assemble xs) ∧
      (∀ k ≤ bytes.length,
        let (whole, left) := Frame.cut ps (k - s.headSize (nested || t.isFrozen))
        (left < lengthSize → decode r t (bytes.take k) nested = .ok (s.front whole xs)) ∧
        (lengthSize ≤ left → ∃ cause, decode r t (bytes.take k) nested = .error (.malformed cause))) ∧
      ∀ suffix : Bytes,
        (suffix.length < lengthSize → decode r t (bytes ++ suffix) nested = .ok (s.assemble xs)) ∧
        (lengthSize ≤ suffix.length →
          ∃ cause, decode r t (bytes ++ suffix) nested = .error (.malformed cause)) := by
  obtain ⟨s, ps, hs, hf, hwrites⟩ := exists_framed_of_encodeAs hl (encode_eq_ok.mp h).2
  obtain ⟨xs, hxs⟩ := exists_items_of_writes hf hwrites fun _ _ _ _ => exists_decode_of_encodeAs
  refine ⟨s, ps, xs, hs, hf, hxs, (payloads_of_mapM_read hxs).trans hf.payloads_eq,
    decode_of_framed hs hf hxs, fun k hk => ?_, fun suffix => ?_⟩
  · obtain ⟨tail, hframes, htail⟩ := hf.frames_take hk
    obtain ⟨clean, fault⟩ := decode_of_frames hs hf.isComposite hframes (items_take hxs _)
    rw [Shape.assemble_take] at clean
    exact ⟨fun h => clean (htail.mpr h), fun h => fault fun ht => absurd (htail.mp ht) h.not_gt⟩
  · obtain ⟨tail, hframes, htail⟩ := hf.frames_append suffix
    obtain ⟨clean, fault⟩ := decode_of_frames hs hf.isComposite hframes hxs
    exact ⟨fun h => clean (htail.mpr h), fun h => fault fun ht => absurd (htail.mp ht) h.not_gt⟩

/-- A map of two entries that is cut three bytes behind the first value, three bytes behind the
second key and in the second value. -/
theorem decode_truncated_map :
    let t : DataType := .map (.leaf .tinyint) (.leaf .tinyint)
    let v : Value := .map [(.tinyint 1, .tinyint 2), (.tinyint 3, .tinyint 4)]
    let bytes : Bytes := [0, 0, 0, 2, 0, 0, 0, 1, 1, 0, 0, 0, 1, 2, 0, 0, 0, 1, 3, 0, 0, 0, 1, 4]
    (t.leaf? = none ∧ encode .empty t v false = .ok bytes) ∧
      decode .empty t (bytes.take 17) false = .ok (.map [(.tinyint 1, .tinyint 2)]) ∧
      decode .empty t (bytes.take 22) false = .ok (.map [(.tinyint 1, .tinyint 2)]) ∧
      (∃ cause, decode .empty t (bytes.take 23) false = .error (.malformed cause)) ∧
      decode .empty t (bytes ++ [0, 0, 0]) false = .ok v ∧
      ∃ cause, decode .empty t (bytes ++ [0, 0, 0, 0]) false = .error (.malformed cause) := by
  have he : encode .empty (.map (.leaf .tinyint) (.leaf .tinyint))
      (.map [(.tinyint 1, .tinyint 2), (.tinyint 3, .tinyint 4)]) false =
      .ok [0, 0, 0, 2, 0, 0, 0, 1, 1, 0, 0, 0, 1, 2, 0, 0, 0, 1, 3, 0, 0, 0, 1, 4] := rfl
  obtain ⟨s, ps, xs, hs, hf, hxs, -, -, hcut, hsuffix⟩ := decode_truncated rfl he
  cases hs
  cases hf.frames
  cases hxs
  exact ⟨⟨rfl, he⟩, (hcut 17 (by decide)).1 (by decide), (hcut 22 (by decide)).1 (by decide),
    (hcut 23 (by decide)).2 (by decide), (hsuffix [0, 0, 0]).1 (by decide),
    (hsuffix [0, 0, 0, 0]).2 (by decide)⟩

end Value

end CqlWire
