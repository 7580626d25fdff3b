import CqlWire.Proofs.Truncation

namespace CqlWire

variable {α β : Type} {bytes framed buffer last : Bytes} {c d e : Cursor} {err : Error} {n : Nat}

namespace Cursor

/-- The cursor `d` stands behind `c`, and the bytes `last` are the last ones between them. -/
def LeadsTo (c d : Cursor) (last : Bytes) : Prop :=
  ∃ skipped, c.rest = skipped ++ last ++ d.rest ∧
    d.position = c.position + (skipped ++ last).length

theorem LeadsTo.refl (c : Cursor) : c.LeadsTo c [] :=
  ⟨[], rfl, rfl⟩

theorem LeadsTo.trans {other : Bytes} (h : c.LeadsTo d other) (h' : d.LeadsTo e last) :
    c.LeadsTo e last := by
  obtain ⟨skipped, hrest, hposition⟩ := h
  obtain ⟨skipped', hrest', hposition'⟩ := h'
  refine ⟨skipped ++ other ++ skipped', ?_, ?_⟩
  · rw [hrest, hrest']
    simp only [List.append_assoc]
  · rw [hposition', hposition]
    simp only [List.length_append]
    omega

theorem LeadsTo.position_le (h : c.LeadsTo d last) : c.position ≤ d.position := by
  obtain ⟨skipped, -, hposition⟩ := h
  rw [hposition]
  exact Nat.le_add_right _ _

theorem LeadsTo.of_ofBytes (h : (ofBytes buffer).LeadsTo d last) :
    d.position ≤ buffer.length ∧ d.rest = buffer.drop d.position := by
  obtain ⟨skipped, hrest, hposition⟩ := h
  rw [hposition, show buffer = _ from hrest]
  simp [ofBytes]

/-- Bytes that are passed by stand in the buffer between the two cursors. -/
theorem LeadsTo.exists_slice {other : Bytes} (h : (ofBytes buffer).LeadsTo d other)
    (h' : d.LeadsTo e last) :
    ∃ front, buffer = front ++ last ++ e.rest ∧ d.position ≤ front.length ∧
      e.position = (front ++ last).length := by
  obtain ⟨skipped, hrest, hposition⟩ := h
  obtain ⟨skipped', hrest', hposition'⟩ := h'
  refine ⟨skipped ++ other ++ skipped', ?_, ?_, ?_⟩
  · rw [show buffer = _ from hrest, hrest']
    simp only [List.append_assoc]
  · rw [hposition]
    simp [ofBytes]
  · rw [hposition', hposition]
    simp only [ofBytes, List.length_append]
    omega

end Cursor

namespace Reading

/-- Reading moves the cursor forward only, whether it succeeds or not; `bytes` are those that a
result hands out. -/
def Forward (x : Reading α) (bytes : α → Bytes) : Prop :=
  (∀ c a d, x c = .ok a d → c.LeadsTo d (bytes a)) ∧
    ∀ c err d, x c = .error err d → c.LeadsTo d []

theorem forward_pure (a : α) {bytes : α → Bytes} (ha : bytes a = []) :
    Forward (pure a) bytes := by
  refine ⟨fun c _ d h => ?_, fun c err d h => nomatch h⟩
  cases h
  exact ha ▸ .refl c

theorem forward_throw (err : Error) (bytes : α → Bytes) :
    Forward (throw err : Reading α) bytes := by
  constructor
  · intro c a d h
    cases h
  · intro c _ d h
    cases h
    exact .refl c

theorem Forward.bind {x : Reading α} {f : α → Reading β} {before : α → Bytes} {after : β → Bytes}
    (hx : Forward x before) (hf : ∀ a, Forward (f a) after) : Forward (x >>= f) after := by
  refine ⟨fun c b d h => ?_, fun c err d h => ?_⟩
  · simp only [Bind.bind, EStateM.bind] at h
    split at h
    next a c' hc => exact (hx.1 c a c' hc).trans ((hf a).1 c' b d h)
    next => cases h
  · rcases bind_error h with h | ⟨a, c', hc, h⟩
    · exact hx.2 c err d h
    · exact (hx.1 c a c' hc).trans ((hf a).2 c' err d h)

/-- The last result of a sequence may be wrapped. -/
theorem Forward.wrap {x : Reading α} {f : α → β} {before : α → Bytes} {after : β → Bytes}
    (hx : Forward x before) (hf : ∀ a, after (f a) = before a) :
    Forward (x >>= fun a => pure (f a)) after := by
  refine ⟨fun c b d h => ?_, fun c err d h => ?_⟩
  · simp only [Bind.bind, EStateM.bind] at h
    split at h
    next a c' hc =>
      cases h
      exact hf a ▸ hx.1 c a d hc
    next => cases h
  · rcases bind_error h with h | ⟨a, c', hc, h⟩
    · exact hx.2 c err d h
    · cases h

theorem forward_bytes (n : Nat) : Forward (Reading.bytes n) id := by
  refine ⟨fun c b d h => ?_, fun c err d h => ?_⟩ <;> unfold Reading.bytes at h <;> split at h <;>
    cases h
  next hn =>
    refine ⟨[], (List.take_append_drop n c.rest).symm, ?_⟩
    simpa [Cursor.advance, Cursor.remaining] using hn
  next => exact .refl c

theorem forward_rest : Forward rest id := by
  refine ⟨fun c b d h => ?_, fun c err d h => nomatch h⟩
  cases h
  refine ⟨[], ?_, rfl⟩
  simp [Cursor.advance, Cursor.remaining]

theorem forward_int32 : Forward int32 fun _ => [] :=
  (forward_bytes lengthSize).bind fun _ => forward_pure _ rfl

theorem forward_count : Forward count fun _ => [] := by
  refine forward_int32.bind fun n => ?_
  split
  next => exact forward_throw _ _
  next => exact forward_pure _ rfl

theorem forward_payload : Forward payload (Option.getD · []) := by
  refine forward_int32.bind fun n => ?_
  split
  next => exact forward_pure _ rfl
  next => exact (forward_bytes n.toNat).wrap fun _ => rfl

theorem bind_of_error {x : Reading α} {f : α → Reading β} (h : x c = .error err d) :
    (x >>= f) c = .error err d := by
  simp only [bind, EStateM.bind, h]

theorem int32_of_short {position : Nat} (h : bytes.length < lengthSize) :
    int32 ⟨position, bytes⟩ =
      .error (.malformed (.shortRead lengthSize position bytes.length)) ⟨position, bytes⟩ :=
  bind_of_error (if_neg (Nat.not_le.mpr h))

/-- What can be asked of a cursor. -/
inductive Call where
  | bytes (n : Nat)
  | int32
  | count
  | payload
  | rest

/-- What a call yields. -/
inductive Answer where
  | bytes (b : Bytes)
  | number (n : Int)
  | count (n : Nat)
  | payload (p : Payload)
deriving DecidableEq

/-- The bytes of the buffer that an answer hands out. -/
def Answer.given : Answer → Bytes
  | .bytes b => b
  | .number _ | .count _ => []
  | .payload p => p.getD []

/-- What reading yields, and where it leaves the cursor. -/
def outcome (x : Reading α) (f : α → Answer) (c : Cursor) : Except Error Answer × Cursor :=
  match x c with
  | .ok a d => (.ok (f a), d)
  | .error err d => (.error err, d)

def Call.perform : Call → Cursor → Except Error Answer × Cursor
  | .bytes n => outcome (Reading.bytes n) .bytes
  | .int32 => outcome Reading.int32 .number
  | .count => outcome Reading.count .count
  | .payload => outcome Reading.payload .payload
  | .rest => outcome Reading.rest .bytes

/-- Calls made one after the other: a call that fails does not end them, and the next one goes on
where it leaves the cursor. -/
def performAll : List Call → Cursor → List (Except Error Answer) × Cursor
  | [], c => ([], c)
  | call :: calls, c =>
    ((call.perform c).1 :: (performAll calls (call.perform c).2).1,
      (performAll calls (call.perform c).2).2)

theorem performAll_append (calls later : List Call) (c : Cursor) :
    performAll (calls ++ later) c =
      ((performAll calls c).1 ++ (performAll later (performAll calls c).2).1,
        (performAll later (performAll calls c).2).2) := by
  induction calls generalizing c with
  | nil => rfl
  | cons call calls ih => simp only [List.cons_append, performAll, ih]

theorem outcome_of_ok {x : Reading α} {f : α → Answer} {a : α} (h : x c = .ok a d) :
    outcome x f c = (.ok (f a), d) := by
  rw [outcome, h]

theorem outcome_of_error {x : Reading α} {f : α → Answer} (h : x c = .error err d) :
    outcome x f c = (.error err, d) := by
  rw [outcome, h]

theorem Forward.passes_outcome {x : Reading α} {f : α → Answer}
    (h : Forward x fun a => (f a).given) (c : Cursor) :
    c.LeadsTo (outcome x f c).2 (((outcome x f c).1.toOption.map Answer.given).getD []) := by
  unfold outcome
  split
  next a d hx => exact h.1 c a d hx
  next err d hx => exact h.2 c err d hx

/-- No call moves the cursor back or behind the bytes that follow it. -/
theorem Call.passes_perform (call : Call) (c : Cursor) :
    c.LeadsTo (call.perform c).2 (((call.perform c).1.toOption.map Answer.given).getD []) := by
  cases call with
  | bytes n => exact (forward_bytes n).passes_outcome (f := .bytes) c
  | int32 => exact forward_int32.passes_outcome (f := .number) c
  | count => exact forward_count.passes_outcome (f := .count) c
  | payload => exact forward_payload.passes_outcome (f := .payload) c
  | rest => exact forward_rest.passes_outcome (f := .bytes) c

theorem passes_performAll (calls : List Call) (c : Cursor) :
    ∃ last, c.LeadsTo (performAll calls c).2 last := by
  induction calls generalizing c with
  | nil => exact ⟨[], .refl c⟩
  | cons call calls ih =>
    obtain ⟨last, h⟩ := ih (call.perform c).2
    exact ⟨last, (call.passes_perform c).trans h⟩

end Reading

namespace Frame

open Reading (Call Answer performAll)

/-- What is written into a buffer at once. -/
inductive Item where
  | count (n : Nat)
  | payload (p : Payload)
deriving DecidableEq

namespace Item

/-- The bytes of an item. -/
def frame : Item → Except Error Bytes
  | count n => Frame.count n
  | payload p => Frame.payload p

/-- The bytes of items one after the other. -/
def frames : List Item → Except Error Bytes
  | [] => .ok []
  | item :: items => do
    let head ← item.frame
    return head ++ (← frames items)

/-- Counts and lengths stay below the limit. -/
def Fits : Item → Prop
  | count n => n < limit
  | payload p => ∀ body, p = some body → body.length < limit

/-- The call that reads an item. -/
def call : Item → Call
  | count _ => .count
  | payload _ => .payload

def answer : Item → Answer
  | count n => .count n
  | payload p => .payload p

variable {item : Item} {items : List Item}

theorem exists_frame_iff : (∃ bytes, item.frame = .ok bytes) ↔ item.Fits := by
  cases item with
  | count n => simp only [frame, count_eq_ok, Fits, exists_and_left, exists_eq', and_true]
  | payload p =>
    cases p with
    | none => exact iff_of_true ⟨_, rfl⟩ nofun
    | some body =>
      simp only [frame, payload_some_eq_ok, Fits, exists_and_left, exists_eq', and_true,
        Option.some.injEq, forall_eq']

theorem frames_cons_eq_ok :
    frames (item :: items) = .ok bytes ↔
      ∃ head tail, item.frame = .ok head ∧ frames items = .ok tail ∧ head ++ tail = bytes := by
  rw [frames, bind_eq_ok]
  simp only [bind_eq_ok, pure_eq_ok]
  constructor
  · rintro ⟨head, hh, tail, ht, h⟩
    exact ⟨head, tail, hh, ht, h⟩
  · rintro ⟨head, tail, hh, ht, h⟩
    exact ⟨head, hh, tail, ht, h⟩

theorem exists_frames_iff : (∃ bytes, frames items = .ok bytes) ↔ ∀ item ∈ items, item.Fits := by
  induction items with
  | nil => exact iff_of_true ⟨[], rfl⟩ nofun
  | cons item items ih =>
    rw [List.forall_mem_cons, ← exists_frame_iff, ← ih]
    constructor
    · rintro ⟨bytes, h⟩
      obtain ⟨head, tail, hh, ht, -⟩ := frames_cons_eq_ok.mp h
      exact ⟨⟨head, hh⟩, tail, ht⟩
    · rintro ⟨⟨head, hh⟩, tail, ht⟩
      exact ⟨_, frames_cons_eq_ok.mpr ⟨head, tail, hh, ht, rfl⟩⟩

theorem perform_call (position : Nat) (rest : Bytes) (h : item.frame = .ok framed) :
    item.call.perform ⟨position, framed ++ rest⟩ =
      (.ok item.answer, ⟨position + framed.length, rest⟩) := by
  cases item with
  | count n =>
    have hread := Reading.count_append position rest h
    obtain ⟨-, rfl⟩ := count_eq_ok.mp h
    rw [Bytes.length_ofNat]
    exact Reading.outcome_of_ok (f := .count) hread
  | payload p =>
    have hread := Reading.payload_append position rest h
    exact Reading.outcome_of_ok (f := .payload) hread

/-- Items are read back from their frames. -/
theorem performAll_call (position : Nat) (rest : Bytes) (h : frames items = .ok bytes) :
    performAll (items.map call) ⟨position, bytes ++ rest⟩ =
      (items.map fun item => .ok item.answer, ⟨position + bytes.length, rest⟩) := by
  induction items generalizing position bytes with
  | nil =>
    cases h
    rfl
  | cons item items ih =>
    obtain ⟨head, tail, hh, ht, rfl⟩ := frames_cons_eq_ok.mp h
    rw [List.append_assoc, List.map_cons, performAll, perform_call position _ hh, ih _ ht,
      List.map_cons, List.length_append, Nat.add_assoc]

/-- An item whose frame is cut is malformed. -/
theorem perform_call_take (position : Nat) (h : item.frame = .ok framed) (hn : n < framed.length) :
    ∃ cause d, item.call.perform ⟨position, framed.take n⟩ = (.error (.malformed cause), d) := by
  have hlength : (framed.take n).length = n := List.length_take_of_le hn.le
  cases item with
  | count m =>
    obtain ⟨-, rfl⟩ := count_eq_ok.mp h
    rw [Bytes.length_ofNat] at hn
    have hread : Reading.count ⟨position, (Bytes.ofNat lengthSize m).take n⟩ = .error _ _ :=
      Reading.bind_of_error (Reading.int32_of_short (hlength.trans_lt hn))
    exact ⟨_, _, Reading.outcome_of_error (f := .count) hread⟩
  | payload p =>
    obtain ⟨err, d, hread⟩ : ∃ err d, Reading.payload ⟨position, framed.take n⟩ = .error err d := by
      by_cases hshort : n < lengthSize
      · exact ⟨_, _, Reading.bind_of_error (Reading.int32_of_short (hlength.trans_lt hshort))⟩
      · exact payload_take position h (Nat.not_lt.mp hshort) hn
    obtain ⟨cause, rfl⟩ := Reading.payload_error hread
    exact ⟨cause, d, Reading.outcome_of_error (f := .payload) hread⟩

/-- Where a cut falls: into the frame of one item, behind the frames of those before it. -/
theorem exists_cut (h : frames items = .ok bytes) (hn : n < bytes.length) :
    ∃ before item after front frame, items = before ++ item :: after ∧
      frames before = .ok front ∧ item.frame = .ok frame ∧
      front.length ≤ n ∧ n < front.length + frame.length ∧
      bytes.take n = front ++ frame.take (n - front.length) := by
  induction items generalizing bytes n with
  | nil =>
    cases h
    exact absurd hn (Nat.not_lt_zero n)
  | cons item items ih =>
    obtain ⟨head, tail, hh, ht, rfl⟩ := frames_cons_eq_ok.mp h
    by_cases hcut : n < head.length
    · refine ⟨[], item, items, [], head, rfl, rfl, hh, Nat.zero_le n, by simpa using hcut, ?_⟩
      rw [List.take_append_of_le_length hcut.le]
      rfl
    · rw [List.length_append] at hn
      obtain ⟨before, cut, after, front, frame, rfl, hfront, hframe, hle, hlt, htake⟩ :=
        ih ht (n := n - head.length) (by omega)
      refine ⟨item :: before, cut, after, head ++ front, frame, rfl,
        frames_cons_eq_ok.mpr ⟨head, front, hh, hfront, rfl⟩, hframe, ?_, ?_, ?_⟩
      · rw [List.length_append]
        omega
      · rw [List.length_append]
        omega
      · rw [List.take_append, htake, List.take_of_length_le (Nat.not_lt.mp hcut),
          List.append_assoc, List.length_append, Nat.sub_sub]

/-- Counts and payloads below the limit are read back from their frames by the calls that belong to
them, up to the end. Of frames that are cut, the item into whose frame the cut falls is malformed
and those before it are read. And whatever the bytes and the calls, the cursor never goes back or
past the end, and the bytes that an answer hands out lie between where the call finds it and where
it leaves it. -/
theorem read_back (items : List Item) (hfits : ∀ item ∈ items, item.Fits) :
    (∃ bytes, frames items = .ok bytes ∧
      performAll (items.map call) (.ofBytes bytes) =
        (items.map fun item => .ok item.answer, ⟨bytes.length, []⟩) ∧
      ∀ n < bytes.length, ∃ before item after front framed cause later d,
        items = before ++ item :: after ∧ frames before = .ok front ∧ item.frame = .ok framed ∧
        front.length ≤ n ∧ n < front.length + framed.length ∧
        performAll (items.map call) (.ofBytes (bytes.take n)) =
          ((before.map fun item => .ok item.answer) ++ .error (.malformed cause) :: later, d)) ∧
    ∀ (buffer : Bytes) (calls later : List Call),
      let c := (performAll calls (.ofBytes buffer)).2
      let d := (performAll (calls ++ later) (.ofBytes buffer)).2
      c.position ≤ d.position ∧ d.position ≤ buffer.length ∧ d.rest = buffer.drop d.position ∧
      ∀ (next : Call) (answer : Answer) (e : Cursor), next.perform d = (.ok answer, e) →
        ∃ front, buffer = front ++ answer.given ++ e.rest ∧ d.position ≤ front.length ∧
          e.position = (front ++ answer.given).length := by
  constructor
  · obtain ⟨bytes, h⟩ := exists_frames_iff.mpr hfits
    refine ⟨bytes, h, ?_, fun n hn => ?_⟩
    · have hread := performAll_call 0 [] h
      rwa [List.append_nil, Nat.zero_add] at hread
    · obtain ⟨before, item, after, front, framed, rfl, hfront, hframed, hle, hlt, htake⟩ :=
        exists_cut h hn
      obtain ⟨cause, d, hcut⟩ := perform_call_take front.length hframed (n := n - front.length)
        (by omega)
      have hread := performAll_call 0 (framed.take (n - front.length)) hfront
      rw [Nat.zero_add] at hread
      have hrun : performAll ((before ++ item :: after).map call) (.ofBytes (bytes.take n)) =
          ((before.map fun item => .ok item.answer) ++
            .error (.malformed cause) :: (performAll (after.map call) d).1,
          (performAll (after.map call) d).2) := by
        rw [htake, List.map_append, Reading.performAll_append, Cursor.ofBytes, hread, List.map_cons,
          performAll, hcut]
      exact ⟨before, item, after, front, framed, cause, _, _, rfl, hfront, hframed, hle, hlt, hrun⟩
  · intro buffer calls later c d
    obtain ⟨_, hd⟩ := Reading.passes_performAll (calls ++ later) (.ofBytes buffer)
    have hlater : ∃ last, c.LeadsTo d last := by
      simp only [d, Reading.performAll_append]
      exact Reading.passes_performAll later c
    obtain ⟨_, hcd⟩ := hlater
    obtain ⟨hle, hrest⟩ := hd.of_ofBytes
    refine ⟨hcd.position_le, hle, hrest, fun next answer e h => ?_⟩
    have hnext := next.passes_perform d
    rw [h] at hnext
    exact hd.exists_slice hnext

/-- A count and three payloads, cut in the bytes of the first payload. -/
theorem read_back_cut :
    let items : List Item := [.count 3, .payload (some [97, 98]), .payload none, .payload (some [])]
    let bytes : Bytes :=
      [0, 0, 0, 3, 0, 0, 0, 2, 97, 98, 0xff, 0xff, 0xff, 0xff, 0, 0, 0, 0]
    (∀ item ∈ items, item.Fits) ∧
      performAll (items.map call) (.ofBytes bytes) =
        ([.ok (.count 3), .ok (.payload (some [97, 98])), .ok (.payload none),
          .ok (.payload (some []))], ⟨18, []⟩) ∧
      ∃ cause later d, performAll (items.map call) (.ofBytes (bytes.take 9)) =
        (.ok (.count 3) :: .error (.malformed cause) :: later, d) := by
  intro items bytes
  have hfits : ∀ item ∈ items, item.Fits := by
    simp [items, Fits, limit]
  obtain ⟨⟨out, hout, hrun, hcut⟩, -⟩ := read_back items hfits
  obtain rfl : bytes = out := Except.ok.inj hout
  refine ⟨hfits, hrun, ?_⟩
  obtain ⟨before, item, after, front, framed, cause, later, d, hsplit, hfront, hframed, hle, hlt,
    hcut⟩ := hcut 9 (by decide)
  simp only [items] at hsplit
  -- The first item ends before the cut, and the second one behind it.
  rcases before with _ | ⟨_, _ | ⟨_, before⟩⟩
  · cases hsplit
    cases hfront
    cases hframed
    exact absurd hlt (by decide)
  · cases hsplit
    exact ⟨cause, later, d, hcut⟩
  · obtain ⟨rfl, rfl, -⟩ : _ ∧ _ ∧ _ := by simpa using hsplit
    obtain ⟨first, rest, hfirst, hrest, rfl⟩ := frames_cons_eq_ok.mp hfront
    obtain ⟨second, rest, hsecond, -, rfl⟩ := frames_cons_eq_ok.mp hrest
    cases hfirst
    cases hsecond
    simp only [List.length_append, Bytes.length_ofNat, lengthSize, List.length_cons] at hle
    omega

end Item

end Frame

end CqlWire
