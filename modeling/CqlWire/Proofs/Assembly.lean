import CqlWire.Proofs.UniformReading
import Mathlib.Algebra.GroupWithZero.Nat
import Mathlib.Algebra.Order.BigOperators.Group.List
import Mathlib.Algebra.Order.Group.Nat

namespace CqlWire

open Value (decode decodeWithin decoder ofPayload wireKey)

/-- A payload inside another value: where it stands and the type that it is read as. -/
structure Part where
  slot : Slot
  type : DataType
  payload : Payload

/-- The payload of a part and its value. -/
def Part.read (decode : Value.Decoder) (part : Part) : Except Error (Payload × Value) :=
  Prod.mk part.payload <$> ofPayload decode part.slot part.type part.payload

/-- The bytes of a part that a value is read from; `none` when the part is null without reading. -/
def Part.bytes? (part : Part) : Option Bytes :=
  if part.payload = some [] ∧ part.type.leaf?.any part.slot.keepsEmpty = false then none
  else part.payload

namespace Shape

/-- The shapes of values with frames inside them. -/
def IsComposite : Shape → Prop
  | leaf _ => False
  | _ => True

/-- Whether a count stands before the frames. -/
def isCounted (frozen : Bool) : Shape → Bool
  | leaf _ | tuple _ => false
  | list _ | set _ | map _ _ => true
  | udt _ => !frozen

/-- The payloads framed in bytes and how they end. -/
def frames (frozen : Bool) (bytes : Bytes) : Shape → Except Error (List Payload × Frame.Tail)
  | leaf _ => .ok ([], .clean)
  | list _ | set _ => Value.countedFrames 1 bytes
  | map _ _ => Value.countedFrames 2 bytes
  | tuple ts => .ok (Frame.read ts.length (.ofBytes bytes))
  | udt u => Frame.read u.fields.length <$> Value.recordStart (!frozen) u bytes

/-- Payloads as keys and values in turn. -/
def inTurn (key value : DataType) : List Payload → List Part
  | [] => []
  | [p] => [⟨.element, key, p⟩]
  | p :: q :: rest => ⟨.element, key, p⟩ :: ⟨.element, value, q⟩ :: inTurn key value rest

/-- The parts that payloads are in a value of the shape. -/
def parts : Shape → List Payload → List Part
  | leaf _, _ => []
  | list e, ps | set e, ps => ps.map fun p => ⟨.element, e, p⟩
  | map k e, ps => inTurn k e ps
  | tuple ts, ps => List.zipWith (fun t p => ⟨.position, t, p⟩) ts ps
  | udt u, ps => List.zipWith (fun f p => ⟨.element, f.2, p⟩) u.fields ps

/-- Keys and values in turn as entries, each behind the payload of its key. A key without a value
is dropped. -/
def entriesOf : List (Payload × Value) → List (Payload × Value × Value)
  | x :: y :: rest => (x.1, x.2, y.2) :: entriesOf rest
  | _ => []

/-- Items by position; positions without an item are null. -/
def padded (length : Nat) (items : List Value) : List Value :=
  items ++ List.replicate (length - items.length) .null

/-- The value that is made of its parts, each given by its payload and its value. Of set elements
with the same payload and of map entries with the same payload of the key the first one stays. -/
def assemble : Shape → List (Payload × Value) → Value
  | leaf _, _ => .null
  | list _, xs => .list (xs.map Prod.snd)
  | set _, xs => .set ((distinctBy (fun x => wireKey x.1 x.2) [] xs).map Prod.snd)
  | map _ _, xs =>
    .map ((distinctBy (fun x => wireKey x.1 x.2.1) [] (entriesOf xs)).map Prod.snd)
  | tuple ts, xs => .tuple (padded ts.length (xs.map Prod.snd))
  | udt u, xs =>
    .record (Fields.ofList ((u.fields.map Prod.fst).zip (padded u.fields.length (xs.map Prod.snd))))

end Shape

/-- The number of bytes in the frame of a payload. -/
def Frame.size (p : Payload) : Nat :=
  lengthSize + (p.getD []).length

/-- What a type is below all frozen wrappers, a user-defined type as it is on record. -/
def Registry.shape (r : Registry) (t : DataType) : Except Error Shape :=
  match t.shape with
  | .udt declared => Shape.udt <$> r.lookup declared.keyspace declared.name
  | s => .ok s

variable {r : Registry} {t e k : DataType} {s : Shape} {d : Value.Decoder} {ps : List Payload}
  {bytes : Bytes} {frozen : Bool} {depth : Nat}

namespace Value

theorem decodeElements_eq_mapM (d : Decoder) (e : DataType) (ps : List Payload) :
    decodeElements d e ps = (ps.map fun p => Part.mk .element e p).mapM (Part.read d) := by
  rw [List.mapM_map]
  exact mapM_congr fun p _ => bind_pure_comp _ _

theorem decodeEntries_eq_mapM (d : Decoder) (k e : DataType) (ps : List Payload) :
    decodeEntries d k e ps = Shape.entriesOf <$> (Shape.inTurn k e ps).mapM (Part.read d) := by
  induction ps using decodeEntries.induct with
  | case1 => rfl
  | case2 p =>
    simp only [decodeEntries, Shape.inTurn, List.mapM_cons, List.mapM_nil, Part.read]
    cases ofPayload d .element k p <;> rfl
  | case3 p q rest ih =>
    simp only [decodeEntries, Shape.inTurn, List.mapM_cons, Part.read, ih]
    cases ofPayload d .element k p with
    | error e => rfl
    | ok key =>
      cases ofPayload d .element e q with
      | error e => rfl
      | ok value => cases (Shape.inTurn k e rest).mapM (Part.read d) <;> rfl

theorem decodePositions_eq_mapM (d : Decoder) (slot : Slot) (ts : List DataType)
    (ps : List Payload) :
    decodePositions d slot ts ps = (fun xs => Shape.padded ts.length (xs.map Prod.snd)) <$>
      (List.zipWith (fun t p => Part.mk slot t p) ts ps).mapM (Part.read d) := by
  induction ts generalizing ps with
  | nil => cases ps <;> rfl
  | cons t ts ih =>
    cases ps with
    | nil =>
      have nulls : (t :: ts).map (fun _ => Value.null) = Shape.padded (ts.length + 1) [] := by
        rw [List.map_const', Shape.padded]
        rfl
      exact congrArg Except.ok nulls
    | cons p ps =>
      simp only [decodePositions, List.zipWith_cons_cons, List.mapM_cons, Part.read, ih]
      cases ofPayload d slot t p with
      | error e => rfl
      | ok value =>
        cases hrest : (List.zipWith (fun t p => Part.mk slot t p) ts ps).mapM (Part.read d) with
        | error e => rfl
        | ok xs =>
          have one : Shape.padded (ts.length + 1) (value :: xs.map Prod.snd) =
              value :: Shape.padded ts.length (xs.map Prod.snd) := by
            simp [Shape.padded]
          exact congrArg Except.ok one.symm

/-- A decoder of values inside others, with no bound on their depth. -/
def unbounded (r : Registry) : Decoder :=
  fun t bytes => decode r t bytes true

end Value

namespace Registry

theorem isComposite_shape (hs : r.shape t = .ok s) : s.IsComposite ↔ t.leaf? = none := by
  unfold shape DataType.leaf? at *
  cases ht : t.shape with
  | udt declared =>
    rw [ht] at hs
    obtain ⟨udt, -, rfl⟩ := map_eq_ok.mp hs
    simp [Shape.IsComposite]
  | _ =>
    rw [ht] at hs
    cases hs
    simp [Shape.IsComposite]

theorem shape_eq_error {err : Error} (hs : r.shape t = .error err) :
    ∃ declared, t.shape = .udt declared ∧ r.lookup declared.keyspace declared.name = .error err := by
  unfold shape at hs
  split at hs
  next declared ht => exact ⟨declared, ht, map_eq_error.mp hs⟩
  next => cases hs

end Registry

namespace Value

/-- A composite value is made of the values of its parts. -/
theorem decodeWithin_composite (hs : r.shape t = .ok s) (hc : s.IsComposite) :
    decodeWithin r (depth + 1) t frozen bytes = (do
      let (ps, tail) ← s.frames (frozen || t.isFrozen) bytes
      let xs ← (s.parts ps).mapM (Part.read (decoder r depth))
      tail.close (s.assemble xs)) := by
  unfold Registry.shape at hs
  cases ht : t.shape with
  | leaf kind =>
    rw [ht] at hs
    cases hs
    cases hc
  | list e =>
    rw [ht] at hs
    cases hs
    simp only [decodeWithin, ht, decodeElements_eq_mapM]
    rfl
  | set e =>
    rw [ht] at hs
    cases hs
    simp only [decodeWithin, ht, decodeElements_eq_mapM]
    rfl
  | map k e =>
    rw [ht] at hs
    cases hs
    simp only [decodeWithin, ht, decodeEntries_eq_mapM, bind_map_left]
    rfl
  | tuple ts =>
    rw [ht] at hs
    cases hs
    simp only [decodeWithin, ht, decodePositions_eq_mapM, bind_map_left]
    rfl
  | udt declared =>
    rw [ht] at hs
    obtain ⟨udt, hu, rfl⟩ := map_eq_ok.mp hs
    simp only [decodeWithin, ht, hu, decodePositions_eq_mapM, bind_map_left,
      List.length_map, List.zipWith_map_left]
    cases frozen || t.isFrozen with
    | true => rfl
    | false =>
      simp only [Shape.frames, recordStart, bind_map_left]
      rfl

end Value

theorem Frame.sum_size_read (n : Nat) (c : Cursor) :
    ((Frame.read n c).1.map Frame.size).sum ≤ c.remaining := by
  induction n generalizing c with
  | zero => exact Nat.zero_le _
  | succ n ih =>
    rw [Frame.read]
    split
    next hc =>
      have hle : lengthSize ≤ c.rest.length := of_decide_eq_true hc
      cases hsplit : Frame.split? c.rest with
      | none =>
        obtain ⟨e, he⟩ := Frame.payload_of_split?_none hc hsplit
        rw [he]
        exact Nat.zero_le _
      | some front =>
        obtain ⟨p, rest⟩ := front
        obtain ⟨position, hp⟩ := Frame.payload_of_split? hc hsplit
        have hlen := Frame.length_split? hle hsplit
        have hrest : _ ≤ rest.length := ih ⟨position, rest⟩
        rw [hp]
        show ((p :: (Frame.read n ⟨position, rest⟩).1).map Frame.size).sum ≤ c.rest.length
        have hsize : Frame.size p = lengthSize + (p.getD []).length := rfl
        rw [List.map_cons, List.sum_cons]
        omega
    next => exact Nat.zero_le _

section Parts

variable {part : Part}

theorem Part.read_of_bytes?_none (h : part.bytes? = none) :
    part.read d = .ok (part.payload, .null) := by
  unfold bytes? at h
  split at h
  next hempty =>
    rw [read, hempty.1, ofPayload, if_neg (by rw [hempty.2]; decide)]
    rfl
  next =>
    rw [read, h]
    rfl

theorem Part.read_of_bytes? (h : part.bytes? = some bytes) :
    part.read d = Prod.mk part.payload <$> d part.type bytes := by
  unfold bytes? at h
  split at h
  next => cases h
  next hempty =>
    rw [read, h]
    cases bytes with
    | nil =>
      have keeps : part.type.leaf?.any part.slot.keepsEmpty = true := by
        rw [← Bool.not_eq_false]
        exact fun hk => hempty ⟨h, hk⟩
      rw [ofPayload, if_pos keeps]
    | cons b bytes => rfl

theorem Part.payload_of_bytes? (h : part.bytes? = some bytes) : part.payload = some bytes := by
  unfold bytes? at h
  split at h
  next => cases h
  next => exact h

theorem Part.length_bytes? (h : part.bytes? = some bytes) :
    bytes.length + lengthSize = Frame.size part.payload := by
  rw [payload_of_bytes? h, Frame.size, Option.getD_some, Nat.add_comm]

end Parts

namespace Shape

variable {tail : Frame.Tail} {part : Part}

theorem sum_size_countedFrames {width : Nat} (h : Value.countedFrames width bytes = .ok (ps, tail)) :
    (ps.map Frame.size).sum ≤ bytes.length := by
  simp only [Value.countedFrames] at h
  split at h
  next hc =>
    split at h
    next n c hn =>
      obtain ⟨-, rfl⟩ := (Frame.count_of_hasLength hc).mp hn
      have hps : _ = ps := congrArg Prod.fst (Except.ok.inj h)
      rw [← hps]
      refine Nat.le_trans (Frame.sum_size_read _ _) ?_
      simp [Cursor.remaining, Cursor.advance, Cursor.ofBytes]
    next => cases h
  next =>
    cases h
    exact Nat.zero_le _

/-- The frames of a value stand in its bytes. -/
theorem sum_size_frames (h : s.frames frozen bytes = .ok (ps, tail)) :
    (ps.map Frame.size).sum ≤ bytes.length := by
  cases s with
  | leaf kind =>
    cases h
    exact Nat.zero_le _
  | list e | set e | map k e => exact sum_size_countedFrames h
  | tuple ts =>
    have hps : _ = ps := congrArg Prod.fst (Except.ok.inj h)
    rw [← hps]
    exact Frame.sum_size_read _ _
  | udt u =>
    obtain ⟨start, hstart, hread⟩ := map_eq_ok.mp h
    have hps : _ = ps := congrArg Prod.fst hread
    have hle : start.remaining ≤ bytes.length := by
      cases frozen with
      | true =>
        cases hstart
        exact Nat.le_refl _
      | false => exact Value.remaining_of_skipFieldCount hstart
    rw [← hps]
    exact Nat.le_trans (Frame.sum_size_read _ _) hle

theorem payloads_inTurn (k e : DataType) (ps : List Payload) :
    (inTurn k e ps).map Part.payload = ps := by
  induction ps using inTurn.induct with
  | case1 | case2 p => rfl
  | case3 p q rest ih => rw [inTurn, List.map_cons, List.map_cons, ih]

theorem payloads_zipWith {α : Type} {part : α → Payload → Part}
    (h : ∀ a p, (part a p).payload = p) (as : List α) (ps : List Payload) :
    (List.zipWith part as ps).map Part.payload = ps.take as.length := by
  induction as generalizing ps with
  | nil => rfl
  | cons a as ih =>
    cases ps with
    | nil => rfl
    | cons p ps => simp only [List.zipWith_cons_cons, List.map_cons, h, ih, List.length_cons,
        List.take_succ_cons]

/-- The parts have the payloads in their order, up to the last position. -/
theorem payloads_parts (s : Shape) (ps : List Payload) :
    (s.parts ps).map Part.payload <+: ps := by
  cases s with
  | leaf kind => exact List.nil_prefix
  | list e | set e => simp [parts, Function.comp_def]
  | map k e => simp [parts, payloads_inTurn]
  | tuple ts =>
    rw [parts, payloads_zipWith fun _ _ => rfl]
    exact List.take_prefix _ _
  | udt u =>
    rw [parts, payloads_zipWith fun _ _ => rfl]
    exact List.take_prefix _ _

theorem mem_of_mem_parts (h : part ∈ s.parts ps) : part.payload ∈ ps :=
  (payloads_parts s ps).mem (List.mem_map_of_mem h)

theorem size_le_of_mem_frames (h : s.frames frozen bytes = .ok (ps, tail)) {p : Payload}
    (hp : p ∈ ps) : Frame.size p ≤ bytes.length :=
  Nat.le_trans (List.le_sum_of_mem (List.mem_map_of_mem hp)) (sum_size_frames h)

theorem length_lt_of_part {body : Bytes}
    (he : s.frames frozen bytes = .ok (ps, tail)) (hpart : part ∈ s.parts ps)
    (hb : part.bytes? = some body) : body.length < bytes.length := by
  have hsize := size_le_of_mem_frames he (mem_of_mem_parts hpart)
  rw [← Part.length_bytes? hb, lengthSize] at hsize
  omega

end Shape

namespace Value

theorem decode_leaf {kind : Kind} (h : t.shape = .leaf kind) (nested : Bool) :
    decode r t bytes nested = Leaf.decode kind bytes :=
  decodeWithin_leaf h

theorem decode_of_shape_error {err : Error} (h : r.shape t = .error err) (nested : Bool) :
    decode r t bytes nested = .error err := by
  obtain ⟨declared, ht, hu⟩ := Registry.shape_eq_error h
  simp only [decode, depthBound, decodeWithin, ht, hu]
  rfl

/-- A composite value is made of the values of its parts, at whatever depth they lie: the bound on
the depth is never reached. -/
theorem decode_composite (hs : r.shape t = .ok s) (hc : s.IsComposite) (nested : Bool) :
    decode r t bytes nested = (do
      let (ps, tail) ← s.frames (nested || t.isFrozen) bytes
      let xs ← (s.parts ps).mapM (Part.read (unbounded r))
      tail.close (s.assemble xs)) := by
  -- A part has a length less than the whole, and so the depth that is left for it is enough.
  have agree : AgreeWithin bytes.length (decoder r (bytes.length / lengthSize)) (unbounded r) := by
    intro t u body htu hb
    refine decodeWithin_congr htu (fun _ => rfl) ?_ (Nat.lt_succ_self _)
    simp only [lengthSize] at hb ⊢
    omega
  rw [decode, depthBound, decodeWithin_composite hs hc]
  cases hf : s.frames (nested || t.isFrozen) bytes with
  | error err => rfl
  | ok x =>
    obtain ⟨ps, tail⟩ := x
    have each : (s.parts ps).mapM (Part.read (decoder r (bytes.length / lengthSize))) =
        (s.parts ps).mapM (Part.read (unbounded r)) := by
      refine mapM_congr fun part hpart => ?_
      have hsize := Shape.size_le_of_mem_frames hf (Shape.mem_of_mem_parts hpart)
      have read : ofPayload (decoder r (bytes.length / lengthSize)) part.slot part.type part.payload =
          ofPayload (unbounded r) part.slot part.type part.payload := by
        refine agree.payload rfl fun body hb => ?_
        rw [hb, Frame.size, Option.getD_some] at hsize
        omega
      rw [Part.read, Part.read, read]
    show (_ >>= fun xs => tail.close (s.assemble xs)) = _
    rw [each]
    rfl

end Value

end CqlWire
