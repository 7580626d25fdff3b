import CqlWire.Proofs.Assembly
import CqlWire.Proofs.Typing

namespace CqlWire

namespace Error

/-- The errors of bytes that are not laid out as the type demands. -/
def IsMalformed (e : Error) : Prop :=
  ∃ cause, e = malformed cause

/-- The errors of bytes that spell no value of the type. -/
inductive IsUnreadable : Error → Prop
  | malformed (cause : Malformation) : IsUnreadable (.malformed cause)
  | invalidUtf8 (subject : String) : IsUnreadable (.invalidUtf8 subject)
  | schemaMismatch (type : String) (expected found : Nat) :
    IsUnreadable (.schemaMismatch type expected found)

/-- The errors that decoding can end with. -/
inductive EndsDecoding : Error → Prop
  | malformed (cause : Malformation) : EndsDecoding (.malformed cause)
  | invalidUtf8 (subject : String) : EndsDecoding (.invalidUtf8 subject)
  | schemaMismatch (type : String) (expected found : Nat) :
    EndsDecoding (.schemaMismatch type expected found)
  | notRegistered (keyspace name : String) : EndsDecoding (.notRegistered keyspace name)

theorem IsMalformed.isUnreadable {e : Error} (h : e.IsMalformed) : e.IsUnreadable := by
  obtain ⟨cause, rfl⟩ := h
  exact .malformed cause

theorem IsUnreadable.endsDecoding {e : Error} (h : e.IsUnreadable) : e.EndsDecoding := by
  cases h with
  | malformed cause => exact .malformed cause
  | invalidUtf8 subject => exact .invalidUtf8 subject
  | schemaMismatch type expected found => exact .schemaMismatch type expected found

end Error

variable {e : Error} {c d : Cursor} {n : Nat} {bytes : Bytes}

namespace Reading

theorem bytes_error (h : Reading.bytes n c = .error e d) : e.IsMalformed := by
  unfold Reading.bytes at h
  split at h
  next => cases h
  next =>
    cases h
    exact ⟨_, rfl⟩

theorem bind_error {α β : Type} {x : Reading α} {f : α → Reading β}
    (h : (x >>= f) c = .error e d) :
    x c = .error e d ∨ ∃ a c', x c = .ok a c' ∧ f a c' = .error e d := by
  simp only [bind, EStateM.bind] at h
  split at h
  next a c' hx => exact .inr ⟨a, c', hx, h⟩
  next hx =>
    cases h
    exact .inl hx

theorem int32_error (h : int32 c = .error e d) : e.IsMalformed := by
  rcases bind_error h with h | ⟨_, _, -, h⟩
  · exact bytes_error h
  · cases h

theorem count_error (h : count c = .error e d) : e.IsMalformed := by
  rcases bind_error h with h | ⟨_, _, -, h⟩
  · exact int32_error h
  split at h <;> cases h
  exact ⟨_, rfl⟩

theorem payload_error (h : payload c = .error e d) : e.IsMalformed := by
  rcases bind_error h with h | ⟨_, _, -, h⟩
  · exact int32_error h
  split at h
  next => cases h
  next =>
    rcases bind_error h with h | ⟨_, _, -, h⟩
    · exact bytes_error h
    · cases h

end Reading

theorem Frame.read_fault (h : (Frame.read n c).2 = .fault e) : e.IsMalformed := by
  induction n generalizing c with
  | zero =>
    rw [read, ending] at h
    split at h <;> cases h
    exact ⟨_, rfl⟩
  | succ n ih =>
    rw [read] at h
    split at h
    next =>
      split at h
      next => exact ih h
      next hpayload =>
        cases h
        exact Reading.payload_error hpayload
    next => cases h

theorem Value.countedFrames_error {width : Nat} (h : countedFrames width bytes = .error e) :
    e.IsMalformed := by
  simp only [countedFrames] at h
  split at h
  next =>
    split at h <;> cases h
    next hcount => exact Reading.count_error hcount
  next => cases h

theorem Value.countedFrames_fault {width : Nat} {ps : List Payload}
    (h : countedFrames width bytes = .ok (ps, .fault e)) : e.IsMalformed := by
  simp only [countedFrames] at h
  split at h
  next =>
    split at h
    next => exact Frame.read_fault (congrArg Prod.snd (Except.ok.inj h))
    next => cases h
  next => cases h

theorem Value.skipFieldCount_error {udt : Udt} (h : skipFieldCount udt c = .error e) :
    e.IsUnreadable := by
  unfold skipFieldCount at h
  split at h
  next =>
    split at h
    next =>
      split at h <;> cases h
      exact .schemaMismatch _ _ _
    next hcount =>
      cases h
      exact (Reading.count_error hcount).isUnreadable
  next => cases h

namespace Leaf

theorem decodeText_error {subject : String} (h : decodeText subject bytes = .error e) :
    e.IsUnreadable := by
  unfold decodeText at h
  split at h <;> cases h
  exact .invalidUtf8 subject

theorem checkSize_error {kind : Kind} (h : checkSize kind bytes = .error e) : e.IsMalformed := by
  unfold checkSize at h
  split at h
  next =>
    split at h <;> cases h
    exact ⟨_, rfl⟩
  next => cases h

theorem decode_error {kind : Kind} (h : decode kind bytes = .error e) : e.IsUnreadable := by
  rcases bind_eq_error.mp h with hsize | ⟨_, -, h⟩
  · exact (checkSize_error hsize).isUnreadable
  cases kind
  case ascii =>
    simp only at h
    split at h
    next =>
      rcases bind_eq_error.mp h with htext | ⟨s, -, h⟩
      · exact decodeText_error htext
      · cases h
    next =>
      cases h
      exact .invalidUtf8 "ascii"
  case text =>
    rcases bind_eq_error.mp h with htext | ⟨s, -, h⟩
    · exact decodeText_error htext
    · cases h
  case time | timeuuid =>
    rcases bind_eq_error.mp h with hcheck | ⟨_, -, h⟩
    · unfold checkTime checkVersion at *
      split at hcheck <;> cases hcheck
      exact .malformed _
    · cases h
  case inet | varint | decimal =>
    simp only at h
    split at h <;> cases h
    exact .malformed _
  all_goals cases h

end Leaf

namespace Shape

variable {s : Shape} {frozen : Bool} {ps : List Payload}

theorem frames_error (h : s.frames frozen bytes = .error e) : e.IsUnreadable := by
  cases s with
  | leaf kind | tuple ts => cases h
  | list t | set t | map k t => exact (Value.countedFrames_error h).isUnreadable
  | udt u =>
    have hstart := map_eq_error.mp h
    cases frozen with
    | true => cases hstart
    | false => exact Value.skipFieldCount_error hstart

theorem frames_fault (h : s.frames frozen bytes = .ok (ps, .fault e)) : e.IsMalformed := by
  cases s with
  | leaf kind => cases h
  | list t | set t | map k t => exact Value.countedFrames_fault h
  | tuple ts => exact Frame.read_fault (congrArg Prod.snd (Except.ok.inj h))
  | udt u =>
    obtain ⟨start, -, hread⟩ := map_eq_ok.mp h
    exact Frame.read_fault (congrArg Prod.snd hread)

end Shape

namespace Value

variable {r : Registry} {t : DataType} {nested : Bool} {part : Part}

theorem read_error (h : part.read (unbounded r) = .error e) :
    ∃ body, part.bytes? = some body ∧ decode r part.type body true = .error e := by
  cases hb : part.bytes? with
  | none =>
    rw [Part.read_of_bytes?_none hb] at h
    cases h
  | some body =>
    rw [Part.read_of_bytes? hb] at h
    exact ⟨body, rfl, map_eq_error.mp h⟩

/-- Decoding fails for the bytes or the definitions on record only, never for want of depth. -/
theorem decode_error (h : decode r t bytes nested = .error e) : e.EndsDecoding := by
  -- Neither the type nor the registry gets smaller where a record is looked up; the bytes do.
  induction hn : bytes.length using Nat.strong_induction_on generalizing t bytes nested with
  | _ n ih =>
    subst hn
    cases hs : r.shape t with
    | error err =>
      obtain ⟨declared, -, hu⟩ := Registry.shape_eq_error hs
      obtain ⟨-, rfl⟩ := Registry.lookup_eq_error hu
      cases (decode_of_shape_error hs nested).symm.trans h
      exact .notRegistered _ _
    | ok s =>
      cases hl : t.leaf? with
      | some kind =>
        rw [decode_leaf (DataType.leaf?_eq_some.mp hl)] at h
        exact (Leaf.decode_error h).endsDecoding
      | none =>
        rw [decode_composite hs ((Registry.isComposite_shape hs).mpr hl)] at h
        rcases bind_eq_error.mp h with he | ⟨⟨ps, tail⟩, he, h⟩
        · exact (Shape.frames_error he).endsDecoding
        rcases bind_eq_error.mp h with hitems | ⟨xs, -, h⟩
        · obtain ⟨part, hpart, hread⟩ := mapM_eq_error hitems
          obtain ⟨body, hb, hbody⟩ := read_error hread
          exact ih body.length (Shape.length_lt_of_part he hpart hb) hbody rfl
        · cases tail with
          | clean => cases h
          | fault err =>
            cases h
            exact (Shape.frames_fault he).isUnreadable.endsDecoding

/-- What the frames in bytes make of a composite value: it is made of its parts, or malformed when
the frames do not end in order. -/
theorem decode_of_frames {s : Shape} {ps : List Payload} {tail : Frame.Tail}
    {xs : List (Payload × Value)} (hs : r.shape t = .ok s) (hc : s.IsComposite)
    (hframes : s.frames (nested || t.isFrozen) bytes = .ok (ps, tail))
    (hxs : (s.parts ps).mapM (Part.read (unbounded r)) = .ok xs) :
    (tail = .clean → decode r t bytes nested = .ok (s.assemble xs)) ∧
      (tail ≠ .clean → ∃ cause, decode r t bytes nested = .error (.malformed cause)) := by
  have hd : decode r t bytes nested = tail.close (s.assemble xs) := by
    rw [decode_composite hs hc, hframes]
    show (_ >>= fun xs => tail.close (s.assemble xs)) = _
    rw [hxs]
    rfl
  rw [hd]
  cases tail with
  | clean => exact ⟨fun _ => rfl, fun h => absurd rfl h⟩
  | fault err =>
    obtain ⟨cause, rfl⟩ := Shape.frames_fault hframes
    exact ⟨nofun, fun _ => ⟨cause, rfl⟩⟩

end Value

end CqlWire
