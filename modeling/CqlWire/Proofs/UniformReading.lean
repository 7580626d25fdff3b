import CqlWire.Proofs.Decoding
import CqlWire.Proofs.Expansion
import CqlWire.Proofs.Splitting

namespace CqlWire

theorem DataType.leaf?_congr {t u : DataType} (h : t.skeleton = u.skeleton) : t.leaf? = u.leaf? := by
  obtain ⟨s, s', ht, hu, hs⟩ := exists_alike h
  rw [leaf?, leaf?, ht, hu]
  cases hs <;> rfl

namespace Value

variable {r : Registry} {t u k l e w : DataType} {d d' : Decoder} {slot : Slot} {p : Payload}
  {ps : List Payload} {bytes body : Bytes} {f g : Bool} {size depth depth' : Nat}

/-- Two decoders agree on types of one skeleton and on what can stand in frames of `size` bytes. -/
def AgreeWithin (size : Nat) (d d' : Decoder) : Prop :=
  ∀ ⦃t u : DataType⦄ ⦃bytes : Bytes⦄, t.skeleton = u.skeleton → bytes.length + lengthSize ≤ size →
    d t bytes = d' u bytes

/-- The payloads stand in frames of `size` bytes. -/
def FramedIn (size : Nat) (ps : List Payload) : Prop :=
  ∀ ⦃body : Bytes⦄, some body ∈ ps → body.length + lengthSize ≤ size

namespace AgreeWithin

theorem payload (h : AgreeWithin size d d') (htu : t.skeleton = u.skeleton)
    (hp : ∀ body, p = some body → body.length + lengthSize ≤ size) :
    ofPayload d slot t p = ofPayload d' slot u p := by
  match p with
  | none => rfl
  | some [] =>
    have inside := h htu (hp [] rfl)
    simp only [ofPayload, DataType.leaf?_congr htu, inside]
  | some (b :: body) => exact h htu (hp (b :: body) rfl)

theorem elements (h : AgreeWithin size d d') (htu : t.skeleton = u.skeleton) (hps : FramedIn size ps) :
    decodeElements d t ps = decodeElements d' u ps := by
  apply mapM_congr
  intro p hp
  have same : ofPayload d .element t p = ofPayload d' .element u p :=
    h.payload htu fun body hb => hps (by rwa [← hb])
  rw [same]

theorem entries (h : AgreeWithin size d d') (hkl : k.skeleton = l.skeleton)
    (hew : e.skeleton = w.skeleton) (hps : FramedIn size ps) :
    decodeEntries d k e ps = decodeEntries d' l w ps := by
  induction ps using decodeEntries.induct with
  | case1 => rfl
  | case2 p =>
    have head : ofPayload d .element k p = ofPayload d' .element l p :=
      h.payload hkl fun body hb => hps (by simp [hb])
    rw [decodeEntries, decodeEntries, head]
  | case3 p q rest ih =>
    have key : ofPayload d .element k p = ofPayload d' .element l p :=
      h.payload hkl fun body hb => hps (by simp [hb])
    have value : ofPayload d .element e q = ofPayload d' .element w q :=
      h.payload hew fun body hb => hps (by simp [hb])
    rw [decodeEntries, decodeEntries, key, value, ih fun body hb => hps (by simp [hb])]

theorem positions (h : AgreeWithin size d d') {ts us : List DataType}
    (hts : List.Forall₂ (fun t u => t.skeleton = u.skeleton) ts us) (hps : FramedIn size ps) :
    decodePositions d slot ts ps = decodePositions d' slot us ps := by
  induction hts generalizing ps with
  | nil => cases ps <;> rfl
  | @cons t u ts us htu hts ih =>
    cases ps with
    | nil =>
      have nulls : ts.map (fun _ => Value.null) = us.map fun _ => .null :=
        (hts.imp fun _ _ _ => rfl).map_eq_map
      simp only [decodePositions, List.map_cons, nulls]
    | cons p ps =>
      have head : ofPayload d slot t p = ofPayload d' slot u p :=
        h.payload htu fun body hb => hps (by simp [hb])
      rw [decodePositions, decodePositions, head, ih fun body hb => hps (by simp [hb])]

end AgreeWithin

theorem framedIn_read {n : Nat} {c : Cursor} (h : c.remaining ≤ size) :
    FramedIn size (Frame.read n c).1 := by
  intro body hb
  have hle := Frame.length_le_of_mem_read hb
  omega

theorem framedIn_countedFrames {width : Nat} {tail : Frame.Tail}
    (h : countedFrames width bytes = .ok (ps, tail)) : FramedIn bytes.length ps := by
  simp only [countedFrames] at h
  split at h
  next hc =>
    split at h
    next n c hn =>
      obtain ⟨-, rfl⟩ := (Frame.count_of_hasLength hc).mp hn
      have hps : _ = ps := congrArg Prod.fst (Except.ok.inj h)
      rw [← hps]
      apply framedIn_read
      simp [Cursor.remaining, Cursor.advance, Cursor.ofBytes]
    next => cases h
  next =>
    cases h
    intro body hb
    cases hb

theorem countedFrames_bind_congr {width : Nat}
    {next next' : List Payload × Frame.Tail → Except Error Value}
    (h : ∀ ps tail, FramedIn bytes.length ps → next (ps, tail) = next' (ps, tail)) :
    countedFrames width bytes >>= next = countedFrames width bytes >>= next' := by
  cases hps : countedFrames width bytes with
  | error e => rfl
  | ok x => exact h x.1 x.2 (framedIn_countedFrames hps)

theorem remaining_of_skipFieldCount {udt : Udt} {c : Cursor}
    (h : skipFieldCount udt (.ofBytes bytes) = .ok c) : c.remaining ≤ bytes.length := by
  rcases skipFieldCount_eq_ok.mp h with ⟨-, rfl⟩ | ⟨head, body, -, rfl, rfl⟩
  · exact Nat.le_refl _
  · rw [List.length_append]
    exact Nat.le_add_left _ _

/-- Types of one skeleton are decoded alike, where a record at the top starts with its count under
both or neither, and at any depths that the bytes cannot use up. -/
theorem decodeWithin_congr (h : t.skeleton = u.skeleton)
    (hc : t.udt?.isSome = true → (f || t.isFrozen) = (g || u.isFrozen))
    (hd : bytes.length / lengthSize < depth) (hd' : bytes.length / lengthSize < depth') :
    decodeWithin r depth t f bytes = decodeWithin r depth' u g bytes := by
  induction depth generalizing depth' t u f g bytes with
  | zero => exact absurd hd (Nat.not_lt_zero _)
  | succ depth ih =>
    obtain ⟨depth', rfl⟩ := Nat.exists_eq_add_one_of_ne_zero (Nat.ne_zero_of_lt hd')
    have agree : AgreeWithin bytes.length (decoder r depth) (decoder r depth') := by
      intro t u body htu hb
      simp only [lengthSize] at hb hd hd'
      have hle : body.length / lengthSize < depth ∧ body.length / lengthSize < depth' := by
        simp only [lengthSize]
        omega
      exact ih htu (fun _ => rfl) hle.1 hle.2
    obtain ⟨s, s', ht, hu, hs⟩ := DataType.exists_alike h
    simp only [decodeWithin, ht, hu]
    cases hs with
    | leaf kind => rfl
    | list he | set he =>
      refine countedFrames_bind_congr fun ps tail framed => ?_
      have each := agree.elements he framed
      unfold decoder at each
      simp only [each]
    | map hk he =>
      refine countedFrames_bind_congr fun ps tail framed => ?_
      have each := agree.entries hk he framed
      unfold decoder at each
      simp only [each]
    | @tuple ts us hts =>
      have framed := framedIn_read (n := us.length) (c := .ofBytes bytes) (Nat.le_refl _)
      have each : decodePositions (decoder r depth) .position ts _ =
          decodePositions (decoder r depth') .position us _ := agree.positions hts framed
      unfold decoder at each
      simp only [hts.length_eq]
      rw [each]
    | udt keyspace name fields others =>
      have top : t.udt?.isSome = true := by rw [DataType.udt?, ht]; rfl
      rw [hc top]
      refine bind_congr fun udt => ?_
      have positions {start : Cursor} (hstart : start.remaining ≤ bytes.length) :
          decodePositions (decoder r depth) .element (udt.fields.map Prod.snd)
              (Frame.read udt.fields.length start).1 =
            decodePositions (decoder r depth') .element (udt.fields.map Prod.snd)
              (Frame.read udt.fields.length start).1 :=
        agree.positions (List.forall₂_same.mpr fun _ _ => rfl) (framedIn_read hstart)
      unfold decoder at positions
      split
      next => rw [pure_bind, pure_bind, positions (Nat.le_refl _)]
      next =>
        cases hstart : skipFieldCount udt (.ofBytes bytes) with
        | error e => rfl
        | ok start =>
          simp only [bind, Except.bind]
          rw [positions (remaining_of_skipFieldCount hstart)]

end Value

end CqlWire
