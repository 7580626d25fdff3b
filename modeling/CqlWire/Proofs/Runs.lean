import CqlWire.Proofs.Assembly
import CqlWire.Proofs.Faults

namespace CqlWire

open Value (decode unbounded ofPayload)

/-- How many records a value of the shape is by itself. -/
def Shape.level : Shape → Nat
  | udt _ => 1
  | _ => 0

theorem Shape.level_le_one (s : Shape) : s.level ≤ 1 := by
  cases s <;> simp [level]

namespace Value

mutual

/-- A run of the decoder, which follows the types, the registry and the frames that it finds, with
no bound on the depth: what comes out, how many values and frames are read, and how deep decoded
records lie within one another. -/
inductive Run (r : Registry) :
    DataType → (nested : Bool) → Bytes → Except Error Value → (steps depth : Nat) → Prop
  | frozen {t nested bytes out steps depth} :
    Run r t true bytes out steps depth → Run r (.frozen t) nested bytes out steps depth
  | leaf (kind nested bytes) : Run r (.leaf kind) nested bytes (Leaf.decode kind bytes) 1 0
  | unknown {t nested bytes err} : t.isFrozen = false → r.shape t = .error err →
    Run r t nested bytes (.error err) 1 1
  | unframed {t s nested bytes err} : t.isFrozen = false → r.shape t = .ok s → s.IsComposite →
    s.frames nested bytes = .error err → Run r t nested bytes (.error err) 1 s.level
  | composite {t s nested bytes ps tail items steps depth} : t.isFrozen = false →
    r.shape t = .ok s → s.IsComposite → s.frames nested bytes = .ok (ps, tail) →
    RunEach r (s.parts ps) items steps depth →
    Run r t nested bytes (items >>= fun xs => tail.close (s.assemble xs)) (steps + 1)
      (depth + s.level)

/-- The runs for the parts of a value, one after the other up to the first one that fails. -/
inductive RunEach (r : Registry) :
    List Part → Except Error (List (Payload × Value)) → (steps depth : Nat) → Prop
  | done : RunEach r [] (.ok []) 0 0
  | null {part parts items steps depth} : part.bytes? = none →
    RunEach r parts items steps depth →
    RunEach r (part :: parts) (((part.payload, .null) :: ·) <$> items) (steps + 1) depth
  | fails {part parts bytes err steps depth} : part.bytes? = some bytes →
    Run r part.type true bytes (.error err) steps depth →
    RunEach r (part :: parts) (.error err) (steps + 1) depth
  | next {part parts bytes v items m n d d'} : part.bytes? = some bytes →
    Run r part.type true bytes (.ok v) m d → RunEach r parts items n d' →
    RunEach r (part :: parts) (((part.payload, v) :: ·) <$> items) (m + n + 1) (max d d')

end

end Value

variable {r : Registry} {t : DataType} {nested : Bool} {bytes : Bytes} {part : Part}
  {parts : List Part} {out : Except Error Value} {items : Except Error (List (Payload × Value))}
  {steps depth : Nat}

namespace Value

theorem decode_frozen : decode r (.frozen t) bytes nested = decode r t bytes true := by
  refine decodeWithin_congr rfl (fun _ => ?_) (Nat.lt_succ_self _) (Nat.lt_succ_self _)
  simp [DataType.isFrozen]

theorem mapM_read_cons_of_none (h : part.bytes? = none) :
    (part :: parts).mapM (Part.read (unbounded r)) =
      ((part.payload, .null) :: ·) <$> parts.mapM (Part.read (unbounded r)) := by
  rw [List.mapM_cons, Part.read_of_bytes?_none h]
  cases parts.mapM (Part.read (unbounded r)) <;> rfl

theorem mapM_read_cons (h : part.bytes? = some bytes) :
    (part :: parts).mapM (Part.read (unbounded r)) = (do
      let v ← decode r part.type bytes true
      ((part.payload, v) :: ·) <$> parts.mapM (Part.read (unbounded r))) := by
  rw [List.mapM_cons, Part.read_of_bytes? h]
  rw [unbounded]
  cases decode r part.type bytes true with
  | error err => rfl
  | ok v => cases parts.mapM (Part.read (unbounded r)) <;> rfl

theorem Run.eq_decode (h : Run r t nested bytes out steps depth) : out = decode r t bytes nested := by
  refine @Run.rec r (fun t nested bytes out _ _ _ => out = decode r t bytes nested)
    (fun parts items _ _ _ => items = parts.mapM (Part.read (unbounded r)))
    ?frozen ?leaf ?unknown ?unframed ?composite ?done ?null ?fails ?next _ _ _ _ _ _ h
  case frozen =>
    intro t nested bytes out steps depth _ ih
    rw [ih, decode_frozen]
  case leaf =>
    intro kind nested bytes
    exact (decode_leaf rfl nested).symm
  case unknown =>
    intro t nested bytes err _ hs
    exact (decode_of_shape_error hs nested).symm
  case unframed =>
    intro t s nested bytes err hf hs hc he
    rw [decode_composite hs hc, hf, Bool.or_false, he]
    rfl
  case composite =>
    intro t s nested bytes ps tail items steps depth hf hs hc he _ ih
    rw [decode_composite hs hc, hf, Bool.or_false, he, ih]
    rfl
  case done => rfl
  case null =>
    intro part parts items steps depth hb _ ih
    rw [mapM_read_cons_of_none hb, ih]
  case fails =>
    intro part parts bytes err steps depth hb _ ih
    rw [mapM_read_cons hb, ← ih]
    rfl
  case next =>
    intro part parts bytes v items m n d d' hb _ _ ih ih'
    rw [mapM_read_cons hb, ← ih, ih']
    rfl

/-- Every two bytes pay for a step and every four bytes for a level of records. -/
theorem Run.bounds (h : Run r t nested bytes out steps depth) :
    2 * steps ≤ bytes.length + 2 ∧ 4 * depth ≤ bytes.length + 4 := by
  refine @Run.rec r
    (fun _ _ bytes _ steps depth _ => 2 * steps ≤ bytes.length + 2 ∧ 4 * depth ≤ bytes.length + 4)
    (fun parts _ steps depth _ => 2 * steps ≤ ((parts.map Part.payload).map Frame.size).sum ∧
      4 * depth ≤ ((parts.map Part.payload).map Frame.size).sum)
    ?frozen ?leaf ?unknown ?unframed ?composite ?done ?null ?fails ?next _ _ _ _ _ _ h
  case frozen =>
    intro t nested bytes out steps depth _ ih
    exact ih
  case leaf | unknown =>
    intros
    omega
  case unframed =>
    intro t s nested bytes err _ _ _ _
    have hlevel := s.level_le_one
    omega
  case composite =>
    intro t s nested bytes ps tail items steps depth _ _ _ he _ ih
    have hlevel := s.level_le_one
    have hframes := Shape.sum_size_frames he
    have hparts : (((s.parts ps).map Part.payload).map Frame.size).sum ≤ (ps.map Frame.size).sum :=
      ((Shape.payloads_parts s ps).sublist.map Frame.size).sum_le_sum fun _ _ => Nat.zero_le _
    omega
  case done => exact ⟨Nat.le_refl _, Nat.le_refl _⟩
  case null =>
    intro part parts items steps depth _ _ ih
    simp only [List.map_cons, List.sum_cons, Frame.size, lengthSize]
    omega
  case fails =>
    intro part parts bytes err steps depth hb _ ih
    simp only [List.map_cons, List.sum_cons, ← Part.length_bytes? hb, lengthSize]
    omega
  case next =>
    intro part parts bytes v items m n d d' hb _ _ ih ih'
    simp only [List.map_cons, List.sum_cons, ← Part.length_bytes? hb, lengthSize]
    omega

theorem exists_runEach (h : ∀ part ∈ parts, ∀ body, part.bytes? = some body →
    ∃ steps depth, Run r part.type true body (decode r part.type body true) steps depth) :
    ∃ steps depth, RunEach r parts (parts.mapM (Part.read (unbounded r))) steps depth := by
  induction parts with
  | nil => exact ⟨0, 0, .done⟩
  | cons part parts ih =>
    obtain ⟨n, d', hrest⟩ := ih fun p hp => h p (List.mem_cons_of_mem _ hp)
    cases hb : part.bytes? with
    | none => exact ⟨n + 1, d', mapM_read_cons_of_none hb ▸ .null hb hrest⟩
    | some body =>
      obtain ⟨m, d, hrun⟩ := h part List.mem_cons_self body hb
      rw [mapM_read_cons hb]
      cases hv : decode r part.type body true with
      | error err => exact ⟨m + 1, d, .fails hb (hv ▸ hrun)⟩
      | ok v => exact ⟨m + n + 1, max d d', .next hb (hv ▸ hrun) hrest⟩

def Runs (r : Registry) (t : DataType) (bytes : Bytes) (nested : Bool) : Prop :=
  ∃ steps depth, Run r t nested bytes (decode r t bytes nested) steps depth

theorem runs_of_not_isFrozen (hf : t.isFrozen = false) (hl : t.leaf? = none)
    (ih : ∀ u body, body.length < bytes.length → Runs r u body true) : Runs r t bytes nested := by
  cases hs : r.shape t with
  | error err => exact ⟨1, 1, decode_of_shape_error hs nested ▸ .unknown hf hs⟩
  | ok s =>
    have hc : s.IsComposite := (Registry.isComposite_shape hs).mpr hl
    rw [Runs, decode_composite hs hc, hf, Bool.or_false]
    cases he : s.frames nested bytes with
    | error err => exact ⟨1, s.level, .unframed hf hs hc he⟩
    | ok frames =>
      obtain ⟨ps, tail⟩ := frames
      obtain ⟨steps, depth, hrun⟩ := exists_runEach fun part hpart body hb =>
        ih part.type body (Shape.length_lt_of_part he hpart hb)
      exact ⟨steps + 1, depth + s.level, .composite hf hs hc he hrun⟩

theorem runs (r : Registry) (t : DataType) (bytes : Bytes) (nested : Bool) :
    Runs r t bytes nested := by
  -- Parts have fewer bytes; under a wrapper the bytes are the same and the type is smaller.
  induction hn : bytes.length using Nat.strong_induction_on generalizing t bytes nested with
  | _ n ih =>
    subst hn
    have shorter (u : DataType) (body : Bytes) (hb : body.length < bytes.length) :
        Runs r u body true := ih body.length hb u body true rfl
    induction t generalizing nested with
    | leaf kind => exact ⟨1, 0, decode_leaf (t := .leaf kind) rfl nested ▸ .leaf kind nested bytes⟩
    | frozen t iht =>
      obtain ⟨steps, depth, hrun⟩ := iht true
      exact ⟨steps, depth, decode_frozen ▸ .frozen hrun⟩
    | _ => exact runs_of_not_isFrozen rfl rfl shorter

/-- Decoding ends: there is a run, every run comes to what `decode` says, and the length of the bytes
bounds its steps and how deep its records lie within one another, whatever the counts and lengths in
the bytes claim and however the definitions on record refer to each other. -/
theorem decode_ends (r : Registry) (t : DataType) (bytes : Bytes) (nested : Bool) :
    Runs r t bytes nested ∧
    (∀ out steps depth, Run r t nested bytes out steps depth →
      out = decode r t bytes nested ∧ steps ≤ 1 + bytes.length / 2 ∧
        depth ≤ 1 + bytes.length / 4) ∧
    ∀ err, decode r t bytes nested = .error err → err.EndsDecoding := by
  refine ⟨runs r t bytes nested, fun out steps depth h => ?_, fun err => decode_error⟩
  have hbounds := h.bounds
  exact ⟨h.eq_decode, by omega, by omega⟩

/-- A record with a field of its own type: three levels in nine bytes, and a length that claims more
bytes than there are. -/
theorem decode_ends_selfReferential :
    let a : DataType := .udt "k" "a" []
    let r : Registry := ⟨[⟨"k", "a", [("x", .frozen a)]⟩]⟩
    let v : Value := .record [("x", .record [("x", .record [])])]
    (∃ steps depth, depth ≤ 3 ∧ Run r a true [0, 0, 0, 5, 0, 0, 0, 1, 7] (.ok v) steps depth) ∧
      ∃ steps depth, depth ≤ 3 ∧ Run r a false [0, 0, 0, 1, 127, 255, 255, 255]
        (.error (.malformed (.shortRead 2147483647 8 0))) steps depth := by
  intro a r v
  have hv : decode r a [0, 0, 0, 5, 0, 0, 0, 1, 7] true = .ok v := rfl
  have herr : decode r a [0, 0, 0, 1, 127, 255, 255, 255] false =
      .error (.malformed (.shortRead 2147483647 8 0)) := rfl
  obtain ⟨⟨n, d, hrun⟩, bounds, -⟩ := decode_ends r a [0, 0, 0, 5, 0, 0, 0, 1, 7] true
  obtain ⟨⟨n', d', hrun'⟩, bounds', -⟩ := decode_ends r a [0, 0, 0, 1, 127, 255, 255, 255] false
  exact ⟨⟨n, d, (bounds _ n d hrun).2.2, hv ▸ hrun⟩,
    n', d', (bounds' _ n' d' hrun').2.2, herr ▸ hrun'⟩

end Value

end CqlWire
