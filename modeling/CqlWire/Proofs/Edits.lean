import CqlWire.Proofs.Filling
import Mathlib.Data.List.Induction

namespace CqlWire.Holder

open Value (encodeElement)

/-- A call that puts something at one position of a holder: a payload as it is, or the encoding of a
value under some registry. -/
inductive Edit where
  | payload (position : Nat) (p : Payload)
  | value (r : Registry) (position : Nat) (v : Value)

namespace Edit

/-- The position that a call is for. -/
def position : Edit → Nat
  | payload position _ | value _ position _ => position

/-- The holder with something put, or why nothing is. -/
def outcome (h : Holder) : Edit → Except Error Holder
  | payload position p => h.setPayload position p
  | value r position v => h.set r position v

/-- The call on a holder that is changed in place. -/
def perform (e : Edit) : EStateM Error Holder Unit := do
  match e.outcome (← getThe Holder) with
  | .ok h => modifyThe Holder fun _ => h
  | .error err => throw err

/-- What a call puts: its payload, or the encoding of its value under the type of the position. It
puts nothing where there is no such position or no encoding. -/
def Puts (c : Composite) : Edit → Payload → Prop
  | payload position q, p => position < c.types.length ∧ q = p
  | value r position v, p => ∃ t, c.types[position]? = some t ∧ encodeElement r t v = .ok p

/-- None of the calls puts anything at the position. -/
def NonePuts (c : Composite) (i : Nat) (es : List Edit) : Prop :=
  ∀ e ∈ es, e.position = i → ∀ p, ¬e.Puts c p

/-- The last of the calls to put something at the position puts this payload. -/
def LastPuts (c : Composite) (i : Nat) (es : List Edit) (p : Payload) : Prop :=
  ∃ before e after, es = before ++ e :: after ∧ e.position = i ∧ e.Puts c p ∧ NonePuts c i after

/-- The holder after a call, whether or not that succeeds. -/
def after (h : Holder) (e : Edit) : Holder :=
  match e.perform h with
  | .ok _ h' | .error _ h' => h'

/-- The holder after calls, one after the other. -/
def run (h : Holder) (es : List Edit) : Holder :=
  es.foldl after h

variable {c : Composite} {h h' : Holder} {e : Edit} {es : List Edit} {p : Payload} {i : Nat}

theorem Puts.position_lt (hp : e.Puts c p) : e.position < c.types.length := by
  cases e with
  | payload position q => exact hp.1
  | value r position v =>
    obtain ⟨t, ht, -⟩ := hp
    exact (List.getElem?_eq_some_iff.mp ht).1

theorem exists_outcome (hp : e.Puts h.composite p) : ∃ h', e.outcome h = .ok h' ∧
    h'.composite = h.composite ∧ h'.cells = h.cells.set e.position p := by
  have inside : e.position < h.size := by
    rw [size, h.length_cells]
    exact hp.position_lt
  obtain ⟨h', hput, hc, hcells⟩ := exists_setPayload inside p
  refine ⟨h', ?_, hc, hcells⟩
  cases e with
  | payload position q =>
    obtain ⟨-, rfl⟩ := hp
    exact hput
  | value r position v =>
    obtain ⟨t, ht, he⟩ := hp
    have encoded : h.set r position v = encodeElement r t v >>= h.setPayload position :=
      set_of_elementType? ht
    rw [outcome, encoded, he]
    exact hput

theorem puts_of_outcome (ho : e.outcome h = .ok h') : ∃ p, e.Puts h.composite p := by
  cases e with
  | payload position q =>
    obtain ⟨-, -, inside⟩ := setPayload_eq_ok ho
    rw [size, h.length_cells] at inside
    exact ⟨q, inside, rfl⟩
  | value r position v =>
    rw [outcome, Holder.set] at ho
    split at ho
    next t ht =>
      obtain ⟨p, hp, -⟩ := bind_eq_ok.mp ho
      exact ⟨p, t, ht, hp⟩
    next => cases ho

theorem perform_eq (e : Edit) (h : Holder) : e.perform h =
    match e.outcome h with
    | .ok h' => .ok () h'
    | .error err => .error err h := by
  have unfolded : e.perform h = (match e.outcome h with
      | .ok h => modifyThe Holder fun _ => h
      | .error err => throw err : EStateM Error Holder Unit) h := rfl
  rw [unfolded]
  cases e.outcome h <;> rfl

/-- A call puts a payload at its position and leaves the others, or it fails and leaves all. -/
theorem perform_cases (e : Edit) (h : Holder) :
    (∃ p h', e.Puts h.composite p ∧ e.perform h = .ok () h' ∧ h'.composite = h.composite ∧
      h'.cells = h.cells.set e.position p) ∨
    (∀ p, ¬e.Puts h.composite p) ∧ ∃ err, e.perform h = .error err h := by
  rw [perform_eq]
  cases ho : e.outcome h with
  | ok h' =>
    obtain ⟨p, hp⟩ := puts_of_outcome ho
    obtain ⟨h'', ho', hc, hcells⟩ := exists_outcome hp
    cases ho.symm.trans ho'
    exact .inl ⟨p, h', hp, rfl, hc, hcells⟩
  | error err =>
    refine .inr ⟨fun p hp => ?_, err, rfl⟩
    obtain ⟨h', ho', -⟩ := exists_outcome hp
    cases ho.symm.trans ho'

theorem after_composite (h : Holder) (e : Edit) : (after h e).composite = h.composite := by
  unfold after
  rcases perform_cases e h with ⟨p, h', -, hperform, hc, -⟩ | ⟨-, err, hperform⟩
  · rw [hperform]
    exact hc
  · rw [hperform]

/-- A position has what a call has put there, or else what it had before. -/
theorem after_payload (h : Holder) (e : Edit) (i : Nat) :
    (e.position = i ∧ e.Puts h.composite ((after h e).payload i)) ∨
    (e.position = i → ∀ p, ¬e.Puts h.composite p) ∧ (after h e).payload i = h.payload i := by
  unfold after
  rcases perform_cases e h with ⟨p, h', hp, hperform, -, hcells⟩ | ⟨hnone, err, hperform⟩
  · rw [hperform]
    by_cases hi : e.position = i
    · have inside : i < h.cells.length := by
        rw [h.length_cells, ← hi]
        exact hp.position_lt
      have here : h'.payload i = p := by
        rw [Holder.payload, hcells, hi, List.getElem?_set_self inside]
        rfl
      exact .inl ⟨hi, here ▸ hp⟩
    · have other : h'.payload i = h.payload i := by
        rw [Holder.payload, hcells, List.getElem?_set_ne hi]
        rfl
      exact .inr ⟨fun he => absurd he hi, other⟩
  · rw [hperform]
    exact .inr ⟨fun _ => hnone, rfl⟩

theorem run_append (h : Holder) (es : List Edit) (e : Edit) :
    run h (es ++ [e]) = after (run h es) e := by
  rw [run, List.foldl_append]
  rfl

theorem run_composite (h : Holder) (es : List Edit) : (run h es).composite = h.composite := by
  induction es using List.reverseRecOn with
  | nil => rfl
  | append_singleton es e ih => rw [run_append, after_composite, ih]

theorem NonePuts.append (hs : NonePuts c i es) (he : e.position = i → ∀ p, ¬e.Puts c p) :
    NonePuts c i (es ++ [e]) := by
  intro e' hm
  rcases List.mem_append.mp hm with hm | hm
  · exact hs e' hm
  · cases List.mem_singleton.mp hm
    exact he

theorem LastPuts.append (hs : LastPuts c i es p) (he : e.position = i → ∀ p, ¬e.Puts c p) :
    LastPuts c i (es ++ [e]) p := by
  obtain ⟨before, e', after, rfl, hi, hp, hnone⟩ := hs
  refine ⟨before, e', after ++ [e], ?_, hi, hp, hnone.append he⟩
  rw [List.append_assoc, List.cons_append]

/-- After calls a position has what the last one has put there, or else what it had before. -/
theorem run_payload (h : Holder) (es : List Edit) (i : Nat) :
    LastPuts h.composite i es ((run h es).payload i) ∨
    NonePuts h.composite i es ∧ (run h es).payload i = h.payload i := by
  induction es using List.reverseRecOn with
  | nil => exact .inr ⟨nofun, rfl⟩
  | append_singleton es e ih =>
    have step := after_payload (run h es) e i
    rw [run_composite, ← run_append] at step
    rcases step with ⟨hi, hp⟩ | ⟨hother, hsame⟩
    · exact .inl ⟨es, e, [], rfl, hi, hp, nofun⟩
    · rw [hsame]
      rcases ih with hlast | ⟨hnone, hbefore⟩
      · exact .inl (hlast.append hother)
      · exact .inr ⟨hnone.append hother, hbefore⟩

end Edit

open Edit (run NonePuts LastPuts)

variable {r : Registry} {t : DataType} {h : Holder}

theorem payload_of_ofType (made : ofType r t = .ok h) (i : Nat) : h.payload i = none := by
  obtain ⟨c, -, rfl⟩ := map_eq_ok.mp made
  rw [payload, empty, List.getElem?_replicate]
  split <;> rfl

/-- The calls on a holder have to do with one position each. None changes the positions or their
types, one that fails changes nothing, and afterwards each position has what the last call that
succeeded there has put, or null. As long as the lengths can be written, the bytes of the holder read
back as it, with payloads of no length and nulls apart. -/
theorem edits_independent (made : ofType r t = .ok h) (es : List Edit) :
    let now := run h es
    (now.size = h.size ∧ ∀ i, now.elementType? i = h.elementType? i) ∧
    (∀ e : Edit, (∃ p, e.Puts h.composite p) ∧ (∃ h', e.perform now = .ok () h') ∨
      (¬∃ p, e.Puts h.composite p) ∧ ∃ err, e.perform now = .error err now) ∧
    (∀ i < h.size, LastPuts h.composite i es (now.payload i) ∨
      NonePuts h.composite i es ∧ now.payload i = none) ∧
    ((∀ b, some b ∈ now.cells → b.length < Frame.limit) →
      ∃ bytes, now.toBytes = .ok bytes ∧ ofBytes r t bytes = .ok now) := by
  intro now
  have kept : now.composite = h.composite := Edit.run_composite h es
  refine ⟨⟨?_, fun i => ?_⟩, fun e => ?_, fun i _ => ?_, fun short => ?_⟩
  · rw [size, size, now.length_cells, h.length_cells, kept]
  · rw [elementType?, elementType?, kept]
  · rcases Edit.perform_cases e now with ⟨p, h', hp, hperform, -⟩ | ⟨hnone, hperform⟩
    · exact .inl ⟨⟨p, kept ▸ hp⟩, h', hperform⟩
    · rw [kept] at hnone
      exact .inr ⟨not_exists.mpr hnone, hperform⟩
  · have last := Edit.run_payload h es i
    rwa [payload_of_ofType made] at last
  · obtain ⟨bytes, hb⟩ := Frame.exists_payloads now.cells short
    have hc : Composite.ofType r t = .ok now.composite := by
      rw [kept]
      exact (made_of_ofType made).composite
    exact ⟨bytes, hb, ofBytes_of_toBytes hc hb⟩

/-- A payload of no length and a null stay apart, and two calls fail: one beyond the positions, one
with a value of another type. -/
theorem edits_independent_failing :
    let r : Registry := .empty
    let t : DataType := .tuple [.leaf .int, .leaf .text, .leaf .int]
    let far : Edit := .payload 3 none
    let es : List Edit := [.payload 0 (some []), .value r 1 (.text "a"), far,
      .value r 1 (.text "b"), .value r 0 (.text "no")]
    let now : Holder :=
      ⟨.tuple [.leaf .int, .leaf .text, .leaf .int], [some [], some [98], none], rfl⟩
    ∃ h bytes, ofType r t = .ok h ∧ run h es = now ∧
      (∃ err, far.perform now = .error err now) ∧ LastPuts h.composite 0 es (some []) ∧
      LastPuts h.composite 1 es (some [98]) ∧ NonePuts h.composite 2 es ∧
      now.toBytes = .ok bytes ∧ ofBytes r t bytes = .ok now := by
  intro r t far es now
  let h : Holder := empty (.tuple [.leaf .int, .leaf .text, .leaf .int])
  have made : ofType r t = .ok h := rfl
  have reached : run h es = now := rfl
  obtain ⟨-, calls, cells, back⟩ := edits_independent made es
  rw [reached] at calls cells back
  have failed : ∃ err, far.perform now = .error err now := by
    rcases calls far with ⟨⟨p, hp⟩, -⟩ | ⟨-, failed⟩
    · exact absurd hp.position_lt (by decide)
    · exact failed
  have first := (cells 0 (by decide)).resolve_right fun ⟨_, hnull⟩ => nomatch hnull
  have second := (cells 1 (by decide)).resolve_right fun ⟨_, hnull⟩ => nomatch hnull
  have elsewhere : ∀ e ∈ es, e.position ≠ 2 := by decide
  have third : NonePuts h.composite 2 es := fun e he hi => absurd hi (elsewhere e he)
  have short : ∀ p ∈ now.cells, ∀ b ∈ p, b.length < Frame.limit := by decide
  obtain ⟨bytes, hb, hread⟩ := back fun b hb => short _ hb b rfl
  exact ⟨h, bytes, made, reached, failed, first, second, third, hb, hread⟩

end CqlWire.Holder
