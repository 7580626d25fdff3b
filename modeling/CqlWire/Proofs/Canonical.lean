import CqlWire.Proofs.RoundTrip
import CqlWire.Proofs.Totality

namespace CqlWire.Value

variable {r : Registry} {t o : DataType} {v : Value} {bytes : Bytes} {nested : Bool}

/-- What is decoded from any bytes has an encoding that decoding and encoding once more gives back,
unless a count or length in it is too large. -/
theorem decode_canonical (hr : r.WellFormed) (h : r.resolve t = .ok o) (hp : o.PopulatedBelow)
    (hd : decode r t bytes nested = .ok v) (hs : v.Settled) :
    (∃ e, encode r t v nested = .error e ∧ e.IsTooLarge) ∨
      ∃ canonical, encode r t v nested = .ok canonical ∧
        ∃ w, decode r t canonical nested = .ok w ∧ same w v = true ∧
          encode r t w nested = .ok canonical := by
  obtain ⟨hn, hv, hf, -⟩ := Registry.decodesInto hr h _ nested bytes v hd
  have hsize := Registry.failsOnSize_encode h hn hv nested
  cases he : encode r t v nested with
  | error e => exact .inl ⟨e, rfl, hsize e he⟩
  | ok canonical =>
    have hexact := hv.mono Strictness.encodable_implies_exact
    obtain ⟨w, hw⟩ := exists_decode_of_encode hr h hp hexact hs hf he
    exact .inr ⟨canonical, rfl, w, hw⟩

/-- A set of three booleans on the wire, two of which are true, is written as a set of two. -/
theorem decode_canonical_repeated_element :
    let r : Registry := .empty
    let t : DataType := .set (.leaf .boolean)
    let v : Value := .set [.boolean true, .boolean false, .boolean true]
    let bytes : Bytes := [0, 0, 0, 3, 0, 0, 0, 1, 7, 0, 0, 0, 1, 0, 0, 0, 0, 1, 1]
    (r.WellFormed ∧ r.resolve t = .ok t ∧ t.PopulatedBelow ∧ decode r t bytes true = .ok v ∧
      v.Settled) ∧
    ((∃ e, encode r t v true = .error e ∧ e.IsTooLarge) ∨
      ∃ canonical, encode r t v true = .ok canonical ∧
        ∃ w, decode r t canonical true = .ok w ∧ same w v = true ∧
          encode r t w true = .ok canonical) := by
  intro r t v bytes
  have hr : r.WellFormed := Registry.wellFormed_empty
  have ht : r.resolve t = .ok t := rfl
  have hp : t.PopulatedBelow := by
    simp [DataType.PopulatedBelow, DataType.Populated, DataType.base, DataType.children, t]
  have hd : decode r t bytes true = .ok v := by
    have hn : depthBound bytes = 4 + 1 := by decide
    have hf : Frame.Counted 3 [some [7], some [0], some [1]] bytes := ⟨_, _, rfl, rfl, rfl⟩
    rw [decode, hn, decodeWithin_set rfl]
    exact ⟨_, _, countedFrames_eq hf rfl, rfl, rfl⟩
  have hs : v.Settled := by simp [v, Settled, Solid, everywhere_iff (v := .boolean _), contents]
  exact ⟨⟨hr, ht, hp, hd, hs⟩, decode_canonical hr ht hp hd hs⟩

end CqlWire.Value
