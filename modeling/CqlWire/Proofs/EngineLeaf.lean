import CqlWire.Engine.Bridge
import CqlWire.Proofs.Agreement
import CqlWire.Proofs.LeafCodec
import CqlWire.Proofs.Resolution

namespace CqlWire

namespace Uuid

theorem length_digits (bytes : Bytes) : (Hex.digits bytes).length = 2 * bytes.length := by
  induction bytes with
  | nil => rfl
  | cons b bytes ih =>
    have first : Hex.digits (b :: bytes) = Hex.ofByte b ++ Hex.digits bytes := rfl
    rw [first, List.length_append, ih, List.length_cons]
    simp only [Hex.ofByte, List.length_cons, List.length_nil]
    omega

/-- Five groups of digits are read without the hyphens between them. -/
theorem dropHyphens?_groups {a b c d e : List Char} (ha : a.length = 8) (hb : b.length = 4)
    (hc : c.length = 4) (hd : d.length = 4) (he : e.length = 12) :
    dropHyphens? (a ++ '-' :: b ++ '-' :: c ++ '-' :: d ++ '-' :: e) =
      some (a ++ b ++ c ++ d ++ e) := by
  have long : (a ++ '-' :: b ++ '-' :: c ++ '-' :: d ++ '-' :: e).length = 36 := by
    simp only [List.length_append, List.length_cons]
    omega
  have hyphens : ([8, 13, 18, 23].all fun i =>
      (a ++ '-' :: b ++ '-' :: c ++ '-' :: d ++ '-' :: e)[i]? = some '-') = true := by
    simp [List.getElem?_append, *]
  rw [dropHyphens?, if_pos ⟨long, hyphens⟩]
  simp [List.take_append, List.drop_append, *]
  simp (disch := omega) [List.drop_eq_nil_of_le]

theorem unwrap?_hyphenated {d : List Char} (h : d.length = 32) :
    unwrap? (d.take 8 ++ '-' :: (d.drop 8).take 4 ++ '-' :: (d.drop 12).take 4 ++
      '-' :: (d.drop 16).take 4 ++ '-' :: d.drop 20) = some d := by
  have long : (d.take 8 ++ '-' :: (d.drop 8).take 4 ++ '-' :: (d.drop 12).take 4 ++
      '-' :: (d.drop 16).take 4 ++ '-' :: d.drop 20).length = 36 := by simp [h]
  have rest (i : Nat) : (d.drop i).take 4 ++ d.drop (i + 4) = d.drop i := by
    rw [← List.drop_drop, List.take_append_drop]
  rw [unwrap?, if_neg (by rw [long]; decide), if_pos long, dropHyphens?_groups (by simp [h])
    (by simp [h]) (by simp [h]) (by simp [h]) (by simp [h])]
  rw [List.append_assoc, List.append_assoc, List.append_assoc, rest 16, rest 12, rest 8,
    List.take_append_drop]

/-- The text of an identifier spells it. -/
theorem ofText?_toText (u : Uuid) : ofText? u.toText = some u := by
  have length : (Hex.digits u.toBytes).length = 32 := by
    rw [length_digits, toBytes, Bytes.length_ofNat]
  simp only [ofText?, toText, String.toList_ofList, unwrap?_hyphenated length, Option.bind_eq_bind,
    Option.bind_some, Hex.toBytes?_digits, ofBytes_toBytes]
  rfl

end Uuid

namespace Kind

variable {kind : Kind} {v : Value} {x : EngineValue} {millis micros : Int64}

/-- The microseconds of a time stamp are a number of 64 bits. -/
def InRange (millis : Int64) : Prop :=
  Int64.minValue.toInt ≤ millis.toInt * 1000 ∧ millis.toInt * 1000 ≤ Int64.maxValue.toInt

theorem microsOf_eq_ok :
    microsOf millis = .ok micros ↔ InRange millis ∧ Int64.ofInt (millis.toInt * 1000) = micros := by
  unfold microsOf
  dsimp only
  split
  next h => exact ⟨fun heq => ⟨h, Except.ok.inj heq⟩, fun hin => congrArg Except.ok hin.2⟩
  next h => exact ⟨nofun, fun hin => absurd hin.1 h⟩

theorem millisOf_microsOf (h : microsOf millis = .ok micros) : millisOf micros = millis := by
  obtain ⟨⟨low, high⟩, rfl⟩ := microsOf_eq_ok.mp h
  have exactly : (Int64.ofInt (millis.toInt * 1000)).toInt = millis.toInt * 1000 :=
    Int64.toInt_ofInt_of_le low (Int.lt_of_le_of_lt high (by decide))
  rw [millisOf, exactly, Int.mul_ediv_cancel _ (by decide), Int64.ofInt_toInt]

/-- Of the values of a kind only time stamps can be out of the engine's range. -/
theorem exists_toEngine_iff (h : kind.Holds v) :
    (∃ x, kind.toEngine v = .ok x) ↔ ∀ millis, v = .timestamp millis → InRange millis := by
  cases kind
  case timestamp =>
    obtain ⟨millis, rfl⟩ := h
    constructor
    · rintro ⟨x, hx⟩ _ ⟨⟩
      obtain ⟨micros, hmicros, -⟩ := map_eq_ok.mp hx
      exact (microsOf_eq_ok.mp hmicros).1
    · intro hrange
      exact ⟨_, map_eq_ok.mpr ⟨_, microsOf_eq_ok.mpr ⟨hrange millis rfl, rfl⟩, rfl⟩⟩
  case empty =>
    cases h
    exact iff_of_true ⟨_, rfl⟩ nofun
  all_goals
    obtain ⟨_, rfl⟩ := h
    exact iff_of_true ⟨_, rfl⟩ nofun

/-- A leaf value is read back as it is. -/
theorem ofEngine_toEngine (h : kind.Holds v) (hx : kind.toEngine v = .ok x) :
    x.isNull = false ∧ kind.ofEngine x = .ok v := by
  cases kind
  case timestamp =>
    obtain ⟨millis, rfl⟩ := h
    obtain ⟨micros, hmicros, rfl⟩ := map_eq_ok.mp hx
    exact ⟨rfl, by rw [ofEngine, millisOf_microsOf hmicros]⟩
  case uuid | timeuuid =>
    obtain ⟨u, rfl⟩ := h
    cases hx
    exact ⟨rfl, by rw [ofEngine, uuidOf, Uuid.ofText?_toText]; rfl⟩
  case inet =>
    obtain ⟨a, rfl⟩ := h
    cases hx
    exact ⟨rfl, by rw [ofEngine, addressOf, Address.ofBytes?_toBytes]; rfl⟩
  case empty =>
    cases h
    cases hx
    exact ⟨rfl, rfl⟩
  all_goals
    obtain ⟨_, rfl⟩ := h
    cases hx
    exact ⟨rfl, rfl⟩

end Kind

end CqlWire
