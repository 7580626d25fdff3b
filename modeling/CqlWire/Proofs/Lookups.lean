import CqlWire.Proofs.Expansion
import CqlWire.Proofs.Reading
import CqlWire.Proofs.Termination

namespace CqlWire

namespace DataType

open Scan (Failure Word)

variable {r r' : Registry} {keyspace input : String} {limit : Nat} {t k v : DataType}
  {ts : List DataType} {s s' : Scan} {w : Word} {f : Expansion}

/-- One reader takes a text as the other one does, and looks up what it names elsewhere. -/
def Follows (f : Expansion) (read other : NameReader) : Prop :=
  ∀ {s t s'}, read s = .ok (t, s') → other s = looked (expandWith f t) s'

theorem readArguments_follows {read other : NameReader} (hread : Follows f read other)
    (h : readArguments read limit s = .ok (ts, s')) :
    readArguments other limit s = looked (expandEach f ts) s' := by
  induction limit generalizing s ts s' with
  | zero => cases h
  | succ limit ih =>
    obtain ⟨⟨t, u⟩, ht, h⟩ := bind_eq_ok.mp h
    have first := hread ht
    dsimp only at h
    rw [readArguments, first]
    -- A name that the other registry lacks ends the reading here, as it ends the expansion.
    split at h
    next hcomma =>
      obtain ⟨⟨us, last⟩, hus, h⟩ := bind_eq_ok.mp h
      cases h
      have others := ih hus
      rw [expandEach]
      cases expandWith f t with
      | error e => rfl
      | ok o =>
        simp only [looked, bind, Except.bind, hcomma, if_true] at others ⊢
        rw [others]
        cases expandEach f us <;> rfl
    next hcomma =>
      split at h
      next hclosing =>
        cases h
        rw [expandEach, expandEach]
        cases expandWith f t with
        | error e => rfl
        | ok o =>
          simp only [looked, bind, Except.bind, if_neg hcomma, if_pos hclosing]
          rfl
      next => cases h

variable {inner? other? : Option NameReader}

theorem readBracketed_follows (hread : Option.Rel (Follows f) inner? other?)
    (h : readBracketed inner? s = .ok (ts, s')) :
    readBracketed other? s = looked (expandEach f ts) s' := by
  obtain ⟨u, hu, h⟩ := bind_eq_ok.mp h
  rw [readBracketed, hu]
  cases hread with
  | none => cases h
  | some hread => exact readArguments_follows hread h

theorem readOne_follows (hread : Option.Rel (Follows f) inner? other?)
    (h : readOne inner? s = .ok (t, s')) : readOne other? s = looked (expandWith f t) s' := by
  obtain ⟨⟨ts, u⟩, hts, h⟩ := bind_eq_ok.mp h
  rw [readOne, readBracketed_follows hread hts]
  split at h
  next e last heq =>
    cases heq
    cases h
    rw [expandEach, expandEach]
    cases expandWith f t <;> rfl
  next => cases h

theorem readTwo_follows (hread : Option.Rel (Follows f) inner? other?)
    (h : readTwo inner? s = .ok ((k, v), s')) :
    readTwo other? s = looked (do return (← expandWith f k, ← expandWith f v)) s' := by
  obtain ⟨⟨ts, u⟩, hts, h⟩ := bind_eq_ok.mp h
  rw [readTwo, readBracketed_follows hread hts]
  split at h
  next e d last heq =>
    cases heq
    cases h
    rw [expandEach, expandEach, expandEach]
    cases expandWith f k with
    | error e => rfl
    | ok o => cases expandWith f v <;> rfl
  next => cases h

theorem expandWith_of_types {name : String} (h : r.types keyspace name = .ok t) (f : Expansion) :
    expandWith f t = f keyspace name := by
  obtain ⟨udt, hu, rfl⟩ := map_eq_ok.mp h
  obtain ⟨rfl, rfl⟩ := Registry.names_of_lookup hu
  rfl

theorem readNamed_follows (h : readNamed r keyspace w s = .ok (t, s')) :
    readNamed r' keyspace w s = looked (expandWith r'.types t) s' := by
  by_cases hpoint : s.skipBlanks.next? = some '.'
  · rw [readNamed_qualified hpoint] at h ⊢
    obtain ⟨⟨v, u⟩, hv, h⟩ := bind_eq_ok.mp h
    obtain ⟨ht, rfl⟩ := looked_eq_ok.mp h
    rw [hv, expandWith_of_types ht]
    rfl
  · rw [readNamed_plain hpoint] at h ⊢
    obtain ⟨ht, rfl⟩ := looked_eq_ok.mp h
    rw [expandWith_of_types ht]

theorem readWith_follows (hread : Option.Rel (Follows r'.types) inner? other?) :
    Follows r'.types (readWith r keyspace inner?) (readWith r' keyspace other?) := by
  intro s t s' h
  obtain ⟨⟨w, u⟩, hw, -⟩ := bind_eq_ok.mp h
  -- Both readers see the same word, and no registry has a say in what it leads.
  cases leads w with
  | quoted name =>
    rw [readWith_quoted hw rfl] at h ⊢
    exact readNamed_follows h
  | list =>
    rw [readWith_list hw] at h ⊢
    obtain ⟨⟨e, last⟩, he, h⟩ := bind_eq_ok.mp h
    cases h
    rw [readOne_follows hread he, expandWith]
    cases expandWith r'.types e <;> rfl
  | set =>
    rw [readWith_set hw] at h ⊢
    obtain ⟨⟨e, last⟩, he, h⟩ := bind_eq_ok.mp h
    cases h
    rw [readOne_follows hread he, expandWith]
    cases expandWith r'.types e <;> rfl
  | map =>
    rw [readWith_map hw] at h ⊢
    obtain ⟨⟨⟨k, v⟩, last⟩, hkv, h⟩ := bind_eq_ok.mp h
    cases h
    rw [readTwo_follows hread hkv, expandWith]
    cases expandWith r'.types k with
    | error e => rfl
    | ok o => cases expandWith r'.types v <;> rfl
  | frozen =>
    rw [readWith_frozen hw] at h ⊢
    obtain ⟨⟨e, last⟩, he, h⟩ := bind_eq_ok.mp h
    cases h
    rw [readOne_follows hread he, expandWith_freeze]
    cases expandWith r'.types e <;> rfl
  | tuple =>
    rw [readWith_tuple hw] at h ⊢
    obtain ⟨⟨ts, last⟩, hts, h⟩ := bind_eq_ok.mp h
    cases h
    rw [readBracketed_follows hread hts, expandWith]
    cases expandEach r'.types ts <;> rfl
  | plain hn =>
    rw [readWith_plain hw rfl hn] at h ⊢
    split at h
    next hpoint =>
      rw [if_pos hpoint]
      exact readNamed_follows h
    next hpoint =>
      rw [if_neg hpoint]
      split at h
      next => cases h; rfl
      next => cases h
      next => exact readNamed_follows h

theorem readWithin_follows (r r' : Registry) (keyspace : String) (levels : Nat) :
    Follows r'.types (readWithin r keyspace levels) (readWithin r' keyspace levels) := by
  induction levels with
  | zero => exact readWith_follows .none
  | succ levels ih => exact readWith_follows (.some ih)

/-- Another registry reads the same names out of a text and looks them up in the order in which
they stand in the type. -/
theorem parse_follows (h : parse r keyspace input = .ok t) (r' : Registry) :
    parse r' keyspace input = expandWith r'.types t := by
  unfold parse at h ⊢
  dsimp only at h ⊢
  split at h
  next u hu =>
    cases h
    obtain ⟨⟨v, s⟩, hv, hu⟩ := bind_eq_ok.mp hu
    rw [readWithin_follows r r' keyspace _ hv]
    dsimp only at hu
    split at hu
    next hend =>
      cases hu
      cases expandWith r'.types t with
      | error e => rfl
      | ok o => simp only [looked, bind, Except.bind, hend, if_true]; rfl
    next => cases hu
  next => cases h
  next => cases h

/-- The parser gives what is on record for each name. -/
theorem expandWith_types_of_parse (h : parse r keyspace input = .ok t) :
    expandWith r.types t = .ok t :=
  (parse_follows h r).symm.trans h

end DataType

end CqlWire
