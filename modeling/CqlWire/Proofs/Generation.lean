import CqlWire.Proofs.Drawing
import CqlWire.Proofs.Throughout
import CqlWire.Proofs.Typing

namespace CqlWire

/-- Values whose records have all fields of their type, and whose leaf values have an encoding. -/
def Strictness.whole : Strictness :=
  { encodable with
    record := fun types fields => encodable.record types fields ∧ ∀ f ∈ types, fields.getD f.1 ≠ .null }

namespace Random

variable {σ : Type} [RandomSource σ] {settings : Settings} {least : Nat} {kind : Kind} {t : DataType}
  {v : Value}

/-- The lengths of texts and byte strings. -/
def AllowsLength (settings : Settings) (n : Nat) : Prop :=
  1 ≤ n ∧ n ≤ max settings.maxText 1

/-- What is asked of each value by itself: it is not null, no collection, text or byte string is
larger or smaller than allowed, elements and keys differ from each other, and numbers without bound
have the width of a word or two. -/
def Sized (settings : Settings) (least : Nat) : Value → Prop
  | .null => False
  | .ascii s | .text s => AllowsLength settings s.length
  | .blob bytes => AllowsLength settings bytes.length
  | .varint n => -2 ^ 127 ≤ n ∧ n < 2 ^ 127
  | .decimal d => -2 ^ 63 ≤ d.unscaled ∧ d.unscaled < 2 ^ 63
  | .list items => least ≤ items.length ∧ items.length ≤ least + settings.maxExtra
  | .set items =>
    items.length ≤ least + settings.maxExtra ∧ items.Pairwise fun a b => Value.same a b = false
  | .map entries =>
    entries.length ≤ least + settings.maxExtra ∧
      (entries.map Prod.fst).Pairwise fun a b => Value.same a b = false
  | _ => True

/-- A value of a type, whole and with what is asked of it at every depth. -/
structure Drawn (settings : Settings) (least : Nat) (t : DataType) (v : Value) : Prop where
  fits : t.Fits .whole v
  sized : Sized settings least v ∧ v.Everywhere fun _ => Sized settings least

theorem Drawn.ne_null (h : Drawn settings least t v) : v ≠ .null := by
  rintro rfl
  exact h.sized.1

section Drawn

variable {e k : DataType} {ts : List DataType} {types : FieldTypes} {keyspace name : String}

/-- A value is drawn of a type as of the type without its frozen wrappers. -/
theorem drawn_shape : Drawn settings least t v ↔ Drawn settings least t.shape.toType v :=
  ⟨fun h => ⟨(DataType.fits_shape _ t v).mp h.fits, h.sized⟩,
    fun h => ⟨(DataType.fits_shape _ t v).mpr h.fits, h.sized⟩⟩

theorem drawn_list_iff : Drawn settings least (.list e) v ↔ ∃ items, v = .list items ∧
    (least ≤ items.length ∧ items.length ≤ least + settings.maxExtra) ∧
    ∀ x ∈ items, Drawn settings least e x := by
  constructor
  · intro h
    obtain ⟨items, rfl, fits⟩ := h.fits.resolve_left h.ne_null
    have inside := Value.everywhere_list.mp h.sized.2
    exact ⟨items, rfl, h.sized.1, fun x hx => ⟨fits x hx, inside x hx⟩⟩
  · rintro ⟨items, rfl, hn, each⟩
    exact ⟨.inr ⟨items, rfl, fun x hx => (each x hx).fits⟩, hn,
      Value.everywhere_list.mpr fun x hx => (each x hx).sized⟩

theorem drawn_set_iff : Drawn settings least (.set e) v ↔ ∃ items, v = .set items ∧
    Distinct (least + settings.maxExtra) (Drawn settings least e) items := by
  constructor
  · intro h
    obtain ⟨items, rfl, fits⟩ := h.fits.resolve_left h.ne_null
    have inside := Value.everywhere_set.mp h.sized.2
    exact ⟨items, rfl, h.sized.1.1, h.sized.1.2, fun x hx => ⟨fits x hx, inside x hx⟩⟩
  · rintro ⟨items, rfl, bounded, differ, each⟩
    exact ⟨.inr ⟨items, rfl, fun x hx => (each x hx).fits⟩, ⟨bounded, differ⟩,
      Value.everywhere_set.mpr fun x hx => (each x hx).sized⟩

theorem drawn_map_iff : Drawn settings least (.map k e) v ↔ ∃ entries, v = .map entries ∧
    Distinct (least + settings.maxExtra) (Drawn settings least k) (entries.map Prod.fst) ∧
    ∀ x ∈ entries, Drawn settings least e x.2 := by
  constructor
  · intro h
    obtain ⟨entries, rfl, -, fits⟩ := h.fits.resolve_left h.ne_null
    have inside := Value.everywhere_map.mp h.sized.2
    refine ⟨entries, rfl, ⟨by simpa using h.sized.1.1, h.sized.1.2, List.forall_mem_map.mpr ?_⟩, ?_⟩
    · exact fun x hx => ⟨(fits x hx).1, (inside x hx).1⟩
    · exact fun x hx => ⟨(fits x hx).2, (inside x hx).2⟩
  · rintro ⟨entries, rfl, ⟨bounded, differ, keys⟩, values⟩
    replace keys := List.forall_mem_map.mp keys
    exact ⟨.inr ⟨entries, rfl, trivial, fun x hx => ⟨(keys x hx).fits, (values x hx).fits⟩⟩,
      ⟨by simpa using bounded, differ⟩,
      Value.everywhere_map.mpr fun x hx => ⟨(keys x hx).sized, (values x hx).sized⟩⟩

theorem drawn_tuple_iff : Drawn settings least (.tuple ts) v ↔ ∃ items, v = .tuple items ∧
    List.Forall₂ (Drawn settings least) ts items := by
  constructor
  · intro h
    obtain ⟨items, rfl, hl, fits⟩ := h.fits.resolve_left h.ne_null
    have inside := Value.everywhere_tuple.mp h.sized.2
    exact ⟨items, rfl, ((DataType.fitsEach_iff hl).mp fits).imp_mem
      fun t _ x hx hfits => ⟨hfits, inside x hx⟩⟩
  · rintro ⟨items, rfl, each⟩
    have hl := each.length_eq.symm
    refine ⟨.inr ⟨items, rfl, hl, (DataType.fitsEach_iff hl).mpr (each.imp fun _ _ h => h.fits)⟩,
      trivial, Value.everywhere_tuple.mpr fun x hx => ?_⟩
    obtain ⟨t, -, ht⟩ := each.exists_mem_left hx
    exact ht.sized

theorem drawn_udt_iff : Drawn settings least (.udt keyspace name types) v ↔ ∃ fields, v = .record fields ∧
    (Fields.Canonical fields ∧ ∀ f ∈ fields, f.1 ∈ types.map Prod.fst) ∧
    ∀ f ∈ types, Drawn settings least f.2 (Fields.getD fields f.1) := by
  constructor
  · intro h
    obtain ⟨fields, rfl, ⟨exact, whole⟩, fits⟩ := h.fits.resolve_left h.ne_null
    refine ⟨fields, rfl, exact, fun f hf => ?_⟩
    -- The value of a name is not null here, so that it is the value of a field.
    obtain ⟨g, hg, -, hv⟩ := Fields.exists_mem_of_getD_ne_null (whole f hf)
    have inside := Value.everywhere_record.mp h.sized.2 g hg
    rw [hv] at inside
    exact ⟨DataType.fitsFields_iff.mp fits f hf, inside⟩
  · rintro ⟨fields, rfl, exact, each⟩
    refine ⟨.inr ⟨fields, rfl, ⟨exact, fun f hf => (each f hf).ne_null⟩,
      DataType.fitsFields_iff.mpr fun f hf => (each f hf).fits⟩, trivial,
      Value.everywhere_record.mpr fun g hg => ?_⟩
    obtain ⟨f, hf, hname⟩ := List.mem_map.mp (exact.2 g hg)
    have drawn := each f hf
    rw [hname, exact.1.getD_of_mem hg] at drawn
    exact drawn.sized

end Drawn

end Random

end CqlWire
