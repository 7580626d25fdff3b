import CqlWire.Proofs.Confinement
import CqlWire.Proofs.Extent
import CqlWire.Proofs.Intake
import CqlWire.Proofs.RoundTrip
import CqlWire.Proofs.Sufficiency
import CqlWire.Proofs.Totality

namespace CqlWire

open Value (same encode decode)

variable {r : Registry} {t : DataType} {v : Value}

namespace DataType

theorem Populated.collapse (h : t.Populated) : t.collapse.Populated := by
  induction t with
  | leaf kind => exact h
  | list t ih => exact throughout_list.mpr ⟨by simp, ih (throughout_list.mp h).2⟩
  | set t ih => exact throughout_set.mpr ⟨by simp, ih (throughout_set.mp h).2⟩
  | map k v ihk ihv =>
    obtain ⟨-, hk, hv⟩ := throughout_map.mp h
    exact throughout_map.mpr ⟨by simp, ihk hk, ihv hv⟩
  | tuple ts ih =>
    obtain ⟨⟨hne, -⟩, inside⟩ := throughout_tuple.mp h
    rw [DataType.collapse, collapseEach_eq_map]
    refine throughout_tuple.mpr ⟨?_, List.forall_mem_map.mpr fun t ht => ih t ht (inside t ht)⟩
    simpa using hne
  | udt keyspace name fields ih =>
    obtain ⟨⟨-, hne⟩, inside⟩ := throughout_udt.mp h
    rw [DataType.collapse, collapseFields_eq_map]
    refine throughout_udt.mpr ⟨?_, List.forall_mem_map.mpr fun f hf => ih f hf (inside f hf)⟩
    simpa using hne
  | frozen t ih =>
    exact throughout_freeze (fun _ => by simp) (ih (throughout_frozen.mp h).2)

theorem children_base_collapse (t : DataType) :
    t.collapse.base.children = t.base.children.map collapse := by
  induction t with
  | tuple ts _ => exact collapseEach_eq_map ts
  | udt keyspace name fields _ => simp [collapse, base, children, collapseFields_eq_map]
  | frozen t ih =>
    rw [collapse, ← toType_shape, shape_freeze, toType_shape, ih]
    rfl
  | _ => rfl

theorem PopulatedBelow.collapse (h : t.PopulatedBelow) : t.collapse.PopulatedBelow := by
  intro u hu
  rw [children_base_collapse] at hu
  obtain ⟨w, hw, rfl⟩ := List.mem_map.mp hu
  exact (h w hw).collapse

end DataType

theorem Registry.WellFormed.insertAll (h : r.WellFormed) (ht : t.WellNamed) :
    (r.insertAll t).WellFormed :=
  foldl_induct h fun _ u hu hr => hr.insert (ht.udts u hu)

namespace Random

variable {settings : Settings} {least : Nat}

/-- A value drawn of a type is one of the type with single wrappers. -/
theorem Drawn.collapse (h : Drawn settings least t v) : Drawn settings least t.collapse v := by
  induction t generalizing v with
  | leaf kind => exact h
  | list t ih =>
    obtain ⟨items, rfl, hn, each⟩ := drawn_list_iff.mp h
    exact drawn_list_iff.mpr ⟨items, rfl, hn, fun x hx => ih (each x hx)⟩
  | set t ih =>
    obtain ⟨items, rfl, hitems⟩ := drawn_set_iff.mp h
    exact drawn_set_iff.mpr ⟨items, rfl, hitems.imp fun _ => ih⟩
  | map k t ihk iht =>
    obtain ⟨entries, rfl, hkeys, hvalues⟩ := drawn_map_iff.mp h
    exact drawn_map_iff.mpr ⟨entries, rfl, hkeys.imp fun _ => ihk, fun x hx => iht (hvalues x hx)⟩
  | tuple ts ih =>
    obtain ⟨items, rfl, each⟩ := drawn_tuple_iff.mp h
    rw [DataType.collapse, DataType.collapseEach_eq_map]
    refine drawn_tuple_iff.mpr ⟨items, rfl, List.forall₂_map_left_iff.mpr ?_⟩
    exact each.imp_mem fun t ht _ _ hdrawn => ih t ht hdrawn
  | udt keyspace name types ih =>
    obtain ⟨fields, rfl, ⟨canonical, known⟩, each⟩ := drawn_udt_iff.mp h
    rw [DataType.collapse, DataType.collapseFields_eq_map]
    refine drawn_udt_iff.mpr ⟨fields, rfl, ⟨canonical, fun f hf => ?_⟩, ?_⟩
    · simpa using known f hf
    · exact List.forall_mem_map.mpr fun f hf => ih f hf (each f hf)
  | frozen t ih =>
    rw [DataType.collapse, drawn_shape, DataType.shape_freeze, ← drawn_shape]
    exact ih ⟨h.fits, h.sized⟩

theorem Drawn.settled (h : Drawn settings least t v) : v.Settled := by
  have solid : v.Solid := h.sized.2.mono fun _ _ _ hs _ => by
    rintro rfl
    exact hs
  exact solid.settled

theorem Sized.isVoid_eq_false (h : Sized settings least v) : v.isVoid = false := by
  cases v
  case ascii s | text s =>
    refine decide_eq_false ?_
    rintro rfl
    exact absurd h.1 (by decide)
  case blob bytes =>
    refine List.isEmpty_eq_false_iff.mpr ?_
    rintro rfl
    exact absurd h.1 (by decide)
  all_goals rfl

theorem Drawn.filled (h : Drawn settings least t v) : v.Filled :=
  h.sized.2.mono fun _ _ _ hs _ => hs.isVoid_eq_false

end Random

end CqlWire
