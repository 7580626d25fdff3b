import CqlWire.Proofs.Reload

namespace CqlWire

namespace DataType

mutual

/-- The type with one frozen wrapper where several stand directly within one another, at any
depth. -/
def collapse : DataType → DataType
  | .leaf kind => .leaf kind
  | .list t => .list (collapse t)
  | .set t => .set (collapse t)
  | .map k v => .map (collapse k) (collapse v)
  | .tuple ts => .tuple (collapseEach ts)
  | .udt keyspace name fields => .udt keyspace name (collapseFields fields)
  | .frozen t => (collapse t).freeze

def collapseEach : List DataType → List DataType
  | [] => []
  | t :: ts => collapse t :: collapseEach ts

def collapseFields : List (String × DataType) → List (String × DataType)
  | [] => []
  | (name, t) :: fields => (name, collapse t) :: collapseFields fields

end

variable {t : DataType}

theorem collapseEach_eq_map (ts : List DataType) : collapseEach ts = ts.map collapse := by
  induction ts with
  | nil => rfl
  | cons t ts ih => rw [collapseEach, ih, List.map_cons]

theorem collapseFields_eq_map (fields : FieldTypes) :
    collapseFields fields = fields.map fun f => (f.1, f.2.collapse) := by
  induction fields with
  | nil => rfl
  | cons f fields ih => rw [collapseFields, ih, List.map_cons]

theorem collapse_eq_self (h : t.FrozenOnce) : t.collapse = t := by
  induction t with
  | leaf kind => rfl
  | list t ih => rw [collapse, ih (throughout_list.mp h).2]
  | set t ih => rw [collapse, ih (throughout_set.mp h).2]
  | map k v ihk ihv =>
    obtain ⟨-, hk, hv⟩ := throughout_map.mp h
    rw [collapse, ihk hk, ihv hv]
  | tuple ts ih =>
    have inside := (throughout_tuple.mp h).2
    rw [collapse, collapseEach_eq_map, List.map_congr_left fun t ht => ih t ht (inside t ht)]
    exact congrArg DataType.tuple (List.map_id ts)
  | udt keyspace name fields ih =>
    have inside := (throughout_udt.mp h).2
    have same : ∀ f ∈ fields, (f.1, f.2.collapse) = f := fun f hf =>
      Prod.ext rfl (ih f hf (inside f hf))
    rw [collapse, collapseFields_eq_map, List.map_congr_left same]
    exact congrArg (DataType.udt keyspace name) (List.map_id fields)
  | frozen t ih =>
    obtain ⟨here, inside⟩ := throughout_frozen.mp h
    rw [collapse, ih inside]
    cases t with
    | frozen t => exact absurd rfl (here t)
    | _ => rfl

end DataType

namespace Registry

variable {r : Registry} {t o : DataType} {u v : Udt} {n : QualifiedName}

/-- Every user-defined type in the type is on record, with the fields that it has there. -/
def Mirrors (r : Registry) (t : DataType) : Prop :=
  ∀ u ∈ t.udts, r.lookup u.keyspace u.name = .ok u

theorem key_mem_of_mem_mentions (hn : n ∈ t.mentions) : ∃ u ∈ t.udts, u.key = n := by
  obtain ⟨u, hu, hkey⟩ := DataType.exists_udt_of_mem_mentions hn
  exact ⟨u, DataType.of_mem_nodes_udts (fun _ h => h) hu, hkey⟩

namespace Mirrors

theorem exists_smaller (h : r.Mirrors t) (hu : u ∈ t.udts) (hn : r.Refers u.key n) :
    ∃ v ∈ t.udts, v.key = n ∧ sizeOf v.type < sizeOf u.type := by
  obtain ⟨udt, hudt, f, hf, hm⟩ := hn
  cases hudt.symm.trans (h u hu)
  obtain ⟨v, hv, hkey, hlt⟩ := DataType.exists_smaller_of_mention hf hm
  have field : v ∈ f.2.udts := DataType.of_mem_nodes_udts (fun _ h => h) hv
  have owner := (DataType.forall_mem_udts_type.mp fun _ h => h).2 f hf v field
  exact ⟨v, DataType.mem_udts_trans hu owner, hkey, hlt⟩

theorem exists_of_path (h : r.Mirrors t) (hu : u ∈ t.udts)
    (path : Relation.ReflTransGen r.Refers u.key n) :
    ∃ v ∈ t.udts, v.key = n ∧ sizeOf v.type ≤ sizeOf u.type := by
  induction path with
  | refl => exact ⟨u, hu, rfl, Nat.le_refl _⟩
  | tail _ step ih =>
    obtain ⟨v, hv, rfl, hle⟩ := ih
    obtain ⟨w, hw, hkey, hlt⟩ := h.exists_smaller hv step
    exact ⟨w, hw, hkey, Nat.le_of_lt (Nat.lt_of_lt_of_le hlt hle)⟩

theorem eq_of_key (h : r.Mirrors t) (hu : u ∈ t.udts) (hv : v ∈ t.udts) (hkey : u.key = v.key) :
    u = v := by
  have found := h u hu
  rw [show u.keyspace = v.keyspace from congrArg Prod.fst hkey,
    show u.name = v.name from congrArg Prod.snd hkey, h v hv] at found
  exact (Except.ok.inj found).symm

theorem contains_of_meets (h : r.Mirrors t) (hn : r.Meets t n) : r.contains n.1 n.2 = true := by
  obtain ⟨m, hm, path⟩ := hn
  obtain ⟨u, hu, rfl⟩ := key_mem_of_mem_mentions hm
  obtain ⟨v, hv, rfl, -⟩ := h.exists_of_path hu path
  exact contains_iff.mpr ⟨v, h v hv⟩

/-- Whatever a type refers to is smaller than it, so that no type lies within itself. -/
theorem not_loops (h : r.Mirrors t) : ¬r.Loops t := by
  rintro ⟨n, ⟨m, hm, path⟩, cycle⟩
  obtain ⟨u, hu, rfl⟩ := key_mem_of_mem_mentions hm
  obtain ⟨v, hv, rfl, -⟩ := h.exists_of_path hu path
  obtain ⟨n, step, back⟩ := Relation.TransGen.head'_iff.mp cycle
  obtain ⟨w, hw, rfl, hlt⟩ := h.exists_smaller hv step
  obtain ⟨v', hv', hkey, hle⟩ := h.exists_of_path hw back
  cases h.eq_of_key hv' hv hkey
  exact Nat.lt_irrefl _ (Nat.lt_of_le_of_lt hle hlt)

theorem eq_collapse (h : r.Mirrors t) (ho : r.resolve t = .ok o) : o = t.collapse := by
  obtain ⟨expand, he, hexpand⟩ := resolveWithin_eq_expandWith r r.size
  have hr : r.resolve = DataType.expandWith expand := he
  have known := DataType.forall_mem_udts.mp h
  rw [hr] at ho
  -- The induction is on what is on record of the parts, not of the whole type.
  clear h
  induction t generalizing o with
  | leaf kind =>
    cases pure_eq_ok.mp ho
    rfl
  | list t ih =>
    obtain ⟨p, hp, ho⟩ := bind_eq_ok.mp ho
    cases pure_eq_ok.mp ho
    rw [DataType.collapse, ih hp (DataType.throughout_list.mp known).2]
  | set t ih =>
    obtain ⟨p, hp, ho⟩ := bind_eq_ok.mp ho
    cases pure_eq_ok.mp ho
    rw [DataType.collapse, ih hp (DataType.throughout_set.mp known).2]
  | map k v ihk ihv =>
    obtain ⟨p, hp, ho⟩ := bind_eq_ok.mp ho
    obtain ⟨q, hq, ho⟩ := bind_eq_ok.mp ho
    cases pure_eq_ok.mp ho
    obtain ⟨-, hk, hv⟩ := DataType.throughout_map.mp known
    rw [DataType.collapse, ihk hp hk, ihv hq hv]
  | tuple ts ih =>
    obtain ⟨os, hos, ho⟩ := bind_eq_ok.mp ho
    cases pure_eq_ok.mp ho
    have inside := (DataType.throughout_tuple.mp known).2
    have each : os = ts.map DataType.collapse := by
      rw [← List.forall₂_eq_eq_eq, List.forall₂_map_right_iff]
      exact (DataType.expandEach_eq_ok.mp hos).flip.imp_mem fun p _ t ht hp => ih t ht hp (inside t ht)
    rw [DataType.collapse, DataType.collapseEach_eq_map, each]
  | udt keyspace name fields ih =>
    obtain ⟨here, inside⟩ := DataType.throughout_udt.mp known
    obtain ⟨udt, found, hudt, hfields, rfl⟩ := hexpand keyspace name o ho
    cases hudt.symm.trans (DataType.whereUdt_udt.mp here)
    have each : found = fields.map fun f => (f.1, f.2.collapse) := by
      rw [← List.forall₂_eq_eq_eq, List.forall₂_map_right_iff]
      refine hfields.flip.imp_mem fun g _ f hf ⟨hname, hg⟩ => ?_
      exact Prod.ext hname.symm (ih f hf (hr ▸ hg) (inside f hf))
    rw [DataType.collapse, DataType.collapseFields_eq_map, each]
  | frozen t ih =>
    obtain ⟨p, hp, ho⟩ := bind_eq_ok.mp ho
    cases pure_eq_ok.mp ho
    rw [DataType.collapse, ih hp (DataType.throughout_frozen.mp known).2]

/-- A type that is on record as it stands is resolved to itself, but for wrappers directly within
one another. -/
theorem resolve_eq (h : r.Mirrors t) : r.resolve t = .ok t.collapse := by
  obtain ⟨o, ho⟩ := resolve_eq_ok_iff.mpr ⟨h.not_loops, fun _ hm => h.contains_of_meets hm⟩
  rw [ho, h.eq_collapse ho]

end Mirrors

end Registry

end CqlWire
