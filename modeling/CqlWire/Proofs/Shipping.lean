import CqlWire.Proofs.Rereading

namespace CqlWire

namespace DataType

variable {r : Registry} {t o : DataType} {n : Nat}

theorem proper_freeze (t : DataType) : t.freeze.proper = t.proper.freeze := by
  rcases freeze_cases t with ⟨u, rfl, hfreeze⟩ | ⟨-, hfreeze⟩
  · rw [hfreeze, proper]
    rcases freeze_cases u.proper with ⟨v, hv, hinner⟩ | ⟨-, hinner⟩
    · rw [hinner, hinner]
    · rw [hinner, freeze]
  · rw [hfreeze, proper]

theorem proper_udts (h : t.proper = t) : ∀ u ∈ t.udts, u.type.proper = u.type := by
  obtain ⟨hn, hf⟩ := proper_eq_self_iff.mp h
  have names : ∀ u ∈ t.udts, u.type.WellNamed :=
    forall_mem_udts.mpr (hn.nested.mono fun _ hu _ heq => heq.subst hu)
  have wrappers : ∀ u ∈ t.udts, u.type.FrozenOnce :=
    forall_mem_udts.mpr (hf.nested.mono fun _ hu _ heq => heq.subst hu)
  exact fun u hu => proper_eq_self (names u hu) (wrappers u hu)

/-- What is proper on record is proper wherever it is put. -/
theorem proper_of_expandWith
    (hr : ∀ keyspace name udt, r.lookup keyspace name = .ok udt → udt.type.proper = udt.type)
    (h : expandWith r.types t = .ok o) : o.proper = o := by
  induction t generalizing o with
  | leaf kind =>
    cases pure_eq_ok.mp h
    rfl
  | list t ih =>
    obtain ⟨p, hp, h⟩ := bind_eq_ok.mp h
    cases pure_eq_ok.mp h
    rw [proper, ih hp]
  | set t ih =>
    obtain ⟨p, hp, h⟩ := bind_eq_ok.mp h
    cases pure_eq_ok.mp h
    rw [proper, ih hp]
  | map k v ihk ihv =>
    obtain ⟨p, hp, h⟩ := bind_eq_ok.mp h
    obtain ⟨q, hq, h⟩ := bind_eq_ok.mp h
    cases pure_eq_ok.mp h
    rw [proper, ihk hp, ihv hq]
  | tuple ts ih =>
    obtain ⟨os, hos, h⟩ := bind_eq_ok.mp h
    cases pure_eq_ok.mp h
    have each : ∀ p ∈ os, p.proper = p := fun p hp => by
      obtain ⟨t, ht, htp⟩ := (expandEach_eq_ok.mp hos).exists_mem_left hp
      exact ih t ht htp
    rw [proper, properEach_eq_self each]
  | udt keyspace name fields =>
    obtain ⟨udt, hu, rfl⟩ := map_eq_ok.mp h
    exact hr keyspace name udt hu
  | frozen t ih =>
    obtain ⟨p, hp, h⟩ := bind_eq_ok.mp h
    cases pure_eq_ok.mp h
    rw [proper_freeze, ih hp]

/-- Types lie within one another in the name of a type and in the user-defined types that stand in
it. -/
theorem height_le_nesting (h : ∀ udt : Udt, udt.type ∈ t.nodes → udt.type.height ≤ n) :
    t.height ≤ t.nesting + n := by
  induction t with
  | leaf kind => exact Nat.zero_le _
  | list t ih | set t ih | frozen t ih =>
    have inner := ih fun udt hu => h udt (List.mem_cons_of_mem _ hu)
    rw [height, nesting]
    omega
  | map k v ihk ihv =>
    have key := ihk fun udt hu => h udt (List.mem_cons_of_mem _ (List.mem_append_left _ hu))
    have value := ihv fun udt hu => h udt (List.mem_cons_of_mem _ (List.mem_append_right _ hu))
    rw [height, nesting]
    omega
  | tuple ts ih =>
    rw [height, nesting, heightEach_le]
    intro t ht
    have inner := ih t ht fun udt hu =>
      h udt (List.mem_cons_of_mem _ (mem_nodesEach.mpr ⟨t, ht, hu⟩))
    have outer := nestingEach_le.mp (Nat.le_refl _) t ht
    omega
  | udt keyspace name fields =>
    exact (h ⟨keyspace, name, fields⟩ (List.mem_singleton_self _)).trans (Nat.le_add_left n 0)

end DataType

namespace Registry

/-- What is put on record step by step: the types in a type that was read from a name or from its
binary form, or the types of definitions. -/
inductive Assembled : Registry → Prop
  | empty : Assembled empty
  | parsed {r s : Registry} {t : DataType} {keyspace input : String} (hr : Assembled r)
    (hs : Assembled s) (h : DataType.parse s keyspace input = .ok t) : Assembled (r.insertAll t)
  | decoded {r : Registry} {t : DataType} {bytes : Bytes} (hr : Assembled r)
    (h : DataType.ofBytes bytes = .ok t) : Assembled (r.insertAll t)
  | loaded {r : Registry} (hr : Assembled r) (ds : List Definition) : Assembled (r.load ds).1

variable {r s : Registry} {t : DataType} {udt : Udt} {d : Definition} {keyspace input : String}

/-- All types on record are as the builders give them. -/
def IsProper (r : Registry) : Prop :=
  ∀ keyspace name udt, r.lookup keyspace name = .ok udt → udt.type.proper = udt.type

theorem IsProper.parse (hr : r.IsProper) (h : DataType.parse r keyspace input = .ok t) :
    t.proper = t :=
  DataType.proper_of_expandWith hr (DataType.expandWith_types_of_parse h)

theorem IsProper.resolve (hr : r.IsProper) (h : d.resolve r = .ok udt) : udt.type.proper = udt.type := by
  have fields : DataType.properFields udt.fields = udt.fields := by
    refine DataType.properFields_eq_self fun f hf => ?_
    obtain ⟨g, -, hg⟩ := Definition.exists_parse_of_resolve h hf
    exact hr.parse hg
  rw [Udt.type, DataType.proper, fields, FieldTypes.ofList_eq_self (resolve_hasDistinctNames h)]

theorem IsProper.insert (hr : r.IsProper) (hu : udt.type.proper = udt.type) :
    (r.insert udt).IsProper := by
  intro keyspace name v hv
  rw [lookup_eq_ok, get?_insert] at hv
  split at hv
  next =>
    cases hv
    exact hu
  next => exact hr keyspace name v (lookup_eq_ok.mpr hv)

theorem IsProper.insertAll (hr : r.IsProper) (ht : t.proper = t) : (r.insertAll t).IsProper :=
  foldl_induct hr fun _ u hu hs => hs.insert (DataType.proper_udts ht u hu)

theorem IsProper.load (hr : r.IsProper) (ds : List Definition) : (r.load ds).1.IsProper := by
  have kept : Kept fun r _ => r.IsProper := {
    perm := fun _ h => h
    insert := fun hd h => h.insert (h.resolve hd) }
  exact (kept.load hr).1.elim fun _ h => h

theorem Assembled.isProper (h : r.Assembled) : r.IsProper := by
  induction h with
  | empty => exact nofun
  | parsed _ _ h ihr ihs => exact ihr.insertAll (ihs.parse h)
  | decoded _ h ihr =>
    obtain ⟨ht, -⟩ := DataType.describable_of_ofBytes h
    exact ihr.insertAll ht.proper_eq
  | loaded _ ds ihr => exact ihr.load ds

/-- A type that is read from a name has a binary form, from which it is read back unless more than
64 types with parts lie within one another. As at most 64 brackets are open at once in the name, those
are types in the fields of user-defined ones. -/
theorem ships (hr : r.Assembled) (h : DataType.parse r keyspace input = .ok t) (hs : t.Sized) :
    ∃ bytes, t.toBytes = .ok bytes ∧
      (DataType.ofBytes bytes = .ok t ↔ t.height ≤ nestingLimit) ∧
      (nestingLimit < t.height → DataType.ofBytes bytes = .error DataType.tooDeep) ∧
      ((∀ udt : Udt, udt.type ∈ t.nodes → t.nesting + udt.type.height ≤ nestingLimit) →
        DataType.ofBytes bytes = .ok t) := by
  obtain ⟨bytes, hbytes⟩ := DataType.exists_toBytes hs
  have hproper := hr.isProper.parse h
  have hread := DataType.ofBytes_of_toBytes hbytes
  rw [hproper] at hread
  have back : DataType.ofBytes bytes = .ok t ↔ t.height ≤ nestingLimit := by
    rw [hread]
    split
    next hle => exact iff_of_true rfl hle
    next hnot => exact iff_of_false nofun hnot
  refine ⟨bytes, hbytes, back, fun hlt => ?_, fun hudts => back.mpr ?_⟩
  · rw [hread, if_neg (Nat.not_le.mpr hlt)]
  · have shallow := (DataType.expressible_of_parse h).nesting_le
    have bound := DataType.height_le_nesting (n := nestingLimit - t.nesting) fun udt hu => by
      have := hudts udt hu
      omega
    omega

theorem ships_at_limit :
    let a : Udt := ⟨"ks", "a", [("x", DataType.list^[63] (.leaf .int))]⟩
    let r : Registry := empty.insertAll a.type
    let t : DataType := .frozen a.type
    (r.Assembled ∧ DataType.parse r "ks" "a" = .ok a.type ∧ a.type.Sized ∧
      DataType.parse r "ks" "frozen<a>" = .ok t ∧ t.Sized) ∧
      (∃ bytes, a.type.toBytes = .ok bytes ∧ DataType.ofBytes bytes = .ok a.type) ∧
      ∃ bytes, t.toBytes = .ok bytes ∧ DataType.ofBytes bytes = .error DataType.tooDeep := by
  intro a r t
  have leaf : (DataType.leaf .int).Describable :=
    ⟨DataType.wellNamed_leaf, DataType.frozenOnce_leaf, DataType.sized_leaf⟩
  have ha : a.type.Describable := by
    obtain ⟨hn, hf, hs⟩ := leaf.list_iterate 63
    have short : ∀ s ∈ ["ks", "a", "x"], (Text.toBytes s).length < Frame.limit := by decide +kernel
    constructor
    · exact DataType.wellNamed_udt.mpr ⟨List.nodup_singleton "x", List.forall_mem_singleton.mpr hn⟩
    · exact DataType.frozenOnce_udt.mpr (List.forall_mem_singleton.mpr hf)
    · exact DataType.sized_udt.mpr ⟨⟨by decide, short⟩, List.forall_mem_singleton.mpr hs⟩
  have low : a.type.height = 64 := by decide
  have high : t.height = 65 := by decide
  have hs : t.Sized := DataType.sized_frozen.mpr ha.sized
  obtain ⟨bytes, hbytes⟩ := DataType.exists_toBytes ha.sized
  have decoded := (DataType.ofBytes_eq_ok_iff ha hbytes).mpr (Nat.le_of_eq low)
  have hr : r.Assembled := .decoded .empty decoded
  have parses {o : DataType} (ho : o ∈ [a.type, t]) : DataType.parse r "ks" o.name = .ok o := by
    have expanded : DataType.expandWith r.types o = .ok o := by
      rcases List.mem_pair.mp ho with rfl | rfl <;> rfl
    rcases List.mem_pair.mp ho with rfl | rfl
    all_goals
      refine DataType.parse_name_eq_ok (by decide) ?_ ?_ ?_ expanded
      · simp [a, t, Udt.type, DataType.nodes]
      · simp only [DataType.Unreserved, t, a, Udt.type, DataType.mentions, List.forall_mem_singleton]
        decide
      · simp [a, t, Udt.type, DataType.mentions]
  have name : a.type.name = "a" := by decide +kernel
  have plain : DataType.parse r "ks" "a" = .ok a.type := by
    rw [← name]
    exact parses List.mem_cons_self
  have wrapped : DataType.parse r "ks" "frozen<a>" = .ok t := by
    have spelled : t.name = "frozen<a>" := by
      rw [DataType.name, name]
      rfl
    rw [← spelled]
    exact parses (List.mem_pair.mpr (.inr rfl))
  refine ⟨⟨hr, plain, ha.sized, wrapped, hs⟩, ?_, ?_⟩
  · obtain ⟨bytes, h, back, -⟩ := ships hr plain ha.sized
    exact ⟨bytes, h, back.mpr (Nat.le_of_eq low)⟩
  · obtain ⟨bytes, h, -, refused, -⟩ := ships hr wrapped hs
    exact ⟨bytes, h, refused (by rw [high]; decide)⟩

end Registry

end CqlWire
