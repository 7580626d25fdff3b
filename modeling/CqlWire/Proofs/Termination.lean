import CqlWire.Proofs.Endless

namespace CqlWire

variable {r : Registry} {t o : DataType} {m n : QualifiedName} {d : Nat} {e : Error}

namespace DataType

variable {f : Expansion}

/-- Expansion fails with the error of a name in the type. -/
theorem expandWith_eq_error (h : expandWith f t = .error e) :
    ∃ n ∈ t.mentions, f n.1 n.2 = .error e := by
  induction t with
  | leaf kind => cases h
  | list t ih | set t ih | frozen t ih =>
    rcases bind_eq_error.mp h with ht | ⟨o, -, h⟩
    · exact ih ht
    · cases h
  | map k v ihk ihv =>
    rcases bind_eq_error.mp h with hk | ⟨p, -, h⟩
    · obtain ⟨n, hn, he⟩ := ihk hk
      exact ⟨n, List.mem_append_left _ hn, he⟩
    rcases bind_eq_error.mp h with hv | ⟨q, -, h⟩
    · obtain ⟨n, hn, he⟩ := ihv hv
      exact ⟨n, List.mem_append_right _ hn, he⟩
    · cases h
  | tuple ts ih =>
    rcases bind_eq_error.mp h with hts | ⟨os, -, h⟩
    · rw [expandEach_eq_mapM] at hts
      obtain ⟨t, ht, he⟩ := mapM_eq_error hts
      obtain ⟨n, hn, hne⟩ := ih t ht he
      exact ⟨n, mem_mentionsEach.mpr ⟨t, ht, hn⟩, hne⟩
    · cases h
  | udt keyspace name fields => exact ⟨(keyspace, name), by simp [mentions], h⟩

/-- Expansion asks for the names in the type alone. -/
theorem expandWith_congr {g : Expansion} (h : ∀ n ∈ t.mentions, f n.1 n.2 = g n.1 n.2) :
    expandWith f t = expandWith g t := by
  induction t with
  | leaf kind => rfl
  | list t ih | set t ih | frozen t ih => rw [expandWith, expandWith, ih h]
  | map k v ihk ihv =>
    obtain ⟨hk, hv⟩ := List.forall_mem_append.mp h
    rw [expandWith, expandWith, ihk hk, ihv hv]
  | tuple ts ih =>
    have each : expandEach f ts = expandEach g ts := by
      rw [expandEach_eq_mapM, expandEach_eq_mapM]
      refine mapM_congr fun t ht => ih t ht fun n hn => ?_
      exact h n (mem_mentionsEach.mpr ⟨t, ht, hn⟩)
    rw [expandWith, expandWith, each]
  | udt keyspace name fields => exact h (keyspace, name) (List.mem_singleton_self _)

/-- Expansion needs every name in the type. -/
theorem exists_of_expandWith (h : expandWith f t = .ok o) (hn : n ∈ t.mentions) :
    ∃ p, f n.1 n.2 = .ok p := by
  induction t generalizing o with
  | leaf kind => cases hn
  | list t ih | set t ih | frozen t ih =>
    obtain ⟨p, hp, -⟩ := bind_eq_ok.mp h
    exact ih hp hn
  | map k v ihk ihv =>
    obtain ⟨p, hp, h⟩ := bind_eq_ok.mp h
    obtain ⟨q, hq, -⟩ := bind_eq_ok.mp h
    rcases List.mem_append.mp hn with hn | hn
    · exact ihk hp hn
    · exact ihv hq hn
  | tuple ts ih =>
    obtain ⟨os, hos, -⟩ := bind_eq_ok.mp h
    obtain ⟨t, ht, hn⟩ := mem_mentionsEach.mp hn
    obtain ⟨p, -, hp⟩ := (expandEach_eq_ok.mp hos).exists_mem_right ht
    exact ih t ht hp hn
  | udt keyspace name fields =>
    cases List.mem_singleton.mp hn
    exact ⟨o, h⟩

end DataType

namespace Registry

/-- An error of a name is that of a name it leads to and that is not on record, but where the depth
is too small. -/
theorem expansion_eq_error (h : r.expansion d m.1 m.2 = .error e) :
    e.IsEndless ∨ ∃ n, Relation.ReflTransGen r.Refers m n ∧ r.contains n.1 n.2 = false ∧
      e = .notRegistered n.1 n.2 := by
  have missing (hm : r.lookup m.1 m.2 = .error e) :
      ∃ n, Relation.ReflTransGen r.Refers m n ∧ r.contains n.1 n.2 = false ∧
        e = .notRegistered n.1 n.2 :=
    ⟨m, .refl, lookup_eq_error hm⟩
  induction d generalizing m with
  | zero =>
    rcases bind_eq_error.mp h with hm | ⟨udt, -, h⟩
    · exact .inr (missing hm)
    · cases h
      exact .inl ⟨_, _, rfl⟩
  | succ d ih =>
    rcases bind_eq_error.mp h with hm | ⟨udt, hu, h⟩
    · exact .inr (missing hm)
    rcases bind_eq_error.mp h with hfields | ⟨fields, -, h⟩
    · obtain ⟨x, hx, hxe⟩ := mapM_eq_error hfields
      rcases bind_eq_error.mp hxe with ht | ⟨p, -, hp⟩
      · obtain ⟨n, hn, hne⟩ := DataType.expandWith_eq_error ht
        have step : r.Refers m n := ⟨udt, hu, x, hx, hn⟩
        rcases ih hne fun hn => ⟨n, .refl, lookup_eq_error hn⟩ with hend | ⟨k, path, hk⟩
        · exact .inl hend
        · exact .inr ⟨k, .head step path, hk⟩
      · cases hp
    · cases h

theorem resolve_eq_error (h : r.resolve t = .error e) :
    e.IsEndless ∨ ∃ m, r.Meets t m ∧ r.contains m.1 m.2 = false ∧ e = .notRegistered m.1 m.2 := by
  rw [resolve, resolveWithin_eq] at h
  obtain ⟨n, hn, hne⟩ := DataType.expandWith_eq_error h
  rcases expansion_eq_error hne with hend | ⟨m, path, hm⟩
  · exact .inl hend
  · exact .inr ⟨m, ⟨n, hn, path⟩, hm⟩

/-- A name stands for something at a depth only if the names it refers to do one level down. -/
theorem exists_of_refers (h : r.expansion d m.1 m.2 = .ok o) (hmn : r.Refers m n) :
    ∃ c p, c < d ∧ r.expansion c n.1 n.2 = .ok p := by
  cases d with
  | zero =>
    obtain ⟨udt, -, h⟩ := bind_eq_ok.mp h
    cases h
  | succ d =>
    obtain ⟨udt, hu, h⟩ := bind_eq_ok.mp h
    obtain ⟨fields, hfields, -⟩ := bind_eq_ok.mp h
    obtain ⟨udt', hu', x, hx, hn⟩ := hmn
    cases hu.symm.trans hu'
    obtain ⟨y, -, hxy⟩ := (mapM_eq_ok.mp hfields).exists_mem_right hx
    obtain ⟨q, hq, -⟩ := bind_eq_ok.mp hxy
    obtain ⟨p, hp⟩ := DataType.exists_of_expandWith hq hn
    exact ⟨d, p, Nat.lt_succ_self d, hp⟩

theorem exists_of_transGen (h : r.expansion d m.1 m.2 = .ok o)
    (path : Relation.TransGen r.Refers m n) : ∃ c p, c < d ∧ r.expansion c n.1 n.2 = .ok p := by
  induction path with
  | single hmn => exact exists_of_refers h hmn
  | tail _ hkn ih =>
    obtain ⟨b, q, hb, hq⟩ := ih
    obtain ⟨c, p, hc, hp⟩ := exists_of_refers hq hkn
    exact ⟨c, p, by omega, hp⟩

theorem contains_of_expansion (h : r.expansion d m.1 m.2 = .ok o) : r.contains m.1 m.2 = true := by
  cases hu : r.lookup m.1 m.2 with
  | ok udt => exact contains_iff.mpr ⟨udt, hu⟩
  | error e =>
    rw [expansion_of_lookup_error hu] at h
    cases h

theorem not_recurs_of_expansion (h : r.expansion d m.1 m.2 = .ok o) : ¬r.Recurs m := by
  induction d using Nat.strongRecOn generalizing o with
  | ind d ih =>
    intro cycle
    obtain ⟨c, p, hc, hp⟩ := exists_of_transGen h cycle
    exact ih c hc hp cycle

theorem resolve_eq_ok_iff :
    (∃ o, r.resolve t = .ok o) ↔ ¬r.Loops t ∧ ∀ m, r.Meets t m → r.contains m.1 m.2 = true := by
  constructor
  · rintro ⟨o, h⟩
    have met {m} (hm : r.Meets t m) : ∃ d p, r.expansion d m.1 m.2 = .ok p := by
      obtain ⟨n, hn, path⟩ := hm
      rw [resolve, resolveWithin_eq] at h
      obtain ⟨p, hp⟩ := DataType.exists_of_expandWith h hn
      rcases Relation.reflTransGen_iff_eq_or_transGen.mp path with rfl | path
      · exact ⟨_, p, hp⟩
      · obtain ⟨c, q, -, hq⟩ := exists_of_transGen hp path
        exact ⟨c, q, hq⟩
    constructor
    · rintro ⟨m, hm, cycle⟩
      obtain ⟨d, p, hp⟩ := met hm
      exact not_recurs_of_expansion hp cycle
    · intro m hm
      obtain ⟨d, p, hp⟩ := met hm
      exact contains_of_expansion hp
  · rintro ⟨hloops, hfound⟩
    cases h : r.resolve t with
    | ok o => exact ⟨o, rfl⟩
    | error e =>
      rcases resolve_eq_error h with hend | ⟨m, hm, hmissing, -⟩
      · exact absurd (endless_of_resolve ⟨e, h, hend⟩).2 hloops
      · have hm' := hfound m hm
        rw [hmissing] at hm'
        cases hm'

end Registry

end CqlWire
