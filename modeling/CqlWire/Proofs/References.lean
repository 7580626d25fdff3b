import CqlWire.Proofs.Naming

namespace CqlWire

theorem Registry.keepsNames_types (r : Registry) : DataType.KeepsNames r.types := by
  intro keyspace name o h
  obtain ⟨udt, hu, rfl⟩ := map_eq_ok.mp h
  obtain ⟨rfl, rfl⟩ := names_of_lookup hu
  exact ⟨udt.fields, rfl⟩

namespace DataType

variable {known r s : Registry} {keyspace input : String} {t o : DataType} {e : Error}

theorem mentions_freeze (t : DataType) : t.freeze.mentions = t.mentions := by
  cases t <;> rfl

theorem mentionsEach_congr {ts us : List DataType}
    (h : List.Forall₂ (fun t u => u.mentions = t.mentions) ts us) :
    mentionsEach us = mentionsEach ts := by
  induction h with
  | nil => rfl
  | cons first _ ih => rw [mentionsEach, mentionsEach, first, ih]

/-- An expansion leaves the names in a type as they are. -/
theorem KeepsNames.mentions_eq {expand : Expansion} (h : KeepsNames expand)
    (ho : expandWith expand t = .ok o) : o.mentions = t.mentions := by
  induction t generalizing o with
  | leaf kind =>
    cases pure_eq_ok.mp ho
    rfl
  | list t ih | set t ih =>
    obtain ⟨p, hp, ho⟩ := bind_eq_ok.mp ho
    cases pure_eq_ok.mp ho
    rw [mentions, mentions, ih hp]
  | map k v ihk ihv =>
    obtain ⟨p, hp, ho⟩ := bind_eq_ok.mp ho
    obtain ⟨q, hq, ho⟩ := bind_eq_ok.mp ho
    cases pure_eq_ok.mp ho
    exact congrArg₂ (· ++ ·) (ihk hp) (ihv hq)
  | tuple ts ih =>
    obtain ⟨os, hos, ho⟩ := bind_eq_ok.mp ho
    cases pure_eq_ok.mp ho
    rw [mentions, mentions]
    exact mentionsEach_congr ((expandEach_eq_ok.mp hos).imp_mem fun t ht p _ hp => ih t ht hp)
  | udt keyspace name fields =>
    obtain ⟨fields, rfl⟩ := h keyspace name o ho
    rfl
  | frozen t ih =>
    obtain ⟨p, hp, ho⟩ := bind_eq_ok.mp ho
    cases pure_eq_ok.mp ho
    rw [mentions_freeze, mentions, ih hp]

/-- A text that is read where one registry has its names is read with any registry that has them. -/
theorem exists_parse (h : parse r keyspace input = .ok t) (hs : t.KnownTo s) :
    ∃ o, parse s keyspace input = .ok o ∧ o.mentions = t.mentions := by
  rw [parse_follows h s]
  cases ho : expandWith s.types t with
  | ok o => exact ⟨o, rfl, s.keepsNames_types.mentions_eq ho⟩
  | error e =>
    obtain ⟨n, hn, he⟩ := expandWith_eq_error ho
    have missing := Registry.lookup_eq_error (map_eq_error.mp he)
    rw [hs n hn] at missing
    cases missing.1

/-- Otherwise a name in it is not on record. -/
theorem parse_eq_error (h : parse r keyspace input = .ok t) (he : parse s keyspace input = .error e) :
    ∃ n ∈ t.mentions, s.contains n.1 n.2 = false ∧ e = .notRegistered n.1 n.2 := by
  rw [parse_follows h s] at he
  obtain ⟨n, hn, he⟩ := expandWith_eq_error he
  exact ⟨n, hn, Registry.lookup_eq_error (map_eq_error.mp he)⟩

theorem parse_congr (h : parse known keyspace input = .ok t)
    (agree : ∀ n ∈ t.mentions, r.lookup n.1 n.2 = s.lookup n.1 n.2) :
    parse r keyspace input = parse s keyspace input := by
  rw [parse_follows h r, parse_follows h s]
  exact expandWith_congr fun n hn => congrArg (Udt.type <$> ·) (agree n hn)

end DataType

namespace Definition

variable {known r s : Registry} {d : Definition} {udt : Udt} {e : Error} {n : QualifiedName}

/-- The type of every field is read. -/
def Parses (d : Definition) (r : Registry) : Prop :=
  ∀ f ∈ d.fields, ∃ t, DataType.parse r d.keyspace f.2 = .ok t

/-- A name stands in the type of a field. -/
def Refers (d : Definition) (r : Registry) (n : QualifiedName) : Prop :=
  ∃ f ∈ d.fields, ∃ t, DataType.parse r d.keyspace f.2 = .ok t ∧ n ∈ t.mentions

theorem parses_of_resolve (h : d.resolve r = .ok udt) : d.Parses r := by
  obtain ⟨fields, hfields, -⟩ := bind_eq_ok.mp h
  intro f hf
  obtain ⟨g, -, hg⟩ := (mapM_eq_ok.mp hfields).exists_mem_right hf
  obtain ⟨t, ht, -⟩ := bind_eq_ok.mp hg
  exact ⟨t, ht⟩

theorem contains_of_refers (h : d.Refers r n) : r.contains n.1 n.2 = true := by
  obtain ⟨f, -, t, ht, hn⟩ := h
  exact DataType.knownTo_of_parse ht n hn

/-- A definition refers to the same names with any registry that has them. -/
theorem refers_congr (hp : d.Parses r) (hs : ∀ n, d.Refers r n → s.contains n.1 n.2 = true) :
    d.Parses s ∧ ∀ n, d.Refers s n ↔ d.Refers r n := by
  -- The two registries may have other fields for a name, but the text names the same types.
  have read {f : String × String} (hf : f ∈ d.fields) : ∃ t o,
      DataType.parse r d.keyspace f.2 = .ok t ∧ DataType.parse s d.keyspace f.2 = .ok o ∧
        o.mentions = t.mentions := by
    obtain ⟨t, ht⟩ := hp f hf
    obtain ⟨o, ho, hm⟩ := DataType.exists_parse ht fun n hn => hs n ⟨f, hf, t, ht, hn⟩
    exact ⟨t, o, ht, ho, hm⟩
  refine ⟨fun f hf => ?_, fun n => ⟨?_, ?_⟩⟩
  · obtain ⟨t, o, -, ho, -⟩ := read hf
    exact ⟨o, ho⟩
  · rintro ⟨f, hf, p, hpf, hn⟩
    obtain ⟨t, o, ht, ho, hm⟩ := read hf
    cases hpf.symm.trans ho
    exact ⟨f, hf, t, ht, hm ▸ hn⟩
  · rintro ⟨f, hf, p, hpf, hn⟩
    obtain ⟨t, o, ht, ho, hm⟩ := read hf
    cases hpf.symm.trans ht
    exact ⟨f, hf, o, ho, hm ▸ hn⟩

/-- A definition whose field types can be read is refused for want of a type it refers to. -/
theorem resolve_eq_error (hp : d.Parses r) (he : d.resolve s = .error e) :
    ∃ n, d.Refers r n ∧ s.contains n.1 n.2 = false ∧ e = .notRegistered n.1 n.2 := by
  rcases bind_eq_error.mp he with hfields | ⟨fields, -, he⟩
  · obtain ⟨f, hf, hfe⟩ := mapM_eq_error hfields
    rcases bind_eq_error.mp hfe with hparse | ⟨t, -, hfe⟩
    · obtain ⟨t, ht⟩ := hp f hf
      obtain ⟨n, hn, missing⟩ := DataType.parse_eq_error ht hparse
      exact ⟨n, ⟨f, hf, t, ht, hn⟩, missing⟩
    · cases hfe
  · cases he

theorem resolve_congr (hp : d.Parses known)
    (agree : ∀ n, d.Refers known n → r.lookup n.1 n.2 = s.lookup n.1 n.2) :
    d.resolve r = d.resolve s := by
  have fields : (d.fields.mapM fun f => do return (f.1, ← DataType.parse r d.keyspace f.2)) =
      d.fields.mapM fun f => do return (f.1, ← DataType.parse s d.keyspace f.2) := by
    refine mapM_congr fun f hf => ?_
    obtain ⟨t, ht⟩ := hp f hf
    rw [DataType.parse_congr ht fun n hn => agree n ⟨f, hf, t, ht, hn⟩]
  rw [resolve, resolve, fields]

end Definition

end CqlWire
