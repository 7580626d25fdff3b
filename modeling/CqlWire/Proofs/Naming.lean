import CqlWire.Proofs.Lookups
import CqlWire.Registry.Definition

namespace CqlWire

namespace DataType

variable {r : Registry} {keyspace : String} {t : DataType}

/-- Every user-defined type in the type is on record. -/
def KnownTo (r : Registry) (t : DataType) : Prop :=
  ∀ n ∈ t.mentions, r.contains n.1 n.2 = true

theorem knownTo_of_expandWith {o : DataType} (h : expandWith r.types t = .ok o) : t.KnownTo r := by
  intro n hn
  obtain ⟨p, hp⟩ := exists_of_expandWith h hn
  obtain ⟨udt, hu, -⟩ := map_eq_ok.mp hp
  exact Registry.contains_iff.mpr ⟨udt, hu⟩

/-- The parser looks names up, so that it knows every type it gives. -/
theorem knownTo_of_parse {input : String} (h : parse r keyspace input = .ok t) : t.KnownTo r :=
  knownTo_of_expandWith (expandWith_types_of_parse h)

end DataType

namespace FieldTypes

variable {fields : FieldTypes} {declarations : List (String × DataType)} {f : String × DataType}

theorem mem_declare {name : String} {type : DataType} (h : f ∈ declare fields name type) :
    f ∈ fields ∨ f.2 = type := by
  induction fields with
  | nil =>
    cases List.mem_singleton.mp h
    exact .inr rfl
  | cons g fields ih =>
    obtain ⟨other, t⟩ := g
    unfold declare at h
    split at h
    · rcases List.mem_cons.mp h with rfl | h
      · exact .inr rfl
      · exact .inl (List.mem_cons_of_mem _ h)
    · rcases List.mem_cons.mp h with rfl | h
      · exact .inl (List.mem_cons_self ..)
      · exact (ih h).imp_left (List.mem_cons_of_mem _)

theorem exists_mem_of_mem_ofList (h : f ∈ ofList declarations) : ∃ g ∈ declarations, g.2 = f.2 := by
  have declared (declarations : List (String × DataType)) (acc : FieldTypes)
      (h : f ∈ declarations.foldl (fun fields d => declare fields d.1 d.2) acc) :
      f ∈ acc ∨ ∃ g ∈ declarations, g.2 = f.2 := by
    induction declarations generalizing acc with
    | nil => exact .inl h
    | cons d declarations ih =>
      rcases ih _ h with h | ⟨g, hg, hgf⟩
      · exact (mem_declare h).imp_right fun hd => ⟨d, by simp, hd.symm⟩
      · exact .inr ⟨g, List.mem_cons_of_mem d hg, hgf⟩
  exact (declared declarations [] h).resolve_left nofun

end FieldTypes

namespace Definition

variable {r : Registry} {d : Definition} {udt : Udt}

/-- The name under which the type is put on record. -/
def key (d : Definition) : QualifiedName :=
  (d.keyspace, d.name)

theorem key_of_resolve (h : d.resolve r = .ok udt) : udt.key = d.key := by
  obtain ⟨fields, -, h⟩ := bind_eq_ok.mp h
  cases pure_eq_ok.mp h
  rfl

/-- Each field has a type that the definition names. -/
theorem exists_parse_of_resolve (h : d.resolve r = .ok udt) {f : String × DataType}
    (hf : f ∈ udt.fields) : ∃ g ∈ d.fields, DataType.parse r d.keyspace g.2 = .ok f.2 := by
  obtain ⟨fields, hfields, h⟩ := bind_eq_ok.mp h
  cases pure_eq_ok.mp h
  obtain ⟨g, hg, hgf⟩ := FieldTypes.exists_mem_of_mem_ofList hf
  obtain ⟨x, hx, hxg⟩ := (mapM_eq_ok.mp hfields).exists_mem_left hg
  obtain ⟨t, ht, hxg⟩ := bind_eq_ok.mp hxg
  cases pure_eq_ok.mp hxg
  rw [← hgf]
  exact ⟨x, hx, ht⟩

end Definition

end CqlWire
