import CqlWire.Proofs.FreshLoad
import CqlWire.Proofs.JsonText
import CqlWire.Proofs.PrintedNames
import CqlWire.Proofs.Sorting
import CqlWire.Proofs.WellFormed

namespace CqlWire

namespace DataType

variable {t u : DataType} {P : Udt → Prop} {Q : DataType → Prop}

theorem Throughout.of_mem_nodes (h : t.Throughout Q) (hu : u ∈ t.nodes) : Q u := by
  induction t using children_induct with
  | h t ih =>
    obtain ⟨here, inside⟩ := throughout_iff.mp h
    rcases mem_nodes hu with rfl | ⟨c, hc, hu⟩
    · exact here
    · exact ih c hc (inside c hc) hu

theorem of_mem_nodes_udts (h : ∀ u ∈ t.udts, P u) {udt : Udt} (hu : udt.type ∈ t.nodes) : P udt :=
  whereUdt_udt.mp ((forall_mem_udts.mp h).of_mem_nodes hu)

theorem sizeOf_lt_of_mem_children (h : u ∈ t.children) : sizeOf u < sizeOf t := by
  cases t with
  | leaf kind => cases h
  | list t | set t | frozen t =>
    cases List.mem_singleton.mp h
    simp
  | map k v =>
    rw [map.sizeOf_spec]
    rcases List.mem_pair.mp h with rfl | rfl <;> omega
  | tuple ts =>
    have member : sizeOf u < sizeOf ts := List.sizeOf_lt_of_mem h
    rw [tuple.sizeOf_spec]
    omega
  | udt keyspace name fields =>
    obtain ⟨⟨field, t⟩, hf, rfl⟩ := List.mem_map.mp h
    have member := List.sizeOf_lt_of_mem hf
    rw [Prod.mk.sizeOf_spec] at member
    rw [udt.sizeOf_spec]
    dsimp only
    omega

theorem sizeOf_le_of_mem_nodes (hu : u ∈ t.nodes) : sizeOf u ≤ sizeOf t := by
  induction t using children_induct with
  | h t ih =>
    rcases mem_nodes hu with rfl | ⟨c, hc, hu⟩
    · exact Nat.le_refl _
    · have inner := ih c hc hu
      have outer := sizeOf_lt_of_mem_children hc
      omega

/-- What a field refers to is smaller than the owner of the field. -/
theorem exists_smaller_of_mention {udt : Udt} {f : String × DataType} {n : QualifiedName}
    (hf : f ∈ udt.fields) (hn : n ∈ f.2.mentions) :
    ∃ v : Udt, v.type ∈ f.2.nodes ∧ v.key = n ∧ sizeOf v.type < sizeOf udt.type := by
  obtain ⟨v, hv, hkey⟩ := exists_udt_of_mem_mentions hn
  have inner := sizeOf_le_of_mem_nodes hv
  have field : f.2 ∈ udt.type.children := List.mem_map_of_mem hf
  have outer := sizeOf_lt_of_mem_children field
  exact ⟨v, hv, hkey, Nat.lt_of_le_of_lt inner outer⟩

/-- The user-defined types of a type whose fields have names of their own have such fields. -/
theorem WellNamed.udts (h : t.WellNamed) : ∀ u ∈ t.udts, u.HasDistinctNames := by
  rw [forall_mem_udts]
  exact Throughout.mono h fun t ht udt heq => ht udt.keyspace udt.name udt.fields heq

end DataType

namespace FieldTypes

theorem declare_of_not_mem {fields : FieldTypes} {name : String} (type : DataType)
    (h : name ∉ fields.map Prod.fst) : declare fields name type = fields ++ [(name, type)] := by
  induction fields with
  | nil => rfl
  | cons f fields ih =>
    rw [List.map_cons, List.mem_cons, not_or] at h
    rw [declare, if_neg fun heq => h.1 heq.symm, ih h.2]
    rfl

/-- Fields with names of their own are declared as they stand. -/
theorem ofList_eq_self {fields : FieldTypes} (h : (fields.map Prod.fst).Nodup) : ofList fields = fields := by
  have declared (fields acc : FieldTypes) (h : ((acc ++ fields).map Prod.fst).Nodup) :
      fields.foldl (fun fields d => declare fields d.1 d.2) acc = acc ++ fields := by
    induction fields generalizing acc with
    | nil => exact (List.append_nil acc).symm
    | cons f fields ih =>
      have hnew : f.1 ∉ acc.map Prod.fst := by
        rw [List.map_append, List.map_cons] at h
        exact fun hm => List.disjoint_of_nodup_append h hm List.mem_cons_self
      rw [List.foldl_cons, declare_of_not_mem f.2 hnew, ih]
      · simp
      · simpa using h
  exact declared fields [] h

end FieldTypes

/-- A type that its own definition gives has the field types that their names are read as. -/
theorem Definition.parse_of_resolve_self {s : Registry} {udt : Udt} (hn : udt.HasDistinctNames)
    (h : udt.definition.resolve s = .ok udt) :
    ∀ f ∈ udt.fields, DataType.parse s udt.keyspace f.2.name = .ok f.2 := by
  obtain ⟨fields, hfields, heq⟩ := bind_eq_ok.mp h
  have read : List.Forall₂ (fun f g => f.1 = g.1 ∧ DataType.parse s udt.keyspace f.2.name = .ok g.2)
      udt.fields fields := by
    refine (List.forall₂_map_left_iff.mp (mapM_eq_ok.mp hfields)).imp fun f g hfg => ?_
    obtain ⟨t, ht, hg⟩ := bind_eq_ok.mp hfg
    cases hg
    exact ⟨rfl, ht⟩
  have names : udt.fields.map Prod.fst = fields.map Prod.fst :=
    List.forall₂_eq_eq_eq ▸ List.forall₂_map_left_iff.mpr
      (List.forall₂_map_right_iff.mpr (read.imp fun _ _ hfg => hfg.1))
  have declared : FieldTypes.ofList fields = fields := FieldTypes.ofList_eq_self (names ▸ hn)
  have own : fields = udt.fields := declared.symm.trans (congrArg Udt.fields (pure_eq_ok.mp heq))
  rw [own] at read
  exact fun f hf => (List.forall₂_same.mp read f hf).2

namespace Registry

variable {r s : Registry} {ts : List DataType} {d e : Definition} {udt : Udt} {n : QualifiedName}

/-- No two types on record have one keyspace and name. -/
def HasDistinctKeys (r : Registry) : Prop :=
  (r.entries.map Udt.key).Nodup

theorem HasDistinctKeys.insert (h : r.HasDistinctKeys) (udt : Udt) :
    (r.insert udt).HasDistinctKeys := by
  refine List.nodup_cons.mpr ⟨?_, List.Nodup.sublist (List.filter_sublist.map _) h⟩
  intro hm
  obtain ⟨v, hv, hkey⟩ := List.mem_map.mp hm
  have apart := (List.mem_filter.mp hv).2
  have named : isNamed udt.keyspace udt.name v = true := isNamed_iff.mpr (Prod.ext_iff.mp hkey)
  rw [named] at apart
  cases apart

/-- The registry that is empty at first and gets all types in the given ones. -/
def ofTypes (ts : List DataType) : Registry :=
  ts.foldl insertAll empty

theorem foldl_induct {α : Type} {P : Registry → Prop} {put : Registry → α → Registry} {l : List α}
    (h : P r) (hput : ∀ s, ∀ a ∈ l, P s → P (put s a)) : P (l.foldl put r) := by
  induction l generalizing r with
  | nil => exact h
  | cons a l ih =>
    exact ih (hput r a List.mem_cons_self h) fun s b hb => hput s b (List.mem_cons_of_mem a hb)

theorem ofTypes_induct {P : Registry → Prop} (h : P empty)
    (hinsert : ∀ s, ∀ t ∈ ts, ∀ u ∈ t.udts, P s → P (s.insert u)) : P (ofTypes ts) :=
  foldl_induct h fun _ t ht hs => foldl_induct hs fun s u hu => hinsert s t ht u hu

theorem hasDistinctKeys_ofTypes (ts : List DataType) : (ofTypes ts).HasDistinctKeys :=
  ofTypes_induct List.nodup_nil fun _ _ _ u _ h => h.insert u

theorem wellFormed_ofTypes (h : ∀ t ∈ ts, t.WellNamed) : (ofTypes ts).WellFormed :=
  ofTypes_induct wellFormed_empty fun _ t ht u hu hs => hs.insert ((h t ht).udts u hu)

theorem mem_of_lookup {keyspace name : String} (h : r.lookup keyspace name = .ok udt) :
    udt ∈ r.entries :=
  List.mem_of_find?_eq_some (lookup_eq_ok.mp h)

theorem lookup_of_mem (h : r.HasDistinctKeys) (hu : udt ∈ r.entries) :
    r.lookup udt.keyspace udt.name = .ok udt := by
  have named : isNamed udt.keyspace udt.name udt = true := isNamed_iff.mpr ⟨rfl, rfl⟩
  obtain ⟨v, hv⟩ : ∃ v, r.get? udt.keyspace udt.name = some v :=
    Option.isSome_iff_exists.mp (List.find?_isSome.mpr ⟨udt, hu, named⟩)
  have hkey : v.key = udt.key := Prod.ext_iff.mpr (isNamed_iff.mp (List.find?_some hv))
  rw [List.inj_on_of_nodup_map h (List.mem_of_find?_eq_some hv) hu hkey] at hv
  exact lookup_eq_ok.mpr hv

theorem mem_definitions : d ∈ r.definitions ↔ ∃ udt ∈ r.entries, udt.definition = d := by
  rw [definitions, mem_sortBy, List.mem_map]

theorem keys_definitions (r : Registry) :
    (r.definitions.map Definition.key).Perm (r.entries.map Udt.key) := by
  have sorted := (sortBy_perm Definition.order (r.entries.map Udt.definition)).map Definition.key
  rwa [List.map_map] at sorted

theorem fresh_definitions (h : r.HasDistinctKeys) : empty.Fresh r.definitions :=
  ⟨r.keys_definitions.symm.nodup h, fun _ _ => rfl⟩

/-- Every type inside one on record is on record itself. -/
def Consistent (r : Registry) : Prop :=
  ∀ udt ∈ r.entries, ∀ u ∈ udt.type.udts, r.lookup u.keyspace u.name = .ok u

/-- Fields refer to types of the keyspace of their owner only, and by names that no other type
has. -/
def Local (r : Registry) : Prop :=
  ∀ udt ∈ r.entries, ∀ f ∈ udt.fields, f.2.Unreserved ∧ ∀ n ∈ f.2.mentions, n.1 = udt.keyspace

/-- The parser can give the type of every field. -/
def Expressible (r : Registry) : Prop :=
  ∀ udt ∈ r.entries, ∀ f ∈ udt.fields, f.2.Expressible nestingLimit

/-- What is on record can be loaded again from its definitions. -/
def Reloads (r : Registry) : Prop :=
  (empty.load r.definitions).2 = .ok r.definitions.length ∧
    ∀ keyspace name, (empty.load r.definitions).1.get? keyspace name = r.get? keyspace name

section Reload

variable (hkeys : r.HasDistinctKeys) (hnames : r.WellFormed) (hc : r.Consistent)

include hc in
theorem lookup_of_field {f : String × DataType} (hu : udt ∈ r.entries) (hf : f ∈ udt.fields) {v : Udt}
    (hv : v.type ∈ f.2.nodes) : r.lookup v.keyspace v.name = .ok v :=
  DataType.of_mem_nodes_udts ((DataType.forall_mem_udts_type.mp (hc udt hu)).2 f hf) hv

include hc in
theorem parse_field {f : String × DataType} (hl : r.Local) (he : r.Expressible) (hu : udt ∈ r.entries)
    (hf : f ∈ udt.fields) : DataType.parse r udt.keyspace f.2.name = .ok f.2 := by
  obtain ⟨unreserved, home⟩ := hl udt hu f hf
  obtain ⟨nesting, nodes⟩ := he udt hu f hf
  have recorded := DataType.expandWith_types_self (fun v hv => lookup_of_field hc hu hf hv)
    fun u hu => (nodes u hu).2
  exact DataType.parse_name_eq_ok nesting (fun u hu => (nodes u hu).1) unreserved home recorded

include hnames hc in
theorem resolve_definition (hl : r.Local) (he : r.Expressible) (hu : udt ∈ r.entries) :
    udt.definition.resolve r = .ok udt := by
  have fields : (udt.definition.fields.mapM fun f => do
      return (f.1, ← DataType.parse r udt.keyspace f.2)) = .ok udt.fields := by
    refine mapM_eq_ok.mpr (List.forall₂_map_left_iff.mpr (List.forall₂_same.mpr fun f hf => ?_))
    exact bind_eq_ok.mpr ⟨f.2, parse_field hc hl he hu hf, rfl⟩
  refine bind_eq_ok.mpr ⟨udt.fields, fields, ?_⟩
  rw [FieldTypes.ofList_eq_self (hnames udt hu)]
  rfl

include hkeys hnames hc in
theorem records_definitions (hl : r.Local) (he : r.Expressible) : empty.Records r.definitions r := by
  constructor
  · intro d hd
    obtain ⟨udt, hu, rfl⟩ := mem_definitions.mp hd
    exact ⟨udt, lookup_of_mem hkeys hu, resolve_definition hnames hc hl he hu⟩
  · intro n hn
    have absent : n ∉ r.entries.map Udt.key := fun hm => hn (r.keys_definitions.mem_iff.mpr hm)
    rw [get?_empty]
    cases hg : r.get? n.1 n.2 with
    | none => rfl
    | some udt =>
      have hkey : udt.key = n := Prod.ext_iff.mpr (isNamed_iff.mp (List.find?_some hg))
      have hm : udt.key ∈ r.entries.map Udt.key := List.mem_map_of_mem (List.mem_of_find?_eq_some hg)
      rw [hkey] at hm
      exact absurd hm absent

include hc in
/-- A definition refers to parts of the type that it stands for. -/
theorem exists_smaller_of_refers (hl : r.Local) (he : r.Expressible) (hu : udt ∈ r.entries)
    (h : udt.definition.Refers r n) :
    ∃ v ∈ r.entries, v.key = n ∧ sizeOf v.type < sizeOf udt.type := by
  obtain ⟨g, hg, t, ht, hm⟩ := h
  obtain ⟨f, hf, rfl⟩ := List.mem_map.mp hg
  cases ht.symm.trans (parse_field hc hl he hu hf)
  obtain ⟨v, hv, hkey, hlt⟩ := DataType.exists_smaller_of_mention hf hm
  exact ⟨v, mem_of_lookup (lookup_of_field hc hu hf hv), hkey, hlt⟩

include hkeys hnames hc in
theorem loadable_definitions (hl : r.Local) (he : r.Expressible) : empty.Loadable r.definitions := by
  have announced (n : QualifiedName) (hn : r.contains n.1 n.2 = true) :
      (empty.announce r.definitions).contains n.1 n.2 = true := by
    obtain ⟨udt, hu⟩ := contains_iff.mp hn
    have hkey : udt.key = n := Prod.ext_iff.mpr (names_of_lookup hu)
    rw [contains_announce, r.keys_definitions.mem_iff, ← hkey]
    exact .inl (List.mem_map_of_mem (mem_of_lookup hu))
  have same {udt : Udt} (hu : udt ∈ r.entries) :=
    Definition.refers_congr (Definition.parses_of_resolve (resolve_definition hnames hc hl he hu))
      fun n hn => announced n (Definition.contains_of_refers hn)
  have smaller {udt v : Udt} (hu : udt ∈ r.entries) (hv : v ∈ r.entries)
      (h : empty.Needs r.definitions udt.definition v.definition) :
      sizeOf v.type < sizeOf udt.type := by
    obtain ⟨w, hw, hkey, hlt⟩ := exists_smaller_of_refers hc hl he hu (((same hu).2 _).mp h.2)
    rwa [List.inj_on_of_nodup_map hkeys hw hv hkey] at hlt
  constructor
  · intro d hd
    obtain ⟨udt, hu, rfl⟩ := mem_definitions.mp hd
    exact (same hu).1
  · intro d hd cycle
    obtain ⟨udt, hu, rfl⟩ := mem_definitions.mp hd
    -- Along a path of references the types get smaller, so that none leads back.
    have falls {e : Definition} (path : Relation.TransGen (empty.Needs r.definitions) udt.definition e) :
        ∃ v ∈ r.entries, v.definition = e ∧ sizeOf v.type < sizeOf udt.type := by
      induction path with
      | single step =>
        obtain ⟨v, hv, rfl⟩ := mem_definitions.mp step.1
        exact ⟨v, hv, rfl, smaller hu hv step⟩
      | tail _ step ih =>
        obtain ⟨v, hv, rfl, hlt⟩ := ih
        obtain ⟨w, hw, rfl⟩ := mem_definitions.mp step.1
        exact ⟨w, hw, rfl, Nat.lt_trans (smaller hv hw step) hlt⟩
    obtain ⟨v, hv, hdef, hlt⟩ := falls cycle
    have hkey : v.key = udt.key := congrArg Definition.key hdef
    rw [List.inj_on_of_nodup_map hkeys hv hu hkey] at hlt
    exact Nat.lt_irrefl _ hlt

include hkeys hnames hc in
theorem reloads_of_expressible (hl : r.Local) (he : r.Expressible) : r.Reloads := by
  have ok : (empty.load r.definitions).2 = .ok r.definitions.length :=
    load_of_loadable (loadable_definitions hkeys hnames hc hl he)
  obtain ⟨done, hload, hdone⟩ := exists_loaded ok
  have records := (records_definitions hkeys hnames hc hl he).perm hdone.symm
  have fresh := (fresh_definitions hkeys).perm hdone.symm
  exact ⟨ok, fun keyspace name => (hload.get?_eq_of_records fresh records (keyspace, name)).symm⟩

include hkeys hnames in
/-- What is loaded was read by the parser, from the name of each field type. -/
theorem exists_parse_of_reloads (h : r.Reloads) {f : String × DataType} (hu : udt ∈ r.entries)
    (hf : f ∈ udt.fields) : ∃ s, DataType.parse s udt.keyspace f.2.name = .ok f.2 := by
  -- The loaded type is the one on record.
  have records := records_of_load (fresh_definitions hkeys) h.1
  obtain ⟨v, hv, hresolve⟩ := records.listed _ (mem_definitions.mpr ⟨udt, hu, rfl⟩)
  have same : r.lookup udt.keyspace udt.name = .ok v := by
    rw [lookup_eq_ok, ← h.2, ← lookup_eq_ok]
    exact hv
  rw [lookup_of_mem hkeys hu] at same
  cases same
  exact ⟨_, Definition.parse_of_resolve_self (hnames udt hu) hresolve f hf⟩

include hkeys hnames in
theorem expressible_of_reloads (h : r.Reloads) : r.Expressible := by
  intro udt hu f hf
  obtain ⟨s, hs⟩ := exists_parse_of_reloads hkeys hnames h hu hf
  exact DataType.expressible_of_parse hs

include hkeys hnames in
/-- A name without its keyspace, or one that the quoting rule leaves to the grammar, is read as
another type. -/
theorem local_of_reloads (h : r.Reloads) : r.Local := by
  intro udt hu f hf
  obtain ⟨s, hs⟩ := exists_parse_of_reloads hkeys hnames h hu hf
  obtain ⟨-, nodes⟩ := DataType.expressible_of_parse hs
  have reread := DataType.reread_of_parse (fun u hu => (nodes u hu).1) hs
  have own := DataType.own_names_of_reread (fun u hu => (nodes u hu).2) reread
  exact ⟨fun n hn => (own n hn).2, fun n hn => (own n hn).1⟩

end Reload

theorem ofJson_toJsonText (r : Registry) :
    ofJson r.toJsonText = (empty.load r.definitions).2.map fun _ => (empty.load r.definitions).1 := by
  rw [ofJson, loadJson, toJsonText, Definition.listOfJson_pretty]
  dsimp only
  generalize empty.load r.definitions = outcome
  obtain ⟨s, ok | e⟩ := outcome <;> rfl

theorem ofJson_toJsonText_iff :
    (∃ s, ofJson r.toJsonText = .ok s ∧ ∀ keyspace name,
      s.get? keyspace name = r.get? keyspace name) ↔ r.Reloads := by
  rw [ofJson_toJsonText, Reloads]
  cases h : (empty.load r.definitions).2 with
  | error e => simp [Except.map]
  | ok count =>
    obtain ⟨-, rfl⟩ := load_eq_ok.mp h
    simp [Except.map]

/-- A registry made of types, with each type in them on record, is loaded from its own definitions
exactly if each field refers to types of its own keyspace, by names that no other type has, and the
parser can give its type. The same holds of the JSON text of the definitions. A field is saved with
the bare name of what it refers to, so that across keyspaces, or under a name like `list` or `int`,
the reference is lost. -/
theorem reloads_iff (ts : List DataType) (hts : ∀ t ∈ ts, t.WellNamed) (hc : (ofTypes ts).Consistent) :
    ((ofTypes ts).Reloads ↔ (ofTypes ts).Local ∧ (ofTypes ts).Expressible) ∧
      ((∃ s, ofJson (ofTypes ts).toJsonText = .ok s ∧ ∀ keyspace name,
        s.get? keyspace name = (ofTypes ts).get? keyspace name) ↔
          (ofTypes ts).Local ∧ (ofTypes ts).Expressible) := by
  have hkeys := hasDistinctKeys_ofTypes ts
  have hnames := wellFormed_ofTypes hts
  have reloads : (ofTypes ts).Reloads ↔ (ofTypes ts).Local ∧ (ofTypes ts).Expressible := by
    constructor
    · exact fun h => ⟨local_of_reloads hkeys hnames h, expressible_of_reloads hkeys hnames h⟩
    · exact fun ⟨hl, he⟩ => reloads_of_expressible hkeys hnames hc hl he
  exact ⟨reloads, ofJson_toJsonText_iff.trans reloads⟩

/-- Odd names survive; a reference to another keyspace or to a type named `list` does not. -/
theorem reloads_iff_quoted :
    let inner : Udt := ⟨"ks", "In \"ner\", >", [("x", .list (.frozen (.set (.leaf .int))))]⟩
    let outer : Udt := ⟨"ks", "outer", [("a", .map (.leaf .text) inner.type), ("b", .tuple [inner.type])]⟩
    let odd : List DataType := [.list outer.type, .udt "Other" "" [("c", .leaf .uuid)]]
    let across : List DataType := [.udt "b" "owner" [("x", .udt "a" "inner" [("y", .leaf .int)])]]
    let reserved : List DataType := [.udt "ks" "owner" [("x", .udt "ks" "list" [("y", .leaf .text)])]]
    ((∀ t ∈ odd, t.WellNamed) ∧ (ofTypes odd).Consistent ∧ (ofTypes odd).Reloads) ∧
      ((∀ t ∈ across, t.WellNamed) ∧ (ofTypes across).Consistent ∧ ¬(ofTypes across).Reloads) ∧
      (∀ t ∈ reserved, t.WellNamed) ∧ (ofTypes reserved).Consistent ∧ ¬(ofTypes reserved).Reloads := by
  intro inner outer odd across reserved
  refine ⟨?_, ?_, ?_⟩
  · have named : ∀ t ∈ odd, t.WellNamed := by
      simp [odd, outer, inner, Udt.type, DataType.WellNamed]
    have entries : ofTypes odd = ⟨[⟨"Other", "", [("c", .leaf .uuid)]⟩, outer, inner]⟩ := by decide
    have consistent : (ofTypes odd).Consistent := by
      have parts : outer.type.udts = [inner, outer] ∧ inner.type.udts = [inner] := by decide
      rw [entries, Consistent]
      simp only [List.forall_mem_cons, parts]
      decide
    have home : (ofTypes odd).Local := by
      rw [entries, Local]
      simp only [List.forall_mem_cons, DataType.Unreserved]
      decide
    have expressible : (ofTypes odd).Expressible := by
      rw [entries, Expressible]
      simp only [List.forall_mem_cons, outer, inner]
      refine ⟨⟨⟨by decide, ?_⟩, List.forall_mem_nil _⟩,
        ⟨⟨by decide, ?_⟩, ⟨by decide, ?_⟩, List.forall_mem_nil _⟩,
        ⟨⟨by decide, ?_⟩, List.forall_mem_nil _⟩, List.forall_mem_nil _⟩
      all_goals simp [DataType.nodes, DataType.nodesEach, Udt.type]
    exact ⟨named, consistent, (reloads_iff odd named consistent).1.mpr ⟨home, expressible⟩⟩
  · have named : ∀ t ∈ across, t.WellNamed := by simp [across, DataType.WellNamed]
    have consistent : (ofTypes across).Consistent := by
      simp only [Consistent]
      decide
    refine ⟨named, consistent, fun h => ?_⟩
    obtain ⟨home, -⟩ := (reloads_iff across named consistent).1.mp h
    simp only [Local, DataType.Unreserved] at home
    exact absurd home (by decide)
  · have named : ∀ t ∈ reserved, t.WellNamed := by simp [reserved, DataType.WellNamed]
    have consistent : (ofTypes reserved).Consistent := by
      simp only [Consistent]
      decide
    refine ⟨named, consistent, fun h => ?_⟩
    obtain ⟨home, -⟩ := (reloads_iff reserved named consistent).1.mp h
    simp only [Local, DataType.Unreserved] at home
    exact absurd home (by decide)

end Registry

end CqlWire
