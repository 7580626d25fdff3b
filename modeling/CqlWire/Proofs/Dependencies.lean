import CqlWire.Proofs.Reload
import CqlWire.Table.Statement
import Mathlib.Logic.Relation

namespace CqlWire

namespace DataType

/-- The second type stands in the first one: it is that type or stands in one directly inside it. -/
def Contains (t u : DataType) : Prop :=
  Relation.ReflTransGen (fun t u => u ∈ t.children) t u

variable {P : DataType → Prop} {t : DataType} {ts : List DataType} {fields : FieldTypes} {u : Udt}
  {n : QualifiedName}

theorem throughout_iff_forall_contains : t.Throughout P ↔ ∀ u, t.Contains u → P u := by
  constructor
  · intro h u path
    induction path using Relation.ReflTransGen.head_induction_on with
    | refl => exact (throughout_iff.mp h).1
    | head step _ ih => exact ih ((throughout_iff.mp h).2 _ step)
  · intro h
    induction t using children_induct with
    | h t ih =>
      exact throughout_iff.mpr ⟨h t .refl, fun c hc => ih c hc fun u path => h u (.head hc path)⟩

theorem mem_udts_iff : u ∈ t.udts ↔ t.Contains u.type := by
  constructor
  · have inside : ∀ u ∈ t.udts, t.Contains u.type := by
      rw [forall_mem_udts, throughout_iff_forall_contains]
      rintro w path udt rfl
      exact path
    exact inside u
  · intro path
    have collected : t.Throughout (WhereUdt (· ∈ t.udts)) := forall_mem_udts.mp fun _ h => h
    exact throughout_iff_forall_contains.mp collected _ path u rfl

theorem exists_contains_of_mem_mentions (h : n ∈ t.mentions) :
    ∃ v : Udt, v.key = n ∧ t.Contains v.type := by
  obtain ⟨v, hv, hkey⟩ := exists_udt_of_mem_mentions h
  exact ⟨v, hkey, mem_udts_iff.mp (of_mem_nodes_udts (fun _ h => h) hv)⟩

end DataType

/-- The tokens of declared fields: for each its name and its type. -/
def FieldTypes.declarations (fields : FieldTypes) : List Token :=
  Token.listed (fields.map fun f => .ofIdentifier f.1 :: f.2.tokens)

/-- The statement that creates a type names it and declares its fields. -/
theorem Udt.spelled_createStatement (u : Udt) :
    ∃ body : String, Spelled (FieldTypes.declarations u.fields) body.toList ∧
      u.createStatement = "CREATE TYPE " ++ Quoted.identifier u.keyspace ++ "." ++
        Quoted.identifier u.name ++ " (" ++ body ++ ");" := by
  refine ⟨_, .listed ?_, rfl⟩
  refine List.forall₂_map_left_iff.mpr (List.forall₂_map_right_iff.mpr (List.forall₂_same.mpr ?_))
  intro f _
  have blank : ∀ c ∈ [' '], isBlank c = true := List.forall_mem_singleton.mpr rfl
  have declared := (Spelled.single (Token.spelling_identifier f.1)).append
    ((DataType.spelled_tokens f.2).blanks_append blank)
  simpa using declared

/-- The second type stands in a field of the first one. -/
def Udt.Needs (u v : Udt) : Prop :=
  ∃ f ∈ u.fields, f.2.Contains v.type

/-- No type stands in the list twice, and each stands behind all that it needs. -/
structure DependencyOrder (us : List Udt) : Prop where
  nodup : us.Nodup
  behind : ∀ before u after, us = before ++ u :: after → ∀ v, u.Needs v → v ∈ before

namespace DependencyOrder

variable {us : List Udt} {u v : Udt} {i : Nat}

theorem nil : DependencyOrder [] :=
  ⟨List.nodup_nil, fun before _ _ h => by cases before <;> cases h⟩

theorem append (h : DependencyOrder us) (hnew : u ∉ us) (hneeds : ∀ v, u.Needs v → v ∈ us) :
    DependencyOrder (us ++ [u]) := by
  constructor
  · refine List.nodup_append.mpr ⟨h.nodup, by simp, ?_⟩
    rintro a ha b hb rfl
    exact hnew (List.mem_singleton.mp hb ▸ ha)
  · intro before w after heq v hv
    -- The new type stands last, so that it is behind all others.
    rcases List.eq_nil_or_concat after with rfl | ⟨rest, last, rfl⟩
    · obtain ⟨rfl, hw⟩ := List.append_inj' heq rfl
      cases hw
      exact hneeds v hv
    · rw [List.concat_eq_append, ← List.cons_append, ← List.append_assoc] at heq
      exact h.behind before w rest (List.append_inj' heq rfl).1 v hv

/-- What a type needs has an earlier place in the list. -/
theorem exists_lt (h : DependencyOrder us) (hu : us[i]? = some u) (hv : u.Needs v) :
    ∃ j < i, us[j]? = some v := by
  obtain ⟨hi, rfl⟩ := List.getElem?_eq_some_iff.mp hu
  have split : us = us.take i ++ us[i] :: us.drop (i + 1) := by
    rw [List.getElem_cons_drop, List.take_append_drop]
  obtain ⟨j, hj⟩ := List.mem_iff_getElem?.mp (h.behind _ _ _ split v hv)
  rw [List.getElem?_take] at hj
  split at hj
  next hlt => exact ⟨j, hlt, hj⟩
  next => cases hj

end DependencyOrder

namespace DataType

variable {found us vs : List Udt} {ts : List DataType} {fields : FieldTypes} {u : Udt}

theorem dependencyOrder_collectUdtsEach
    (h : ∀ t ∈ ts, ∀ found, DependencyOrder found → DependencyOrder (collectUdts found t))
    (hf : DependencyOrder found) : DependencyOrder (collectUdtsEach found ts) := by
  induction ts generalizing found with
  | nil => exact hf
  | cons t ts ih =>
    obtain ⟨first, others⟩ := List.forall_mem_cons.mp h
    exact ih others (first found hf)

theorem dependencyOrder_collectUdtsFields
    (h : ∀ f ∈ fields, ∀ found, DependencyOrder found → DependencyOrder (collectUdts found f.2))
    (hf : DependencyOrder found) : DependencyOrder (collectUdtsFields found fields) := by
  induction fields generalizing found with
  | nil => exact hf
  | cons f fields ih =>
    obtain ⟨first, others⟩ := List.forall_mem_cons.mp h
    exact ih others (first found hf)

/-- All that a type needs is collected with its fields. -/
theorem mem_collectUdtsFields {f : String × DataType} (hf : f ∈ fields)
    (hu : f.2.Contains u.type) : u ∈ collectUdtsFields found fields := by
  have collected : ∀ f ∈ fields, f.2.Throughout (WhereUdt (· ∈ collectUdtsFields found fields)) :=
    ((forall_mem_collectUdtsFields fun f _ found => forall_mem_collectUdts f.2 found).mp
      fun _ h => h).2
  exact throughout_iff_forall_contains.mp (collected f hf) _ hu u rfl

theorem dependencyOrder_collectUdts (t : DataType) (hf : DependencyOrder found) :
    DependencyOrder (collectUdts found t) := by
  induction t generalizing found with
  | leaf kind => exact hf
  | list t ih | set t ih | frozen t ih => exact ih hf
  | map k v ihk ihv => exact ihv (ihk hf)
  | tuple ts ih => exact dependencyOrder_collectUdtsEach (fun t ht found => ih t ht) hf
  | udt keyspace name fields ih =>
    have inside := dependencyOrder_collectUdtsFields (fun f hm found => ih f hm) hf
    rw [collectUdts]
    -- A type that is there already was put there behind what it needs.
    split
    next => exact inside
    next hnew =>
      refine inside.append (fun hm => hnew (List.contains_iff_mem.mpr hm)) ?_
      rintro v ⟨f, hm, hv⟩
      exact mem_collectUdtsFields hm hv

theorem dependencyOrder_udts (t : DataType) : DependencyOrder t.udts :=
  dependencyOrder_collectUdts t .nil

/-- Puts a type behind the others, unless it is among them. -/
def addNew (found : List Udt) (u : Udt) : List Udt :=
  if found.contains u then found else found ++ [u]

theorem mem_addNew_iff {v : Udt} : v ∈ addNew found u ↔ v ∈ found ∨ v = u := by
  unfold addNew
  split
  next h =>
    refine ⟨.inl, ?_⟩
    rintro (hv | rfl)
    · exact hv
    · exact List.contains_iff_mem.mp h
  next => rw [List.mem_append, List.mem_singleton]

theorem mem_foldl_addNew {v : Udt} : v ∈ us.foldl addNew found ↔ v ∈ found ∨ v ∈ us := by
  induction us generalizing found with
  | nil => simp
  | cons u us ih => rw [List.foldl_cons, ih, mem_addNew_iff, List.mem_cons, or_assoc]

theorem foldl_addNew_addNew :
    (addNew us u).foldl addNew found = addNew (us.foldl addNew found) u := by
  rw [addNew.eq_1 us]
  split
  next h =>
    have there : u ∈ us.foldl addNew found := mem_foldl_addNew.mpr (.inr (List.contains_iff_mem.mp h))
    rw [addNew, if_pos (List.contains_iff_mem.mpr there)]
  next => rw [List.foldl_append, List.foldl_cons, List.foldl_nil]

theorem foldl_addNew_foldl :
    (vs.foldl addNew us).foldl addNew found = vs.foldl addNew (us.foldl addNew found) := by
  induction vs generalizing us with
  | nil => rfl
  | cons v vs ih => rw [List.foldl_cons, ih, foldl_addNew_addNew, List.foldl_cons]

theorem collectUdtsEach_eq_foldl
    (h : ∀ t ∈ ts, ∀ found, collectUdts found t = t.udts.foldl addNew found) :
    collectUdtsEach found ts = ts.foldl (fun found t => t.udts.foldl addNew found) found := by
  induction ts generalizing found with
  | nil => rfl
  | cons t ts ih =>
    obtain ⟨first, others⟩ := List.forall_mem_cons.mp h
    rw [collectUdtsEach, ih others, first, List.foldl_cons]

theorem foldl_addNew_collectUdtsEach (us found : List Udt)
    (h : ∀ t ∈ ts, ∀ found, collectUdts found t = t.udts.foldl addNew found) :
    (collectUdtsEach us ts).foldl addNew found = collectUdtsEach (us.foldl addNew found) ts := by
  induction ts generalizing us with
  | nil => rfl
  | cons t ts ih =>
    obtain ⟨first, others⟩ := List.forall_mem_cons.mp h
    rw [collectUdtsEach, ih _ others, first, foldl_addNew_foldl, ← first, collectUdtsEach]

theorem foldl_addNew_collectUdtsFields (us found : List Udt)
    (h : ∀ f ∈ fields, ∀ found, collectUdts found f.2 = f.2.udts.foldl addNew found) :
    (collectUdtsFields us fields).foldl addNew found =
      collectUdtsFields (us.foldl addNew found) fields := by
  induction fields generalizing us with
  | nil => rfl
  | cons f fields ih =>
    obtain ⟨first, others⟩ := List.forall_mem_cons.mp h
    rw [collectUdtsFields, ih _ others, first, foldl_addNew_foldl, ← first, collectUdtsFields]

/-- To collect a type behind others is to collect it alone and to put what is new behind them. -/
theorem collectUdts_eq_foldl (t : DataType) (found : List Udt) :
    collectUdts found t = t.udts.foldl addNew found := by
  induction t generalizing found with
  | leaf kind => rfl
  | list t ih | set t ih | frozen t ih => exact ih found
  | map k v ihk ihv =>
    calc collectUdts (collectUdts found k) v
      _ = v.udts.foldl addNew (k.udts.foldl addNew found) := by rw [ihv, ihk]
      _ = (v.udts.foldl addNew k.udts).foldl addNew found := foldl_addNew_foldl.symm
      _ = (udts (.map k v)).foldl addNew found := by rw [← ihv k.udts]; rfl
  | tuple ts ih => exact (foldl_addNew_collectUdtsEach [] found ih).symm
  | udt keyspace name fields ih =>
    have inside := foldl_addNew_collectUdtsFields [] found ih
    calc collectUdts found (.udt keyspace name fields)
      _ = addNew (collectUdtsFields found fields) ⟨keyspace, name, fields⟩ := rfl
      _ = addNew ((collectUdtsFields [] fields).foldl addNew found) ⟨keyspace, name, fields⟩ := by
        rw [inside]; rfl
      _ = _ := foldl_addNew_addNew.symm

end DataType

namespace Table

/-- The types of the columns are collected from one column after the other, each without those that
an earlier column has. -/
theorem udts_eq_foldl (t : Table) :
    t.udts = t.columns.foldl (fun found c => c.type.udts.foldl DataType.addNew found) [] := by
  rw [udts, DataType.collectUdtsEach_eq_foldl fun t _ => t.collectUdts_eq_foldl, types,
    List.foldl_map]

theorem mem_udts_iff {t : Table} {u : Udt} :
    u ∈ t.udts ↔ ∃ c ∈ t.columns, c.type.Contains u.type := by
  have merged (columns : List Column) (found : List Udt) :
      u ∈ columns.foldl (fun found c => c.type.udts.foldl DataType.addNew found) found ↔
        u ∈ found ∨ ∃ c ∈ columns, u ∈ c.type.udts := by
    induction columns generalizing found with
    | nil => simp
    | cons c columns ih =>
      rw [List.foldl_cons, ih, DataType.mem_foldl_addNew, or_assoc, List.exists_mem_cons_iff]
  rw [udts_eq_foldl, merged]
  simp only [List.not_mem_nil, false_or, DataType.mem_udts_iff]

theorem dependencyOrder_udts (t : Table) : DependencyOrder t.udts :=
  DataType.dependencyOrder_collectUdtsEach (fun t _ _ => t.dependencyOrder_collectUdts) .nil

/-- Each statement creates the type of its place, and all types that it names are created by
statements before it. -/
def CreatesInOrder (t : Table) : Prop :=
  ∀ (i : Nat) (u : Udt), t.udts[i]? = some u → t.createTypeStatements[i]? = some u.createStatement ∧
    ∀ f ∈ u.fields, ∀ n ∈ f.2.mentions, ∃ j < i, ∃ v : Udt, v.key = n ∧ u.Needs v ∧
      t.createTypeStatements[j]? = some v.createStatement

theorem createsInOrder (t : Table) : t.CreatesInOrder := by
  have created {i : Nat} {u : Udt} (h : t.udts[i]? = some u) :
      t.createTypeStatements[i]? = some u.createStatement := by
    rw [createTypeStatements, List.getElem?_map, h, Option.map_some]
  intro i u hu
  refine ⟨created hu, fun f hf n hn => ?_⟩
  obtain ⟨v, hkey, hv⟩ := DataType.exists_contains_of_mem_mentions hn
  have needs : u.Needs v := ⟨f, hf, hv⟩
  obtain ⟨j, hlt, hj⟩ := t.dependencyOrder_udts.exists_lt hu needs
  exact ⟨j, hlt, v, hkey, needs, created hj⟩

/-- A user-defined name in the text of a statement is that of a type which an earlier one creates. -/
theorem exists_created_of_named (t : Table) {i : Nat} {u : Udt} (hu : t.udts[i]? = some u)
    {f : String × DataType} (hf : f ∈ u.fields) {w : Scan.Word} (hw : w.Own)
    (h : .word w ∈ f.2.tokens) :
    ∃ j < i, ∃ v : Udt, Token.ofIdentifier v.name = .word w ∧
      t.createTypeStatements[j]? = some v.createStatement := by
  obtain ⟨n, hn, heq⟩ := (DataType.word_mem_tokens_iff hw).mp h
  obtain ⟨j, hlt, v, rfl, -, hj⟩ := (t.createsInOrder i u hu).2 f hf n hn
  exact ⟨j, hlt, v, heq, hj⟩

end Table

/-- The types listed for a type or a table are those that stand in it, once each and behind what
they need. -/
theorem udts_in_dependency_order (t : DataType) (table : Table) :
    ((∀ u, u ∈ t.udts ↔ t.Contains u.type) ∧ DependencyOrder t.udts) ∧
      (∀ u, u ∈ table.udts ↔ ∃ c ∈ table.columns, c.type.Contains u.type) ∧
      DependencyOrder table.udts ∧ table.CreatesInOrder :=
  ⟨⟨fun _ => DataType.mem_udts_iff, t.dependencyOrder_udts⟩, fun _ => Table.mem_udts_iff,
    table.dependencyOrder_udts, table.createsInOrder⟩

end CqlWire
