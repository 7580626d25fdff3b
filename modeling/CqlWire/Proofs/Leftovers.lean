import CqlWire.Proofs.Acceptance
import CqlWire.Proofs.Bridge
import CqlWire.Proofs.Collapse

namespace CqlWire

open Value (encode encodeAs encodeElement)

variable {t : DataType} {s : Shape} {v : Value} {x : EngineValue} {y : DataType × Value}
  {items : List Value} {fields : Fields}

namespace Shape

/-- Whether the engine takes a value of a shape, as far as that does not depend on the values inside
it. -/
def Takes : Shape → Value → Prop
  | leaf kind, v => ∃ x, kind.toEngine v = .ok x
  | list _, v => ∃ items, v = .list items
  | set _, v => ∃ items, v = .set items
  | map _ _, v => ∃ entries, v = .map entries
  | tuple _, v => ∃ items, v = .tuple items
  | udt _, v => ∃ fields, v = .record fields

/-- Whether a value has parts that its shape has no place for: items beyond the positions of a
tuple, or fields that are not declared. -/
def Lacks : Shape → Value → Prop
  | tuple ts, .tuple items => ts.length < items.length
  | udt u, .record fields =>
    ∃ name, Fields.getD fields name ≠ .null ∧ name ∉ u.fields.map Prod.fst
  | _, _ => False

theorem contents_null : s.contents .null = [] := by
  cases s <;> rfl

theorem not_lacks_null : ¬s.Lacks .null := by
  cases s <;> exact id

theorem forall_mem_contents_map {k e : DataType} {entries : List (Value × Value)}
    {P : DataType × Value → Prop} : (∀ y ∈ (map k e).contents (.map entries), P y) ↔
      (∀ v ∈ entries.map Prod.fst, P (k, v)) ∧ ∀ v ∈ entries.map Prod.snd, P (e, v) := by
  simp only [contents, List.forall_mem_flatMap, List.forall_mem_map, ← forall₂_and]
  simp

end Shape

/-- Every item and every field in a value, at any depth, has a place in an engine value: items by
position, fields by name. -/
inductive Value.Placed : Value → EngineValue → Prop
  | leaf {v : Value} {x : EngineValue} (hv : v.IsLeaf) (hx : x.isNull = v.isNull) : Placed v x
  | list {items : List Value} {xs : List EngineValue} (h : List.Forall₂ Placed items xs) :
    Placed (.list items) (.array xs)
  | set {items : List Value} {xs : List EngineValue} (h : List.Forall₂ Placed items xs) :
    Placed (.set items) (.array xs)
  | map {entries : List (Value × Value)} {ys : List (EngineValue × EngineValue)}
    (keys : List.Forall₂ Placed (entries.map Prod.fst) (ys.map Prod.fst))
    (values : List.Forall₂ Placed (entries.map Prod.snd) (ys.map Prod.snd)) :
    Placed (.map entries) (.map ys)
  | tuple {items : List Value} {row : EngineRow}
    (h : List.Forall₂ Placed items ((row.map Prod.snd).take items.length)) :
    Placed (.tuple items) (.row row)
  | record {fields : Fields} {row : EngineRow}
    (names : ∀ name, Fields.getD fields name ≠ .null → name ∈ row.map Prod.fst)
    (h : ∀ g ∈ row, Placed (Fields.getD fields g.1) g.2) : Placed (.record fields) (.row row)

namespace Value

variable {xs : List EngineValue} {entries : List (Value × Value)}
  {ys : List (EngineValue × EngineValue)} {row : EngineRow}

theorem placed_list : (list items).Placed (.array xs) ↔ List.Forall₂ Placed items xs := by
  refine ⟨fun h => ?_, .list⟩
  cases h with
  | leaf hv => cases hv
  | list h => exact h

theorem placed_set : (set items).Placed (.array xs) ↔ List.Forall₂ Placed items xs := by
  refine ⟨fun h => ?_, .set⟩
  cases h with
  | leaf hv => cases hv
  | set h => exact h

theorem placed_map : (map entries).Placed (.map ys) ↔
    List.Forall₂ Placed (entries.map Prod.fst) (ys.map Prod.fst) ∧
      List.Forall₂ Placed (entries.map Prod.snd) (ys.map Prod.snd) := by
  refine ⟨fun h => ?_, fun h => .map h.1 h.2⟩
  cases h with
  | leaf hv => cases hv
  | map keys values => exact ⟨keys, values⟩

theorem placed_tuple : (tuple items).Placed (.row row) ↔
    List.Forall₂ Placed items ((row.map Prod.snd).take items.length) := by
  refine ⟨fun h => ?_, .tuple⟩
  cases h with
  | leaf hv => cases hv
  | tuple h => exact h

theorem placed_record : (record fields).Placed (.row row) ↔
    (∀ name, Fields.getD fields name ≠ .null → name ∈ row.map Prod.fst) ∧
      ∀ g ∈ row, (Fields.getD fields g.1).Placed g.2 := by
  refine ⟨fun h => ?_, fun h => .record h.1 h.2⟩
  cases h with
  | leaf hv => cases hv
  | record names h => exact ⟨names, h⟩

end Value

namespace DataType

/-- A value stands directly inside another one, each with the type that is declared for it. -/
def Holds (x y : DataType × Value) : Prop :=
  y ∈ x.1.shape.contents x.2

/-- Some value inside a value, at any depth, has parts that its declared type has no place for. -/
def HasLeftovers (t : DataType) (v : Value) : Prop :=
  ∃ y, Relation.ReflTransGen Holds (t, v) y ∧ y.1.shape.Lacks y.2

/-- All values inside a value, at any depth, are null or such as the engine takes. -/
def Bridges (t : DataType) (v : Value) : Prop :=
  ∀ y, Relation.ReflTransGen Holds (t, v) y → y.2 ≠ .null → y.1.shape.Takes y.2

theorem hasLeftovers_iff : t.HasLeftovers v ↔
    t.shape.Lacks v ∨ ∃ y ∈ t.shape.contents v, y.1.HasLeftovers y.2 := by
  constructor
  · rintro ⟨y, path, hy⟩
    rcases path.cases_head with rfl | ⟨z, step, path⟩
    · exact .inl hy
    · exact .inr ⟨z, step, y, path, hy⟩
  · rintro (hv | ⟨z, step, y, path, hy⟩)
    · exact ⟨_, .refl, hv⟩
    · exact ⟨y, .head step path, hy⟩

theorem not_hasLeftovers_null : ¬t.HasLeftovers .null := by
  rw [hasLeftovers_iff, Shape.contents_null]
  rintro (h | ⟨y, hy, -⟩)
  · exact Shape.not_lacks_null h
  · cases hy

theorem bridges_null : t.Bridges .null := by
  intro y path hy
  rcases path.cases_head with rfl | ⟨z, step, -⟩
  · exact absurd rfl hy
  · rw [Holds, Shape.contents_null] at step
    cases step

theorem bridges_iff (hv : v ≠ .null) : t.Bridges v ↔
    t.shape.Takes v ∧ ∀ y ∈ t.shape.contents v, y.1.Bridges y.2 := by
  constructor
  · exact fun h => ⟨h _ .refl hv, fun y step z path => h z (.head step path)⟩
  · rintro ⟨here, inside⟩ y path hy
    rcases path.cases_head with rfl | ⟨z, step, path⟩
    · exact here
    · exact inside z step y path hy

/-- Induction over a value along what its type has inside it, where that is not null. -/
theorem declared_induct {motive : DataType → Value → Prop} (null : ∀ t, motive t .null)
    (step : ∀ t v, v ≠ .null → (∀ y ∈ t.shape.contents v, motive y.1 y.2) → motive t v)
    (t : DataType) (v : Value) : motive t v := by
  induction v using Value.contents_induct generalizing t with
  | h v ih =>
    by_cases hv : v = .null
    · exact hv ▸ null t
    · refine step t v hv fun y hy => ?_
      rcases Registry.eq_null_or_mem_contents hy with hnull | ⟨c, hc, hcy⟩
      · exact hnull ▸ null y.1
      · exact hcy ▸ ih c hc y.1

theorem toEngine_shape (t : DataType) (v : Value) : t.shape.toType.toEngine v = t.toEngine v := by
  induction t with
  | frozen t ih => exact ih
  | _ => rfl

/-- The engine takes the items of a tuple when it takes those that have a type. -/
theorem exists_positionsToEngine_iff {n : Nat} {ts : List DataType} :
    (∃ row, positionsToEngine n ts items = .ok row) ↔
      ∀ y ∈ ts.zip items, ∃ x, y.1.toEngine y.2 = .ok x := by
  rw [← exists_map_iff (f := List.map Prod.snd), positionsToEngine_snd, exists_mapM_iff]
  -- Positions without an item are null, which every type takes.
  constructor
  · exact fun h y hy => h y (mem_positions hy)
  · intro h y hy
    rcases eq_null_or_mem_zip hy with hnull | hy
    · rw [hnull]
      exact ⟨.null, toEngine_null y.1⟩
    · exact h y hy

theorem takes_of_toEngine (hv : v ≠ .null) (h : t.toEngine v = .ok x) : t.shape.Takes v := by
  rw [← toEngine_shape] at h
  generalize t.shape = s at h ⊢
  cases s with
  | leaf kind =>
    rw [Shape.toType, toEngine_leaf hv] at h
    exact ⟨x, h⟩
  | list e | set e | map k e | tuple ts | udt u =>
    cases v
    case null => exact absurd rfl hv
    all_goals first | exact ⟨_, rfl⟩ | cases h

/-- The engine takes a value that it takes by its shape if it takes the values inside it. -/
theorem exists_toEngine_iff_of_takes (hv : v ≠ .null) (h : t.shape.Takes v) :
    (∃ x, t.toEngine v = .ok x) ↔ ∀ y ∈ t.shape.contents v, ∃ x, y.1.toEngine y.2 = .ok x := by
  rw [← toEngine_shape]
  generalize t.shape = s at h ⊢
  cases s with
  | leaf kind =>
    rw [Shape.toType, toEngine_leaf hv]
    exact iff_of_true h fun y hy => by cases hy
  | list e | set e =>
    obtain ⟨items, rfl⟩ := h
    simp only [Shape.toType, toEngine, exists_map_iff, exists_mapM_iff, Shape.contents,
      List.forall_mem_map]
  | map k e =>
    obtain ⟨entries, rfl⟩ := h
    simp only [Shape.toType, toEngine, exists_map_iff, exists_mapM_iff, exists_pair_iff,
      Shape.forall_mem_contents_map, List.forall_mem_map, forall₂_and]
  | tuple ts =>
    obtain ⟨items, rfl⟩ := h
    simp only [Shape.toType, toEngine, exists_map_iff, exists_positionsToEngine_iff]
    rfl
  | udt u =>
    obtain ⟨fields, rfl⟩ := h
    simp only [Shape.toType, Udt.type, toEngine, fieldsToEngine_eq_mapM, exists_map_iff,
      exists_mapM_iff, Shape.contents, List.forall_mem_map]

/-- The engine takes a value when all values inside it are such as it takes, whatever else there is
in it. -/
theorem exists_toEngine_iff_bridges : (∃ x, t.toEngine v = .ok x) ↔ t.Bridges v := by
  induction t, v using declared_induct with
  | null t => exact iff_of_true ⟨.null, toEngine_null t⟩ bridges_null
  | step t v hv ih =>
    have parts : (∃ x, t.toEngine v = .ok x) ↔
        t.shape.Takes v ∧ ∃ x, t.toEngine v = .ok x := by
      refine iff_and_self.mpr ?_
      rintro ⟨x, hx⟩
      exact takes_of_toEngine hv hx
    rw [parts, bridges_iff hv]
    refine and_congr_right fun takes => ?_
    rw [exists_toEngine_iff_of_takes hv takes]
    exact forall₂_congr ih

end DataType

/-- What the engine holds for a value of a shape, from what it holds for the values inside it. -/
inductive Shape.Gives : Shape → Value → EngineValue → Prop
  | leaf {kind : Kind} {v : Value} {x : EngineValue} (hv : v.IsLeaf) (hx : x.isNull = v.isNull) :
    Gives (.leaf kind) v x
  | list {e : DataType} {items : List Value} {xs : List EngineValue}
    (h : List.Forall₂ (fun v x => e.toEngine v = .ok x) items xs) :
    Gives (.list e) (.list items) (.array xs)
  | set {e : DataType} {items : List Value} {xs : List EngineValue}
    (h : List.Forall₂ (fun v x => e.toEngine v = .ok x) items xs) :
    Gives (.set e) (.set items) (.array xs)
  | map {k e : DataType} {entries : List (Value × Value)} {ys : List (EngineValue × EngineValue)}
    (keys : List.Forall₂ (fun v x => k.toEngine v = .ok x) (entries.map Prod.fst) (ys.map Prod.fst))
    (values :
      List.Forall₂ (fun v x => e.toEngine v = .ok x) (entries.map Prod.snd) (ys.map Prod.snd)) :
    Gives (.map k e) (.map entries) (.map ys)
  | tuple {ts : List DataType} {items : List Value} {row : EngineRow}
    (h : List.Forall₂ (fun y x => y.1.toEngine y.2 = .ok x) (DataType.positions ts items)
      (row.map Prod.snd)) :
    Gives (.tuple ts) (.tuple items) (.row row)
  | record {u : Udt} {fields : Fields} {row : EngineRow}
    (h : List.Forall₂ (fun f g => f.1 = g.1 ∧ f.2.toEngine (Fields.getD fields f.1) = .ok g.2)
      u.fields row) :
    Gives (.udt u) (.record fields) (.row row)

theorem Kind.toEngine_isLeaf {kind : Kind} (h : kind.toEngine v = .ok x) :
    v.IsLeaf ∧ x.isNull = v.isNull := by
  unfold toEngine at h
  split at h
  case h_12 =>
    obtain ⟨micros, -, rfl⟩ := map_eq_ok.mp h
    exact ⟨trivial, rfl⟩
  all_goals cases h <;> exact ⟨trivial, rfl⟩

namespace DataType

theorem gives_of_toEngine (hv : v ≠ .null) (h : t.toEngine v = .ok x) : t.shape.Gives v x := by
  have takes := takes_of_toEngine hv h
  rw [← toEngine_shape] at h
  generalize t.shape = s at h takes ⊢
  cases s with
  | leaf kind =>
    rw [Shape.toType, toEngine_leaf hv] at h
    obtain ⟨hleaf, hnull⟩ := Kind.toEngine_isLeaf h
    exact .leaf hleaf hnull
  | list e =>
    obtain ⟨items, rfl⟩ := takes
    obtain ⟨xs, hxs, rfl⟩ := map_eq_ok.mp h
    exact .list (mapM_eq_ok.mp hxs)
  | set e =>
    obtain ⟨items, rfl⟩ := takes
    obtain ⟨xs, hxs, rfl⟩ := map_eq_ok.mp h
    exact .set (mapM_eq_ok.mp hxs)
  | map k e =>
    obtain ⟨entries, rfl⟩ := takes
    obtain ⟨ys, hys, rfl⟩ := map_eq_ok.mp h
    have each : List.Forall₂ (fun c y => k.toEngine c.1 = .ok y.1 ∧ e.toEngine c.2 = .ok y.2)
        entries ys := by
      refine (mapM_eq_ok.mp hys).imp fun c y hy => ?_
      obtain ⟨a, ha, hy⟩ := bind_eq_ok.mp hy
      obtain ⟨b, hb, hy⟩ := bind_eq_ok.mp hy
      cases pure_eq_ok.mp hy
      exact ⟨ha, hb⟩
    refine .map ?_ ?_
    · rw [List.forall₂_map_left_iff, List.forall₂_map_right_iff]
      exact each.imp fun _ _ hcy => hcy.1
    · rw [List.forall₂_map_left_iff, List.forall₂_map_right_iff]
      exact each.imp fun _ _ hcy => hcy.2
  | tuple ts =>
    obtain ⟨items, rfl⟩ := takes
    obtain ⟨row, hrow, rfl⟩ := map_eq_ok.mp h
    have values := positionsToEngine_snd 1 ts items
    rw [hrow] at values
    exact .tuple (mapM_eq_ok.mp values.symm)
  | udt u =>
    obtain ⟨fields, rfl⟩ := takes
    obtain ⟨row, hrow, rfl⟩ := map_eq_ok.mp h
    rw [fieldsToEngine_eq_mapM] at hrow
    refine .record ((mapM_eq_ok.mp hrow).imp fun f g hg => ?_)
    obtain ⟨x, hx, rfl⟩ := map_eq_ok.mp hg
    exact ⟨rfl, hx⟩

end DataType

namespace Shape.Gives

open Value (Placed)

theorem forall₂_placed_iff {e : DataType} {xs : List EngineValue}
    (h : List.Forall₂ (fun v x => e.toEngine v = .ok x) items xs)
    (inside : ∀ v ∈ items, ∀ x, e.toEngine v = .ok x → (v.Placed x ↔ ¬e.HasLeftovers v)) :
    List.Forall₂ Placed items xs ↔ ∀ v ∈ items, ¬e.HasLeftovers v :=
  h.iff_forall fun v hv x _ hx => inside v hv x hx

/-- A value that the engine takes has a place for all its parts if its shape has one for them and so
have the values inside it. -/
theorem placed_iff (h : s.Gives v x)
    (inside : ∀ y ∈ s.contents v, ∀ x, y.1.toEngine y.2 = .ok x →
      (y.2.Placed x ↔ ¬y.1.HasLeftovers y.2)) :
    v.Placed x ↔ ¬s.Lacks v ∧ ∀ y ∈ s.contents v, ¬y.1.HasLeftovers y.2 := by
  cases h with
  | @leaf kind _ _ hv hx =>
    have empty : ∀ y, y ∉ (Shape.leaf kind).contents v := fun _ hy => by cases hy
    exact iff_of_true (.leaf hv hx) ⟨id, fun y hy => absurd hy (empty y)⟩
  | @list e items xs h =>
    have each := forall₂_placed_iff h (List.forall_mem_map.mp inside)
    rw [Value.placed_list, each, Shape.contents, List.forall_mem_map]
    exact (and_iff_right id).symm
  | @set e items xs h =>
    have each := forall₂_placed_iff h (List.forall_mem_map.mp inside)
    rw [Value.placed_set, each, Shape.contents, List.forall_mem_map]
    exact (and_iff_right id).symm
  | @map k e entries ys keys values =>
    obtain ⟨insideKeys, insideValues⟩ := Shape.forall_mem_contents_map.mp inside
    have eachKey := forall₂_placed_iff keys insideKeys
    have eachValue := forall₂_placed_iff values insideValues
    rw [Value.placed_map, eachKey, eachValue, Shape.forall_mem_contents_map]
    exact (and_iff_right id).symm
  | @tuple ts items row h =>
    rw [Value.placed_tuple]
    by_cases room : items.length ≤ ts.length
    · have typed := List.forall₂_take items.length h
      rw [DataType.positions_take room] at typed
      have second : (ts.zip items).map Prod.snd = items := List.map_snd_zip room
      have each : List.Forall₂ (fun y x => y.2.Placed x) (ts.zip items)
          ((row.map Prod.snd).take items.length) ↔ ∀ y ∈ ts.zip items, ¬y.1.HasLeftovers y.2 :=
        typed.iff_forall fun y hy x _ hx => inside y hy x hx
      rw [Shape.contents, ← each, ← List.forall₂_map_left_iff (f := Prod.snd), second]
      exact (and_iff_right (Nat.not_lt.mpr room)).symm
    · -- The row has a field for each position and no more.
      refine iff_of_false (fun placed => room ?_) fun fits => fits.1 (Nat.lt_of_not_le room)
      have width := h.length_eq
      have aligned := placed.length_eq
      rw [DataType.length_positions] at width
      rw [List.length_take, ← width] at aligned
      omega
  | @record u fields row h =>
    have names : row.map Prod.fst = u.fields.map Prod.fst :=
      (List.Forall₂.map_eq_map (h.imp fun f g hg => hg.1)).symm
    have each : (∀ g ∈ row, (Fields.getD fields g.1).Placed g.2) ↔
        ∀ f ∈ u.fields, ¬f.2.HasLeftovers (Fields.getD fields f.1) := by
      have placed := List.forall_mem_map.mp inside
      constructor
      · intro all f hf
        obtain ⟨g, hg, hname, hx⟩ := h.exists_mem_right hf
        exact (placed f hf g.2 hx).mp (hname ▸ all g hg)
      · intro all g hg
        obtain ⟨f, hf, hname, hx⟩ := h.exists_mem_left hg
        exact hname ▸ (placed f hf g.2 hx).mpr (all f hf)
    rw [Value.placed_record, each, names, Shape.contents, List.forall_mem_map]
    simp [Shape.Lacks]

end Shape.Gives

namespace Registry

variable {r : Registry} {frozen nested : Bool} {bytes : Bytes}

theorem Mirrors.shape (h : r.Mirrors t) : r.shape t = .ok t.shape := by
  have known := (DataType.throughout_base_iff fun u => nofun).mpr (DataType.forall_mem_udts.mp h)
  rw [← DataType.toType_shape] at known
  unfold Registry.shape
  split
  next declared ht =>
    rw [ht] at known ⊢
    rw [DataType.whereUdt_udt.mp (DataType.throughout_udt.mp known).1]
    rfl
  next => rfl

theorem Mirrors.of_mem_contents (h : r.Mirrors t) (hy : y ∈ t.shape.contents v) :
    r.Mirrors y.1 := by
  have known := (DataType.throughout_base_iff fun u => nofun).mpr (DataType.forall_mem_udts.mp h)
  rw [← DataType.toType_shape] at known
  have child := Shape.type_mem_children_of_mem_contents hy
  exact DataType.forall_mem_udts.mpr ((DataType.throughout_iff.mp known).2 y.1 child)

theorem Forms.not_lacks (h : r.Forms s v) : ¬s.Lacks v := by
  cases s with
  | tuple ts =>
    obtain ⟨items, rfl, room⟩ := h
    exact Nat.not_lt.mpr room
  | udt u =>
    obtain ⟨fields, rfl, known⟩ := h
    rintro ⟨name, hne, hname⟩
    obtain ⟨f, hf, rfl, -⟩ := Fields.exists_mem_of_getD_ne_null hne
    exact hname (known f hf)
  | _ => exact id

/-- What the codec encodes has no leftovers, where the types are on record as they are declared. -/
theorem Mirrors.not_hasLeftovers (h : r.Mirrors t) (hv : v ≠ .null)
    (he : encodeAs r v t frozen = .ok bytes) : ¬t.HasLeftovers v := by
  induction t, v using DataType.declared_induct generalizing frozen bytes with
  | null t => exact absurd rfl hv
  | step t v _ ih =>
    rw [DataType.hasLeftovers_iff]
    cases hl : t.leaf? with
    | some kind =>
      rw [DataType.leaf?_eq_some.mp hl]
      rintro (lacks | ⟨y, hy, -⟩)
      · exact lacks
      · cases hy
    | none =>
      obtain ⟨count, ps, lays⟩ := Value.exists_lays hl he
      obtain ⟨s, hs, forms, parts⟩ := forms_of_lays lays
      -- What is encoded has the shape on record, which is the declared one.
      cases h.shape.symm.trans hs
      rintro (lacks | ⟨y, hy, leftovers⟩)
      · exact forms.not_lacks lacks
      · by_cases hnull : y.2 = .null
        · rw [hnull] at leftovers
          exact DataType.not_hasLeftovers_null leftovers
        · obtain ⟨body, hbody⟩ := (Value.exists_encodeElement_iff hnull).mp (parts y hy)
          exact ih y hy (h.of_mem_contents hy) hnull hbody leftovers

end Registry

namespace DataType

/-- What the engine holds for a value has a place for all its parts if nothing is left over. -/
theorem placed_iff (h : t.toEngine v = .ok x) : v.Placed x ↔ ¬t.HasLeftovers v := by
  induction t, v using declared_induct generalizing x with
  | null t =>
    cases (toEngine_null t).symm.trans h
    exact iff_of_true (.leaf trivial rfl) not_hasLeftovers_null
  | step t v hv ih =>
    rw [hasLeftovers_iff, (gives_of_toEngine hv h).placed_iff fun y hy x hx => ih y hy hx, not_or]
    simp only [not_exists, not_and]

/-- The engine takes a value whenever it takes the leaves inside it and the variants of what holds
them. What its type has no place for is then left out, at any depth and without an error, though the
codec encodes no such value, where the types are on record as they are declared. -/
theorem toEngine_leftovers (t : DataType) (v : Value) :
    ((∃ x, t.toEngine v = .ok x) ↔ t.Bridges v) ∧
    (∀ x, t.toEngine v = .ok x → (v.Placed x ↔ ¬t.HasLeftovers v)) ∧
    ∀ (r : Registry) (nested : Bool) (bytes : Bytes), r.Mirrors t →
      encode r t v nested = .ok bytes → ¬t.HasLeftovers v := by
  refine ⟨exists_toEngine_iff_bridges, fun x h => placed_iff h, fun r nested bytes mirrors he => ?_⟩
  obtain ⟨hv, he⟩ := Value.encode_eq_ok.mp he
  exact mirrors.not_hasLeftovers hv he

/-- A field that is not declared and an item beyond the only position of a tuple. -/
theorem toEngine_leftovers_dropped :
    let p : Udt := ⟨"ks", "p", [("x", .leaf .int), ("y", .tuple [.leaf .int])]⟩
    let r : Registry := ⟨[p]⟩
    let v : Value := .record [("y", .tuple [.int 1, .int 2]), ("z", .text "a")]
    let kept : Value := .record [("y", .tuple [.int 1])]
    let x : EngineValue := .row [("x", .null), ("y", .row [("_1", .int 1)])]
    r.Mirrors p.type ∧ (p.type.toEngine v = .ok x ∧ p.type.Bridges v) ∧
      (p.type.HasLeftovers v ∧ ¬v.Placed x ∧ ∀ nested bytes, encode r p.type v nested ≠ .ok bytes) ∧
      (p.type.toEngine kept = .ok x ∧ ∃ bytes, encode r p.type kept false = .ok bytes) ∧
      ¬p.type.HasLeftovers kept ∧ kept.Placed x := by
  intro p r v kept x
  have mirrors : r.Mirrors p.type := by
    intro u hu
    cases List.mem_singleton.mp hu
    rfl
  have taken : p.type.toEngine v = .ok x := rfl
  have same : p.type.toEngine kept = .ok x := rfl
  obtain ⟨bytes, written⟩ : ∃ bytes, encode r p.type kept false = .ok bytes := ⟨_, rfl⟩
  have leftovers : p.type.HasLeftovers v := ⟨_, .refl, "z", nofun, by decide⟩
  obtain ⟨bridges, places, refused⟩ := toEngine_leftovers p.type v
  obtain ⟨-, places', whole⟩ := toEngine_leftovers p.type kept
  have none : ¬p.type.HasLeftovers kept := whole r false bytes mirrors written
  have dropped : ¬v.Placed x := fun placed => (places x taken).mp placed leftovers
  have unwritten : ∀ nested bytes, encode r p.type v nested ≠ .ok bytes :=
    fun nested bytes he => refused r nested bytes mirrors he leftovers
  exact ⟨mirrors, ⟨taken, bridges.mp ⟨x, taken⟩⟩, ⟨leftovers, dropped, unwritten⟩,
    ⟨same, bytes, written⟩, none, (places' x same).mpr none⟩

end DataType

end CqlWire
