import CqlWire.Proofs.Proper
import CqlWire.Type.Binary

namespace CqlWire

namespace Reading

variable {α β : Type} {x : Reading α} {f : α → Reading β} {a : α} {b : β} {g : α → β}
  {bytes more : Bytes} {p q : Prop} {e : Error}

/-- The reading takes these bytes, wherever they stand and whatever follows, and gives the item. -/
def Accepts (x : Reading α) (bytes : Bytes) (a : α) : Prop :=
  ∀ position rest, x ⟨position, bytes ++ rest⟩ = .ok a ⟨position + bytes.length, rest⟩

/-- The reading fails on these bytes, wherever they stand and whatever follows. -/
def Rejects (x : Reading α) (bytes : Bytes) (e : Error) : Prop :=
  ∀ position rest, ∃ c, x ⟨position, bytes ++ rest⟩ = .error e c

theorem Accepts.pure (a : α) : Accepts (pure a) [] a :=
  fun _ _ => rfl

theorem Accepts.bind (hx : x.Accepts bytes a) (hf : (f a).Accepts more b) :
    Accepts (x >>= f) (bytes ++ more) b := by
  intro position rest
  simp only [Bind.bind, EStateM.bind, List.append_assoc, hx position, hf _ rest, List.length_append,
    Nat.add_assoc]

theorem Rejects.bind_left (hx : x.Rejects bytes e) : Rejects (x >>= f) (bytes ++ more) e := by
  intro position rest
  obtain ⟨c, hc⟩ := hx position (more ++ rest)
  exact ⟨c, by simp only [Bind.bind, EStateM.bind, List.append_assoc, hc]⟩

theorem Rejects.bind_right (hx : x.Accepts bytes a) (hf : (f a).Rejects more e) :
    Rejects (x >>= f) (bytes ++ more) e := by
  intro position rest
  obtain ⟨c, hc⟩ := hf (position + bytes.length) rest
  exact ⟨c, by simp only [Bind.bind, EStateM.bind, List.append_assoc, hx position, hc]⟩

theorem count_accepts {n : Nat} (h : Frame.count n = .ok bytes) : count.Accepts bytes n := by
  intro position rest
  obtain ⟨-, rfl⟩ := Frame.count_eq_ok.mp h
  rw [count_append position rest h, Bytes.length_ofNat]

theorem text_accepts {s : String} (h : DataType.textBytes s = .ok bytes) : text.Accepts bytes s := by
  intro position rest
  simp only [text, Bind.bind, EStateM.bind, payload_append position rest h, Text.ofBytes?_toBytes]
  rfl

/-- On these bytes the reading gives the item if a condition holds, and fails otherwise. -/
structure Takes (x : Reading α) (bytes : Bytes) (fits : Prop) (e : Error) (a : α) : Prop where
  accepts : fits → x.Accepts bytes a
  rejects : ¬fits → x.Rejects bytes e

namespace Takes

theorem of_accepts (h : x.Accepts bytes a) : x.Takes bytes True e a :=
  ⟨fun _ => h, fun h => absurd trivial h⟩

theorem congr (h : x.Takes bytes p e a) (hpq : p ↔ q) : x.Takes bytes q e a :=
  ⟨fun hq => h.accepts (hpq.mpr hq), fun hq => h.rejects fun hp => hq (hpq.mp hp)⟩

theorem bind (hx : x.Takes bytes p e a) (hf : (f a).Takes more q e b) :
    Takes (x >>= f) (bytes ++ more) (p ∧ q) e b := by
  refine ⟨fun ⟨hp, hq⟩ => (hx.accepts hp).bind (hf.accepts hq), fun hnot => ?_⟩
  by_cases hp : p
  · exact .bind_right (hx.accepts hp) (hf.rejects fun hq => hnot ⟨hp, hq⟩)
  · exact .bind_left (hx.rejects hp)

theorem after (hx : x.Accepts bytes a) (hf : (f a).Takes more q e b) :
    Takes (x >>= f) (bytes ++ more) q e b :=
  ((of_accepts hx).bind hf).congr (and_iff_right trivial)

theorem map (hx : x.Takes bytes p e a) : Takes (do return g (← x)) bytes p e (g a) := by
  have h := hx.bind (f := fun a => pure (g a)) (of_accepts (.pure (g a)))
  rw [List.append_nil] at h
  exact h.congr (and_iff_left trivial)

theorem many_map {γ : Type} {P : γ → Prop} {h : γ → α} {cs : List γ} {blocks : List Bytes}
    (each : List.Forall₂ (fun c bytes => x.Takes bytes (P c) e (h c)) cs blocks) :
    Takes (many x cs.length) blocks.flatten (∀ c ∈ cs, P c) e (cs.map h) := by
  induction each with
  | nil => exact (of_accepts (.pure [])).congr (iff_of_true trivial nofun)
  | cons first _ ih => exact (first.bind ih.map).congr List.forall_mem_cons.symm

theorem many {P : α → Prop} {as : List α} {blocks : List Bytes}
    (each : List.Forall₂ (fun a bytes => x.Takes bytes (P a) e a) as blocks) :
    Takes (many x as.length) blocks.flatten (∀ a ∈ as, P a) e as := by
  have taken := many_map (h := id) each
  rwa [List.map_id] at taken

theorem named {s : String} {block : Bytes} (hs : DataType.textBytes s = .ok bytes)
    (hx : x.Takes block p e a) : Takes (named x) (bytes ++ block) p e (s, a) :=
  after (text_accepts hs) hx.map

end Takes

end Reading

namespace DataType

variable {t : DataType} {ts : List DataType} {fields : FieldTypes} {bytes : Bytes} {n levels : Nat}

mutual

/-- The largest number of types with parts that lie within one another: of all but leaves, tuples
without positions and user-defined types without fields. -/
def height : DataType → Nat
  | .leaf _ => 0
  | .list t | .set t | .frozen t => height t + 1
  | .map k v => max (height k) (height v) + 1
  | .tuple ts => heightEach ts
  | .udt _ _ fields => heightFields fields

def heightEach : List DataType → Nat
  | [] => 0
  | t :: ts => max (height t + 1) (heightEach ts)

def heightFields : List (String × DataType) → Nat
  | [] => 0
  | (_, t) :: fields => max (height t + 1) (heightFields fields)

end

mutual

/-- The largest number of types other than leaves that lie within one another. -/
def depth : DataType → Nat
  | .leaf _ => 0
  | .list t | .set t | .frozen t => depth t + 1
  | .map k v => max (depth k) (depth v) + 1
  | .tuple ts => depthEach ts + 1
  | .udt _ _ fields => depthFields fields + 1

def depthEach : List DataType → Nat
  | [] => 0
  | t :: ts => max (depth t) (depthEach ts)

def depthFields : List (String × DataType) → Nat
  | [] => 0
  | (_, t) :: fields => max (depth t) (depthFields fields)

end

theorem heightEach_le : heightEach ts ≤ n ↔ ∀ t ∈ ts, t.height < n := by
  induction ts with
  | nil => simp [heightEach]
  | cons t ts ih => rw [heightEach, Nat.max_le, ih, List.forall_mem_cons, Nat.succ_le_iff]

theorem heightFields_eq (fields : FieldTypes) :
    heightFields fields = heightEach (fields.map Prod.snd) := by
  induction fields with
  | nil => rfl
  | cons f fields ih => rw [heightFields, ih, List.map_cons, heightEach]

theorem depthFields_eq (fields : FieldTypes) :
    depthFields fields = depthEach (fields.map Prod.snd) := by
  induction fields with
  | nil => rfl
  | cons f fields ih => rw [depthFields, ih, List.map_cons, depthEach]

/-- Texts, tuples and user-defined types are short enough for their lengths to be written. -/
def Sized : DataType → Prop :=
  Throughout fun t => (∀ ts, t = .tuple ts → ts.length < Frame.limit) ∧
    ∀ keyspace name fields, t = .udt keyspace name fields →
      fields.length < Frame.limit ∧ ∀ s ∈ keyspace :: name :: fields.map Prod.fst,
        (Text.toBytes s).length < Frame.limit

section Sized

variable {kind : Kind} {k v : DataType} {keyspace name : String} {fields : FieldTypes}

@[simp] theorem sized_leaf : (leaf kind).Sized := by
  simp [Sized]

@[simp] theorem sized_list : (list t).Sized ↔ t.Sized := by
  simp [Sized]

@[simp] theorem sized_set : (set t).Sized ↔ t.Sized := by
  simp [Sized]

@[simp] theorem sized_map : (map k v).Sized ↔ k.Sized ∧ v.Sized := by
  simp [Sized]

@[simp] theorem sized_tuple :
    (tuple ts).Sized ↔ ts.length < Frame.limit ∧ ∀ t ∈ ts, t.Sized := by
  simp [Sized]

@[simp] theorem sized_udt :
    (udt keyspace name fields).Sized ↔
      (fields.length < Frame.limit ∧ ∀ s ∈ keyspace :: name :: fields.map Prod.fst,
        (Text.toBytes s).length < Frame.limit) ∧ ∀ f ∈ fields, f.2.Sized := by
  rw [Sized, throughout_udt]
  refine and_congr_left' ⟨fun h => h.2 _ _ _ rfl, fun h => ⟨nofun, ?_⟩⟩
  rintro _ _ _ ⟨⟩
  exact h

@[simp] theorem sized_frozen : (frozen t).Sized ↔ t.Sized := by
  simp [Sized]

end Sized

/-- A field as its name and the binary form of its type. -/
def fieldBytes (f : String × DataType) : Except Error Bytes :=
  return (← textBytes f.1) ++ (← f.2.toBytes)

theorem toBytesEach_eq_mapM (ts : List DataType) :
    toBytesEach ts = List.flatten <$> ts.mapM toBytes := by
  induction ts with
  | nil => rfl
  | cons t ts ih =>
    rw [toBytesEach, ih, List.mapM_cons]
    simp only [map_bind, bind_map_left, map_pure, List.flatten_cons]

theorem toBytesFields_eq_mapM (fields : FieldTypes) :
    toBytesFields fields = List.flatten <$> fields.mapM fieldBytes := by
  induction fields with
  | nil => rfl
  | cons f fields ih =>
    rw [toBytesFields, ih, List.mapM_cons]
    simp only [fieldBytes, map_bind, bind_map_left, map_pure, List.flatten_cons, bind_assoc, pure_bind]

section Parts

variable {k v : DataType} {keyspace name : String} {f : String × DataType}

theorem toBytes_list_eq_ok :
    (list t).toBytes = .ok bytes ↔ ∃ body, t.toBytes = .ok body ∧ listTag :: body = bytes := by
  simp only [toBytes, bind_eq_ok, pure_eq_ok]

theorem toBytes_set_eq_ok :
    (set t).toBytes = .ok bytes ↔ ∃ body, t.toBytes = .ok body ∧ setTag :: body = bytes := by
  simp only [toBytes, bind_eq_ok, pure_eq_ok]

theorem toBytes_map_eq_ok :
    (map k v).toBytes = .ok bytes ↔ ∃ key, k.toBytes = .ok key ∧ ∃ value, v.toBytes = .ok value ∧
      mapTag :: key ++ value = bytes := by
  simp only [toBytes, bind_eq_ok, pure_eq_ok]

theorem toBytes_tuple_eq_ok :
    (tuple ts).toBytes = .ok bytes ↔ ∃ count blocks, Frame.count ts.length = .ok count ∧
      List.Forall₂ (fun t block => t.toBytes = .ok block) ts blocks ∧
      tupleTag :: (count ++ blocks.flatten) = bytes := by
  simp only [toBytes, toBytesEach_eq_mapM, bind_eq_ok, map_eq_ok, mapM_eq_ok, pure_eq_ok]
  constructor
  · rintro ⟨count, hcount, _, ⟨blocks, hblocks, rfl⟩, hbytes⟩
    exact ⟨count, blocks, hcount, hblocks, hbytes⟩
  · rintro ⟨count, blocks, hcount, hblocks, hbytes⟩
    exact ⟨count, hcount, _, ⟨blocks, hblocks, rfl⟩, hbytes⟩

theorem fieldBytes_eq_ok :
    fieldBytes f = .ok bytes ↔ ∃ head body, textBytes f.1 = .ok head ∧ f.2.toBytes = .ok body ∧
      head ++ body = bytes := by
  simp only [fieldBytes, bind_eq_ok, pure_eq_ok, exists_and_left]

theorem toBytes_udt_eq_ok :
    (udt keyspace name fields).toBytes = .ok bytes ↔ ∃ ks nm count blocks,
      textBytes keyspace = .ok ks ∧ textBytes name = .ok nm ∧
      Frame.count fields.length = .ok count ∧
      List.Forall₂ (fun f block => fieldBytes f = .ok block) fields blocks ∧
      udtTag :: (ks ++ (nm ++ (count ++ blocks.flatten))) = bytes := by
  simp only [toBytes, toBytesFields_eq_mapM, bind_eq_ok, map_eq_ok, mapM_eq_ok, pure_eq_ok,
    List.cons_append, List.append_assoc]
  constructor
  · rintro ⟨ks, hks, nm, hnm, count, hcount, _, ⟨blocks, hblocks, rfl⟩, hbytes⟩
    exact ⟨ks, nm, count, blocks, hks, hnm, hcount, hblocks, hbytes⟩
  · rintro ⟨ks, nm, count, blocks, hks, hnm, hcount, hblocks, hbytes⟩
    exact ⟨ks, hks, nm, hnm, count, hcount, _, ⟨blocks, hblocks, rfl⟩, hbytes⟩

theorem toBytes_frozen_eq_ok :
    (frozen t).toBytes = .ok bytes ↔ ∃ body, t.toBytes = .ok body ∧ frozenTag :: body = bytes := by
  simp only [toBytes, bind_eq_ok, pure_eq_ok]

end Parts

open Reading (Accepts Takes many named text typeWithin count_accepts text_accepts)

/-- The reader's refusal of types too deep. -/
def tooDeep : Error :=
  .malformed (.deepType nestingLimit)

theorem takes_of_succ {u : DataType} (h : ∀ levels,
    (typeWithin (levels + 1)).Takes bytes (t.height < levels + 1) tooDeep u) :
    ∀ levels, (typeWithin levels).Takes bytes (t.height < levels) tooDeep u
  | 0 => ⟨nofun, fun _ _ _ => ⟨_, rfl⟩⟩
  | levels + 1 => h levels

theorem takes_tagged {u : DataType} {tag : UInt8} {p : Prop} (x : Reading DataType)
    (hx : ∀ position rest, typeWithin (levels + 1) ⟨position, tag :: rest⟩ = x ⟨position + 1, rest⟩)
    (h : x.Takes bytes p tooDeep u) (hp : p ↔ t.height < levels + 1) :
    (typeWithin (levels + 1)).Takes (tag :: bytes) (t.height < levels + 1) tooDeep u := by
  refine .congr ⟨fun hp position rest => ?_, fun hp position rest => ?_⟩ hp
  · rw [List.cons_append, hx, h.accepts hp, List.length_cons, Nat.add_assoc, Nat.add_comm 1]
  · rw [List.cons_append, hx]
    exact h.rejects hp _ rest

theorem takes_field {f : String × DataType} (hb : fieldBytes f = .ok bytes)
    (h : ∀ body, f.2.toBytes = .ok body →
      (typeWithin levels).Takes body (f.2.height < levels) tooDeep f.2.proper) :
    Takes (named (typeWithin levels)) bytes (f.2.height < levels) tooDeep (f.1, f.2.proper) := by
  obtain ⟨head, body, hhead, hbody, rfl⟩ := fieldBytes_eq_ok.mp hb
  exact Takes.named hhead (h body hbody)

/-- The reader takes the binary form of a type that is not too high for it, and gives the type as
the builders would. -/
theorem typeWithin_takes (h : t.toBytes = .ok bytes) :
    ∀ levels, (typeWithin levels).Takes bytes (t.height < levels) tooDeep t.proper := by
  induction t generalizing bytes with
  | leaf kind =>
    cases h
    -- A level is used up where a type is entered, so that a leaf needs one as well.
    refine takes_of_succ fun levels => ?_
    refine takes_tagged (pure (.leaf kind)) (fun _ _ => ?_) (.of_accepts (.pure _)) ?_
    · cases kind <;> rfl
    · exact iff_of_true trivial (Nat.succ_pos levels)
  | list t ih =>
    obtain ⟨body, hbody, rfl⟩ := toBytes_list_eq_ok.mp h
    refine takes_of_succ fun levels => ?_
    exact takes_tagged (do return .list (← typeWithin levels)) (fun _ _ => rfl)
      (ih hbody levels).map Nat.succ_lt_succ_iff.symm
  | set t ih =>
    obtain ⟨body, hbody, rfl⟩ := toBytes_set_eq_ok.mp h
    refine takes_of_succ fun levels => ?_
    exact takes_tagged (do return .set (← typeWithin levels)) (fun _ _ => rfl)
      (ih hbody levels).map Nat.succ_lt_succ_iff.symm
  | map k v ihk ihv =>
    obtain ⟨key, hkey, value, hvalue, rfl⟩ := toBytes_map_eq_ok.mp h
    refine takes_of_succ fun levels => ?_
    have inner : Takes (do return DataType.map (← typeWithin levels) (← typeWithin levels))
        (key ++ value) _ tooDeep (.map k.proper v.proper) :=
      .bind (ihk hkey levels) (.map (ihv hvalue levels))
    refine takes_tagged _ (fun _ _ => rfl) inner ?_
    rw [height, Nat.succ_lt_succ_iff, Nat.max_lt]
  | tuple ts ih =>
    obtain ⟨count, blocks, hcount, hblocks, rfl⟩ := toBytes_tuple_eq_ok.mp h
    refine takes_of_succ fun levels => ?_
    have each := hblocks.imp_mem fun t ht block _ hb => ih t ht hb levels
    have inner : Takes (do return DataType.tuple (← many (typeWithin levels) (← Reading.count)))
        (count ++ blocks.flatten) _ tooDeep (.tuple (ts.map proper)) :=
      .after (count_accepts hcount) (.map (.many_map each))
    rw [proper, properEach_eq_map]
    refine takes_tagged _ (fun _ _ => rfl) inner ?_
    rw [height, Nat.lt_succ_iff, heightEach_le]
  | udt keyspace name fields ih =>
    obtain ⟨ks, nm, count, blocks, hks, hnm, hcount, hblocks, rfl⟩ := toBytes_udt_eq_ok.mp h
    refine takes_of_succ fun levels => ?_
    have each := hblocks.imp_mem fun f hmem block _ hb =>
      takes_field hb fun body hbody => ih f hmem hbody levels
    have inner : Takes (do
        let keyspace ← text
        let name ← text
        let fields ← many (named (typeWithin levels)) (← Reading.count)
        return DataType.udt keyspace name (FieldTypes.ofList fields))
        (ks ++ (nm ++ (count ++ blocks.flatten))) _ tooDeep _ :=
      .after (text_accepts hks) (.after (text_accepts hnm) (.after (count_accepts hcount)
        (.map (.many_map each))))
    rw [proper, properFields_eq_map]
    refine takes_tagged _ (fun _ _ => rfl) inner ?_
    rw [height, Nat.lt_succ_iff, heightFields_eq, heightEach_le, List.forall_mem_map]
  | frozen t ih =>
    obtain ⟨body, hbody, rfl⟩ := toBytes_frozen_eq_ok.mp h
    refine takes_of_succ fun levels => ?_
    exact takes_tagged _ (fun _ _ => rfl) (ih hbody levels).map Nat.succ_lt_succ_iff.symm

theorem exists_toBytes (h : t.Sized) : ∃ bytes, t.toBytes = .ok bytes := by
  induction t with
  | leaf kind => exact ⟨_, rfl⟩
  | list t ih =>
    obtain ⟨bytes, hbytes⟩ := ih (sized_list.mp h)
    exact ⟨_, toBytes_list_eq_ok.mpr ⟨bytes, hbytes, rfl⟩⟩
  | set t ih =>
    obtain ⟨bytes, hbytes⟩ := ih (sized_set.mp h)
    exact ⟨_, toBytes_set_eq_ok.mpr ⟨bytes, hbytes, rfl⟩⟩
  | map k v ihk ihv =>
    obtain ⟨hk, hv⟩ := sized_map.mp h
    obtain ⟨key, hkey⟩ := ihk hk
    obtain ⟨value, hvalue⟩ := ihv hv
    exact ⟨_, toBytes_map_eq_ok.mpr ⟨key, hkey, value, hvalue, rfl⟩⟩
  | tuple ts ih =>
    obtain ⟨here, inside⟩ := sized_tuple.mp h
    have count := Frame.count_eq_ok.mpr ⟨here, rfl⟩
    obtain ⟨blocks, hblocks⟩ := exists_mapM fun t ht => ih t ht (inside t ht)
    exact ⟨_, toBytes_tuple_eq_ok.mpr ⟨_, blocks, count, mapM_eq_ok.mp hblocks, rfl⟩⟩
  | udt keyspace name fields ih =>
    obtain ⟨⟨hcount, texts⟩, inside⟩ := sized_udt.mp h
    have text {s : String} (hs : s ∈ keyspace :: name :: fields.map Prod.fst) :=
      Frame.payload_some_eq_ok.mpr ⟨texts s hs, rfl⟩
    have count := Frame.count_eq_ok.mpr ⟨hcount, rfl⟩
    obtain ⟨blocks, hblocks⟩ : ∃ blocks, fields.mapM fieldBytes = .ok blocks := by
      refine exists_mapM fun f hf => ?_
      obtain ⟨body, hbody⟩ := ih f hf (inside f hf)
      have head := text (List.mem_cons_of_mem _ (List.mem_cons_of_mem _ (List.mem_map_of_mem hf)))
      exact ⟨_, fieldBytes_eq_ok.mpr ⟨_, body, head, hbody, rfl⟩⟩
    exact ⟨_, toBytes_udt_eq_ok.mpr ⟨_, _, _, blocks, text List.mem_cons_self,
      text (List.mem_cons_of_mem _ List.mem_cons_self), count, mapM_eq_ok.mp hblocks, rfl⟩⟩
  | frozen t ih =>
    obtain ⟨bytes, hbytes⟩ := ih (sized_frozen.mp h)
    exact ⟨_, toBytes_frozen_eq_ok.mpr ⟨bytes, hbytes, rfl⟩⟩

theorem heightEach_eq_depthEach (hne : ts ≠ []) (h : ∀ t ∈ ts, t.height = t.depth) :
    heightEach ts = depthEach ts + 1 := by
  induction ts with
  | nil => exact absurd rfl hne
  | cons t ts ih =>
    obtain ⟨first, others⟩ := List.forall_mem_cons.mp h
    rw [heightEach, depthEach, first]
    cases ts with
    | nil => simp [heightEach, depthEach]
    | cons u ts =>
      rw [ih (List.cons_ne_nil u ts) others]
      omega

theorem height_eq_depth (h : t.Populated) : t.height = t.depth := by
  induction t with
  | leaf kind => rfl
  | list t ih => rw [height, depth, ih (throughout_list.mp h).2]
  | set t ih => rw [height, depth, ih (throughout_set.mp h).2]
  | map k v ihk ihv =>
    obtain ⟨-, hk, hv⟩ := throughout_map.mp h
    rw [height, depth, ihk hk, ihv hv]
  | tuple ts ih =>
    obtain ⟨⟨here, -⟩, inside⟩ := throughout_tuple.mp h
    rw [height, depth, heightEach_eq_depthEach (fun hnil => here (by rw [hnil]))]
    exact fun t ht => ih t ht (inside t ht)
  | udt keyspace name fields ih =>
    obtain ⟨⟨-, here⟩, inside⟩ := throughout_udt.mp h
    have fields_ne : fields.map Prod.snd ≠ [] := fun hnil =>
      here keyspace name (by rw [List.map_eq_nil_iff.mp hnil])
    rw [height, depth, heightFields_eq, depthFields_eq, heightEach_eq_depthEach fields_ne]
    exact List.forall_mem_map.mpr fun f hf => ih f hf (inside f hf)
  | frozen t ih => rw [height, depth, ih (throughout_frozen.mp h).2]

/-- A type as the builders give it, short enough to have a binary form. -/
structure Describable (t : DataType) : Prop where
  wellNamed : t.WellNamed
  frozenOnce : t.FrozenOnce
  sized : t.Sized

theorem Describable.list (h : t.Describable) : t.list.Describable where
  wellNamed := wellNamed_list.mpr h.wellNamed
  frozenOnce := frozenOnce_list.mpr h.frozenOnce
  sized := sized_list.mpr h.sized

theorem Describable.list_iterate (h : t.Describable) (n : Nat) :
    (DataType.list^[n] t).Describable :=
  Function.Iterate.rec Describable h (fun _ => .list) n

theorem type_takes_proper (h : t.toBytes = .ok bytes) :
    Reading.type.Takes bytes (t.height ≤ nestingLimit) tooDeep t.proper :=
  (typeWithin_takes h (nestingLimit + 1)).congr Nat.lt_succ_iff

theorem ofBytes_of_toBytes (h : t.toBytes = .ok bytes) :
    ofBytes bytes = if t.height ≤ nestingLimit then .ok t.proper else .error tooDeep := by
  split
  next hle =>
    have hread := (type_takes_proper h).accepts hle 0 []
    rw [List.append_nil] at hread
    rw [ofBytes, Cursor.ofBytes, hread]
    rfl
  next hnot =>
    obtain ⟨c, hc⟩ := (type_takes_proper h).rejects hnot 0 []
    rw [List.append_nil] at hc
    rw [ofBytes, Cursor.ofBytes, hc]

theorem Describable.proper_eq (ht : t.Describable) : t.proper = t :=
  proper_eq_self ht.wellNamed ht.frozenOnce

theorem type_takes (ht : t.Describable) (h : t.toBytes = .ok bytes) :
    Reading.type.Takes bytes (t.height ≤ nestingLimit) tooDeep t := by
  have takes := type_takes_proper h
  rwa [ht.proper_eq] at takes

theorem ofBytes_eq_ok_iff (ht : t.Describable) (h : t.toBytes = .ok bytes) :
    ofBytes bytes = .ok t ↔ t.height ≤ nestingLimit := by
  rw [ofBytes_of_toBytes h, ht.proper_eq]
  split
  next hle => exact iff_of_true rfl hle
  next hnot => exact iff_of_false nofun hnot

/-- The binary form of a type ends where it says. Whatever follows, the reader takes all of it and
gives the type back, unless more than 64 types with parts lie within one another, when it refuses the
type. So the binary forms of several types, one after the other, are read as these types. -/
theorem self_delimiting :
    (∀ t : DataType, t.Describable → ∃ bytes, t.toBytes = .ok bytes ∧
      (t.height ≤ nestingLimit → Reading.type.Accepts bytes t) ∧
      (nestingLimit < t.height → Reading.type.Rejects bytes tooDeep) ∧
      (ofBytes bytes = .ok t ↔ t.height ≤ nestingLimit) ∧
      (t.Populated → t.height = t.depth)) ∧
    ∀ ts : List DataType, (∀ t ∈ ts, t.Describable ∧ t.height ≤ nestingLimit) →
      ∃ bytes, toBytesEach ts = .ok bytes ∧ (many Reading.type ts.length).Accepts bytes ts := by
  constructor
  · intro t ht
    obtain ⟨bytes, h⟩ := exists_toBytes ht.sized
    have takes := type_takes ht h
    exact ⟨bytes, h, takes.accepts, fun hlt => takes.rejects (Nat.not_le.mpr hlt),
      ofBytes_eq_ok_iff ht h, height_eq_depth⟩
  · intro ts hts
    obtain ⟨blocks, hblocks⟩ := exists_mapM fun t ht => exists_toBytes (hts t ht).1.sized
    refine ⟨blocks.flatten, (toBytesEach_eq_mapM ts).trans (map_eq_ok.mpr ⟨blocks, hblocks, rfl⟩), ?_⟩
    have each := (mapM_eq_ok.mp hblocks).imp_mem fun t ht block _ hb => type_takes (hts t ht).1 hb
    exact (Takes.many each).accepts fun t ht => (hts t ht).2

theorem self_delimiting_tuple :
    let t : DataType := .frozen (.tuple [.leaf .int, .udt "k" "p" [("x", .list (.leaf .text))]])
    let deep : DataType := list^[65] (.leaf .int)
    (t.Describable ∧ t.height = 4 ∧ deep.Describable ∧ deep.height = 65) ∧
      (∃ bytes, t.toBytes = .ok bytes ∧ ofBytes bytes = .ok t) ∧
      (∃ bytes, deep.toBytes = .ok bytes ∧ Reading.type.Rejects bytes tooDeep) ∧
      ∃ bytes, toBytesEach [t, t] = .ok bytes ∧ (many Reading.type 2).Accepts bytes [t, t] := by
  intro t deep
  have ht : t.Describable := by
    constructor
    · simp [t, WellNamed]
    · simp [t, FrozenOnce]
    · have short : ∀ s ∈ ["k", "p", "x"], (Text.toBytes s).length < Frame.limit := by
        decide +kernel
      simpa [t, Sized, Frame.limit] using short
  have hdeep : deep.Describable := by
    refine .list_iterate ⟨?_, ?_, ?_⟩ 65
    · simp [WellNamed]
    · simp [FrozenOnce]
    · simp [Sized]
  have low : t.height = 4 := by decide
  have high : deep.height = 65 := by decide
  obtain ⟨each, sequence⟩ := self_delimiting
  obtain ⟨bytes, h, -, -, hread, -⟩ := each t ht
  obtain ⟨bytes', h', -, hreject, -⟩ := each deep hdeep
  refine ⟨⟨ht, low, hdeep, high⟩, ⟨bytes, h, hread.mpr ?_⟩, ⟨bytes', h', hreject ?_⟩,
    sequence [t, t] ?_⟩
  · rw [low]
    decide
  · rw [high]
    decide
  · simp [ht, low, nestingLimit]

/-- A tuple without positions is read at a place where no type with parts is. -/
theorem depth_exceeded :
    let t : DataType := list^[64] (.tuple [])
    let bytes : Bytes := List.replicate 64 listTag ++ [tupleTag, 0, 0, 0, 0]
    t.Describable ∧ nestingLimit < t.depth ∧ t.toBytes = .ok bytes ∧ Reading.type.Accepts bytes t ∧
      ofBytes bytes = .ok t := by
  intro t bytes
  have ht : t.Describable := by
    refine .list_iterate ⟨?_, ?_, ?_⟩ 64
    · simp [WellNamed]
    · simp [FrozenOnce]
    · simp [Sized, Frame.limit]
  have h : t.toBytes = .ok bytes := rfl
  have low : t.height ≤ nestingLimit := by decide
  exact ⟨ht, by decide, h, (type_takes ht h).accepts low, (ofBytes_eq_ok_iff ht h).mpr low⟩

end DataType

end CqlWire
