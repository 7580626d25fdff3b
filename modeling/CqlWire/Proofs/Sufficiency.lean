import CqlWire.Proofs.Collapse
import CqlWire.Proofs.Holders
import CqlWire.Proofs.Origins

namespace CqlWire

namespace Composite

variable {r : Registry} {t u : DataType} {c : Composite}

theorem below_toType (hc : ofType r t = .ok c) : r.Below c.toType t := by
  refine Registry.below_of_mentions fun n hn => ?_
  unfold ofType at hc
  split at hc
  next ts ht =>
    cases hc
    rwa [DataType.mentions_of_shape ht]
  next declared ht =>
    obtain ⟨udt, hu, rfl⟩ := map_eq_ok.mp hc
    obtain ⟨hk, hname⟩ := Registry.names_of_lookup hu
    rw [DataType.mentions_of_shape ht, Shape.toType, Udt.type, DataType.mentions, ← hk, ← hname]
    exact hn
  next => cases hc

theorem below_of_mem_types (hc : ofType r t = .ok c) (hu : u ∈ c.types) : r.Below u t := by
  refine Registry.below_of_child (ofType_eq_ok.mp hc) ?_
  cases c <;> exact hu

theorem explained_ofType (r : Registry) (t : DataType) : r.Explained t (ofType r t) := by
  unfold ofType
  cases ht : t.shape with
  | tuple ts => exact .ok _
  | udt declared => exact .map (.lookup ht)
  | _ => exact .error not_false

end Composite

namespace Holder

variable {r : Registry} {t : DataType} {h h' : Holder} {v : Value}

theorem explained_ofType (r : Registry) (t : DataType) : r.Explained t (ofType r t) :=
  .map (Composite.explained_ofType r t)

theorem endingFault_not_isAboutName {e : Error} (type : DataType) (he : e.IsMalformed) :
    ¬(endingFault type e).IsAboutName := by
  obtain ⟨cause, rfl⟩ := he
  cases cause <;> exact not_false

theorem explained_ofBytes (r : Registry) (t : DataType) (bytes : Bytes) :
    r.Explained t (ofBytes r t bytes) := by
  refine .bind (Composite.explained_ofType r t) fun c _ => ?_
  split
  next => exact .ok _
  next hread =>
    exact .error (endingFault_not_isAboutName _ (Frame.read_fault (congrArg Prod.snd hread)))

theorem explained_setPayload (position : Nat) (p : Payload) :
    r.Explained t (h.setPayload position p) := by
  unfold setPayload
  split
  · exact .ok _
  · exact .error not_false

theorem mem_types_of_elementType? {position : Nat} {u : DataType}
    (hu : h.elementType? position = some u) : u ∈ h.composite.types :=
  List.mem_of_getElem? hu

theorem explained_set (hc : Composite.ofType r t = .ok h.composite) (position : Nat) (v : Value) :
    r.Explained t (h.set r position v) := by
  unfold Holder.set
  split
  next u hu =>
    have below := Composite.below_of_mem_types hc (mem_types_of_elementType? hu)
    have element := (Registry.explainedFor r v).element u
    exact .bind (element.below below) fun _ _ => explained_setPayload _ _
  next => exact .error not_false

theorem explained_get (hc : Composite.ofType r t = .ok h.composite) (position : Nat) :
    r.Explained t (h.get r position) := by
  unfold get
  split
  next u hu =>
    have below := Composite.below_of_mem_types hc (mem_types_of_elementType? hu)
    exact (Registry.explained_decodeElement r _ u _).below below
  next => exact .error not_false

theorem explained_toBytes (h : Holder) : r.Explained t h.toBytes :=
  .of_size (.payloads h.cells)

theorem explained_toValue (hc : Composite.ofType r t = .ok h.composite) :
    r.Explained t (h.toValue r) :=
  .bind (explained_toBytes h) fun bytes _ =>
    (Registry.explained_decode r h.type bytes true).below (Composite.below_toType hc)

theorem explained_setAll (hc : Composite.ofType r t = .ok h.composite) (start : Nat)
    (vs : List Value) : r.Explained t (h.setAll r start vs) := by
  induction vs generalizing h start with
  | nil => exact .ok h
  | cons v vs ih =>
    refine .bind (explained_set hc start v) fun h' hput => ih ?_ (start + 1)
    obtain ⟨p, hput, -⟩ := set_eq_ok hput
    rw [(setPayload_eq_ok hput).1]
    exact hc

theorem explained_ofRecord (r : Registry) (t : DataType) (v : Value) :
    r.Explained t (ofRecord r t v) := by
  unfold ofRecord
  cases v with
  | record fields =>
    refine .bind (explained_ofType r t) fun h hh => ?_
    have hc := (made_of_ofType hh).composite
    split
    next =>
      split
      next => exact .error not_false
      next => exact explained_setAll hc 0 _
    next => exact .error not_false
  | _ => exact .error not_false

theorem explained_ofTuple (r : Registry) (t : DataType) (v : Value) :
    r.Explained t (ofTuple r t v) := by
  unfold ofTuple
  cases v with
  | tuple items =>
    refine .bind (explained_ofType r t) fun h hh => ?_
    split
    next => exact explained_setAll (made_of_ofType hh).composite 0 items
    next => exact .error not_false
  | _ => exact .error not_false

end Holder

namespace Registry

variable {α : Type} {r : Registry} {t : DataType} {x : Except Error α} {n : QualifiedName}

/-- Nothing fails for want of a type on record. -/
def Finds (x : Except Error α) : Prop :=
  ∀ keyspace name, x ≠ .error (.notRegistered keyspace name)

theorem Explained.finds (hx : r.Explained t x)
    (known : ∀ n, r.Meets t n → r.contains n.1 n.2 = true) : Finds x := by
  intro keyspace name he
  rcases hx _ he trivial with ⟨⟨_, _, hend⟩, -⟩ | ⟨m, hm, hmissing, -⟩
  · cases hend
  · rw [known m hm] at hmissing
    cases hmissing

/-- Nothing that is done with the type, its values, their bytes or its holders fails for want of a
type on record. -/
structure Serves (r : Registry) (t : DataType) : Prop where
  resolve : Finds (r.resolve t)
  order : ∀ a b, Finds (r.order t a b)
  encode : ∀ v nested, Finds (Value.encode r t v nested)
  decode : ∀ bytes nested, Finds (Value.decode r t bytes nested)
  encodeElement : ∀ v, Finds (Value.encodeElement r t v)
  decodeElement : ∀ slot p, Finds (Value.decodeElement r slot t p)
  ofType : Finds (Holder.ofType r t)
  ofBytes : ∀ bytes, Finds (Holder.ofBytes r t bytes)
  ofRecord : ∀ v, Finds (Holder.ofRecord r t v)
  ofTuple : ∀ v, Finds (Holder.ofTuple r t v)
  holder : ∀ h : Holder, Composite.ofType r t = .ok h.composite →
    (∀ i v, Finds (h.set r i v)) ∧ (∀ i p, Finds (h.setPayload i p)) ∧
      (∀ i, Finds (h.get r i)) ∧ Finds h.toBytes ∧ Finds (h.toValue r)

theorem serves_of_contains (known : ∀ n, r.Meets t n → r.contains n.1 n.2 = true) : r.Serves t where
  resolve := (explained_resolve r t).finds known
  order a b := (explained_order r t a b).finds known
  encode v nested := (explained_encode r t v nested).finds known
  decode bytes nested := (explained_decode r t bytes nested).finds known
  encodeElement v := ((explainedFor r v).element t).finds known
  decodeElement slot p := (explained_decodeElement r slot t p).finds known
  ofType := (Holder.explained_ofType r t).finds known
  ofBytes bytes := (Holder.explained_ofBytes r t bytes).finds known
  ofRecord v := (Holder.explained_ofRecord r t v).finds known
  ofTuple v := (Holder.explained_ofTuple r t v).finds known
  holder h hc :=
    ⟨fun i v => (Holder.explained_set hc i v).finds known,
      fun i p => (Holder.explained_setPayload i p).finds known,
      fun i => (Holder.explained_get hc i).finds known,
      (Holder.explained_toBytes h).finds known, (Holder.explained_toValue hc).finds known⟩

/-- What is on record under a name after types were put there is one of these, unless none of them
has the name. -/
theorem get?_foldl_insert (r : Registry) (us : List Udt) (n : QualifiedName) :
    (∃ u ∈ us, u.key = n ∧ (us.foldl insert r).get? n.1 n.2 = some u) ∨
      (∀ u ∈ us, u.key ≠ n) ∧ (us.foldl insert r).get? n.1 n.2 = r.get? n.1 n.2 := by
  induction us generalizing r with
  | nil => exact .inr ⟨nofun, rfl⟩
  | cons u us ih =>
    rw [List.foldl_cons]
    rcases ih (r.insert u) with ⟨v, hv, hkey, found⟩ | ⟨others, found⟩
    · exact .inl ⟨v, List.mem_cons_of_mem u hv, hkey, found⟩
    · rw [get?_insert] at found
      split at found
      next hu => exact .inl ⟨u, List.mem_cons_self, Prod.ext hu.1 hu.2, found⟩
      next hu => exact .inr ⟨List.forall_mem_cons.mpr ⟨fun h => hu (Prod.ext_iff.mp h), others⟩, found⟩

theorem exists_of_mem_udts {u : Udt} (r : Registry) (hu : u ∈ t.udts) :
    ∃ v ∈ t.udts, v.key = u.key ∧ (r.insertAll t).lookup u.keyspace u.name = .ok v := by
  rcases get?_foldl_insert r t.udts u.key with ⟨v, hv, hkey, found⟩ | ⟨others, -⟩
  · exact ⟨v, hv, hkey, lookup_eq_ok.mpr found⟩
  · exact absurd rfl (others u hu)

/-- A name in a type on record that was put there with another type is a name in that one. -/
theorem exists_of_meets_insertAll (r : Registry) (hn : (r.insertAll t).Meets t n) :
    ∃ u ∈ t.udts, u.key = n := by
  obtain ⟨m, hm, path⟩ := hn
  induction path with
  | refl => exact key_mem_of_mem_mentions hm
  | tail _ step ih =>
    obtain ⟨u, hu, rfl⟩ := ih
    obtain ⟨v, hv, -, found⟩ := exists_of_mem_udts r hu
    obtain ⟨udt, hudt, f, hf, hmention⟩ := step
    cases found.symm.trans hudt
    obtain ⟨w, hw, hkey⟩ := key_mem_of_mem_mentions hmention
    have field := (DataType.forall_mem_udts_type.mp fun _ h => h).2 f hf w hw
    exact ⟨w, DataType.mem_udts_trans hv field, hkey⟩

theorem contains_insertAll (r : Registry) (hn : (r.insertAll t).Meets t n) :
    (r.insertAll t).contains n.1 n.2 = true := by
  obtain ⟨u, hu, rfl⟩ := exists_of_meets_insertAll r hn
  obtain ⟨v, -, -, found⟩ := exists_of_mem_udts r hu
  exact contains_iff.mpr ⟨v, found⟩

theorem get?_insertAll_of_ne (h : ∀ u ∈ t.udts, u.key ≠ n) :
    (r.insertAll t).get? n.1 n.2 = r.get? n.1 n.2 := by
  rcases get?_foldl_insert r t.udts n with ⟨u, hu, hkey, -⟩ | ⟨-, same⟩
  · exact absurd hkey (h u hu)
  · exact same

theorem mirrors_insertAll (r : Registry)
    (distinct : ∀ u ∈ t.udts, ∀ v ∈ t.udts, u.key = v.key → u = v) : (r.insertAll t).Mirrors t := by
  intro u hu
  obtain ⟨v, hv, hkey, found⟩ := exists_of_mem_udts r hu
  rwa [distinct v hv u hu hkey] at found

/-- A registry that gets all types in a type has whatever the type meets, also where several of them
have one name: nothing that is done with it fails for want of a type. Other names stay as they were.
If no two types in it have one name, it is resolved to itself, but for wrappers directly within one
another. -/
theorem self_sufficient (r : Registry) (t : DataType) :
    (∀ n, (r.insertAll t).Meets t n → (r.insertAll t).contains n.1 n.2 = true) ∧
      (r.insertAll t).Serves t ∧
      (∀ n : QualifiedName, (∀ u ∈ t.udts, u.key ≠ n) →
        (r.insertAll t).get? n.1 n.2 = r.get? n.1 n.2) ∧
      ((∀ u ∈ t.udts, ∀ v ∈ t.udts, u.key = v.key → u = v) →
        (r.insertAll t).resolve t = .ok t.collapse ∧
          (t.FrozenOnce → (r.insertAll t).resolve t = .ok t)) := by
  have known : ∀ n, (r.insertAll t).Meets t n → (r.insertAll t).contains n.1 n.2 = true :=
    fun n hn => contains_insertAll r hn
  refine ⟨known, serves_of_contains known, fun n => get?_insertAll_of_ne, fun distinct => ?_⟩
  have resolved := (mirrors_insertAll r distinct).resolve_eq
  refine ⟨resolved, fun once => ?_⟩
  rwa [DataType.collapse_eq_self once] at resolved

theorem self_sufficient_replaced :
    let a : Udt := ⟨"k", "a", [("x", .leaf .int)]⟩
    let t : DataType := .udt "k" "b" [("y", .frozen (.frozen a.type))]
    let u : DataType := .udt "k" "b" [("y", .frozen a.type)]
    let z : Udt := ⟨"k", "z", []⟩
    let r : Registry := ⟨[⟨"k", "a", []⟩, z]⟩
    let distinct (t : DataType) : Prop := ∀ v ∈ t.udts, ∀ w ∈ t.udts, v.key = w.key → v = w
    ((r.insertAll t).Meets t ("k", "a") ∧ (∀ v ∈ t.udts, v.key ≠ z.key) ∧ distinct t ∧
        distinct u ∧ u.FrozenOnce) ∧
      (r.insertAll t).contains "k" "a" = true ∧ (r.insertAll t).get? "k" "z" = some z ∧
      (r.insertAll t).resolve t = .ok u ∧ (r.insertAll u).resolve u = .ok u := by
  intro a t u z r distinct
  have apart : ∀ v ∈ t.udts, v.key ≠ z.key := by decide +kernel
  have ht : distinct t := show ∀ v ∈ t.udts, ∀ w ∈ t.udts, _ by decide +kernel
  have hu : distinct u := show ∀ v ∈ u.udts, ∀ w ∈ u.udts, _ by decide +kernel
  have once : u.FrozenOnce := by simp [u, a, DataType.FrozenOnce, Udt.type]
  have met : (r.insertAll t).Meets t ("k", "a") := by
    have found : (r.insertAll t).lookup "k" "b" = .ok ⟨"k", "b", [("y", .frozen (.frozen a.type))]⟩ :=
      rfl
    have step : (r.insertAll t).Refers ("k", "b") ("k", "a") :=
      ⟨_, found, _, List.mem_singleton_self _, List.mem_singleton_self _⟩
    exact ⟨("k", "b"), List.mem_singleton_self _, .single step⟩
  obtain ⟨known, -, others, resolved⟩ := self_sufficient r t
  exact ⟨⟨met, apart, ht, hu, once⟩, known _ met, others z.key apart, (resolved ht).1,
    ((self_sufficient r u).2.2.2 hu).2 once⟩

end Registry

end CqlWire
