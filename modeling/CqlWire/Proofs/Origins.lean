import CqlWire.Proofs.Faults
import CqlWire.Proofs.Termination
import CqlWire.Proofs.Totality

namespace CqlWire

open Value (decode encode encodeAs encodeElement encodePositions framesOf ofPayload unbounded)

/-- The errors about a user-defined type: it is not on record, or it lies within itself. -/
def Error.IsAboutName : Error → Prop
  | .notRegistered _ _ | .endlessType _ _ => True
  | _ => False

theorem Error.IsTooLarge.not_isAboutName {e : Error} (h : e.IsTooLarge) : ¬e.IsAboutName := by
  obtain ⟨n, -, rfl | rfl⟩ := h
  · exact not_false
  · exact not_false

theorem Error.IsUnreadable.not_isAboutName {e : Error} (h : e.IsUnreadable) : ¬e.IsAboutName := by
  cases h <;> exact not_false

theorem Leaf.encode_error {kind : Kind} {v : Value} {e : Error} (h : encode kind v = .error e) :
    ¬e.IsAboutName := by
  have ascii {s : String} (h : encodeAscii s = .error e) : ¬e.IsAboutName := by
    unfold encodeAscii at h
    split at h <;> cases h
    exact not_false
  have checked {check : Except Error Unit} {bytes : Bytes} (hc : check = .error e → ¬e.IsAboutName)
      (h : (do check; return bytes) = .error e) : ¬e.IsAboutName := by
    rcases bind_eq_error.mp h with h | ⟨_, -, h⟩
    · exact hc h
    · cases h
  have time {nanos : Int64} (h : checkTime nanos = .error e) : ¬e.IsAboutName := by
    unfold checkTime at h
    split at h <;> cases h
    exact not_false
  have version {u : Uuid} (h : checkVersion u = .error e) : ¬e.IsAboutName := by
    unfold checkVersion at h
    split at h <;> cases h
    exact not_false
  unfold encode at h
  split at h
  -- Texts, times and identifiers are checked; every other kind takes all values of its own.
  all_goals first
    | exact ascii h
    | exact checked time h
    | exact checked version h
    | (cases h; done)
    | (cases h; exact not_false)

namespace Registry

variable {α β : Type} {r : Registry} {t u : DataType} {s : Shape} {v : Value} {e : Error}
  {x : Except Error α} {items : List Value}

/-- Every name that the one type meets the other one meets as well. -/
def Below (r : Registry) (u t : DataType) : Prop :=
  ∀ n, r.Meets u n → r.Meets t n

theorem below_of_mentions (h : ∀ n ∈ u.mentions, n ∈ t.mentions) : r.Below u t :=
  fun _ ⟨m, hm, path⟩ => ⟨m, h m hm, path⟩

/-- A type meets what the types directly inside it meet, those of a record as they are on record. -/
theorem below_of_child (hs : r.shape t = .ok s) (hu : u ∈ s.toType.children) : r.Below u t := by
  unfold shape at hs
  cases ht : t.shape with
  | udt declared =>
    rw [ht] at hs
    obtain ⟨udt, hudt, rfl⟩ := map_eq_ok.mp hs
    obtain ⟨f, hf, rfl⟩ := List.mem_map.mp hu
    exact fun n => meets_of_field ht hudt hf
  | leaf kind =>
    rw [ht] at hs
    cases hs
    cases hu
  | list e | set e =>
    rw [ht] at hs
    cases hs
    cases List.mem_singleton.mp hu
    refine below_of_mentions fun n hn => ?_
    rwa [DataType.mentions_of_shape ht]
  | map k e =>
    rw [ht] at hs
    cases hs
    refine below_of_mentions fun n hn => ?_
    rw [DataType.mentions_of_shape ht]
    rcases List.mem_cons.mp hu with rfl | hu
    · exact List.mem_append_left _ hn
    · cases List.mem_singleton.mp hu
      exact List.mem_append_right _ hn
  | tuple ts =>
    rw [ht] at hs
    cases hs
    refine below_of_mentions fun n hn => ?_
    rw [DataType.mentions_of_shape ht]
    exact DataType.mem_mentionsEach.mpr ⟨u, hu, hn⟩

/-- A failure over a name comes from the names that a type meets: one of them is not on record, or
leads back to itself. -/
def Explained (r : Registry) (t : DataType) (x : Except Error α) : Prop :=
  ∀ e, x = .error e → e.IsAboutName → (e.IsEndless ∧ r.Loops t) ∨
    ∃ m, r.Meets t m ∧ r.contains m.1 m.2 = false ∧ e = .notRegistered m.1 m.2

namespace Explained

theorem ok (a : α) : r.Explained t (.ok a : Except Error α) :=
  fun _ h => nomatch h

theorem error (h : ¬e.IsAboutName) : r.Explained t (.error e : Except Error α) := by
  rintro _ ⟨⟩ hname
  exact absurd hname h

theorem of_size (h : FailsOnSize x) : r.Explained t x :=
  fun e he hname => absurd hname (h e he).not_isAboutName

theorem bind {next : α → Except Error β} (hx : r.Explained t x)
    (hnext : ∀ a, x = .ok a → r.Explained t (next a)) : r.Explained t (x >>= next) := by
  intro e h
  rcases bind_eq_error.mp h with h | ⟨a, ha, h⟩
  · exact hx e h
  · exact hnext a ha e h

theorem map {f : α → β} (hx : r.Explained t x) : r.Explained t (f <$> x) :=
  fun e h => hx e (map_eq_error.mp h)

theorem below (hut : r.Below u t) (hx : r.Explained u x) : r.Explained t x := by
  intro e he hname
  rcases hx e he hname with ⟨hend, m, hm, cycle⟩ | ⟨m, hm, hmissing⟩
  · exact .inl ⟨hend, m, hut m hm, cycle⟩
  · exact .inr ⟨m, hut m hm, hmissing⟩

theorem mapM {f : α → Except Error β} {l : List α} (h : ∀ a ∈ l, r.Explained t (f a)) :
    r.Explained t (l.mapM f) := by
  intro e he
  obtain ⟨a, ha, hae⟩ := mapM_eq_error he
  exact h a ha e hae

theorem framesOf {elements : List (Except Error Payload)}
    (h : ∀ x ∈ elements, r.Explained t x) : r.Explained t (Value.framesOf elements) := by
  intro e he
  rcases Value.framesOf_eq_error he with ⟨x, hx, hxe⟩ | hsize
  · exact h x hx e hxe
  · exact fun hname => absurd hname hsize.not_isAboutName

theorem lookup {declared : Udt} (ht : t.shape = .udt declared) :
    r.Explained t (r.lookup declared.keyspace declared.name) := by
  intro e he _
  obtain ⟨hmissing, rfl⟩ := lookup_eq_error he
  refine .inr ⟨(declared.keyspace, declared.name), ⟨_, ?_, .refl⟩, hmissing, rfl⟩
  rw [DataType.mentions_of_shape ht]
  exact List.mem_singleton_self _

end Explained

theorem explained_resolve (r : Registry) (t : DataType) : r.Explained t (r.resolve t) := by
  intro e he _
  refine (resolve_eq_error he).imp_left fun hend => ⟨hend, ?_⟩
  exact (endless_of_resolve ⟨e, he, hend⟩).2

theorem explained_order (r : Registry) (t : DataType) (a b : Value) : r.Explained t (r.order t a b) :=
  (explained_resolve r t).bind fun _ _ => .ok _

section Encoding

/-- The failures of a value's encoding are explained, whatever the type. -/
def ExplainedFor (r : Registry) (v : Value) : Prop :=
  ∀ (t : DataType) (frozen : Bool), r.Explained t (encodeAs r v t frozen)

namespace ExplainedFor

theorem element (h : r.ExplainedFor v) (t : DataType) : r.Explained t (encodeElement r t v) := by
  unfold encodeElement Value.payloadOf
  split
  · exact .ok none
  · exact .map (h t true)

theorem child (h : r.ExplainedFor v) (hs : r.shape t = .ok s) (hu : u ∈ s.toType.children) :
    r.Explained t (encodeElement r u v) :=
  (h.element u).below (below_of_child hs hu)

theorem leaf (hv : v.IsLeaf) : r.ExplainedFor v := by
  intro t frozen
  rw [Value.encodeAs_of_isLeaf hv]
  split
  · exact fun e he hname => absurd hname (Leaf.encode_error he)
  · exact .error not_false

theorem list (ih : ∀ v ∈ items, r.ExplainedFor v) : r.ExplainedFor (.list items) := by
  intro t frozen
  cases ht : t.shape with
  | list e =>
    have hs : r.shape t = .ok (.list e) := by rw [shape, ht]
    simp only [encodeAs, ht, Value.encodeItems_eq_framesOf]
    refine .bind (.of_size (.count _)) fun _ _ => .bind (.framesOf ?_) fun _ _ => .ok _
    exact List.forall_mem_map.mpr fun x hx => (ih x hx).child hs (List.mem_singleton_self e)
  | _ =>
    simp only [encodeAs, ht]
    exact .error not_false

theorem set (ih : ∀ v ∈ items, r.ExplainedFor v) : r.ExplainedFor (.set items) := by
  intro t frozen
  cases ht : t.shape with
  | set e =>
    have hs : r.shape t = .ok (.set e) := by rw [shape, ht]
    have inside : e ∈ (Shape.set e).toType.children := List.mem_singleton_self e
    simp only [encodeAs, ht, Value.elementPayloads_eq_mapM]
    refine .bind (.mapM fun x hx => .map ((ih x hx).child hs inside)) fun _ _ => ?_
    refine .bind ((explained_resolve r e).below (below_of_child hs inside)) fun _ _ => .of_size ?_
    exact .bind (.count _) fun _ _ => .bind (.payloads _) fun _ _ => .ok _
  | _ =>
    simp only [encodeAs, ht]
    exact .error not_false

theorem map {entries : List (Value × Value)}
    (ih : ∀ x ∈ entries, r.ExplainedFor x.1 ∧ r.ExplainedFor x.2) : r.ExplainedFor (.map entries) := by
  intro t frozen
  cases ht : t.shape with
  | map k e =>
    have hs : r.shape t = .ok (.map k e) := by rw [shape, ht]
    have key : k ∈ (Shape.map k e).toType.children := List.mem_cons_self
    have value : e ∈ (Shape.map k e).toType.children := List.mem_cons_of_mem k (List.mem_singleton_self e)
    simp only [encodeAs, ht, Value.entryPayloads_eq_mapM]
    refine .bind (.mapM fun x hx => ?_) fun _ _ => ?_
    · refine .bind ((ih x hx).1.child hs key) fun _ _ => ?_
      exact .bind ((ih x hx).2.child hs value) fun _ _ => .ok _
    · refine .bind ((explained_resolve r k).below (below_of_child hs key)) fun _ _ => .of_size ?_
      exact .bind (.count _) fun _ _ => .bind (.payloads _) fun _ _ => .ok _
  | _ =>
    simp only [encodeAs, ht]
    exact .error not_false

theorem positions {ts : List DataType} (ih : ∀ v ∈ items, r.ExplainedFor v)
    (hts : ∀ u ∈ ts, r.Below u t) : r.Explained t (encodePositions r items ts) := by
  induction items generalizing ts with
  | nil =>
    unfold encodePositions
    exact .of_size (.payloads _)
  | cons v items ih' =>
    obtain ⟨first, others⟩ := List.forall_mem_cons.mp ih
    cases ts with
    | nil => exact .of_size (.payloads _)
    | cons u ts =>
      obtain ⟨hu, hrest⟩ := List.forall_mem_cons.mp hts
      rw [encodePositions]
      refine .bind ((first.element u).below hu) fun _ _ => .bind (.of_size (.payload _)) fun _ _ => ?_
      exact .bind (ih' others hrest) fun _ _ => .ok _

theorem tuple (ih : ∀ v ∈ items, r.ExplainedFor v) : r.ExplainedFor (.tuple items) := by
  intro t frozen
  cases ht : t.shape with
  | tuple ts =>
    have hs : r.shape t = .ok (.tuple ts) := by rw [shape, ht]
    simp only [encodeAs, ht]
    split
    · exact positions ih fun u hu => below_of_child hs hu
    · exact .error not_false
  | _ =>
    simp only [encodeAs, ht]
    exact .error not_false

theorem record {fields : Fields} (ih : ∀ f ∈ fields, r.ExplainedFor f.2) :
    r.ExplainedFor (.record fields) := by
  intro t frozen
  cases ht : t.shape with
  | udt declared =>
    cases hudt : r.lookup declared.keyspace declared.name with
    | error err =>
      simp only [encodeAs, ht]
      refine .bind (.lookup ht) fun udt hu => ?_
      cases hudt.symm.trans hu
    | ok udt =>
      have hs : r.shape t = .ok (.udt udt) := by
        rw [shape, ht]
        exact map_eq_ok.mpr ⟨udt, hudt, rfl⟩
      cases hunknown : fields.find? fun f => (udt.fields.position? f.1).isNone with
      | some f =>
        rw [Value.encodeAs_unknown ht hudt hunknown]
        exact .error not_false
      | none =>
        rw [Value.encodeAs_record ht hudt (Value.find?_unknown_eq_none.mp hunknown)]
        refine .bind ?_ fun _ _ => .bind (.framesOf ?_) fun _ _ => .ok _
        · split
          · exact .ok []
          · exact .of_size (.count _)
        · refine List.forall_mem_map.mpr fun f hf => ?_
          have field : r.ExplainedFor (fields.getD f.1) := Fields.getD_of_forall (leaf trivial) ih f.1
          exact field.child hs (List.mem_map_of_mem hf)
  | _ =>
    simp only [encodeAs, ht]
    exact .error not_false

end ExplainedFor

theorem explainedFor (r : Registry) (v : Value) : r.ExplainedFor v := by
  induction v with
  | list items ih => exact .list ih
  | set items ih => exact .set ih
  | map entries ih => exact .map ih
  | tuple items ih => exact .tuple ih
  | record fields ih => exact .record ih
  | _ => exact .leaf trivial

theorem explained_encode (r : Registry) (t : DataType) (v : Value) (nested : Bool) :
    r.Explained t (encode r t v nested) := by
  unfold encode
  split
  · exact .error not_false
  · exact explainedFor r v t nested

end Encoding

section Decoding

variable {bytes : Bytes} {nested : Bool} {part : Part} {ps : List Payload}

theorem type_mem_children (hpart : part ∈ s.parts ps) : part.type ∈ s.toType.children := by
  cases s with
  | leaf kind => cases hpart
  | list e | set e =>
    obtain ⟨p, -, rfl⟩ := List.mem_map.mp hpart
    exact List.mem_singleton_self e
  | map k e =>
    simp only [Shape.parts] at hpart
    induction ps using Shape.inTurn.induct with
    | case1 => cases hpart
    | case2 p =>
      cases List.mem_singleton.mp hpart
      exact List.mem_cons_self
    | case3 p q rest ih =>
      rcases List.mem_cons.mp hpart with rfl | hpart
      · exact List.mem_cons_self
      rcases List.mem_cons.mp hpart with rfl | hpart
      · exact List.mem_cons_of_mem k (List.mem_singleton_self e)
      · exact ih hpart
  | tuple ts =>
    obtain ⟨i, hi, rfl⟩ := List.mem_iff_getElem.mp hpart
    simp [Shape.parts, Shape.toType, DataType.children]
  | udt u =>
    obtain ⟨i, hi, rfl⟩ := List.mem_iff_getElem.mp hpart
    simp only [Shape.parts, List.getElem_zipWith]
    exact List.mem_map_of_mem (List.getElem_mem _)

theorem explained_decode (r : Registry) (t : DataType) (bytes : Bytes) (nested : Bool) :
    r.Explained t (decode r t bytes nested) := by
  -- A part has fewer bytes than the whole, while its type may be any on record.
  induction hn : bytes.length using Nat.strong_induction_on generalizing t bytes nested with
  | _ n ih =>
    subst hn
    cases hs : r.shape t with
    | error err =>
      obtain ⟨declared, ht, hu⟩ := shape_eq_error hs
      rw [Value.decode_of_shape_error hs]
      rintro _ ⟨⟩
      exact Explained.lookup ht err hu
    | ok s =>
      cases hl : t.leaf? with
      | some kind =>
        rw [Value.decode_leaf (DataType.leaf?_eq_some.mp hl)]
        exact fun e he hname => absurd hname (Leaf.decode_error he).not_isAboutName
      | none =>
        rw [Value.decode_composite hs ((isComposite_shape hs).mpr hl)]
        refine .bind (fun e he hname => absurd hname (Shape.frames_error he).not_isAboutName) ?_
        rintro ⟨ps, tail⟩ hframes
        refine .bind (.mapM fun part hpart => ?_) fun xs _ => ?_
        · refine .below (below_of_child hs (type_mem_children hpart)) fun e he => ?_
          obtain ⟨body, hb, hbody⟩ := Value.read_error he
          exact ih body.length (Shape.length_lt_of_part hframes hpart hb) _ _ _ rfl e hbody
        · cases tail with
          | clean => exact .ok _
          | fault err => exact .error (Shape.frames_fault hframes).isUnreadable.not_isAboutName

theorem explained_decodeElement (r : Registry) (slot : Slot) (t : DataType) (p : Payload) :
    r.Explained t (Value.decodeElement r slot t p) := by
  unfold Value.decodeElement ofPayload
  split
  · exact .ok _
  · split
    · exact explained_decode r t [] true
    · exact .ok _
  · exact explained_decode r t _ true

end Decoding

end Registry

end CqlWire
