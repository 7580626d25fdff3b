import CqlWire.Proofs.Faults
import CqlWire.Proofs.Records

namespace CqlWire

open Value (decode unbounded ofPayload)

variable {r : Registry} {t u k e : DataType} {s : Shape} {v w : Value} {ps : List Payload}
  {bytes : Bytes} {nested : Bool} {xs : List (Payload × Value)} {d : Value.Decoder}

namespace Shape

/-- The values directly inside a value of the shape, each with its type; absent fields as null. -/
def contents : Shape → Value → List (DataType × Value)
  | list e, .list items | set e, .set items => items.map (Prod.mk e)
  | map k e, .map entries => entries.flatMap fun x => [(k, x.1), (e, x.2)]
  | tuple ts, .tuple items => ts.zip items
  | udt u, .record fields => u.fields.map fun f => (f.2, Fields.getD fields f.1)
  | _, _ => []

theorem type_mem_children_of_mem_contents (hy : y ∈ s.contents v) : y.1 ∈ s.toType.children := by
  unfold contents at hy
  split at hy
  case h_3 k e entries =>
    obtain ⟨entry, -, hy⟩ := List.mem_flatMap.mp hy
    rcases List.mem_pair.mp hy with rfl | rfl
    · exact List.mem_cons_self
    · exact List.mem_cons_of_mem k (List.mem_singleton_self e)
  case h_4 => exact (List.of_mem_zip hy).1
  case h_5 =>
    obtain ⟨f, hf, rfl⟩ := List.mem_map.mp hy
    exact List.mem_map_of_mem hf
  case h_6 => cases hy
  all_goals
    obtain ⟨_, -, rfl⟩ := List.mem_map.mp hy
    exact List.mem_singleton_self _

/-- No two fields of a record have one name. -/
def HasDistinctNames : Shape → Prop
  | udt u => u.HasDistinctNames
  | _ => True

end Shape

theorem Registry.WellFormed.shape (hr : r.WellFormed) (hs : r.shape t = .ok s) :
    s.HasDistinctNames := by
  unfold Registry.shape at hs
  split at hs
  next declared _ =>
    obtain ⟨udt, hu, rfl⟩ := map_eq_ok.mp hs
    exact hr.lookup hu
  next s hne =>
    cases hs
    cases ht : t.shape with
    | udt declared => exact absurd ht (hne declared)
    | _ => trivial

/-- A value of one type stands directly inside a value of another one. -/
def Registry.Holds (r : Registry) (x y : DataType × Value) : Prop :=
  ∃ s, r.shape x.1 = .ok s ∧ y ∈ s.contents x.2

/-- A value stands directly inside another one. -/
def Value.Holds (v w : Value) : Prop :=
  ∃ place, (place, w) ∈ v.contents

namespace Value

theorem contents_of_isLeaf (h : v.IsLeaf) : v.contents = [] := by
  cases v <;> cases h <;> rfl

theorem ofPayload_eq_ok {slot : Slot} {p : Payload} (h : ofPayload d slot t p = .ok w) :
    w = .null ∨ ∃ body, p = some body ∧ d t body = .ok w := by
  match p with
  | none =>
    cases h
    exact .inl rfl
  | some [] =>
    rw [ofPayload] at h
    split at h
    next => exact .inr ⟨[], rfl, h⟩
    next =>
      cases h
      exact .inl rfl
  | some (b :: body) => exact .inr ⟨b :: body, rfl, h⟩

end Value

namespace Shape

theorem mem_of_mem_entriesOf {x : Payload × Value × Value} (hx : x ∈ entriesOf xs) :
    (x.1, x.2.1) ∈ xs ∧ ∃ p, (p, x.2.2) ∈ xs := by
  induction xs using entriesOf.induct with
  | case1 key value rest ih =>
    rcases List.mem_cons.mp hx with rfl | hx
    · exact ⟨List.mem_cons_self, value.1, List.mem_cons_of_mem key List.mem_cons_self⟩
    · obtain ⟨hk, p, hp⟩ := ih hx
      exact ⟨List.mem_cons_of_mem _ (List.mem_cons_of_mem _ hk), p,
        List.mem_cons_of_mem _ (List.mem_cons_of_mem _ hp)⟩
  | case2 xs hne =>
    match xs with
    | [] | [_] => cases hx
    | key :: value :: rest => exact absurd rfl (hne key value rest)

theorem null_or_mem_of_mem_padded {n : Nat} {items : List Value} (hw : w ∈ padded n items) :
    w = .null ∨ w ∈ items :=
  (List.mem_append.mp hw).symm.imp_left List.eq_of_mem_replicate

/-- What stands inside a value that is made of its parts is null or one of them. -/
theorem null_or_mem_of_holds (hw : (s.assemble xs).Holds w) : w = .null ∨ w ∈ xs.map Prod.snd := by
  obtain ⟨place, hw⟩ := hw
  cases s with
  | leaf kind => cases hw
  | list e =>
    obtain ⟨_, hm, ⟨⟩⟩ := List.mem_map.mp hw
    exact .inr hm
  | set e =>
    obtain ⟨_, hm, ⟨⟩⟩ := List.mem_map.mp hw
    obtain ⟨x, hx, rfl⟩ := List.mem_map.mp hm
    exact .inr (List.mem_map_of_mem (mem_of_mem_distinctBy hx))
  | map k e =>
    obtain ⟨_, hm, hw⟩ := List.mem_flatMap.mp hw
    obtain ⟨x, hx, rfl⟩ := List.mem_map.mp hm
    obtain ⟨hkey, p, hvalue⟩ := mem_of_mem_entriesOf (mem_of_mem_distinctBy hx)
    rcases List.mem_pair.mp hw with hw | hw <;> cases hw
    · exact .inr (List.mem_map_of_mem hkey)
    · exact .inr (List.mem_map_of_mem hvalue)
  | tuple ts =>
    obtain ⟨_, hm, ⟨⟩⟩ := List.mem_map.mp hw
    exact null_or_mem_of_mem_padded hm
  | udt udt =>
    obtain ⟨f, hf, ⟨⟩⟩ := List.mem_map.mp hw
    exact null_or_mem_of_mem_padded (List.of_mem_zip (Fields.mem_ofList hf)).2

end Shape

/-- Bytes that stand for a value of the type, as a column or inside another value. -/
structure Encoded where
  type : DataType
  bytes : Bytes
  nested : Bool

namespace Encoded

variable {x y : Encoded}

def decode (r : Registry) (x : Encoded) : Except Error Value :=
  Value.decode r x.type x.bytes x.nested

/-- The bytes of a value are framed in those of another one, as a part of it. -/
def Encloses (r : Registry) (x y : Encoded) : Prop :=
  ∃ s ps, r.shape x.type = .ok s ∧ s.frames (x.nested || x.type.isFrozen) x.bytes = .ok (ps, .clean) ∧
    y.nested = true ∧ ∃ part ∈ s.parts ps, part.type = y.type ∧ part.payload = some y.bytes

/-- A decoded value with others inside it is made of the parts that its bytes frame. -/
theorem exists_parts (hv : ¬v.IsLeaf) (h : x.decode r = .ok v) :
    ∃ s ps xs, r.shape x.type = .ok s ∧
      s.frames (x.nested || x.type.isFrozen) x.bytes = .ok (ps, .clean) ∧
      (s.parts ps).mapM (Part.read (unbounded r)) = .ok xs ∧ s.assemble xs = v := by
  rw [decode] at h
  cases hl : x.type.leaf? with
  | some kind =>
    rw [Value.decode_leaf (DataType.leaf?_eq_some.mp hl)] at h
    exact absurd (Leaf.encode_of_decode h).1.isLeaf hv
  | none =>
    cases hs : r.shape x.type with
    | error err => cases (Value.decode_of_shape_error hs x.nested).symm.trans h
    | ok s =>
      rw [Value.decode_composite hs ((Registry.isComposite_shape hs).mpr hl)] at h
      obtain ⟨⟨ps, tail⟩, hps, h⟩ := bind_eq_ok.mp h
      obtain ⟨xs, hxs, h⟩ := bind_eq_ok.mp h
      obtain ⟨rfl, hv⟩ := Value.close_eq_ok.mp h
      exact ⟨s, ps, xs, rfl, hps, hxs, hv⟩

theorem exists_encloses (h : x.decode r = .ok v) (hw : v.Holds w) :
    w = .null ∨ ∃ y, x.Encloses r y ∧ y.decode r = .ok w := by
  by_cases hv : v.IsLeaf
  · obtain ⟨place, hw⟩ := hw
    rw [Value.contents_of_isLeaf hv] at hw
    cases hw
  · obtain ⟨s, ps, xs, hs, hps, hxs, rfl⟩ := exists_parts hv h
    refine (Shape.null_or_mem_of_holds hw).elim .inl fun hm => ?_
    obtain ⟨z, hz, rfl⟩ := List.mem_map.mp hm
    obtain ⟨part, hpart, hread⟩ := (mapM_eq_ok.mp hxs).exists_mem_left hz
    obtain ⟨w, hvalue, rfl⟩ := map_eq_ok.mp hread
    refine (Value.ofPayload_eq_ok hvalue).imp_right fun ⟨body, hbody, hd⟩ => ?_
    exact ⟨⟨part.type, body, true⟩, ⟨s, ps, hs, hps, rfl, part, hpart, rfl, hbody⟩, hd⟩

/-- Whatever stands inside a decoded value, at any depth, is null or decoded from bytes inside those
of the whole. -/
theorem exists_inside (h : x.decode r = .ok v) (hw : Relation.ReflTransGen Value.Holds v w) :
    w = .null ∨ ∃ y, Relation.ReflTransGen (Encloses r) x y ∧ y.decode r = .ok w := by
  induction hw with
  | refl => exact .inr ⟨x, .refl, h⟩
  | tail _ step ih =>
    rcases ih with rfl | ⟨y, path, hy⟩
    · obtain ⟨place, hw⟩ := step
      cases hw
    · exact (exists_encloses hy step).imp_right fun ⟨z, hz, hd⟩ => ⟨z, path.tail hz, hd⟩

end Encoded

end CqlWire
