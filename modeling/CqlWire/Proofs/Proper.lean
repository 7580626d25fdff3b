import CqlWire.Proofs.Reload

namespace CqlWire

namespace FieldTypes

variable {fields declarations : FieldTypes} {f : String × DataType} {w : String × DataType → Nat}

/-- A field that takes the place of another one adds less than its weight. -/
theorem sum_map_declare (hw : ∀ f, 0 < w f) (fields : FieldTypes) (name : String) (type : DataType) :
    ((declare fields name type).map w).sum ≤ (fields.map w).sum + w (name, type) ∧
      (name ∈ fields.map Prod.fst →
        ((declare fields name type).map w).sum < (fields.map w).sum + w (name, type)) := by
  induction fields with
  | nil => simp [declare]
  | cons f fields ih =>
    obtain ⟨other, t⟩ := f
    unfold declare
    split
    next heq =>
      have pos := hw (other, t)
      subst heq
      simp only [List.map_cons, List.sum_cons]
      omega
    next hne =>
      simp only [List.map_cons, List.sum_cons, List.mem_cons, or_iff_right (Ne.symm hne)]
      exact ⟨by omega, fun hm => by have := ih.2 hm; omega⟩

/-- Fields are declared without loss just when they have names of their own. -/
theorem sum_map_ofList (hw : ∀ f, 0 < w f) (declarations : FieldTypes) :
    ((ofList declarations).map w).sum ≤ (declarations.map w).sum ∧
      (((ofList declarations).map w).sum = (declarations.map w).sum →
        (declarations.map Prod.fst).Nodup) := by
  have declared (declarations acc : FieldTypes) (h : (acc.map Prod.fst).Nodup) :
      ((declarations.foldl (fun fields d => declare fields d.1 d.2) acc).map w).sum ≤
          (acc.map w).sum + (declarations.map w).sum ∧
        (((declarations.foldl (fun fields d => declare fields d.1 d.2) acc).map w).sum =
            (acc.map w).sum + (declarations.map w).sum →
          ((acc ++ declarations).map Prod.fst).Nodup) := by
    induction declarations generalizing acc with
    | nil => simpa using h
    | cons d declarations ih =>
      obtain ⟨name, type⟩ := d
      obtain ⟨hle, hlt⟩ := sum_map_declare hw acc name type
      obtain ⟨hsum, hnodup⟩ := ih _ (nodup_declare h name type)
      simp only [List.foldl_cons, List.map_cons, List.sum_cons]
      refine ⟨by omega, fun heq => ?_⟩
      have hnew : name ∉ acc.map Prod.fst := fun hm => by
        have lost := hlt hm
        omega
      have distinct := hnodup (by omega)
      rwa [declare_of_not_mem type hnew, List.append_assoc] at distinct
  have total := declared declarations [] List.nodup_nil
  rwa [List.map_nil, List.sum_nil, Nat.zero_add, List.nil_append] at total

theorem map_fst_ofList_subset (declarations : FieldTypes) :
    (ofList declarations).map Prod.fst ⊆ declarations.map Prod.fst := by
  have declared (declarations acc : FieldTypes) :
      (declarations.foldl (fun fields d => declare fields d.1 d.2) acc).map Prod.fst ⊆
        acc.map Prod.fst ++ declarations.map Prod.fst := by
    induction declarations generalizing acc with
    | nil => simp
    | cons d declarations ih =>
      refine List.Subset.trans (ih (declare acc d.1 d.2)) ?_
      rw [map_fst_declare]
      split <;> simp
  exact declared declarations []

theorem length_ofList_le (declarations : FieldTypes) :
    (ofList declarations).length ≤ declarations.length := by
  have names := (ofList_nodup declarations).subperm (map_fst_ofList_subset declarations)
  simpa using names.length_le

end FieldTypes

namespace DataType

mutual

/-- The type as the builders give it: what is frozen twice over is frozen once, and of fields with
one name there is the first one, with the type of the last. -/
def proper : DataType → DataType
  | .leaf kind => .leaf kind
  | .list t => .list (proper t)
  | .set t => .set (proper t)
  | .map k v => .map (proper k) (proper v)
  | .tuple ts => .tuple (properEach ts)
  | .udt keyspace name fields => .udt keyspace name (FieldTypes.ofList (properFields fields))
  | .frozen t => (proper t).freeze

def properEach : List DataType → List DataType
  | [] => []
  | t :: ts => proper t :: properEach ts

def properFields : List (String × DataType) → List (String × DataType)
  | [] => []
  | (name, t) :: fields => (name, proper t) :: properFields fields

end

variable {t : DataType} {P : DataType → Prop}

theorem properEach_eq_map (ts : List DataType) : properEach ts = ts.map proper := by
  induction ts with
  | nil => rfl
  | cons t ts ih => rw [properEach, ih, List.map_cons]

theorem properFields_eq_map (fields : FieldTypes) :
    properFields fields = fields.map fun f => (f.1, f.2.proper) := by
  induction fields with
  | nil => rfl
  | cons f fields ih => rw [properFields, ih, List.map_cons]

theorem map_fst_properFields (fields : FieldTypes) :
    (properFields fields).map Prod.fst = fields.map Prod.fst := by
  rw [properFields_eq_map, List.map_map]
  rfl

theorem length_properFields (fields : FieldTypes) : (properFields fields).length = fields.length := by
  rw [properFields_eq_map, List.length_map]

/-- What holds of the types of all fields, each made proper, holds of those that are left. -/
theorem forall_mem_ofList_properFields {fields : FieldTypes} (h : ∀ f ∈ fields, P f.2.proper) :
    ∀ f ∈ FieldTypes.ofList (properFields fields), P f.2 := by
  intro f hf
  obtain ⟨g, hg, hgf⟩ := FieldTypes.exists_mem_of_mem_ofList hf
  rw [properFields_eq_map] at hg
  obtain ⟨f', hf', rfl⟩ := List.mem_map.mp hg
  rw [← hgf]
  exact h f' hf'

theorem freeze_cases (t : DataType) :
    (∃ u, t = .frozen u ∧ t.freeze = t) ∨ (∀ u, t ≠ .frozen u) ∧ t.freeze = .frozen t := by
  cases t with
  | frozen t => exact .inl ⟨t, rfl, rfl⟩
  | _ => exact .inr ⟨nofun, rfl⟩

theorem freeze_eq (h : ∀ u, t ≠ .frozen u) : t.freeze = .frozen t :=
  (freeze_cases t).elim (fun ⟨u, hu, _⟩ => absurd hu (h u)) And.right

theorem WellNamed.freeze (h : t.WellNamed) : t.freeze.WellNamed :=
  throughout_freeze nofun h

theorem FrozenOnce.freeze (h : t.FrozenOnce) : t.freeze.FrozenOnce := by
  rcases freeze_cases t with ⟨u, -, hfreeze⟩ | ⟨hne, hfreeze⟩
  · rwa [hfreeze]
  · rw [hfreeze]
    exact frozenOnce_frozen.mpr ⟨hne, h⟩

theorem wellNamed_proper (t : DataType) : t.proper.WellNamed := by
  induction t with
  | leaf kind => exact wellNamed_leaf
  | list t ih => exact wellNamed_list.mpr ih
  | set t ih => exact wellNamed_set.mpr ih
  | map k v ihk ihv => exact wellNamed_map.mpr ⟨ihk, ihv⟩
  | tuple ts ih =>
    rw [proper, properEach_eq_map]
    exact wellNamed_tuple.mpr (List.forall_mem_map.mpr ih)
  | udt keyspace name fields ih =>
    have distinct := FieldTypes.ofList_nodup (properFields fields)
    exact wellNamed_udt.mpr ⟨distinct, forall_mem_ofList_properFields ih⟩
  | frozen t ih => exact ih.freeze

theorem frozenOnce_proper (t : DataType) : t.proper.FrozenOnce := by
  induction t with
  | leaf kind => exact frozenOnce_leaf
  | list t ih => exact frozenOnce_list.mpr ih
  | set t ih => exact frozenOnce_set.mpr ih
  | map k v ihk ihv => exact frozenOnce_map.mpr ⟨ihk, ihv⟩
  | tuple ts ih =>
    rw [proper, properEach_eq_map]
    exact frozenOnce_tuple.mpr (List.forall_mem_map.mpr ih)
  | udt keyspace name fields ih =>
    exact frozenOnce_udt.mpr (forall_mem_ofList_properFields ih)
  | frozen t ih => exact ih.freeze

theorem properFields_eq_self {fields : FieldTypes} (h : ∀ f ∈ fields, f.2.proper = f.2) :
    properFields fields = fields := by
  rw [properFields_eq_map]
  refine (List.map_congr_left fun f hf => ?_).trans (List.map_id fields)
  rw [h f hf]
  rfl

theorem properEach_eq_self {ts : List DataType} (h : ∀ t ∈ ts, t.proper = t) : properEach ts = ts := by
  rw [properEach_eq_map]
  exact (List.map_congr_left h).trans (List.map_id ts)

theorem proper_eq_self (hn : t.WellNamed) (hf : t.FrozenOnce) : t.proper = t := by
  induction t with
  | leaf kind => rfl
  | list t ih => rw [proper, ih (wellNamed_list.mp hn) (frozenOnce_list.mp hf)]
  | set t ih => rw [proper, ih (wellNamed_set.mp hn) (frozenOnce_set.mp hf)]
  | map k v ihk ihv =>
    obtain ⟨hnk, hnv⟩ := wellNamed_map.mp hn
    obtain ⟨hfk, hfv⟩ := frozenOnce_map.mp hf
    rw [proper, ihk hnk hfk, ihv hnv hfv]
  | tuple ts ih =>
    have hns := wellNamed_tuple.mp hn
    have hfs := frozenOnce_tuple.mp hf
    rw [proper, properEach_eq_self fun t ht => ih t ht (hns t ht) (hfs t ht)]
  | udt keyspace name fields ih =>
    obtain ⟨distinct, hns⟩ := wellNamed_udt.mp hn
    have hfs := frozenOnce_udt.mp hf
    rw [proper, properFields_eq_self fun f hm => ih f hm (hns f hm) (hfs f hm),
      FieldTypes.ofList_eq_self distinct]
  | frozen t ih =>
    obtain ⟨hne, inside⟩ := frozenOnce_frozen.mp hf
    rw [proper, ih (wellNamed_frozen.mp hn) inside, freeze_eq hne]

theorem proper_eq_self_iff : t.proper = t ↔ t.WellNamed ∧ t.FrozenOnce :=
  ⟨fun h => h ▸ ⟨wellNamed_proper t, frozenOnce_proper t⟩, fun ⟨hn, hf⟩ => proper_eq_self hn hf⟩

mutual

/-- The number of bytes in the binary form of a type. -/
def span : DataType → Nat
  | .leaf _ => 1
  | .list t | .set t | .frozen t => span t + 1
  | .map k v => span k + span v + 1
  | .tuple ts => spanEach ts + (lengthSize + 1)
  | .udt keyspace name fields =>
    spanFields fields + ((Text.toBytes keyspace).length + (Text.toBytes name).length +
      (3 * lengthSize + 1))

def spanEach : List DataType → Nat
  | [] => 0
  | t :: ts => span t + spanEach ts

def spanFields : List (String × DataType) → Nat
  | [] => 0
  | (name, t) :: fields => lengthSize + (Text.toBytes name).length + span t + spanFields fields

end

/-- The number of bytes in the binary form of a field. -/
def fieldSpan (f : String × DataType) : Nat :=
  lengthSize + (Text.toBytes f.1).length + f.2.span

theorem spanEach_eq_sum (ts : List DataType) : spanEach ts = (ts.map span).sum := by
  induction ts with
  | nil => rfl
  | cons t ts ih => rw [spanEach, ih, List.map_cons, List.sum_cons]

theorem spanFields_eq_sum (fields : FieldTypes) : spanFields fields = (fields.map fieldSpan).sum := by
  induction fields with
  | nil => rfl
  | cons f fields ih => rw [spanFields, ih, List.map_cons, List.sum_cons, fieldSpan]

/-- Sums of parts that are no larger are equal only where all parts are. -/
theorem sum_map_le {α : Type} {f g : α → Nat} {P : α → Prop} {as : List α}
    (h : ∀ a ∈ as, f a ≤ g a ∧ (f a = g a → P a)) :
    (as.map f).sum ≤ (as.map g).sum ∧ ((as.map f).sum = (as.map g).sum → ∀ a ∈ as, P a) := by
  induction as with
  | nil => simp
  | cons a as ih =>
    obtain ⟨⟨hle, hP⟩, others⟩ := List.forall_mem_cons.mp h
    obtain ⟨hsum, heach⟩ := ih others
    simp only [List.map_cons, List.sum_cons]
    exact ⟨by omega, fun heq => List.forall_mem_cons.mpr ⟨hP (by omega), heach (by omega)⟩⟩

/-- What the builders would give otherwise is longer. -/
theorem span_proper (t : DataType) :
    t.proper.span ≤ t.span ∧ (t.proper.span = t.span → t.proper = t) := by
  induction t with
  | leaf kind => exact ⟨Nat.le_refl _, fun _ => rfl⟩
  | list t ih =>
    exact ⟨Nat.succ_le_succ ih.1, fun heq => congrArg list (ih.2 (Nat.succ.inj heq))⟩
  | set t ih =>
    exact ⟨Nat.succ_le_succ ih.1, fun heq => congrArg set (ih.2 (Nat.succ.inj heq))⟩
  | map k v ihk ihv =>
    rw [proper, span, span]
    refine ⟨by omega, fun heq => ?_⟩
    rw [ihk.2 (by omega), ihv.2 (by omega)]
  | tuple ts ih =>
    obtain ⟨hle, heach⟩ := sum_map_le ih
    rw [proper, span, span, spanEach_eq_sum, spanEach_eq_sum, properEach_eq_map, List.map_map]
    refine ⟨Nat.add_le_add_right hle _, fun heq => ?_⟩
    rw [← properEach_eq_map, properEach_eq_self (heach (Nat.add_right_cancel heq))]
  | udt keyspace name fields ih =>
    have step : ∀ f ∈ fields, fieldSpan (f.1, f.2.proper) ≤ fieldSpan f ∧
        (fieldSpan (f.1, f.2.proper) = fieldSpan f → f.2.proper = f.2) := by
      intro f hf
      obtain ⟨hle, hproper⟩ := ih f hf
      exact ⟨Nat.add_le_add_left hle _, fun heq => hproper (Nat.add_left_cancel heq)⟩
    have each := sum_map_le step
    have sums : ((properFields fields).map fieldSpan).sum =
        (fields.map fun f => fieldSpan (f.1, f.2.proper)).sum := by
      rw [properFields_eq_map, List.map_map]
      rfl
    rw [← sums] at each
    obtain ⟨hle, heach⟩ := each
    obtain ⟨hdeclared, hdistinct⟩ := FieldTypes.sum_map_ofList (w := fieldSpan)
      (fun f => by simp only [fieldSpan, lengthSize]; omega) (properFields fields)
    rw [proper, span, span, spanFields_eq_sum, spanFields_eq_sum]
    refine ⟨by omega, fun heq => ?_⟩
    rw [FieldTypes.ofList_eq_self (hdistinct (by omega)), properFields_eq_self (heach (by omega))]
  | frozen t ih =>
    rw [proper, span]
    rcases freeze_cases t.proper with ⟨u, hu, hfreeze⟩ | ⟨hne, hfreeze⟩
    · rw [hfreeze]
      exact ⟨by omega, fun heq => by omega⟩
    · rw [hfreeze, span]
      exact ⟨Nat.succ_le_succ ih.1, fun heq => congrArg frozen (ih.2 (Nat.succ.inj heq))⟩

end DataType

end CqlWire
