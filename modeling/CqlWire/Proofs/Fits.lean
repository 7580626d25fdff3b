import CqlWire.Type.Layout
import CqlWire.Value.Fields
import Mathlib.Data.List.Forall2

namespace CqlWire

namespace Kind

/-- The leaf values whose variant is the kind's own. -/
def Holds : Kind → Value → Prop
  | ascii, v => ∃ s, v = .ascii s
  | text, v => ∃ s, v = .text s
  | boolean, v => ∃ b, v = .boolean b
  | tinyint, v => ∃ n, v = .tinyint n
  | smallint, v => ∃ n, v = .smallint n
  | int, v => ∃ n, v = .int n
  | bigint, v => ∃ n, v = .bigint n
  | float, v => ∃ bits, v = .float bits
  | double, v => ∃ bits, v = .double bits
  | timestamp, v => ∃ millis, v = .timestamp millis
  | date, v => ∃ days, v = .date days
  | time, v => ∃ nanos, v = .time nanos
  | uuid, v => ∃ u, v = .uuid u
  | timeuuid, v => ∃ u, v = .timeuuid u
  | inet, v => ∃ a, v = .inet a
  | blob, v => ∃ bytes, v = .blob bytes
  | varint, v => ∃ n, v = .varint n
  | decimal, v => ∃ d, v = .decimal d
  | empty, v => v = .empty

/-- The leaf values that compare under a kind: those of either text kind under both, and random
identifiers among those of version 1. -/
def HoldsAlike (kind : Kind) (v : Value) : Prop :=
  match kind with
  | ascii | text => ascii.Holds v ∨ text.Holds v
  | timeuuid => uuid.Holds v ∨ timeuuid.Holds v
  | kind => kind.Holds v

theorem Holds.ne_null {kind : Kind} {v : Value} (h : kind.Holds v) : v ≠ .null := by
  rintro rfl
  cases kind <;> simp [Holds] at h

end Kind

/-- What makes a value one of a type, where more than one answer is of use. -/
structure Strictness where
  /-- The leaf values of a kind. -/
  leaf : Kind → Value → Prop
  /-- The entries that may stand together in a map with these types of keys and values. -/
  entries : (key value : DataType) → List (Value × Value) → Prop
  /-- The numbers of items in a tuple with a number of positions. -/
  arity : (positions items : Nat) → Prop
  /-- The records of a type with these fields. -/
  record : FieldTypes → Fields → Prop

/-- A strictness asks no less than another one. -/
structure Strictness.Implies (s s' : Strictness) : Prop where
  leaf : ∀ kind v, s.leaf kind v → s'.leaf kind v
  entries : ∀ k t entries, s.entries k t entries → s'.entries k t entries
  arity : ∀ positions items, s.arity positions items → s'.arity positions items
  record : ∀ types fields, s.record types fields → s'.record types fields

theorem Strictness.Implies.rfl {s : Strictness} : s.Implies s :=
  ⟨fun _ _ => id, fun _ _ _ => id, fun _ _ => id, fun _ _ => id⟩

/-- What the order of values needs: leaf values that compare, and nothing else. -/
def Strictness.comparable : Strictness where
  leaf := Kind.HoldsAlike
  entries _ _ _ := True
  arity _ _ := True
  record _ _ := True

namespace DataType

variable {s s' : Strictness}

mutual

/-- Whether a value is null or has the form of a type at every depth. -/
def Fits (s : Strictness) : DataType → Value → Prop
  | .leaf kind, v => v = .null ∨ s.leaf kind v
  | .list t, v => v = .null ∨ ∃ items, v = .list items ∧ ∀ x ∈ items, Fits s t x
  | .set t, v => v = .null ∨ ∃ items, v = .set items ∧ ∀ x ∈ items, Fits s t x
  | .map k t, v =>
    v = .null ∨ ∃ entries, v = .map entries ∧ s.entries k t entries ∧
      ∀ e ∈ entries, Fits s k e.1 ∧ Fits s t e.2
  | .tuple ts, v =>
    v = .null ∨ ∃ items, v = .tuple items ∧ s.arity ts.length items.length ∧ FitsEach s ts items
  | .udt _ _ types, v =>
    v = .null ∨ ∃ fields, v = .record fields ∧ s.record types fields ∧ FitsFields s types fields
  | .frozen t, v => Fits s t v

/-- Whether each position of a tuple has an item of its type or none. -/
def FitsEach (s : Strictness) : List DataType → List Value → Prop
  | [], _ => True
  | t :: ts, items => Fits s t (items.headD .null) ∧ FitsEach s ts items.tail

/-- Whether each field has a value of its type or none. -/
def FitsFields (s : Strictness) : List (String × DataType) → Fields → Prop
  | [], _ => True
  | (name, t) :: rest, fields => Fits s t (fields.getD name) ∧ FitsFields s rest fields

end

@[simp] theorem fits_null (s : Strictness) (t : DataType) : t.Fits s .null := by
  induction t with
  | frozen t ih => exact ih
  | _ => exact .inl rfl

theorem fitsEach_nil (s : Strictness) (ts : List DataType) : FitsEach s ts [] := by
  induction ts with
  | nil => trivial
  | cons t ts ih => exact ⟨fits_null s t, ih⟩

theorem fitsEach_replicate {t : DataType} {items : List Value} (h : ∀ x ∈ items, t.Fits s x)
    (n : Nat) : FitsEach s (List.replicate n t) items := by
  induction n generalizing items with
  | zero => trivial
  | succ n ih =>
    cases items with
    | nil => exact fitsEach_nil s _
    | cons x items => exact ⟨h x (by simp), ih fun y hy => h y (List.mem_of_mem_tail hy)⟩

theorem fitsFields_iff {types : FieldTypes} {fields : Fields} :
    FitsFields s types fields ↔ ∀ f ∈ types, f.2.Fits s (fields.getD f.1) := by
  induction types with
  | nil => simp [FitsFields]
  | cons f types ih =>
    obtain ⟨name, t⟩ := f
    simp [FitsFields, ih]

theorem fitsEach_iff {ts : List DataType} {items : List Value} (hl : items.length = ts.length) :
    FitsEach s ts items ↔ List.Forall₂ (Fits s) ts items := by
  induction ts generalizing items with
  | nil =>
    rw [List.length_eq_zero_iff.mp hl]
    exact ⟨fun _ => .nil, fun _ => trivial⟩
  | cons t ts ih =>
    obtain ⟨v, items, rfl⟩ := List.exists_cons_of_length_eq_add_one hl
    rw [List.forall₂_cons, ← ih (by simpa using hl)]
    rfl

theorem fitsEach_mono {ts : List DataType} {items : List Value}
    (h : ∀ t ∈ ts, ∀ v ∈ items, t.Fits s v → t.Fits s' v) (hf : FitsEach s ts items) :
    FitsEach s' ts items := by
  induction ts generalizing items with
  | nil => trivial
  | cons t ts ih =>
    cases items with
    | nil => exact fitsEach_nil s' _
    | cons v items =>
      refine ⟨h t (by simp) v (by simp) hf.1, ih (fun u hu w hw => ?_) hf.2⟩
      exact h u (by simp [hu]) w (List.mem_cons_of_mem v hw)

/-- What fits under a strictness fits under every weaker one. -/
theorem Fits.mono (hs : s.Implies s') {t : DataType} {v : Value} (h : t.Fits s v) :
    t.Fits s' v := by
  induction t generalizing v with
  | leaf kind => exact h.imp_right (hs.leaf kind v)
  | list t ih | set t ih =>
    refine h.imp_right ?_
    rintro ⟨items, rfl, hi⟩
    exact ⟨items, rfl, fun x hx => ih (hi x hx)⟩
  | map k t ihk iht =>
    refine h.imp_right ?_
    rintro ⟨entries, rfl, hk, he⟩
    exact ⟨entries, rfl, hs.entries k t _ hk, fun e hm => ⟨ihk (he e hm).1, iht (he e hm).2⟩⟩
  | tuple ts ih =>
    refine h.imp_right ?_
    rintro ⟨items, rfl, ha, he⟩
    exact ⟨items, rfl, hs.arity _ _ ha, fitsEach_mono (fun t ht v _ => ih t ht) he⟩
  | udt keyspace name types ih =>
    refine h.imp_right ?_
    rintro ⟨fields, rfl, hr, hf⟩
    refine ⟨fields, rfl, hs.record _ _ hr, fitsFields_iff.mpr fun f hm => ?_⟩
    exact ih f hm (fitsFields_iff.mp hf f hm)
  | frozen t ih => exact ih h

/-- A value fits a type as it fits the type without its frozen wrappers. -/
theorem fits_shape (s : Strictness) (t : DataType) (v : Value) :
    t.Fits s v ↔ t.shape.toType.Fits s v := by
  induction t with
  | frozen t ih => exact ih
  | _ => rfl

end DataType

end CqlWire
