import CqlWire.Proofs.LeafOrder
import CqlWire.Proofs.Sorting

namespace CqlWire.DataType

/-- Null is less than every other value. -/
theorem order_null_left (t : DataType) (v : Value) :
    t.order .null v = if v.isNull then .eq else .lt := by
  induction t with
  | frozen t ih => exact ih
  | _ => exact Value.nullsFirst_null_left v _

theorem order_null_right (t : DataType) (v : Value) :
    t.order v .null = if v.isNull then .eq else .gt := by
  induction t with
  | frozen t ih => exact ih
  | _ => exact Value.nullsFirst_null_right v _

/-- The order of lists is that of tuples with enough positions of one type: what a list lacks is
null. -/
theorem sequenceOrder_eq_positionsOrder (t : DataType) {n : Nat} {as bs : List Value}
    (ha : as.length ≤ n) (hb : bs.length ≤ n) :
    Value.sequenceOrder (fun a b => t.order a b) as bs =
      positionsOrder (List.replicate n t) as bs := by
  induction n generalizing as bs with
  | zero =>
    have ha : as = [] := List.length_eq_zero_iff.mp (by omega)
    have hb : bs = [] := List.length_eq_zero_iff.mp (by omega)
    subst ha hb
    rfl
  | succ n ih =>
    cases as with
    | nil =>
      cases bs with
      | nil =>
        have h := @ih [] [] (by simp) (by simp)
        simpa [List.replicate_succ, positionsOrder, order_null_left, Value.isNull] using h
      | cons b bs =>
        have h := @ih [] bs (by simp) (by simpa using hb)
        simp only [List.replicate_succ, positionsOrder, List.headD_nil, List.headD_cons,
          List.tail_nil, List.tail_cons, ← h, order_null_left]
        cases hn : b.isNull <;> simp [Value.sequenceOrder, hn]
    | cons a as =>
      cases bs with
      | nil =>
        have h := @ih as [] (by simpa using ha) (by simp)
        simp only [List.replicate_succ, positionsOrder, List.headD_nil, List.headD_cons,
          List.tail_nil, List.tail_cons, ← h, order_null_right]
        cases hn : a.isNull <;> cases as <;> simp [Value.sequenceOrder, hn]
      | cons b bs =>
        have h := @ih as bs (by simpa using ha) (by simpa using hb)
        simp [List.replicate_succ, positionsOrder, Value.sequenceOrder, h]

variable {s : Strictness}

theorem positionsOrder_orderedOn {ts : List DataType}
    (h : ∀ t ∈ ts, OrderedOn (t.Fits s) t.order) :
    OrderedOn (FitsEach s ts) (positionsOrder ts) := by
  induction ts with
  | nil => exact OrderedOn.const _
  | cons t ts ih =>
    have head := (h t (by simp)).comap (R := FitsEach s (t :: ts))
      (fun items => items.headD .null) fun _ hf => hf.1
    have tail := (ih fun u hu => h u (by simp [hu])).comap (R := FitsEach s (t :: ts))
      List.tail fun _ hf => hf.2
    exact head.lex tail

theorem fieldsOrder_orderedOn {types : FieldTypes}
    (h : ∀ f ∈ types, OrderedOn (f.2.Fits s) f.2.order) :
    OrderedOn (FitsFields s types) (fieldsOrder types) := by
  induction types with
  | nil => exact OrderedOn.const _
  | cons f types ih =>
    obtain ⟨name, t⟩ := f
    have head := (h (name, t) (by simp)).comap (R := FitsFields s ((name, t) :: types))
      (fun fields => fields.getD name) fun _ hf => hf.1
    have tail := (ih fun g hg => h g (by simp [hg])).mono
      (Q := FitsFields s ((name, t) :: types)) fun _ hf => hf.2
    exact head.lex tail

theorem sequenceOrder_orderedOn {t : DataType} (h : OrderedOn (t.Fits s) t.order) :
    OrderedOn (fun items => ∀ x ∈ items, t.Fits s x)
      (Value.sequenceOrder fun a b => t.order a b) := by
  -- Three lists at most are compared at a time, so one number of positions serves them all.
  have padded (n : Nat) : OrderedOn (fun items => (∀ x ∈ items, t.Fits s x) ∧ items.length ≤ n)
      (Value.sequenceOrder fun a b => t.order a b) := by
    have positions : OrderedOn (FitsEach s (List.replicate n t)) (positionsOrder (List.replicate n t)) :=
      positionsOrder_orderedOn fun u hu => by
        rw [List.eq_of_mem_replicate hu]
        exact h
    refine (positions.mono fun items hi => fitsEach_replicate hi.1 n).congr fun as bs ha hb => ?_
    exact sequenceOrder_eq_positionsOrder t ha.2 hb.2
  constructor
  · intro as bs ha hb
    exact (padded (as.length + bs.length)).swap ⟨ha, by omega⟩ ⟨hb, by omega⟩
  · intro as bs cs ha hb hc
    exact (padded (as.length + bs.length + cs.length)).trans ⟨ha, by omega⟩ ⟨hb, by omega⟩
      ⟨hc, by omega⟩

theorem entriesOrder_orderedOn {P Q : Value → Prop} {keyOrder valueOrder : Value → Value → Ordering}
    (hk : OrderedOn P keyOrder) (hv : OrderedOn Q valueOrder) :
    OrderedOn (fun entries => ∀ e ∈ entries, P e.1 ∧ Q e.2)
      (Value.entriesOrder keyOrder valueOrder) := by
  have entry : OrderedOn (fun e : Value × Value => P e.1 ∧ Q e.2)
      fun a b => (keyOrder a.1 b.1).then (valueOrder a.2 b.2) :=
    (hk.comap Prod.fst fun _ h => h.1).lex (hv.comap Prod.snd fun _ h => h.2)
  have cons (a b : Value × Value) (as bs : List (Value × Value)) :
      Value.entriesOrder keyOrder valueOrder (a :: as) (b :: bs) =
        ((keyOrder a.1 b.1).then (valueOrder a.2 b.2)).then
          (Value.entriesOrder keyOrder valueOrder as bs) := by
    rw [Ordering.then_assoc]
    rfl
  constructor
  · intro as bs ha hb
    induction as generalizing bs with
    | nil => cases bs <;> rfl
    | cons a as ih =>
      cases bs with
      | nil => rfl
      | cons b bs =>
        simp only [List.forall_mem_cons] at ha hb
        rw [cons, cons, entry.swap ha.1 hb.1, ih ha.2 hb.2]
        exact (Ordering.swap_then _ _).symm
  · intro as bs cs ha hb hc hab hbc
    induction as generalizing bs cs with
    | nil => cases cs <;> rfl
    | cons a as ih =>
      cases bs with
      | nil => cases hab
      | cons b bs =>
        cases cs with
        | nil => cases hbc
        | cons c cs =>
          simp only [List.forall_mem_cons] at ha hb hc
          rw [cons, Ordering.isLE_then_iff_and] at hab hbc ⊢
          refine ⟨entry.trans ha.1 hb.1 hc.1 hab.1 hbc.1, ?_⟩
          rcases hab.2 with lt | hrest
          · exact .inl (entry.lt_trans_isLE ha.1 hb.1 hc.1 lt hbc.1)
          · rcases hbc.2 with lt | hrest'
            · exact .inl (entry.isLE_trans_lt ha.1 hb.1 hc.1 hab.1 lt)
            · exact .inr (ih ha.2 hb.2 hc.2 hrest hrest')

/-- Composite values of one variant are ordered by what they carry, null before them. -/
theorem composite_orderedOn {β : Type _} {mk : β → Value} {R : β → Prop} {inner : β → β → Ordering}
    {P : Value → Prop} {order : Value → Value → Ordering} (h : OrderedOn R inner)
    (e : ∀ x y, order (mk x) (mk y) = inner x y) (hP : ∀ v, P v → v = .null ∨ ∃ x, v = mk x ∧ R x) :
    OrderedOn P fun a b => Value.nullsFirst a b (order a b) := by
  refine Value.nullsFirst_orderedOn ⟨?_, ?_⟩
  · rintro a b ⟨ha, na⟩ ⟨hb, nb⟩
    obtain ⟨x, rfl, hx⟩ := (hP a ha).resolve_left na
    obtain ⟨y, rfl, hy⟩ := (hP b hb).resolve_left nb
    rw [e, e]
    exact h.swap hx hy
  · rintro a b c ⟨ha, na⟩ ⟨hb, nb⟩ ⟨hc, nc⟩
    obtain ⟨x, rfl, hx⟩ := (hP a ha).resolve_left na
    obtain ⟨y, rfl, hy⟩ := (hP b hb).resolve_left nb
    obtain ⟨z, rfl, hz⟩ := (hP c hc).resolve_left nc
    rw [e, e, e]
    exact h.trans hx hy hz

/-- The order of a type is a total preorder on the values that have its form. -/
theorem order_orderedOn (t : DataType) : OrderedOn (t.Fits .comparable) t.order := by
  induction t with
  | leaf kind =>
    refine Value.nullsFirst_orderedOn ((Value.leafOrder_orderedOn kind).mono ?_)
    exact fun v hv => hv.1.resolve_left hv.2
  | list t ih => exact composite_orderedOn (sequenceOrder_orderedOn ih) (fun _ _ => rfl) fun _ h => h
  | set t ih =>
    have sorted := (sequenceOrder_orderedOn ih).comap (R := fun items => ∀ x ∈ items, t.Fits .comparable x)
      (Value.sortedElements fun a b => t.order a b) fun items h x hx => h x (mem_of_mem_firstOfEach hx)
    exact composite_orderedOn sorted (fun _ _ => rfl) fun _ h => h
  | map k t ihk iht =>
    have sorted := (entriesOrder_orderedOn ihk iht).comap
      (R := fun entries => ∀ e ∈ entries, k.Fits .comparable e.1 ∧ t.Fits .comparable e.2)
      (Value.sortedEntries fun a b => k.order a b) fun entries h e he => h e (mem_of_mem_firstOfEach he)
    exact composite_orderedOn sorted (fun _ _ => rfl) fun _ h =>
      h.imp_right fun ⟨entries, e, _, hf⟩ => ⟨entries, e, hf⟩
  | tuple ts ih =>
    exact composite_orderedOn (positionsOrder_orderedOn ih) (fun _ _ => rfl) fun _ h =>
      h.imp_right fun ⟨items, e, _, hf⟩ => ⟨items, e, hf⟩
  | udt keyspace name types ih =>
    exact composite_orderedOn (fieldsOrder_orderedOn ih) (fun _ _ => rfl) fun _ h =>
      h.imp_right fun ⟨fields, e, _, hf⟩ => ⟨fields, e, hf⟩
  | frozen t ih => exact ih

theorem keys_orderedOn (k : DataType) :
    OrderedOn (fun e : Value × Value => k.Fits .comparable e.1) fun e f => k.order e.1 f.1 :=
  k.order_orderedOn.comap Prod.fst fun _ h => h

/-- On the values that have the form of a type its order is reflexive, changes sides with its
arguments and is transitive, and null comes before every other value. -/
theorem order_totalPreorder (t : DataType) {a b c : Value} (ha : t.Fits .comparable a)
    (hb : t.Fits .comparable b) (hc : t.Fits .comparable c) :
    t.order a a = .eq ∧ t.order b a = (t.order a b).swap ∧
      (t.order a b ≠ .gt → t.order b c ≠ .gt → t.order a c ≠ .gt) ∧
      (a ≠ .null → t.order .null a = .lt) := by
  have h := order_orderedOn t
  refine ⟨h.refl ha, h.swap ha hb, ?_, fun hne => ?_⟩
  · intro hab hbc
    exact Ordering.isLE_iff_ne_gt.mp
      (h.trans ha hb hc (Ordering.isLE_iff_ne_gt.mpr hab) (Ordering.isLE_iff_ne_gt.mpr hbc))
  · rw [order_null_left, if_neg (mt Value.isNull_iff.mp hne)]

theorem order_totalPreorder_repeated_key :
    let t : DataType := .map (.list (.leaf .int)) (.tuple [.leaf .text, .leaf .timeuuid])
    let a : Value := .map [(.list [.int 1, .null], .tuple [.ascii "x"]), (.list [.int 1], .null)]
    let b : Value := .map [(.list [.int 1], .tuple [.text "x", .uuid ⟨7⟩, .null])]
    (t.Fits .comparable a ∧ t.Fits .comparable b ∧ t.Fits .comparable .null) ∧
      t.order a a = .eq ∧ t.order b a = (t.order a b).swap ∧
        (t.order a b ≠ .gt → t.order b .null ≠ .gt → t.order a .null ≠ .gt) ∧
        (a ≠ .null → t.order .null a = .lt) := by
  intro t a b
  have ha : t.Fits .comparable a := by
    refine .inr ⟨_, rfl, trivial, ?_⟩
    rw [List.forall_mem_cons, List.forall_mem_singleton]
    simp [Fits, FitsEach, Strictness.comparable, Kind.HoldsAlike, Kind.Holds]
  have hb : t.Fits .comparable b := by
    refine .inr ⟨_, rfl, trivial, ?_⟩
    rw [List.forall_mem_singleton]
    simp [Fits, FitsEach, Strictness.comparable, Kind.HoldsAlike, Kind.Holds]
  have hc : t.Fits .comparable .null := fits_null _ t
  exact ⟨⟨ha, hb, hc⟩, order_totalPreorder t ha hb hc⟩

end CqlWire.DataType
