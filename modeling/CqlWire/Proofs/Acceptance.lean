import CqlWire.Proofs.Acyclic
import CqlWire.Proofs.Laying
import CqlWire.Proofs.Members
import CqlWire.Proofs.PlainKeys

namespace CqlWire

open Value (encode encodeAs encodeElement encodePositions Lays)

namespace Registry

variable {r : Registry} {t u : DataType} {s : Shape} {v w : Value} {x y : DataType × Value}
  {count : Option Nat} {ps : List Payload} {bytes : Bytes} {frozen nested : Bool} {n : Nat}

/-- Whether a value is one of a shape, as far as that does not depend on the values inside it. The
elements of a set and the keys of a map are put in order, for which the types they reach must be on
record, even where there is none to put. -/
def Forms (r : Registry) : Shape → Value → Prop
  | .leaf kind, v => kind.Admits v
  | .list _, v => ∃ items, v = .list items
  | .set e, v => (∃ items, v = .set items) ∧ ∀ m, r.Meets e m → r.contains m.1 m.2 = true
  | .map k _, v => (∃ entries, v = .map entries) ∧ ∀ m, r.Meets k m → r.contains m.1 m.2 = true
  | .tuple ts, v => ∃ items, v = .tuple items ∧ items.length ≤ ts.length
  | .udt udt, v => ∃ fields, v = .record fields ∧ ∀ f ∈ fields, f.1 ∈ udt.fields.map Prod.fst

/-- Whether a value and all values inside it, at any depth, are null or of the shape of the type
that they have there. -/
def Conforms (r : Registry) (t : DataType) (v : Value) : Prop :=
  ∀ x, Relation.ReflTransGen r.Holds (t, v) x → x.2 ≠ .null →
    ∃ s, r.shape x.1 = .ok s ∧ r.Forms s x.2

/-- The counts and lengths that stand in the encoding of a value, at any depth. -/
inductive WritesSize (r : Registry) : DataType → (frozen : Bool) → Value → Nat → Prop
  | count {t : DataType} {frozen : Bool} {v : Value} {n : Nat} {ps : List Payload}
    (h : Lays r t frozen v (some n) ps) : WritesSize r t frozen v n
  | length {t : DataType} {frozen : Bool} {v : Value} {count : Option Nat} {ps : List Payload}
    {body : Bytes} (h : Lays r t frozen v count ps) (hb : some body ∈ ps) :
    WritesSize r t frozen v body.length
  | inside {t u : DataType} {frozen : Bool} {v w : Value} {n : Nat} (h : r.Holds (t, v) (u, w))
    (hn : WritesSize r u true w n) : WritesSize r t frozen v n

theorem holds_iff (hs : r.shape t = .ok s) : r.Holds (t, v) x ↔ x ∈ s.contents v := by
  constructor
  · rintro ⟨s', hs', hx⟩
    cases hs.symm.trans hs'
    exact hx
  · exact fun hx => ⟨s, hs, hx⟩

theorem not_holds_null : ¬r.Holds (t, .null) x := by
  rintro ⟨s, -, hx⟩
  cases s <;> cases hx

/-- What a type has inside a value stands inside it, or is null for an absent field. -/
theorem eq_null_or_mem_contents (hx : x ∈ s.contents v) :
    x.2 = .null ∨ ∃ c ∈ v.contents, c.2 = x.2 := by
  unfold Shape.contents at hx
  split at hx
  case h_3 entries =>
    obtain ⟨y, hy, hx⟩ := List.mem_flatMap.mp hx
    rcases List.mem_pair.mp hx with rfl | rfl
    · exact .inr ⟨_, List.mem_flatMap.mpr ⟨y, hy, List.mem_cons_self⟩, rfl⟩
    · exact .inr ⟨_, List.mem_flatMap.mpr ⟨y, hy, List.mem_cons_of_mem _ List.mem_cons_self⟩, rfl⟩
  case h_4 => exact .inr ⟨_, List.mem_map_of_mem (List.of_mem_zip hx).2, rfl⟩
  case h_5 udt fields =>
    obtain ⟨f, hf, rfl⟩ := List.mem_map.mp hx
    by_cases hnull : Fields.getD fields f.1 = .null
    · exact .inl hnull
    · obtain ⟨g, hg, -, hv⟩ := Fields.exists_mem_of_getD_ne_null hnull
      exact .inr ⟨_, List.mem_map_of_mem hg, hv⟩
  case h_6 => cases hx
  all_goals
    obtain ⟨y, hy, rfl⟩ := List.mem_map.mp hx
    exact .inr ⟨_, List.mem_map_of_mem hy, rfl⟩

theorem conforms_null : r.Conforms t .null := by
  intro x path hx
  rcases Relation.ReflTransGen.cases_head path with rfl | ⟨y, step, -⟩
  · exact absurd rfl hx
  · exact absurd step not_holds_null

theorem conforms_iff (hv : v ≠ .null) : r.Conforms t v ↔
    ∃ s, r.shape t = .ok s ∧ r.Forms s v ∧ ∀ x ∈ s.contents v, r.Conforms x.1 x.2 := by
  constructor
  · intro h
    obtain ⟨s, hs, hforms⟩ := h (t, v) .refl hv
    exact ⟨s, hs, hforms, fun x hx y path => h y (.head ⟨s, hs, hx⟩ path)⟩
  · rintro ⟨s, hs, hforms, inside⟩ x path hx
    rcases Relation.ReflTransGen.cases_head path with rfl | ⟨y, step, path⟩
    · exact ⟨s, hs, hforms⟩
    · exact inside y ((holds_iff hs).mp step) x path hx

theorem not_writesSize_null : ¬r.WritesSize t frozen .null n := by
  intro h
  cases h with
  | count h => cases h
  | length h => cases h
  | inside h => exact not_holds_null h

/-- What is laid out has the form of its type and an encoding of all that stands inside. -/
theorem forms_of_lays (h : Lays r t frozen v count ps) : ∃ s, r.shape t = .ok s ∧ r.Forms s v ∧
    ∀ x ∈ s.contents v, ∃ p, encodeElement r x.1 x.2 = .ok p := by
  cases h with
  | @list e items _ ht h =>
    refine ⟨.list e, by rw [shape, ht], ⟨items, rfl⟩, List.forall_mem_map.mpr fun x hx => ?_⟩
    obtain ⟨p, -, hp⟩ := h.exists_mem_right hx
    exact ⟨p, hp⟩
  | @set e o items _ ht ho h =>
    have recorded := (resolve_eq_ok_iff.mp ⟨o, ho⟩).2
    refine ⟨.set e, by rw [shape, ht], ⟨⟨items, rfl⟩, recorded⟩, List.forall_mem_map.mpr fun x hx => ?_⟩
    obtain ⟨y, -, -, hp⟩ := (Value.elementPayloads_eq_ok.mp h).exists_mem_right hx
    exact ⟨y.2, hp⟩
  | @map k e o entries _ ht ho h =>
    have recorded := (resolve_eq_ok_iff.mp ⟨o, ho⟩).2
    refine ⟨.map k e, by rw [shape, ht], ⟨⟨entries, rfl⟩, recorded⟩, fun x hx => ?_⟩
    obtain ⟨entry, hentry, hx⟩ := List.mem_flatMap.mp hx
    obtain ⟨y, -, -, hkey, hvalue⟩ := (Value.entryPayloads_eq_ok.mp h).exists_mem_right hentry
    rcases List.mem_pair.mp hx with rfl | rfl
    · exact ⟨y.1.2, hkey⟩
    · exact ⟨y.2, hvalue⟩
  | @tuple ts items _ ht hl h =>
    refine ⟨.tuple ts, by rw [shape, ht], ⟨items, rfl, hl⟩, fun x hx => ?_⟩
    obtain ⟨p, -, hp⟩ := h.exists_mem_right (DataType.mem_positions hx)
    exact ⟨p, hp⟩
  | @record declared udt fields _ _ ht hu hknown hc h =>
    refine ⟨.udt udt, by simp only [shape, ht, hu]; rfl, ⟨fields, rfl, hknown⟩,
      List.forall_mem_map.mpr fun f hf => ?_⟩
    obtain ⟨p, -, hp⟩ := h.exists_mem_right hf
    exact ⟨p, hp⟩

theorem not_loops_of_child (hr : ¬r.Loops t) (hs : r.shape t = .ok s) (hu : u ∈ s.toType.children) :
    ¬r.Loops u :=
  fun ⟨n, hn, cycle⟩ => hr ⟨n, below_of_child hs hu n hn, cycle⟩

/-- A value of the form of its type is laid out when all that stands inside has an encoding. As no
type that this one meets lies within itself, the elements of a set and the keys of a map can be put
in order when the types that they reach are on record. -/
theorem exists_lays_of_forms (hr : ¬r.Loops t) (hl : t.leaf? = none) (hs : r.shape t = .ok s)
    (h : r.Forms s v) (parts : ∀ x ∈ s.contents v, ∃ p, encodeElement r x.1 x.2 = .ok p) :
    ∃ count ps, Lays r t frozen v count ps := by
  have whole := hs
  unfold shape at hs
  split at hs
  next declared ht =>
    obtain ⟨udt, hu, rfl⟩ := map_eq_ok.mp hs
    obtain ⟨fields, rfl, hknown⟩ := h
    have each := List.forall_mem_map.mp parts
    obtain ⟨ps, hps⟩ := exists_mapM each
    exact ⟨_, ps, .record ht hu hknown rfl (mapM_eq_ok.mp hps)⟩
  next _ hne =>
    cases hs
    cases hshape : t.shape with
    | leaf kind => simp [DataType.leaf?, hshape] at hl
    | list e =>
      rw [hshape] at h parts
      obtain ⟨items, rfl⟩ := h
      have each := List.forall_mem_map.mp parts
      obtain ⟨ps, hps⟩ := exists_mapM each
      exact ⟨_, ps, .list hshape (mapM_eq_ok.mp hps)⟩
    | set e =>
      rw [hshape] at h parts
      obtain ⟨⟨items, rfl⟩, recorded⟩ := h
      have straight := not_loops_of_child hr whole (by rw [hshape]; exact List.mem_singleton_self e)
      obtain ⟨o, ho⟩ := resolve_eq_ok_iff.mpr ⟨straight, recorded⟩
      obtain ⟨elements, he⟩ : ∃ elements, Value.elementPayloads r items e = .ok elements := by
        rw [Value.elementPayloads_eq_mapM]
        exact exists_mapM fun x hx => exists_map_iff.mpr (List.forall_mem_map.mp parts x hx)
      exact ⟨_, _, .set hshape ho he⟩
    | map k e =>
      rw [hshape] at h parts
      obtain ⟨⟨entries, rfl⟩, recorded⟩ := h
      have straight := not_loops_of_child hr whole (by rw [hshape]; exact List.mem_cons_self)
      obtain ⟨o, ho⟩ := resolve_eq_ok_iff.mpr ⟨straight, recorded⟩
      obtain ⟨encoded, he⟩ : ∃ encoded, Value.entryPayloads r entries k e = .ok encoded := by
        rw [Value.entryPayloads_eq_mapM]
        refine exists_mapM fun x hx => ?_
        obtain ⟨p, hp⟩ := parts (k, x.1) (List.mem_flatMap.mpr ⟨x, hx, by simp⟩)
        obtain ⟨q, hq⟩ := parts (e, x.2) (List.mem_flatMap.mpr ⟨x, hx, by simp⟩)
        exact ⟨_, bind_eq_ok.mpr ⟨p, hp, bind_eq_ok.mpr ⟨q, hq, rfl⟩⟩⟩
      exact ⟨_, _, .map hshape ho he⟩
    | tuple ts =>
      rw [hshape] at h parts
      obtain ⟨items, rfl, hlen⟩ := h
      have each : ∀ x ∈ DataType.positions ts items, ∃ p, encodeElement r x.1 x.2 = .ok p := by
        intro x hx
        rcases DataType.eq_null_or_mem_zip hx with hnull | hx
        · exact ⟨none, by rw [hnull, Value.encodeElement_null]⟩
        · exact parts x hx
      obtain ⟨ps, hps⟩ := exists_mapM each
      exact ⟨_, _, .tuple hshape hlen (mapM_eq_ok.mp hps)⟩
    | udt declared => exact absurd hshape (hne declared)

/-- A value of the form of its type throughout, with counts and lengths of less than 31 bits. -/
def Accepts (r : Registry) (t : DataType) (frozen : Bool) (v : Value) : Prop :=
  r.Conforms t v ∧ ∀ n, r.WritesSize t frozen v n → n < Frame.limit

theorem accepts_leaf {kind : Kind} (ht : t.shape = .leaf kind) (hv : v ≠ .null) :
    r.Accepts t frozen v ↔ kind.Admits v := by
  have hs : r.shape t = .ok (.leaf kind) := by rw [shape, ht]
  constructor
  · rintro ⟨h, -⟩
    obtain ⟨s, hs', hforms, -⟩ := (conforms_iff hv).mp h
    cases hs.symm.trans hs'
    exact hforms
  · intro h
    have empty : ∀ x, x ∉ (Shape.leaf kind).contents v := fun _ hx => by cases hx
    refine ⟨(conforms_iff hv).mpr ⟨_, hs, h, fun x hx => absurd hx (empty x)⟩, fun n hn => ?_⟩
    cases hn with
    | count h => cases (DataType.leaf?_eq_some.mpr ht).symm.trans h.leaf?_eq_none
    | length h => cases (DataType.leaf?_eq_some.mpr ht).symm.trans h.leaf?_eq_none
    | inside h => exact absurd ((holds_iff hs).mp h) (empty _)

theorem exists_encodeAs_iff_of_not_loops (hr : ¬r.Loops t) (hv : v ≠ .null) :
    (∃ bytes, encodeAs r v t frozen = .ok bytes) ↔ r.Accepts t frozen v := by
  induction v using Value.contents_induct generalizing t frozen with
  | h v ih =>
    cases hl : t.leaf? with
    | some kind =>
      have ht := DataType.leaf?_eq_some.mp hl
      simp only [Value.encodeAs_leaf ht, Leaf.exists_encode_iff, accepts_leaf ht hv]
    | none =>
      -- The induction hypothesis for what the type has inside the value, null included.
      have element {s : Shape} {x : DataType × Value} (hs : r.shape t = .ok s)
          (hx : x ∈ s.contents v) :
          (∃ p, encodeElement r x.1 x.2 = .ok p) ↔ r.Accepts x.1 true x.2 := by
        have straight := not_loops_of_child hr hs (Shape.type_mem_children_of_mem_contents hx)
        by_cases hnull : x.2 = .null
        · rw [hnull]
          exact iff_of_true ⟨none, rfl⟩ ⟨conforms_null, fun n hn => absurd hn not_writesSize_null⟩
        · obtain ⟨c, hc, hcx⟩ := (eq_null_or_mem_contents hx).resolve_left hnull
          rw [← hcx] at hnull ⊢
          rw [← ih c hc straight hnull, Value.exists_encodeElement_iff hnull]
      constructor
      · rintro ⟨bytes, h⟩
        obtain ⟨count, ps, hlays⟩ := Value.exists_lays hl h
        obtain ⟨s, hs, hforms, parts⟩ := forms_of_lays hlays
        have inside := fun x hx => (element hs hx).mp (parts x hx)
        refine ⟨(conforms_iff hv).mpr ⟨s, hs, hforms, fun x hx => (inside x hx).1⟩, fun n hn => ?_⟩
        cases hn with
        | count hn => exact (Frame.exists_laid_iff.mp ⟨bytes, hn.encodeAs_eq ▸ h⟩).1 n rfl
        | length hn hb => exact (Frame.exists_laid_iff.mp ⟨bytes, hn.encodeAs_eq ▸ h⟩).2 _ hb
        | inside hx hn => exact (inside _ ((holds_iff hs).mp hx)).2 n hn
      · rintro ⟨hconforms, hsizes⟩
        obtain ⟨s, hs, hforms, inside⟩ := (conforms_iff hv).mp hconforms
        obtain ⟨count, ps, hlays⟩ := exists_lays_of_forms hr hl hs hforms fun x hx =>
          (element hs hx).mpr
            ⟨inside x hx, fun n hn => hsizes n (.inside ((holds_iff hs).mpr hx) hn)⟩
        rw [hlays.encodeAs_eq]
        refine Frame.exists_laid_iff.mpr ⟨?_, fun body hb => hsizes _ (.length hlays hb)⟩
        rintro n ⟨⟩
        exact hsizes n (.count hlays)

theorem exists_encodeAs_iff (hr : r.Acyclic) (hv : v ≠ .null) :
    (∃ bytes, encodeAs r v t frozen = .ok bytes) ↔ r.Accepts t frozen v :=
  exists_encodeAs_iff_of_not_loops (hr.not_loops t) hv

/-- Encoding accepts exactly the values that conform to their type and whose counts and lengths have
less than 31 bits. What does not conform is refused at any depth: there a record has no field but
those on record, and a tuple no item beyond its positions. -/
theorem encodable_iff (hr : r.Acyclic) :
    (∃ bytes, encode r t v nested = .ok bytes) ↔
      v ≠ .null ∧ r.Conforms t v ∧ ∀ n, r.WritesSize t nested v n → n < Frame.limit := by
  simp only [Value.encode_eq_ok, exists_and_left]
  exact and_congr_right fun hv => exists_encodeAs_iff hr hv

/-- An ASCII value as text, a tuple without its last item and a record without one of its fields. -/
theorem encodable_iff_short :
    let tag : Udt := ⟨"ks", "tag", [("name", .leaf .text), ("weight", .leaf .double)]⟩
    let r := Registry.empty.insert tag
    let t : DataType := .map (.frozen tag.type) (.tuple [.leaf .int, .leaf .text])
    let v : Value := .map [(.record [("name", .ascii "new")], .tuple [.int 1])]
    r.Acyclic ∧ v ≠ .null ∧ r.Conforms t v ∧ ∀ n, r.WritesSize t false v n → n < Frame.limit := by
  intro tag r t v
  have acyclic : r.Acyclic := by
    have leaves : ∀ f ∈ tag.fields, f.2.mentions = [] := by decide
    refine (acyclic_insert_iff acyclic_empty).mpr fun f hf ⟨m, hm, _⟩ => ?_
    rw [leaves f hf] at hm
    cases hm
  have encoded : ∃ bytes, encode r t v false = .ok bytes := ⟨_, rfl⟩
  exact ⟨acyclic, (encodable_iff acyclic).mp encoded⟩

end Registry

end CqlWire
