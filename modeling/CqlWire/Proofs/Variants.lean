import CqlWire.Proofs.TotalPreorder

namespace CqlWire

variable {α : Type _} {names : List String} {low high n m : String}

namespace Text

theorem order_swap (s t : String) : order t s = (order s t).swap :=
  Std.OrientedOrd.eq_swap

theorem ne_of_order_lt (h : order n m = .lt) : n ≠ m := fun e => by
  rw [order_eq_iff.mpr e] at h
  cases h

theorem order_lt_trans {r s t : String} (hrs : order r s = .lt) (hst : order s t = .lt) :
    order r t = .lt :=
  Value.textOrder_orderedOn.lt_trans_isLE trivial trivial trivial hrs (by simp [hst])

end Text

/-- Items that are ordered within blocks, and across blocks by the names of the blocks. -/
theorem OrderedOn.blocks {P : α → Prop} {order : α → α → Ordering} (name : α → String)
    (within : ∀ c, P c → OrderedOn (fun a => P a ∧ name a = name c) order)
    (across : ∀ a b, P a → P b → name a ≠ name b → order a b = Text.order (name a) (name b)) :
    OrderedOn P order := by
  have apart {a b : α} (ha : P a) (hb : P b) (h : Text.order (name a) (name b) = .lt) :
      order a b = .lt := by
    rw [across a b ha hb (Text.ne_of_order_lt h), h]
  have byName {a b : α} (ha : P a) (hb : P b) (h : (order a b).isLE) :
      name a = name b ∨ Text.order (name a) (name b) = .lt := by
    by_cases e : name a = name b
    · exact .inl e
    · rw [across a b ha hb e] at h
      exact .inr ((Ordering.isLE_iff_eq_lt_or_eq_eq.mp h).resolve_right (mt Text.order_eq_iff.mp e))
  constructor
  · intro a b ha hb
    by_cases e : name a = name b
    · exact (within a ha).swap ⟨ha, rfl⟩ ⟨hb, e.symm⟩
    · rw [across a b ha hb e, across b a hb ha (Ne.symm e), Text.order_swap]
  · intro a b c ha hb hc hab hbc
    rcases byName ha hb hab with eab | lab
    · rcases byName hb hc hbc with ebc | lbc
      · exact (within b hb).trans ⟨ha, eab⟩ ⟨hb, rfl⟩ ⟨hc, ebc.symm⟩ hab hbc
      · rw [apart ha hc (eab ▸ lbc)]
        rfl
    · have hac : Text.order (name a) (name c) = .lt := by
        rcases byName hb hc hbc with ebc | lbc
        · exact ebc ▸ lab
        · exact Text.order_lt_trans lab lbc
      rw [apart ha hc hac]
      rfl

namespace Value

/-- The names of variants other than null that a list has. -/
def Stands (names : List String) (name : String) : Prop :=
  name ∈ names ∧ ∃ v : Value, v ≠ .null ∧ v.kindName = name

/-- Two variants, and another one whose name lies between theirs. -/
def Straddles (low high : String) (names : List String) : Prop :=
  low ∈ names ∧ high ∈ names ∧
    ∃ n, Stands names n ∧ Text.order low n = .lt ∧ Text.order n high = .lt

/-- The name by which a variant is placed when the variants of two names have one place. -/
def standIn (low high : String) (names : List String) (name : String) : String :=
  if name = low ∧ high ∈ names then high else name

/-- With nothing between two names, either may stand for the other among all others. -/
theorem order_standIn (hlt : Text.order low high = .lt) (h : ¬Straddles low high names)
    (hn : Stands names n) (hm : Stands names m)
    (hne : standIn low high names n ≠ standIn low high names m) :
    Text.order (standIn low high names n) (standIn low high names m) = Text.order n m := by
  by_cases hhigh : high ∈ names
  swap
  · simp [standIn, hhigh]
  have outside {m : String} (hlow : low ∈ names) (hm : Stands names m) (hml : m ≠ low)
      (hmh : m ≠ high) : Text.order high m = Text.order low m := by
    rw [Text.order_swap m high]
    cases e : Text.order low m with
    | lt =>
      have notLess : Text.order m high ≠ .lt := fun g => h ⟨hlow, hhigh, m, hm, e, g⟩
      have notEqual : Text.order m high ≠ .eq := mt Text.order_eq_iff.mp hmh
      cases g : Text.order m high with
      | lt => exact absurd g notLess
      | eq => exact absurd g notEqual
      | gt => rfl
    | eq => exact absurd (Text.order_eq_iff.mp e).symm hml
    | gt =>
      have less : Text.order m low = .lt := by
        rw [Text.order_swap, e]
        rfl
      rw [Text.order_lt_trans less hlt]
      rfl
  unfold standIn at hne ⊢
  simp only [hhigh, and_true] at hne ⊢
  by_cases en : n = low <;> by_cases em : m = low
  · simp [en, em] at hne
  · subst en
    simp only [if_true, em, if_false] at hne ⊢
    exact outside hn.1 hm em (Ne.symm hne)
  · subst em
    simp only [if_true, en, if_false] at hne ⊢
    rw [Text.order_swap, outside hm.1 hn en hne, ← Text.order_swap]
  · simp [en, em]

theorem Stands.standIn (hn : Stands names n) (hhigh : ∃ v : Value, v ≠ .null ∧ v.kindName = high) :
    Stands names (standIn low high names n) := by
  unfold Value.standIn
  split
  next h => exact ⟨h.2, hhigh⟩
  next => exact hn

/-- The name that all variants have in common which are compared by content with each other. -/
def family (name : String) : String :=
  if name = "ascii" then "text" else if name = "uuid" then "timeuuid" else name

theorem eq_of_family_eq (h : family n = family m) :
    n = m ∨ n = "ascii" ∧ m = "text" ∨ n = "text" ∧ m = "ascii" ∨
      n = "uuid" ∧ m = "timeuuid" ∨ n = "timeuuid" ∧ m = "uuid" := by
  unfold family at h
  split_ifs at h <;> simp_all

theorem family_standIn (h : family low = family high) :
    family (standIn low high names n) = family n := by
  unfold standIn
  split
  next e => rw [e.1, h]
  next => rfl

/-- Values of different families are compared by the names of their variants. -/
theorem leafOrder_of_family_ne {kind : Kind} {a b : Value}
    (h : family a.kindName ≠ family b.kindName) : leafOrder kind a b = shapeOrder a b := by
  unfold leafOrder
  split <;> first | rfl | exact absurd (by simp [family, kindName]) h

/-- The kind matters for two random identifiers only. -/
theorem leafOrder_congr {kind kind' : Kind} {a b : Value}
    (h : Kind.uuid.Holds a → Kind.uuid.Holds b → (kind = .uuid ↔ kind' = .uuid)) :
    leafOrder kind a b = leafOrder kind' a b := by
  unfold leafOrder
  split <;> try rfl
  next x y => rw [if_congr (h ⟨x, rfl⟩ ⟨y, rfl⟩) rfl rfl]

theorem holdsAlike_of_family {k : Kind} {v : Value} (h : family v.kindName = k.name) :
    k.HoldsAlike v := by
  cases k <;> cases v <;>
    simp [family, kindName, Kind.name, Kind.HoldsAlike, Kind.Holds] at h ⊢

/-- Each variant is of the family of a kind, or compared by its name throughout. -/
theorem exists_kind_or_shapeOrder (a : Value) :
    (∃ k : Kind, family a.kindName = k.name) ∨
      ∀ kind b, leafOrder kind a b = shapeOrder a b := by
  have named : family a.kindName ∈ Kind.all.map Kind.name ∨
      ∀ kind b, leafOrder kind a b = shapeOrder a b := by
    cases a <;> first
      | exact .inr fun _ _ => rfl
      | exact .inl (by simp [Kind.all, Kind.name, family, kindName])
  refine named.imp_left fun h => ?_
  obtain ⟨k, -, hk⟩ := List.mem_map.mp h
  exact ⟨k, hk.symm⟩

/-- The name by which a variant is placed among those of a list: `ascii` as `text` and `timeuuid` as
`uuid` where both are there. -/
def placeName (names : List String) (v : Value) : String :=
  standIn "timeuuid" "uuid" names (standIn "ascii" "text" names v.kindName)

theorem family_placeName (names : List String) (v : Value) :
    family (placeName names v) = family v.kindName := by
  rw [placeName, family_standIn (by simp [family]), family_standIn (by simp [family])]

theorem placeName_eq_iff {a b : Value} (ha : a.kindName ∈ names) (hb : b.kindName ∈ names) :
    placeName names a = placeName names b ↔ family a.kindName = family b.kindName := by
  constructor
  · intro h
    rw [← family_placeName names a, h, family_placeName]
  · intro h
    unfold placeName
    rcases eq_of_family_eq h with e | ⟨ea, eb⟩ | ⟨ea, eb⟩ | ⟨ea, eb⟩ | ⟨ea, eb⟩
    · rw [e]
    all_goals
      rw [ea] at ha ⊢
      rw [eb] at hb ⊢
      simp [standIn, ha, hb]

end Value

open Value

/-- Variants among which the order of a kind is not consistent: two that are compared by content,
and another one whose name lies between theirs; under `uuid` also identifiers of both kinds, since
two random ones are not compared by time there. -/
def Kind.Crosses (kind : Kind) (names : List String) : Prop :=
  Straddles "ascii" "text" names ∨ Straddles "timeuuid" "uuid" names ∨
    kind = .uuid ∧ "timeuuid" ∈ names ∧ "uuid" ∈ names

namespace Value

/-- The values other than null of the variants in a list. -/
def OfVariants (names : List String) (v : Value) : Prop :=
  v.kindName ∈ names ∧ v ≠ .null

theorem OfVariants.stands {v : Value} (h : OfVariants names v) : Stands names v.kindName :=
  ⟨h.1, v, h.2, rfl⟩

theorem leafOrder_across {kind : Kind} {a b : Value} (h : ¬kind.Crosses names)
    (ha : OfVariants names a) (hb : OfVariants names b)
    (hne : placeName names a ≠ placeName names b) :
    leafOrder kind a b = Text.order (placeName names a) (placeName names b) := by
  have texts : ¬Straddles "ascii" "text" names := fun s => h (.inl s)
  have identifiers : ¬Straddles "timeuuid" "uuid" names := fun s => h (.inr (.inl s))
  have apart : family a.kindName ≠ family b.kindName := mt (placeName_eq_iff ha.1 hb.1).mpr hne
  have text : ∃ v : Value, v ≠ .null ∧ v.kindName = "text" := ⟨.text "", by simp, rfl⟩
  have first : standIn "ascii" "text" names a.kindName ≠ standIn "ascii" "text" names b.kindName :=
    fun e => hne (congrArg (standIn "timeuuid" "uuid" names) e)
  rw [leafOrder_of_family_ne apart, placeName, placeName,
    order_standIn (by decide) identifiers (ha.stands.standIn text) (hb.stands.standIn text) hne,
    order_standIn (by decide) texts ha.stands hb.stands first]
  rfl

/-- The identifiers among variants that do not cross under `uuid` are of one kind. -/
theorem identifiers_orderedOn (h : ¬Kind.uuid.Crosses names) :
    OrderedOn (fun v => OfVariants names v ∧ Kind.timeuuid.HoldsAlike v) (leafOrder .uuid) := by
  by_cases hu : "uuid" ∈ names
  · refine (leafOrder_orderedOn .uuid).mono ?_
    rintro v ⟨hv, random | timed⟩
    · exact random
    · obtain ⟨u, rfl⟩ := timed
      exact absurd (.inr (.inr ⟨rfl, hv.1, hu⟩)) h
  · refine ((leafOrder_orderedOn .timeuuid).mono fun v hv => hv.2).congr ?_
    rintro a b ⟨ha, -⟩ -
    refine leafOrder_congr fun random _ => ?_
    obtain ⟨u, rfl⟩ := random
    exact absurd ha.1 hu

theorem leafOrder_within {kind : Kind} (h : ¬kind.Crosses names) (c : Value) :
    OrderedOn (fun v => OfVariants names v ∧ family v.kindName = family c.kindName)
      (leafOrder kind) := by
  by_cases leaf : ∃ k : Kind, family c.kindName = k.name
  · obtain ⟨k, hk⟩ := leaf
    have alike {v : Value} (hv : family v.kindName = family c.kindName) : k.HoldsAlike v :=
      holdsAlike_of_family (hv.trans hk)
    by_cases random : kind = .uuid ∧ k = .timeuuid
    · obtain ⟨rfl, rfl⟩ := random
      exact (identifiers_orderedOn h).mono fun v hv => ⟨hv.1, alike hv.2⟩
    · refine ((leafOrder_orderedOn k).mono fun v hv => alike hv.2).congr ?_
      rintro a b ⟨-, ha⟩ -
      refine leafOrder_congr fun ua _ => ?_
      obtain ⟨u, rfl⟩ := ua
      have timed : k = .timeuuid := by
        have e := ha.trans hk
        cases k <;> simp [family, kindName, Kind.name] at e ⊢
      subst timed
      simpa using random
  · refine (OrderedOn.const _).congr ?_
    rintro a b ⟨-, ha⟩ ⟨-, hb⟩
    have byName : ∀ kind b, leafOrder kind a b = shapeOrder a b :=
      (exists_kind_or_shapeOrder a).resolve_left fun ⟨k, hk⟩ => leaf ⟨k, ha.symm.trans hk⟩
    have leafNames : (∃ k : Kind, "text" = k.name) ∧ ∃ k : Kind, "timeuuid" = k.name :=
      ⟨⟨.text, rfl⟩, .timeuuid, rfl⟩
    have same : a.kindName = b.kindName := by
      rcases eq_of_family_eq (ha.trans hb.symm) with e | ⟨e, -⟩ | ⟨e, -⟩ | ⟨e, -⟩ | ⟨e, -⟩
      · exact e
      all_goals
        rw [e] at ha
        rw [← ha] at leaf
        simp [family, leafNames] at leaf
    rw [byName, shapeOrder, same]
    exact Text.order_eq_iff.mpr rfl

theorem leafOrder_orderedOn_of_not_crosses {kind : Kind} (h : ¬kind.Crosses names) :
    OrderedOn (OfVariants names) (leafOrder kind) := by
  refine OrderedOn.blocks (placeName names) (fun c hc => ?_) fun a b => leafOrder_across h
  refine (leafOrder_within h c).mono fun v hv => ⟨hv.1, ?_⟩
  exact (placeName_eq_iff hv.1.1 hc.1).mp hv.2

theorem not_straddles_pair : ¬Straddles low high [n, m] := by
  rintro ⟨hlow, hhigh, x, ⟨hx, -⟩, hlx, hxh⟩
  have ends : low ≠ high := Text.ne_of_order_lt (Text.order_lt_trans hlx hxh)
  have above := Text.ne_of_order_lt hlx
  have below := Text.ne_of_order_lt hxh
  simp only [List.mem_cons, List.not_mem_nil, or_false] at hlow hhigh hx
  rcases hlow with rfl | rfl <;> rcases hhigh with rfl | rfl <;> rcases hx with rfl | rfl <;>
    contradiction

/-- Two values, of whatever variants, change sides with their order. -/
theorem leafOrder_swap (kind : Kind) (a b : Value) :
    leafOrder kind b a = (leafOrder kind a b).swap := by
  have random {v : Value} (hv : "uuid" = v.kindName) : ∃ u, v = .uuid u := by
    cases v <;> simp [kindName] at hv ⊢
  have timed {v : Value} (hv : "timeuuid" = v.kindName) : ∃ u, v = .timeuuid u := by
    cases v <;> simp [kindName] at hv ⊢
  by_cases na : a = .null
  · subst na
    rw [show leafOrder kind b .null = shapeOrder b .null by cases b <;> rfl]
    exact Text.order_swap _ _
  by_cases nb : b = .null
  · subst nb
    rw [show leafOrder kind a .null = shapeOrder a .null by cases a <;> rfl]
    exact Text.order_swap _ _
  by_cases h : kind.Crosses [a.kindName, b.kindName]
  · rcases h with h | h | ⟨-, ht, hr⟩
    · exact absurd h not_straddles_pair
    · exact absurd h not_straddles_pair
    · simp only [List.mem_cons, List.not_mem_nil, or_false] at ht hr
      rcases ht with ht | ht <;> obtain ⟨u, rfl⟩ := timed ht
      · obtain ⟨w, rfl⟩ := random (hr.resolve_left (by simp [kindName]))
        exact Uuid.timeOrder_orderedOn.swap trivial trivial
      · obtain ⟨w, rfl⟩ := random (hr.resolve_right (by simp [kindName]))
        exact Uuid.timeOrder_orderedOn.swap trivial trivial
  · exact (leafOrder_orderedOn_of_not_crosses h).swap ⟨by simp, na⟩ ⟨by simp, nb⟩

/-- Between two variants that are compared by content, no third one has its place by name. -/
theorem not_orderedOn_of_straddled {kind : Kind} {a b : Value} (ha : a ≠ .null) (hb : b ≠ .null)
    (hab : leafOrder kind a b = .eq) (one : family b.kindName = family a.kindName)
    (two : ∀ n, family n = family a.kindName → n = a.kindName ∨ n = b.kindName)
    (h : Straddles b.kindName a.kindName names) :
    ¬OrderedOn (fun v => v.kindName ∈ names) (DataType.leaf kind).order := by
  intro ordered
  obtain ⟨nb, na, n, ⟨nv, v, hv, rfl⟩, hlow, hhigh⟩ := h
  have apart : family a.kindName ≠ family v.kindName := fun e => by
    rcases two _ e.symm with e | e
    · exact Text.ne_of_order_lt hhigh e
    · exact Text.ne_of_order_lt hlow e.symm
  have equal : (DataType.leaf kind).order a b = .eq := (nullsFirst_of_ne_null ha hb _).trans hab
  have above : (DataType.leaf kind).order a v = .gt := by
    refine (nullsFirst_of_ne_null ha hv _).trans ?_
    rw [leafOrder_of_family_ne apart, shapeOrder, Text.order_swap, hhigh]
    rfl
  have below : (DataType.leaf kind).order b v = .lt := by
    refine (nullsFirst_of_ne_null hb hv _).trans ?_
    rw [leafOrder_of_family_ne (one ▸ apart), shapeOrder, hlow]
  have alike := ordered.congr_left na nb nv equal
  rw [above, below] at alike
  cases alike

/-- Under `uuid` two random identifiers are compared as numbers with a sign, and each of them with
one of version 1 by time. -/
theorem not_orderedOn_uuid (ht : "timeuuid" ∈ names) (hr : "uuid" ∈ names) :
    ¬OrderedOn (fun v => v.kindName ∈ names) (DataType.leaf .uuid).order := by
  intro ordered
  let low : Uuid := ⟨0x80000000000000000000000000000000⟩
  let high : Uuid := ⟨0⟩
  have equal : (DataType.leaf .uuid).order (.uuid high) (.timeuuid high) = .eq := by decide +kernel
  have less : (DataType.leaf .uuid).order (.uuid low) (.uuid high) = .lt := by decide +kernel
  have greater : (DataType.leaf .uuid).order (.uuid low) (.timeuuid high) = .gt := by decide +kernel
  have isLow : (Value.uuid low).kindName ∈ names := hr
  have isHigh : (Value.uuid high).kindName ∈ names := hr
  have isTimed : (Value.timeuuid high).kindName ∈ names := ht
  have alike := ordered.congr_right isLow isHigh isTimed equal
  rw [less, greater] at alike
  cases alike

end Value

namespace DataType

/-- The order of a kind is a total preorder on the values of all the variants in a list just when
these do not cross. -/
theorem leaf_order_orderedOn_iff (kind : Kind) (names : List String) :
    OrderedOn (fun v => v.kindName ∈ names) (leaf kind).order ↔ ¬kind.Crosses names := by
  constructor
  · rintro ordered (h | h | ⟨rfl, ht, hr⟩)
    · refine not_orderedOn_of_straddled (a := .text "") (b := .ascii "") (by simp) (by simp) rfl
        (by decide) (fun n e => ?_) h ordered
      simpa [kindName, or_comm] using eq_of_family_eq e
    · refine not_orderedOn_of_straddled (a := .uuid ⟨0⟩) (b := .timeuuid ⟨0⟩) (by simp) (by simp)
        (Uuid.timeOrder_eq_iff.mpr rfl) (by decide) (fun n e => ?_) h ordered
      simpa [kindName, or_comm] using eq_of_family_eq e
    · exact not_orderedOn_uuid ht hr ordered
  · intro h
    exact nullsFirst_orderedOn (leafOrder_orderedOn_of_not_crosses h)

theorem leaf_order_swap (kind : Kind) (a b : Value) :
    (leaf kind).order b a = ((leaf kind).order a b).swap := by
  unfold order
  rw [leafOrder_swap]
  cases na : a.isNull <;> cases nb : b.isNull <;> simp [nullsFirst, na, nb]

/-- Values of whatever variants change sides under the order of a kind; it is a total preorder on
all values of some variants just when these do not cross, and then it sorts them. -/
theorem leaf_order_consistent (kind : Kind) :
    (∀ a b : Value, (leaf kind).order b a = ((leaf kind).order a b).swap) ∧
      (∀ names : List String,
        OrderedOn (fun v => v.kindName ∈ names) (leaf kind).order ↔ ¬kind.Crosses names) ∧
      ∀ values : List Value, ¬kind.Crosses (values.map Value.kindName) →
        (Value.sort (.leaf kind) values).Pairwise fun a b => ((leaf kind).order a b).isLE := by
  refine ⟨leaf_order_swap kind, leaf_order_orderedOn_iff kind, fun values h => ?_⟩
  have ordered := (leaf_order_orderedOn_iff kind _).mpr h
  exact sortBy_pairwise ordered fun v hv => List.mem_map_of_mem hv

theorem leaf_order_consistent_text :
    let values : List Value := [.text "b", .uuid ⟨0⟩, .null, .ascii "a"]
    ¬Kind.text.Crosses (values.map Value.kindName) ∧
      (Value.sort (.leaf .text) values).Pairwise fun a b => ((leaf .text).order a b).isLE := by
  intro values
  have apart : ¬Kind.text.Crosses (values.map Value.kindName) := by
    rintro (⟨-, -, n, ⟨hn, v, hv, rfl⟩, hlow, hhigh⟩ | ⟨timed, -⟩ | ⟨isUuid, -⟩)
    · change v.kindName ∈ ["text", "uuid", "null", "ascii"] at hn
      simp only [List.mem_cons, List.not_mem_nil, or_false] at hn
      rcases hn with e | e | e | e
      · exact absurd e (Text.ne_of_order_lt hhigh)
      · rw [e] at hhigh
        exact absurd hhigh (by decide)
      · cases v <;> simp [kindName] at e hv
      · exact absurd e.symm (Text.ne_of_order_lt hlow)
    · simp [values, kindName] at timed
    · cases isUuid
  exact ⟨apart, (leaf_order_consistent .text).2.2 values apart⟩

end DataType

end CqlWire
