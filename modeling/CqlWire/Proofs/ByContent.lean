import CqlWire.Proofs.Agreement

namespace CqlWire

open Value (entriesOrder sequenceOrder sortedElements sortedEntries)

/-- What a comparison of two sequences without end says that goes by their first difference. -/
def FirstDifference (order : Value → Value → Ordering) (x y : Nat → Value) (result : Ordering) :
    Prop :=
  (result = .eq ∧ ∀ i, order (x i) (y i) = .eq) ∨
    ∃ i, (∀ j, j < i → order (x j) (y j) = .eq) ∧ order (x i) (y i) = result ∧ result ≠ .eq

/-- The items of a list, and null for ever after them. -/
def padded (items : List Value) (i : Nat) : Value :=
  items.getD i .null

/-- A list that has the items of another one in increasing order, one of each class. -/
structure Collated (order : Value → Value → Ordering) (items sorted : List Value) : Prop where
  increasing : sorted.Pairwise fun a b => order a b = .lt
  members : ∀ a ∈ sorted, a ∈ items
  covers : ∀ a ∈ items, ∃ b ∈ sorted, order a b = .eq

/-- Two values that a comparison does not tell apart from a third one's side. -/
def Interchangeable (order : Value → Value → Ordering) (a b c : Value) : Prop :=
  order a c = order b c ∧ order c a = order c b

namespace FirstDifference

variable {order : Value → Value → Ordering} {x y : Nat → Value} {result : Ordering}

theorem of_tails (h : FirstDifference order (fun i => x (i + 1)) (fun i => y (i + 1)) result) :
    FirstDifference order x y ((order (x 0) (y 0)).then result) := by
  by_cases first : order (x 0) (y 0) = .eq
  · rw [first, Ordering.eq_then]
    rcases h with ⟨rfl, h⟩ | ⟨i, before, here, hne⟩
    · refine .inl ⟨rfl, fun i => ?_⟩
      cases i with
      | zero => exact first
      | succ i => exact h i
    · refine .inr ⟨i + 1, fun j hj => ?_, here, hne⟩
      cases j with
      | zero => exact first
      | succ j => exact before j (Nat.lt_of_succ_lt_succ hj)
  · have stop : (order (x 0) (y 0)).then result = order (x 0) (y 0) := by
      cases h : order (x 0) (y 0) <;> first | rfl | exact absurd h first
    rw [stop]
    exact .inr ⟨0, fun j hj => absurd hj (Nat.not_lt_zero j), rfl, first⟩

end FirstDifference

namespace DataType

variable {t k e : DataType} {x : Value × Value} {entries others before after : List (Value × Value)}

theorem sequenceOrder_firstDifference (t : DataType) (as bs : List Value) :
    FirstDifference t.order (padded as) (padded bs) (sequenceOrder t.order as bs) := by
  have positions (n : Nat) : ∀ as bs : List Value, as.length ≤ n → bs.length ≤ n →
      FirstDifference t.order (padded as) (padded bs)
        (positionsOrder (List.replicate n t) as bs) := by
    induction n with
    | zero =>
      intro as bs ha hb
      have noneLeft : as = [] := List.length_eq_zero_iff.mp (by omega)
      have noneRight : bs = [] := List.length_eq_zero_iff.mp (by omega)
      subst noneLeft noneRight
      exact .inl ⟨rfl, fun i => order_null_left t .null⟩
    | succ n ih =>
      intro as bs ha hb
      have tails := ih as.tail bs.tail (by rw [List.length_tail]; omega)
        (by rw [List.length_tail]; omega)
      have head (l : List Value) : l.headD .null = padded l 0 := by cases l <;> rfl
      have tail (l : List Value) : padded l.tail = fun i => padded l (i + 1) := by cases l <;> rfl
      rw [tail, tail] at tails
      rw [List.replicate_succ, positionsOrder, head, head]
      exact tails.of_tails
  have h := positions (as.length + bs.length) as bs (by omega) (by omega)
  rw [← sequenceOrder_eq_positionsOrder t (by omega) (by omega)] at h
  exact h

/-- A list compares with one that goes on after it as null does with what is left. -/
theorem sequenceOrder_append {as : List Value} (ha : ∀ a ∈ as, t.Fits .comparable a)
    (rest : List Value) :
    sequenceOrder t.order as (as ++ rest) = if rest.all Value.isNull then .eq else .lt := by
  induction as with
  | nil =>
    have left : sequenceOrder t.order [] rest = if rest.any (!·.isNull) then .lt else .eq := by
      cases rest <;> rfl
    rw [List.nil_append, left, ← List.not_all_eq_any_not]
    cases rest.all Value.isNull <;> rfl
  | cons a as ih =>
    simp only [List.forall_mem_cons] at ha
    rw [List.cons_append, sequenceOrder, t.order_orderedOn.refl ha.1, Ordering.eq_then, ih ha.2]

section Sets

variable {items others sorted sorted' : List Value}

theorem collated_sortedElements (hi : ∀ a ∈ items, t.Fits .comparable a) :
    Collated t.order items (sortedElements t.order items) where
  increasing := t.order_orderedOn.firstOfEach_pairwise hi
  members _ ha := mem_of_mem_firstOfEach ha
  covers _ ha := t.order_orderedOn.exists_mem_firstOfEach hi ha

/-- All collations of the items of a set are compared as the one that its order takes. -/
theorem collated_forall₂ (hi : ∀ a ∈ items, t.Fits .comparable a)
    (h : Collated t.order items sorted) (h' : Collated t.order items sorted') :
    List.Forall₂ (fun a b => t.order a b = .eq) sorted sorted' := by
  have ord := t.order_orderedOn
  have fits {l : List Value} (hl : Collated t.order items l) : ∀ a ∈ l, t.Fits .comparable a :=
    fun a ha => hi a (hl.members a ha)
  refine ord.forall₂_of_covers (fits h) (fits h') h.increasing h'.increasing
    (fun a ha => h'.covers a (h.members a ha)) fun b hb => ?_
  obtain ⟨a, ha, hba⟩ := h.covers b (h'.members b hb)
  exact ⟨a, ha, ord.eq_symm (fits h' b hb) (fits h a ha) hba⟩

theorem set_order_eq_list_order {x y sx sy : List Value} (hx : ∀ a ∈ x, t.Fits .comparable a)
    (hy : ∀ a ∈ y, t.Fits .comparable a) (cx : Collated t.order x sx) (cy : Collated t.order y sy) :
    (set t).order (.set x) (.set y) = (list t).order (.list sx) (.list sy) := by
  have ord := sequenceOrder_orderedOn t.order_orderedOn
  have fits {items sorted : List Value} (hi : ∀ a ∈ items, t.Fits .comparable a)
      (h : Collated t.order items sorted) : ∀ a ∈ sorted, t.Fits .comparable a :=
    fun a ha => hi a (h.members a ha)
  have kx := collated_sortedElements hx
  have ky := collated_sortedElements hy
  have left := sequenceOrder_eq (collated_forall₂ hx kx cx)
  have right := sequenceOrder_eq (collated_forall₂ hy ky cy)
  calc (set t).order (.set x) (.set y)
      = sequenceOrder t.order (sortedElements t.order x) (sortedElements t.order y) := rfl
    _ = sequenceOrder t.order sx (sortedElements t.order y) :=
        ord.congr_left (fits hx kx) (fits hx cx) (fits hy ky) left
    _ = sequenceOrder t.order sx sy := ord.congr_right (fits hx cx) (fits hy ky) (fits hy cy) right

theorem set_order_congr {items others : List Value} {c : Value}
    (hi : ∀ a ∈ items, t.Fits .comparable a) (hm : ∀ a, a ∈ others ↔ a ∈ items)
    (hc : (set t).Fits .comparable c) :
    Interchangeable (set t).order (.set others) (.set items) c := by
  have ord := (set t).order_orderedOn
  have ho : ∀ a ∈ others, t.Fits .comparable a := fun a ha => hi a ((hm a).mp ha)
  have fi : (set t).Fits .comparable (.set items) := .inr ⟨items, rfl, hi⟩
  have fo : (set t).Fits .comparable (.set others) := .inr ⟨others, rfl, ho⟩
  have self {a : Value} (ha : a ∈ items) : t.order a a = .eq := t.order_orderedOn.refl (hi a ha)
  have classes := t.order_orderedOn.firstOfEach_forall₂ ho hi
    (fun a ha => ⟨a, (hm a).mp ha, self ((hm a).mp ha)⟩) fun a ha => ⟨a, (hm a).mpr ha, self ha⟩
  have equal : (set t).order (.set others) (.set items) = .eq := sequenceOrder_eq classes
  exact ⟨ord.congr_left fo fi hc equal, ord.congr_right hc fo fi equal⟩

end Sets

section Maps

/-- Two lists of entries in which the first entry of each class of keys is the same. -/
def SameFirsts (k : DataType) (entries others : List (Value × Value)) : Prop :=
  ∀ c, k.Fits .comparable c →
    entries.find? (fun e => k.order c e.1 = .eq) = others.find? fun e => k.order c e.1 = .eq

theorem SameFirsts.exists_mem (h : k.SameFirsts entries others)
    (he : ∀ e ∈ entries, k.Fits .comparable e.1) (hx : x ∈ entries) :
    ∃ y ∈ others, k.order x.1 y.1 = .eq := by
  have fits := he x hx
  cases found : others.find? fun e => k.order x.1 e.1 = .eq with
  | some y => exact ⟨y, List.mem_of_find?_eq_some found, by simpa using List.find?_some found⟩
  | none =>
    rw [← h x.1 fits] at found
    have apart := List.find?_eq_none.mp found x hx
    simp [k.order_orderedOn.refl fits] at apart

/-- Only the first entry of each class of keys is kept. -/
theorem SameFirsts.sortedEntries_eq (h : k.SameFirsts entries others)
    (he : ∀ e ∈ entries, k.Fits .comparable e.1) (ho : ∀ e ∈ others, k.Fits .comparable e.1) :
    sortedEntries k.order entries = sortedEntries k.order others := by
  have ord := keys_orderedOn k
  have back : k.SameFirsts others entries := fun c hc => (h c hc).symm
  have classes := ord.firstOfEach_forall₂ he ho (fun x hx => h.exists_mem he hx) fun y hy => by
    obtain ⟨x, hx, hyx⟩ := back.exists_mem ho hy
    exact ⟨x, hx, ord.eq_symm (ho y hy) (he x hx) hyx⟩
  have equal : List.Forall₂ (fun x y => x = y) (sortedEntries k.order entries)
      (sortedEntries k.order others) := by
    refine classes.imp_mem fun x hx y hy hxy => ?_
    have fits := he x (mem_of_mem_firstOfEach hx)
    have first := ord.find?_of_mem_firstOfEach he fits hx (ord.refl fits)
    have second := ord.find?_of_mem_firstOfEach ho fits hy hxy
    rw [h x.1 fits, second] at first
    exact (Option.some.inj first).symm
  rwa [List.forall₂_eq_eq_eq] at equal

/-- Neighbours with keys that do not compare equal may change places. -/
theorem sameFirsts_swap {x y : Value × Value} (hx : k.Fits .comparable x.1)
    (hy : k.Fits .comparable y.1) (hxy : k.order x.1 y.1 ≠ .eq) :
    k.SameFirsts (before ++ x :: y :: after) (before ++ y :: x :: after) := by
  intro c hc
  have ord := k.order_orderedOn
  rw [List.find?_append, List.find?_append]
  congr 1
  by_cases cx : k.order c x.1 = .eq
  · have cy : k.order c y.1 ≠ .eq := fun cy =>
      hxy (ord.eq_trans hx hc hy (ord.eq_symm hc hx cx) cy)
    simp [cx, cy]
  · simp [List.find?_cons, cx]

/-- Entries with keys that do not compare equal may stand in any order. -/
theorem sameFirsts_of_perm (he : ∀ e ∈ entries, k.Fits .comparable e.1) (hp : others.Perm entries)
    (hd : entries.Pairwise fun x y => k.order x.1 y.1 ≠ .eq) : k.SameFirsts others entries := by
  intro c hc
  have ord := k.order_orderedOn
  let p : Value × Value → Bool := fun e => k.order c e.1 = .eq
  -- At most one entry is of the class, so that its place does not matter.
  have once : entries.Pairwise fun x y => ¬(p x ∧ p y) := by
    refine hd.imp_of_mem fun {x y} hx hy hxy ⟨px, py⟩ => hxy ?_
    have cx : k.order c x.1 = .eq := of_decide_eq_true px
    exact ord.eq_trans (he x hx) hc (he y hy) (ord.eq_symm hc (he x hx) cx) (of_decide_eq_true py)
  have once' : others.Pairwise fun x y => ¬(p x ∧ p y) :=
    once.perm hp.symm fun h => fun ⟨py, px⟩ => h ⟨px, py⟩
  have equal : others.filter p = entries.filter p := by
    refine (hp.filter p).eq_of_pairwise (fun x y hx hy hxy _ => ?_) (once'.filter p) (once.filter p)
    exact absurd ⟨(List.mem_filter.mp hx).2, (List.mem_filter.mp hy).2⟩ hxy
  rw [← List.head?_filter, ← List.head?_filter]
  exact congrArg List.head? equal

/-- An entry behind one with an equal key is not the first of its class. -/
theorem sameFirsts_append (he : ∀ e ∈ entries, k.Fits .comparable e.1) (hx : k.Fits .comparable x.1)
    (h : ∃ y ∈ entries, k.order x.1 y.1 = .eq) : k.SameFirsts (entries ++ [x]) entries := by
  intro c hc
  have ord := k.order_orderedOn
  obtain ⟨y, hy, hxy⟩ := h
  rw [List.find?_append]
  cases found : entries.find? fun e => k.order c e.1 = .eq with
  | some e => rfl
  | none =>
    have cx : k.order c x.1 ≠ .eq := fun cx => by
      have cy := ord.eq_trans hc hx (he y hy) cx hxy
      simpa [cy] using List.find?_eq_none.mp found y hy
    simp [cx]

theorem map_order_congr (he : ∀ e ∈ entries, k.Fits .comparable e.1)
    (ho : ∀ e ∈ others, k.Fits .comparable e.1) (h : k.SameFirsts others entries) (c : Value) :
    Interchangeable (map k t).order (.map others) (.map entries) c := by
  have equal := h.sortedEntries_eq ho he
  constructor
  · cases c with
    | map x => exact congrArg (entriesOrder k.order t.order · (sortedEntries k.order x)) equal
    | _ => rfl
  · cases c with
    | map x => exact congrArg (entriesOrder k.order t.order (sortedEntries k.order x)) equal
    | _ => rfl

end Maps

/-- Lists are compared item by item and never by their lengths. -/
structure ListsByContent (t : DataType) : Prop where
  firstDifference : ∀ as bs : List Value,
    FirstDifference t.order (padded as) (padded bs) ((list t).order (.list as) (.list bs))
  runsOut : ∀ as rest : List Value, (∀ a ∈ as, t.Fits .comparable a) →
    (list t).order (.list as) (.list (as ++ rest)) = if rest.all Value.isNull then .eq else .lt

/-- Sets are compared by their elements, whatever their order and however often they occur. -/
structure SetsByContent (t : DataType) : Prop where
  elements : ∀ (items others : List Value) (c : Value), (∀ a ∈ items, t.Fits .comparable a) →
    (∀ a, a ∈ others ↔ a ∈ items) → (set t).Fits .comparable c →
      Interchangeable (set t).order (.set others) (.set items) c
  collated : ∀ items : List Value, (∀ a ∈ items, t.Fits .comparable a) →
    Collated t.order items (sortedElements t.order items)
  asLists : ∀ x y sx sy : List Value, (∀ a ∈ x, t.Fits .comparable a) →
    (∀ a ∈ y, t.Fits .comparable a) → Collated t.order x sx → Collated t.order y sy →
      (set t).order (.set x) (.set y) = (list t).order (.list sx) (.list sy)

/-- Maps are compared by the first entry of each class of keys. -/
structure MapsByContent (k e : DataType) : Prop where
  permuted : ∀ (entries others : List (Value × Value)) (c : Value),
    (∀ x ∈ entries, k.Fits .comparable x.1) → others.Perm entries →
      (entries.Pairwise fun x y => k.order x.1 y.1 ≠ .eq) →
        Interchangeable (map k e).order (.map others) (.map entries) c
  swapped : ∀ (before after : List (Value × Value)) (x y : Value × Value) (c : Value),
    (∀ z ∈ before ++ x :: y :: after, k.Fits .comparable z.1) → k.order x.1 y.1 ≠ .eq →
      Interchangeable (map k e).order (.map (before ++ x :: y :: after))
        (.map (before ++ y :: x :: after)) c
  appended : ∀ (entries : List (Value × Value)) (x : Value × Value) (c : Value),
    (∀ y ∈ entries ++ [x], k.Fits .comparable y.1) → (∃ y ∈ entries, k.order x.1 y.1 = .eq) →
      Interchangeable (map k e).order (.map (entries ++ [x])) (.map entries) c

theorem listsByContent (t : DataType) : t.ListsByContent where
  firstDifference := sequenceOrder_firstDifference t
  runsOut _ rest ha := sequenceOrder_append ha rest

theorem setsByContent (t : DataType) : t.SetsByContent where
  elements _ _ _ := set_order_congr
  collated _ := collated_sortedElements
  asLists _ _ _ _ := set_order_eq_list_order

theorem mapsByContent (k e : DataType) : MapsByContent k e where
  permuted entries others c hk hp hd := by
    have ho : ∀ x ∈ others, k.Fits .comparable x.1 := fun x hx => hk x (hp.mem_iff.mp hx)
    exact map_order_congr hk ho (sameFirsts_of_perm hk hp hd) c
  swapped before after x y c hk hxy := by
    have swap := (List.Perm.swap y x after).append_left before
    have hk' : ∀ z ∈ before ++ y :: x :: after, k.Fits .comparable z.1 := fun z hz =>
      hk z (swap.mem_iff.mpr hz)
    have fx := hk x (by simp)
    have fy := hk y (by simp)
    exact map_order_congr hk' hk (sameFirsts_swap fx fy hxy) c
  appended entries x c hk hx := by
    have he : ∀ y ∈ entries, k.Fits .comparable y.1 := fun y hy => hk y (by simp [hy])
    exact map_order_congr he hk (sameFirsts_append he (hk x (by simp)) hx) c

/-- Collections of every type are compared by what they hold. -/
theorem collections_by_content (t k e : DataType) :
    t.ListsByContent ∧ t.SetsByContent ∧ MapsByContent k e :=
  ⟨listsByContent t, setsByContent t, mapsByContent k e⟩

/-- Lists that differ in trailing nulls, by themselves, in a set and as keys. -/
theorem collections_by_content_trailing_null :
    let t : DataType := .list (.leaf .int)
    let a : Value := .list [.int 1]
    let a' : Value := .list [.int 1, .null]
    let b : Value := .list [.int 2]
    (∀ c ∈ [a, a', b], t.Fits .comparable c) ∧
      t.order (.list [.int 1]) (.list ([.int 1] ++ [.null])) = .eq ∧
        Interchangeable (set t).order (.set [b, a', a, a']) (.set [a, a', b]) (.set [a']) ∧
          Interchangeable (map t (.leaf .text)).order
            (.map ([(a, .text "x"), (b, .null)] ++ [(a', .text "y")]))
            (.map [(a, .text "x"), (b, .null)]) (.map [(a', .text "y")]) := by
  intro t a a' b
  have fits : ∀ c ∈ [a, a', b], t.Fits .comparable c := by
    simp [t, a, a', b, Fits, Strictness.comparable, Kind.HoldsAlike, Kind.Holds]
  have item : ∀ c ∈ [Value.int 1], (leaf .int).Fits .comparable c := by
    simp [Fits, Strictness.comparable, Kind.HoldsAlike, Kind.Holds]
  have lists := (collections_by_content (.leaf .int) t (.leaf .text)).1
  have equal := lists.runsOut [.int 1] [.null] item
  obtain ⟨-, sets, maps⟩ := collections_by_content t t (.leaf .text)
  refine ⟨fits, equal, sets.elements _ _ _ fits (fun c => ?_) ?_, maps.appended _ _ _ ?_ ?_⟩
  · simp only [List.mem_cons, List.not_mem_nil, or_false]
    tauto
  · exact .inr ⟨_, rfl, fun c hc => fits c (by simp_all)⟩
  · intro y hy
    refine fits y.1 ?_
    simp only [List.cons_append, List.nil_append, List.mem_cons, List.not_mem_nil, or_false] at hy
    rcases hy with rfl | rfl | rfl <;> simp
  · exact ⟨(a, .text "x"), by simp, by decide⟩

end DataType

end CqlWire
