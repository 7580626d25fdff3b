import CqlWire.Proofs.Alignment
import CqlWire.Proofs.Preorder

namespace CqlWire

variable {α : Type _} {P : α → Prop} {order : α → α → Ordering} {same : α → α → Bool}
  {p : α → Bool}

theorem collapseAfter_sublist (same : α → α → Bool) (kept : α) (l : List α) :
    (collapseAfter same kept l).Sublist l := by
  induction l generalizing kept with
  | nil => exact .slnil
  | cons a l ih =>
    unfold collapseAfter
    split
    · exact (ih kept).cons a
    · exact (ih a).cons_cons a

theorem collapse_sublist (same : α → α → Bool) (l : List α) : (collapse same l).Sublist l := by
  cases l with
  | nil => exact .slnil
  | cons a l => exact (collapseAfter_sublist same a l).cons_cons a

theorem mem_sortBy {a : α} {l : List α} : a ∈ sortBy order l ↔ a ∈ l :=
  (sortBy_perm order l).mem_iff

theorem mem_place {a b : α} {l : List α} : a ∈ place order b l ↔ a = b ∨ a ∈ l := by
  rw [(place_perm order b l).mem_iff, List.mem_cons]

/-- Placing an item keeps a list in which the greatest comes first. -/
theorem place_pairwise (h : OrderedOn P order) {a : α} {l : List α} (ha : P a)
    (hl : ∀ b ∈ l, P b) (hs : l.Pairwise fun x y => (order y x).isLE) :
    (place order a l).Pairwise fun x y => (order y x).isLE := by
  induction l with
  | nil => simp [place]
  | cons b l ih =>
    simp only [List.forall_mem_cons] at hl
    obtain ⟨hb, hs⟩ := List.pairwise_cons.mp hs
    unfold place
    split
    next hlt =>
      refine List.pairwise_cons.mpr ⟨fun c hc => ?_, ih hl.2 hs⟩
      rcases mem_place.mp hc with rfl | hc
      · simp [hlt]
      · exact hb c hc
    next hlt =>
      have hba : (order b a).isLE := by
        rw [h.swap ha hl.1, Ordering.isLE_swap]
        exact Ordering.isGE_iff_ne_lt.mpr hlt
      refine List.pairwise_cons.mpr ⟨fun c hc => ?_, List.pairwise_cons.mpr ⟨hb, hs⟩⟩
      rcases List.mem_cons.mp hc with rfl | hc
      · exact hba
      · exact h.trans (hl.2 c hc) hl.1 ha (hb c hc) hba

theorem sortBy_pairwise (h : OrderedOn P order) {l : List α} (hl : ∀ a ∈ l, P a) :
    (sortBy order l).Pairwise fun a b => (order a b).isLE := by
  have placed : ∀ (l acc : List α), (∀ a ∈ l, P a) → (∀ a ∈ acc, P a) →
      (acc.Pairwise fun x y => (order y x).isLE) →
      (l.foldl (fun sorted a => place order a sorted) acc).Pairwise fun x y => (order y x).isLE := by
    intro l
    induction l with
    | nil => exact fun _ _ _ hs => hs
    | cons a l ih =>
      intro acc hl hacc hs
      simp only [List.forall_mem_cons] at hl
      refine ih _ hl.2 (fun b hb => ?_) (place_pairwise h hl.1 hacc hs)
      rcases mem_place.mp hb with rfl | hb
      · exact hl.1
      · exact hacc b hb
  exact List.pairwise_reverse.mpr (placed l [] hl (by simp) .nil)

theorem filter_place {a : α} {l : List α} (h : ∀ b ∈ l, p a → p b → order a b = .eq) :
    (place order a l).filter p = (a :: l).filter p := by
  induction l with
  | nil => rfl
  | cons b l ih =>
    simp only [List.forall_mem_cons] at h
    unfold place
    split
    next hlt =>
      rw [List.filter_cons, ih h.2, List.filter_cons, List.filter_cons, List.filter_cons]
      cases ha : p a <;> cases hb : p b <;> try rfl
      rw [h.1 ha hb] at hlt
      cases hlt
    next => rfl

/-- Sorting keeps the items of one class, which all compare equal, as they stood. -/
theorem filter_sortBy {l : List α} (h : ∀ a ∈ l, ∀ b ∈ l, p a → p b → order a b = .eq) :
    (sortBy order l).filter p = l.filter p := by
  have placed : ∀ (l acc : List α),
      (∀ a ∈ l ++ acc, ∀ b ∈ l ++ acc, p a → p b → order a b = .eq) →
      (l.foldl (fun sorted a => place order a sorted) acc).filter p =
        (l.filter p).reverse ++ acc.filter p := by
    intro l
    induction l with
    | nil => exact fun _ _ => rfl
    | cons a l ih =>
      intro acc h
      have hmem : ∀ {b : α}, b ∈ l ++ place order a acc → b ∈ a :: l ++ acc := by
        intro b hb
        rcases List.mem_append.mp hb with hb | hb
        · simp [hb]
        · rcases mem_place.mp hb with rfl | hb
          · simp
          · simp [hb]
      have hfirst := filter_place (p := p) (l := acc) fun b hb => h a (by simp) b (by simp [hb])
      rw [List.foldl_cons, ih _ fun b hb c hc => h b (hmem hb) c (hmem hc), hfirst,
        List.filter_cons, List.filter_cons]
      cases p a <;> simp
  unfold sortBy
  rw [List.filter_reverse, placed l [] (by simpa using h)]
  simp

/-- Of the items of one class, collapsing keeps the first. -/
theorem find?_collapse {l : List α} (h : ∀ a ∈ l, ∀ b ∈ l, same a b → p a → p b) :
    (collapse same l).find? p = l.find? p := by
  have after : ∀ (l : List α) (kept : α),
      (∀ a ∈ kept :: l, ∀ b ∈ kept :: l, same a b → p a → p b) → p kept = false →
      (collapseAfter same kept l).find? p = l.find? p := by
    intro l
    induction l with
    | nil => exact fun _ _ _ => rfl
    | cons a l ih =>
      intro kept h hk
      unfold collapseAfter
      split
      next hs =>
        have ha : p a = false := by
          rw [Bool.eq_false_iff]
          intro ha
          have := h a (by simp) kept (by simp) hs ha
          rw [hk] at this
          cases this
        rw [List.find?_cons, ha]
        have grow := List.cons_subset_cons kept (List.subset_cons_self a l)
        exact ih kept (fun b hb c hc => h b (grow hb) c (grow hc)) hk
      next hs =>
        rw [List.find?_cons, List.find?_cons]
        cases ha : p a with
        | true => rfl
        | false => exact ih a (fun b hb c hc => h b (by simp [hb]) c (by simp [hc])) ha
  cases l with
  | nil => rfl
  | cons a l =>
    rw [collapse, List.find?_cons, List.find?_cons]
    cases ha : p a with
    | true => rfl
    | false => exact after l a h ha

/-- A list in order, collapsed, increases from item to item. -/
theorem collapse_pairwise (h : OrderedOn P order) {l : List α} (hl : ∀ a ∈ l, P a)
    (hsame : ∀ a ∈ l, ∀ b ∈ l, order a b = .eq → same b a)
    (hs : l.Pairwise fun a b => (order a b).isLE) :
    (collapse same l).Pairwise fun a b => order a b = .lt := by
  have after : ∀ (l : List α) (kept : α), (∀ a ∈ kept :: l, P a) →
      (∀ a ∈ kept :: l, ∀ b ∈ kept :: l, order a b = .eq → same b a) →
      ((kept :: l).Pairwise fun a b => (order a b).isLE) →
      (kept :: collapseAfter same kept l).Pairwise fun a b => order a b = .lt := by
    intro l
    induction l with
    | nil => exact fun _ _ _ _ => List.pairwise_singleton _ _
    | cons a l ih =>
      intro kept hl hsame hs
      have hkl := (List.pairwise_cons.mp hs).1
      have hal := (List.pairwise_cons.mp hs).2
      unfold collapseAfter
      split
      next hsk =>
        have grow := List.cons_subset_cons kept (List.subset_cons_self a l)
        refine ih kept (fun b hb => hl b (grow hb)) (fun b hb c hc => hsame b (grow hb) c (grow hc)) ?_
        exact List.pairwise_cons.mpr
          ⟨fun b hb => hkl b (List.mem_cons_of_mem a hb), (List.pairwise_cons.mp hal).2⟩
      next hsk =>
        have hlt : order kept a = .lt := by
          rcases Ordering.isLE_iff_eq_lt_or_eq_eq.mp (hkl a (by simp)) with hlt | heq
          · exact hlt
          · exact absurd (hsame kept (by simp) a (by simp) heq) hsk
        have hrest := ih a (fun b hb => hl b (by simp [hb]))
          (fun b hb c hc => hsame b (by simp [hb]) c (by simp [hc])) hal
        refine List.pairwise_cons.mpr ⟨fun b hb => ?_, hrest⟩
        rcases List.mem_cons.mp hb with rfl | hb
        · exact hlt
        · have hab := (List.pairwise_cons.mp hrest).1 b hb
          have hbl := (collapseAfter_sublist same a l).subset hb
          exact h.lt_trans_isLE (hl kept (by simp)) (hl a (by simp)) (hl b (by simp [hbl])) hlt
            (by simp [hab])
  cases l with
  | nil => exact .nil
  | cons a l => exact after l a hl hsame hs

/-- Collapsing drops an item only behind one that is the same. -/
theorem exists_mem_collapse (same : α → α → Bool) {l : List α} {a : α} (ha : a ∈ l) :
    a ∈ collapse same l ∨ ∃ b ∈ collapse same l, same a b := by
  have after : ∀ (l : List α) (kept : α), a ∈ l →
      a ∈ collapseAfter same kept l ∨ ∃ b ∈ kept :: collapseAfter same kept l, same a b := by
    intro l
    induction l with
    | nil => exact fun _ h => nomatch h
    | cons b l ih =>
      intro kept ha
      unfold collapseAfter
      split
      next hs =>
        rcases List.mem_cons.mp ha with rfl | ha
        · exact .inr ⟨kept, by simp, hs⟩
        · exact ih kept ha
      next hs =>
        rcases List.mem_cons.mp ha with rfl | ha
        · exact .inl (by simp)
        · exact (ih b ha).imp (List.mem_cons_of_mem b) fun ⟨c, hc, h⟩ =>
            ⟨c, List.mem_cons_of_mem kept hc, h⟩
  cases l with
  | nil => cases ha
  | cons b l =>
    rcases List.mem_cons.mp ha with rfl | ha
    · exact .inl (by simp [collapse])
    · exact (after l b ha).imp (List.mem_cons_of_mem b) id

namespace OrderedOn

theorem head_isLE (h : OrderedOn P order) {a b : α} {l : List α} (ha : P a)
    (hs : (a :: l).Pairwise fun a b => order a b = .lt) (hb : b ∈ a :: l) : (order a b).isLE := by
  rcases List.mem_cons.mp hb with rfl | hb
  · simp [h.refl ha]
  · simp [(List.pairwise_cons.mp hs).1 b hb]

/-- Two increasing lists in which each item has an equal one in the other agree item by item. -/
theorem forall₂_of_covers (h : OrderedOn P order) {l m : List α} (hl : ∀ a ∈ l, P a)
    (hm : ∀ b ∈ m, P b) (sl : l.Pairwise fun a b => order a b = .lt)
    (sm : m.Pairwise fun a b => order a b = .lt) (hlm : ∀ a ∈ l, ∃ b ∈ m, order a b = .eq)
    (hml : ∀ b ∈ m, ∃ a ∈ l, order a b = .eq) : List.Forall₂ (fun a b => order a b = .eq) l m := by
  induction l generalizing m with
  | nil =>
    cases m with
    | nil => exact .nil
    | cons b m =>
      obtain ⟨a, ha, -⟩ := hml b (by simp)
      cases ha
  | cons a l ih =>
    cases m with
    | nil =>
      obtain ⟨b, hb, -⟩ := hlm a (by simp)
      cases hb
    | cons b m =>
      have pa := hl a (by simp)
      have pb := hm b (by simp)
      obtain ⟨c, hc, hac⟩ := hlm a (by simp)
      obtain ⟨d, hd, hdb⟩ := hml b (by simp)
      have hba := h.trans pb (hm c hc) pa (h.head_isLE pb sm hc)
        (by simp [h.eq_symm pa (hm c hc) hac])
      have hab := h.trans pa (hl d hd) pb (h.head_isLE pa sl hd) (by simp [hdb])
      rw [h.swap pa pb] at hba
      have heq : order a b = .eq := Ordering.eq_eq_of_isLE_of_isLE_swap hab hba
      have tl := List.pairwise_cons.mp sl
      have tm := List.pairwise_cons.mp sm
      refine .cons heq (ih (fun x hx => hl x (by simp [hx])) (fun x hx => hm x (by simp [hx]))
        tl.2 tm.2 (fun x hx => ?_) fun y hy => ?_)
      · obtain ⟨y, hy, hxy⟩ := hlm x (by simp [hx])
        have px := hl x (by simp [hx])
        rcases List.mem_cons.mp hy with rfl | hy
        · have hlt := tl.1 x hx
          rw [h.congr_left pa pb px heq, h.eq_symm px pb hxy] at hlt
          cases hlt
        · exact ⟨y, hy, hxy⟩
      · obtain ⟨x, hx, hxy⟩ := hml y (by simp [hy])
        have py := hm y (by simp [hy])
        rcases List.mem_cons.mp hx with rfl | hx
        · have hlt := tm.1 y hy
          rw [← h.congr_left pa pb py heq, hxy] at hlt
          cases hlt
        · exact ⟨x, hx, hxy⟩

end OrderedOn

theorem find?_sortBy {l : List α} (h : ∀ a ∈ l, ∀ b ∈ l, p a → p b → order a b = .eq) :
    (sortBy order l).find? p = l.find? p := by
  rw [← List.head?_filter, ← List.head?_filter, filter_sortBy h]

/-- The items of a list in order, of those that compare equal the first. -/
def firstOfEach (order : α → α → Ordering) (l : List α) : List α :=
  collapse (fun a b => order a b = .eq) (sortBy order l)

theorem mem_of_mem_firstOfEach {a : α} {l : List α} (h : a ∈ firstOfEach order l) : a ∈ l :=
  mem_sortBy.mp ((collapse_sublist _ _).subset h)

namespace OrderedOn

variable {l : List α} {a c : α}

theorem firstOfEach_pairwise (h : OrderedOn P order) (hl : ∀ a ∈ l, P a) :
    (firstOfEach order l).Pairwise fun a b => order a b = .lt := by
  have hs : ∀ a ∈ sortBy order l, P a := fun a ha => hl a (mem_sortBy.mp ha)
  refine collapse_pairwise h hs (fun a ha b hb e => ?_) (sortBy_pairwise h hl)
  exact decide_eq_true (h.eq_symm (hs a ha) (hs b hb) e)

theorem exists_mem_firstOfEach (h : OrderedOn P order) (hl : ∀ a ∈ l, P a) (ha : a ∈ l) :
    ∃ b ∈ firstOfEach order l, order a b = .eq := by
  rcases exists_mem_collapse (fun a b => order a b = .eq) (mem_sortBy.mpr ha) with hm | hm
  · exact ⟨a, hm, h.refl (hl a ha)⟩
  · obtain ⟨b, hb, e⟩ := hm
    exact ⟨b, hb, of_decide_eq_true e⟩

theorem find?_of_pairwise (h : OrderedOn P order) (hl : ∀ a ∈ l, P a) (hc : P c)
    (hs : l.Pairwise fun a b => order a b = .lt) (ha : a ∈ l) (e : order c a = .eq) :
    l.find? (fun b => order c b = .eq) = some a := by
  obtain ⟨before, after, rfl⟩ := List.append_of_mem ha
  refine List.find?_eq_some_iff_append.mpr ⟨decide_eq_true e, before, after, rfl, fun b hb => ?_⟩
  have hba := (List.pairwise_append.mp hs).2.2 b hb a (by simp)
  have pa := hl a ha
  have pb := hl b (by simp [hb])
  rw [Bool.not_eq_true', decide_eq_false_iff_not, h.congr_left hc pa pb e, h.swap pb pa, hba]
  decide

/-- The items kept are the first of their class in the list. -/
theorem find?_firstOfEach (h : OrderedOn P order) (hl : ∀ a ∈ l, P a) (hc : P c) :
    (firstOfEach order l).find? (fun b => order c b = .eq) = l.find? fun b => order c b = .eq := by
  have hs : ∀ a ∈ sortBy order l, P a := fun a ha => hl a (mem_sortBy.mp ha)
  unfold firstOfEach
  rw [find?_collapse, find?_sortBy]
  · intro a ha b hb ea eb
    simp only [decide_eq_true_eq] at ea eb
    exact h.eq_trans (hl a ha) hc (hl b hb) (h.eq_symm hc (hl a ha) ea) eb
  · intro a ha b hb e ea
    simp only [decide_eq_true_eq] at e ea ⊢
    exact h.eq_trans hc (hs a ha) (hs b hb) ea e

theorem find?_of_mem_firstOfEach (h : OrderedOn P order) (hl : ∀ a ∈ l, P a) (hc : P c)
    (ha : a ∈ firstOfEach order l) (e : order c a = .eq) :
    l.find? (fun b => order c b = .eq) = some a := by
  rw [← h.find?_firstOfEach hl hc]
  exact h.find?_of_pairwise (fun b hb => hl b (mem_of_mem_firstOfEach hb)) hc
    (h.firstOfEach_pairwise hl) ha e

/-- Lists with the same classes have the same firsts of each, up to the order. -/
theorem firstOfEach_forall₂ (h : OrderedOn P order) {m : List α} (hl : ∀ a ∈ l, P a)
    (hm : ∀ b ∈ m, P b) (hlm : ∀ a ∈ l, ∃ b ∈ m, order a b = .eq)
    (hml : ∀ b ∈ m, ∃ a ∈ l, order a b = .eq) :
    List.Forall₂ (fun a b => order a b = .eq) (firstOfEach order l) (firstOfEach order m) := by
  have hl' : ∀ a ∈ firstOfEach order l, P a := fun a ha => hl a (mem_of_mem_firstOfEach ha)
  have hm' : ∀ b ∈ firstOfEach order m, P b := fun b hb => hm b (mem_of_mem_firstOfEach hb)
  refine h.forall₂_of_covers hl' hm' (h.firstOfEach_pairwise hl) (h.firstOfEach_pairwise hm)
    (fun a ha => ?_) fun b hb => ?_
  · obtain ⟨b, hb, hab⟩ := hlm a (mem_of_mem_firstOfEach ha)
    obtain ⟨c, hc, hbc⟩ := h.exists_mem_firstOfEach hm hb
    exact ⟨c, hc, h.eq_trans (hl' a ha) (hm b hb) (hm' c hc) hab hbc⟩
  · obtain ⟨a, ha, hab⟩ := hml b (mem_of_mem_firstOfEach hb)
    obtain ⟨c, hc, hac⟩ := h.exists_mem_firstOfEach hl ha
    exact ⟨c, hc, h.eq_trans (hl' c hc) (hl a ha) (hm' b hb) (h.eq_symm (hl a ha) (hl' c hc) hac) hab⟩

end OrderedOn

section Aligned

variable {β : Type _} {R : α → β → Prop} {order' : β → β → Ordering} {same' : β → β → Bool}
  {l : List α} {m : List β} {a : α} {b : β}

theorem place_forall₂ (ho : ∀ a a' b b', R a b → R a' b' → order a a' = order' b b') (hab : R a b)
    (h : List.Forall₂ R l m) : List.Forall₂ R (place order a l) (place order' b m) := by
  induction h with
  | nil => exact .cons hab .nil
  | cons hcd h ih =>
    unfold place
    rw [ho _ _ _ _ hab hcd]
    split
    · exact .cons hcd ih
    · exact .cons hab (.cons hcd h)

/-- Lists aligned with each other are so when sorted, if their items compare alike. -/
theorem sortBy_forall₂ (ho : ∀ a a' b b', R a b → R a' b' → order a a' = order' b b')
    (h : List.Forall₂ R l m) : List.Forall₂ R (sortBy order l) (sortBy order' m) := by
  have placed : ∀ {acc acc'}, List.Forall₂ R acc acc' →
      List.Forall₂ R (l.foldl (fun sorted a => place order a sorted) acc)
        (m.foldl (fun sorted b => place order' b sorted) acc') := by
    induction h with
    | nil => exact id
    | cons hab _ ih => exact fun hacc => ih (place_forall₂ ho hab hacc)
  exact List.rel_reverse (placed .nil)

theorem collapse_forall₂ (hs : ∀ a a' b b', R a b → R a' b' → same a a' = same' b b')
    (h : List.Forall₂ R l m) : List.Forall₂ R (collapse same l) (collapse same' m) := by
  have after : ∀ {l m}, List.Forall₂ R l m → ∀ {a b}, R a b →
      List.Forall₂ R (collapseAfter same a l) (collapseAfter same' b m) := by
    intro l m h
    induction h with
    | nil => exact fun _ => .nil
    | cons hcd _ ih =>
      intro a b hab
      unfold collapseAfter
      rw [hs _ _ _ _ hcd hab]
      split
      · exact ih hab
      · exact .cons hcd (ih hcd)
  cases h with
  | nil => exact .nil
  | cons hab h => exact .cons hab (after h hab)

end Aligned

end CqlWire
