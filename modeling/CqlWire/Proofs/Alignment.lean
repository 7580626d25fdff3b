import Mathlib.Data.List.Forall2

namespace List.Forall₂

variable {α β γ : Type _} {R S : α → β → Prop} {l : List α} {m : List β}

/-- What holds of aligned items may use that they are items of their lists. -/
theorem imp_mem (h : Forall₂ R l m) (hs : ∀ a ∈ l, ∀ b ∈ m, R a b → S a b) : Forall₂ S l m := by
  rw [forall₂_iff_zip] at h ⊢
  exact ⟨h.1, fun hm => hs _ (of_mem_zip hm).1 _ (of_mem_zip hm).2 (h.2 hm)⟩

theorem exists_mem_right (h : Forall₂ R l m) {a : α} (ha : a ∈ l) : ∃ b ∈ m, R a b := by
  induction h with
  | nil => cases ha
  | cons hab _ ih =>
    rcases mem_cons.mp ha with rfl | ha
    · exact ⟨_, mem_cons_self, hab⟩
    · obtain ⟨b, hb, h⟩ := ih ha
      exact ⟨b, mem_cons_of_mem _ hb, h⟩

theorem exists_mem_left (h : Forall₂ R l m) {b : β} (hb : b ∈ m) : ∃ a ∈ l, R a b :=
  h.flip.exists_mem_right hb

/-- Lists aligned with a third one are aligned with each other. -/
theorem comp {T : β → γ → Prop} {n : List γ} (h : Forall₂ R l m) (g : Forall₂ T m n) :
    Forall₂ (fun a c => ∃ b ∈ m, R a b ∧ T b c) l n := by
  induction h generalizing n with
  | nil =>
    cases g
    exact .nil
  | cons hab _ ih =>
    cases g with
    | cons hbc g =>
      refine .cons ⟨_, mem_cons_self, hab, hbc⟩ ((ih g).imp ?_)
      exact fun _ _ ⟨b, hb, h⟩ => ⟨b, mem_cons_of_mem _ hb, h⟩

/-- Of two lists with results that tell their items apart, the items agree when the results do. -/
theorem iff_eq {S : γ → β → Prop} {T : α → γ → Prop} {n : List γ} {ps qs : List β}
    (h : Forall₂ R l ps) (g : Forall₂ S n qs)
    (ht : ∀ a ∈ l, ∀ c ∈ n, ∀ p q, R a p → S c q → (T a c ↔ p = q)) :
    Forall₂ T l n ↔ ps = qs := by
  induction h generalizing n qs with
  | nil => cases g <;> simp
  | cons hap _ ih =>
    cases g with
    | nil => simp
    | cons hcq g =>
      rw [forall₂_cons, cons.injEq, ht _ mem_cons_self _ mem_cons_self _ _ hap hcq]
      rw [ih g fun a ha c hc => ht a (mem_cons_of_mem _ ha) c (mem_cons_of_mem _ hc)]

theorem forall_iff_eq {T : α → Prop} {ps qs : List β} (h : Forall₂ R l ps) (g : Forall₂ S l qs)
    (ht : ∀ a ∈ l, ∀ p q, R a p → S a q → (T a ↔ p = q)) : (∀ a ∈ l, T a) ↔ ps = qs := by
  induction h generalizing qs with
  | nil =>
    cases g
    simp
  | cons hap _ ih =>
    cases g with
    | cons haq g =>
      rw [forall_mem_cons, cons.injEq, ht _ mem_cons_self _ _ hap haq]
      rw [ih g fun a ha => ht a (mem_cons_of_mem _ ha)]

theorem iff_forall {P : α → Prop} (h : Forall₂ R l m)
    (hs : ∀ a ∈ l, ∀ b ∈ m, R a b → (S a b ↔ P a)) : Forall₂ S l m ↔ ∀ a ∈ l, P a := by
  induction h with
  | nil => simp
  | cons hab _ ih =>
    rw [forall₂_cons, forall_mem_cons, hs _ mem_cons_self _ mem_cons_self hab]
    rw [ih fun a ha b hb => hs a (mem_cons_of_mem _ ha) b (mem_cons_of_mem _ hb)]

theorem find? {p : α → Bool} {q : β → Bool} (h : Forall₂ R l m) (hpq : ∀ a b, R a b → p a = q b) :
    Option.Rel R (l.find? p) (m.find? q) := by
  induction h with
  | nil => exact .none
  | cons hab _ ih =>
    rw [find?_cons, find?_cons, ← hpq _ _ hab]
    split
    · exact .some hab
    · exact ih

/-- What holds of each two items of one list holds of those aligned with them. -/
theorem pairwise {P : α → α → Prop} {Q : β → β → Prop} (h : Forall₂ R l m) (hl : l.Pairwise P)
    (hq : ∀ a c b d, R a b → R c d → P a c → Q b d) : m.Pairwise Q := by
  induction h with
  | nil => exact .nil
  | cons hab h ih =>
    obtain ⟨ha, hl⟩ := pairwise_cons.mp hl
    refine pairwise_cons.mpr ⟨fun d hd => ?_, ih hl⟩
    obtain ⟨c, hc, hcd⟩ := h.exists_mem_left hd
    exact hq _ c _ d hab hcd (ha c hc)

theorem map_eq_map {f : α → γ} {g : β → γ} (h : Forall₂ (fun a b => f a = g b) l m) :
    l.map f = m.map g := by
  induction h with
  | nil => rfl
  | cons hab _ ih => rw [map_cons, map_cons, hab, ih]

theorem of_map_eq_map {f : α → γ} {g : β → γ} (h : l.map f = m.map g) :
    Forall₂ (fun a b => f a = g b) l m := by
  rw [← forall₂_eq_eq_eq, forall₂_map_left_iff, forall₂_map_right_iff] at h
  exact h

/-- Items aligned with the second parts of pairs go with the first parts. -/
theorem zip_fst {R : β → γ → Prop} {l : List (α × β)} {m : List γ}
    (h : Forall₂ R (l.map Prod.snd) m) :
    Forall₂ (fun a c => a.1 = c.1 ∧ R a.2 c.2) l ((l.map Prod.fst).zip m) := by
  induction l generalizing m with
  | nil =>
    cases h
    exact .nil
  | cons a l ih =>
    cases h with
    | cons hac h => exact .cons ⟨rfl, hac⟩ (ih h)

/-- A choice for each two aligned items is a list of choices. -/
theorem exists_zip {R : α → γ → β → Prop} (h : Forall₂ (fun a b => ∃ c, R a c b) l m) :
    ∃ n, n.length = l.length ∧ Forall₂ (fun x b => R x.1 x.2 b) (l.zip n) m := by
  induction h with
  | nil => exact ⟨[], rfl, .nil⟩
  | cons hab _ ih =>
    obtain ⟨c, hc⟩ := hab
    obtain ⟨n, hn, hl⟩ := ih
    exact ⟨c :: n, by simp [hn], .cons hc hl⟩

/-- Of three aligned lists the second and the third may change places. -/
theorem zip_swap {R : α → β → γ → Prop} {n : List γ} (hl : m.length = l.length)
    (h : Forall₂ (fun p c => R p.1 p.2 c) (l.zip m) n) :
    Forall₂ (fun p b => R p.1 b p.2) (l.zip n) m := by
  induction l generalizing m n with
  | nil =>
    rw [length_eq_zero_iff.mp hl]
    exact .nil
  | cons a l ih =>
    obtain ⟨b, m, rfl⟩ := exists_cons_of_length_eq_add_one hl
    cases h with
    | cons first rest => exact .cons first (ih (Nat.succ.inj hl) rest)

end List.Forall₂

/-- A list of images of items is the image of a list of items. -/
theorem List.exists_map_eq {α β : Type _} {f : β → α} {P : β → Prop} {l : List α}
    (h : ∀ a ∈ l, ∃ b, f b = a ∧ P b) : ∃ m : List β, m.map f = l ∧ ∀ b ∈ m, P b := by
  induction l with
  | nil => exact ⟨[], rfl, by simp⟩
  | cons a l ih =>
    obtain ⟨b, rfl, hb⟩ := h a (by simp)
    obtain ⟨m, rfl, hm⟩ := ih fun c hc => h c (by simp [hc])
    exact ⟨b :: m, rfl, List.forall_mem_cons.mpr ⟨hb, hm⟩⟩

namespace Option.Rel

variable {α β γ δ : Type _} {R : α → β → Prop} {a : Option α} {b : Option β}

theorem map {S : γ → δ → Prop} {f : α → γ} {g : β → δ} (h : Option.Rel R a b)
    (hs : ∀ x y, R x y → S (f x) (g y)) : Option.Rel S (a.map f) (b.map g) := by
  cases h with
  | none => exact .none
  | some h => exact .some (hs _ _ h)

/-- What is found in two lists agrees when the results do, where these tell it apart. -/
theorem iff_eq {S : γ → β → Prop} {T : α → γ → Prop} {c : Option γ} {q : Option β}
    (h : Option.Rel R a b) (g : Option.Rel S c q)
    (ht : ∀ x y p q, R x p → S y q → (T x y ↔ p = q)) : Option.Rel T a c ↔ b = q := by
  cases h with
  | none =>
    cases g with
    | none => exact ⟨fun _ => rfl, fun _ => .none⟩
    | some _ => exact ⟨nofun, nofun⟩
  | some hx =>
    cases g with
    | none => exact ⟨nofun, nofun⟩
    | some hy =>
      rw [Option.some.injEq, ← ht _ _ _ _ hx hy]
      exact ⟨fun | .some h => h, .some⟩

end Option.Rel
