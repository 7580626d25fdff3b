import CqlWire.Proofs.Alignment
import CqlWire.Value.Equality
import Mathlib.Data.List.Find

namespace CqlWire

/-- A test that is an equivalence relation among the items that `P` allows. -/
structure EquivalenceOn (P : α → Prop) (r : α → α → Prop) : Prop where
  refl : ∀ {a}, P a → r a a
  symm : ∀ {a b}, P a → P b → r a b → r b a
  trans : ∀ {a b c}, P a → P b → P c → r a b → r b c → r a c

namespace EquivalenceOn

variable {P : α → Prop} {r : α → α → Prop}

/-- Item by item. -/
theorem forall₂ (h : EquivalenceOn P r) : EquivalenceOn (fun l => ∀ a ∈ l, P a) (List.Forall₂ r) := by
  constructor
  · intro l hl
    induction l with
    | nil => exact .nil
    | cons a l ih =>
      simp only [List.forall_mem_cons] at hl
      exact .cons (h.refl hl.1) (ih hl.2)
  · intro l m hl hm hlm
    induction hlm with
    | nil => exact .nil
    | cons hab _ ih =>
      simp only [List.forall_mem_cons] at hl hm
      exact .cons (h.symm hl.1 hm.1 hab) (ih hl.2 hm.2)
  · intro l m n hl hm hn hlm hmn
    induction hlm generalizing n with
    | nil => exact hmn
    | cons hab _ ih =>
      cases hmn with
      | cons hbc hmn =>
        simp only [List.forall_mem_cons] at hl hm hn
        exact .cons (h.trans hl.1 hm.1 hn.1 hab hbc) (ih hl.2 hm.2 hn.2 hmn)

/-- Without regard to order and repeats. -/
theorem covers (h : EquivalenceOn P r) : EquivalenceOn (fun l : List α => ∀ a ∈ l, P a)
    (fun l m => (∀ a ∈ l, ∃ b ∈ m, r a b) ∧ ∀ b ∈ m, ∃ a ∈ l, r a b) := by
  constructor
  · intro l hl
    exact ⟨fun a ha => ⟨a, ha, h.refl (hl a ha)⟩, fun a ha => ⟨a, ha, h.refl (hl a ha)⟩⟩
  · rintro l m hl hm ⟨hlm, hml⟩
    constructor
    · intro b hb
      obtain ⟨a, ha, hab⟩ := hml b hb
      exact ⟨a, ha, h.symm (hl a ha) (hm b hb) hab⟩
    · intro a ha
      obtain ⟨b, hb, hab⟩ := hlm a ha
      exact ⟨b, hb, h.symm (hl a ha) (hm b hb) hab⟩
  · rintro l m n hl hm hn ⟨hlm, hml⟩ ⟨hmn, hnm⟩
    constructor
    · intro a ha
      obtain ⟨b, hb, hab⟩ := hlm a ha
      obtain ⟨c, hc, hbc⟩ := hmn b hb
      exact ⟨c, hc, h.trans (hl a ha) (hm b hb) (hn c hc) hab hbc⟩
    · intro c hc
      obtain ⟨b, hb, hbc⟩ := hnm c hc
      obtain ⟨a, ha, hab⟩ := hml b hb
      exact ⟨a, ha, h.trans (hl a ha) (hm b hb) (hn c hc) hab hbc⟩

section Test

variable {test : α → α → Bool} {a b c : α}

theorem comm (h : EquivalenceOn P fun a b => test a b = true) (ha : P a) (hb : P b) :
    test a b = test b a := by
  rw [Bool.eq_iff_iff]
  exact ⟨h.symm ha hb, h.symm hb ha⟩

theorem congr_left (h : EquivalenceOn P fun a b => test a b = true) (ha : P a) (hb : P b)
    (hc : P c) (hab : test a b = true) : test a c = test b c := by
  rw [Bool.eq_iff_iff]
  exact ⟨h.trans hb ha hc (h.symm ha hb hab), h.trans ha hb hc hab⟩

end Test

end EquivalenceOn

namespace Value

attribute [local simp] same sameItems sameFields holds allHeldBy holdsKey tests entriesWithin

theorem sameItems_iff {x y : List Value} :
    sameItems x y = true ↔ List.Forall₂ (fun a b => same a b = true) x y := by
  induction x generalizing y with
  | nil => cases y <;> simp
  | cons a x ih => cases y <;> simp [ih]

theorem sameFields_iff {x y : List (String × Value)} :
    sameFields x y = true ↔ List.Forall₂ (fun f g => f.1 = g.1 ∧ same f.2 g.2 = true) x y := by
  induction x generalizing y with
  | nil => cases y <;> simp
  | cons f x ih =>
    obtain ⟨name, v⟩ := f
    cases y with
    | nil => simp
    | cons g y =>
      obtain ⟨other, w⟩ := g
      simp [ih]

theorem holds_iff {items : List Value} {v : Value} :
    holds items v = true ↔ ∃ a ∈ items, same a v = true := by
  induction items with
  | nil => simp
  | cons a items ih => simp [ih]

theorem allHeldBy_iff {x y : List Value} :
    allHeldBy x y = true ↔ ∀ a ∈ x, ∃ b ∈ y, same a b = true := by
  induction x with
  | nil => simp
  | cons a x ih => simp [ih]

theorem holdsKey_iff {entries : List (Value × Value)} {v : Value} :
    holdsKey entries v = true ↔ ∃ e ∈ entries, same e.1 v = true := by
  induction entries with
  | nil => simp
  | cons e entries ih => rw [holdsKey, Bool.or_eq_true, ih, List.exists_mem_cons_iff]

/-- The value of a key in a map, where the first entry of the key counts. -/
def valueAt (entries : List (Value × Value)) (key : Value) : Option Value :=
  (entries.find? fun e => same key e.1).map Prod.snd

theorem entriesWithin_cons {earlier : List (Value → Bool)} {key : Value}
    {sameKey sameValue : Value → Bool} {rest : List (Value × (Value → Bool) × (Value → Bool))}
    {other : List (Value × Value)} :
    entriesWithin earlier ((key, sameKey, sameValue) :: rest) other =
      ((earlier.any (· key) || (other.find? fun e => sameKey e.1).any fun e => sameValue e.2) &&
        entriesWithin (sameKey :: earlier) rest other) := by
  rw [entriesWithin]
  cases other.find? fun e => sameKey e.1 <;> rfl

theorem entriesWithin_iff {earlier : List (Value → Bool)} {x y : List (Value × Value)} :
    entriesWithin earlier (tests x) y = true ↔
      ∀ before k v after, x = before ++ (k, v) :: after → (∀ f ∈ earlier, f k = false) →
        (∀ e ∈ before, same e.1 k = false) → ∃ w, valueAt y k = some w ∧ same v w = true := by
  induction x generalizing earlier with
  | nil => simp
  | cons e x ih =>
    obtain ⟨key, value⟩ := e
    have here : ((y.find? fun e => same key e.1).any fun e => same value e.2) = true ↔
        ∃ w, valueAt y key = some w ∧ same value w = true := by
      unfold valueAt
      cases y.find? fun e => same key e.1 <;> simp
    rw [tests, entriesWithin_cons, Bool.and_eq_true, Bool.or_eq_true, here, ih]
    constructor
    · rintro ⟨hhere, hrest⟩ before k v after hx hearlier hbefore
      cases before with
      | nil =>
        cases hx
        refine hhere.resolve_left fun hany => ?_
        obtain ⟨f, hf, hk⟩ := List.any_eq_true.mp hany
        rw [hearlier f hf] at hk
        cases hk
      | cons e before =>
        cases hx
        simp only [List.forall_mem_cons] at hbefore
        refine hrest before k v after rfl ?_ hbefore.2
        intro f hf
        rcases List.mem_cons.mp hf with rfl | hf
        · exact hbefore.1
        · exact hearlier f hf
    · intro h
      constructor
      · by_cases hany : (earlier.any fun f => f key) = true
        · exact .inl hany
        · refine .inr (h [] key value x rfl (fun f hf => ?_) (by simp))
          simp only [List.any_eq_true, not_exists, not_and] at hany
          simpa using hany f hf
      · intro before k v after hx hearlier hbefore
        simp only [List.forall_mem_cons] at hearlier
        refine h ((key, value) :: before) k v after (by rw [hx]; rfl) hearlier.2 ?_
        simpa only [List.forall_mem_cons] using ⟨hearlier.1, hbefore⟩

/-- Two maps agree when each key has equal values in both or none in either. -/
def Agree (P : Value → Prop) (x y : List (Value × Value)) : Prop :=
  ∀ c, P c → Option.Rel (fun v w => same v w = true) (valueAt x c) (valueAt y c)

theorem valueAt_eq_some {entries : List (Value × Value)} {c v : Value} :
    valueAt entries c = some v ↔ ∃ before k after, entries = before ++ (k, v) :: after ∧
      same c k = true ∧ ∀ e ∈ before, same c e.1 = false := by
  unfold valueAt
  rw [Option.map_eq_some_iff]
  constructor
  · rintro ⟨⟨k, w⟩, hf, rfl⟩
    obtain ⟨hk, before, after, he, hb⟩ := List.find?_eq_some_iff_append.mp hf
    exact ⟨before, k, after, he, hk, fun e hm => by simpa using hb e hm⟩
  · rintro ⟨before, k, after, he, hk, hb⟩
    exact ⟨(k, v), List.find?_eq_some_iff_append.mpr
      ⟨hk, before, after, he, fun e hm => by simp [hb e hm]⟩, rfl⟩

theorem valueAt_eq_none {entries : List (Value × Value)} {c : Value} :
    valueAt entries c = none ↔ ∀ e ∈ entries, same c e.1 = false := by
  simp only [valueAt, Option.map_eq_none_iff, List.find?_eq_none, Bool.not_eq_true]

variable {P : Value → Prop}

/-- Equal keys find the same entry. -/
theorem valueAt_congr (h : EquivalenceOn P fun a b => same a b = true)
    {entries : List (Value × Value)} (he : ∀ e ∈ entries, P e.1) {c d : Value} (hc : P c) (hd : P d)
    (hcd : same c d = true) : valueAt entries c = valueAt entries d := by
  unfold valueAt
  congr 1
  exact List.find?_congr fun e hm => h.congr_left hc hd (he e hm) hcd

theorem agree_iff {x y : List (Value × Value)} :
    Agree P x y ↔
      (∀ c, P c → ∀ v, valueAt x c = some v → ∃ w, valueAt y c = some w ∧ same v w = true) ∧
        ∀ c, P c → valueAt x c = none → valueAt y c = none := by
  rw [← forall₂_and]
  refine forall₂_congr fun c _ => ?_
  cases valueAt x c with
  | none => cases valueAt y c <;> simp
  | some v => cases valueAt y c <;> simp

/-- An entry that no equal key stands before is the one that its key finds. -/
theorem within_iff (h : EquivalenceOn P fun a b => same a b = true) {x y : List (Value × Value)}
    (hx : ∀ e ∈ x, P e.1) (hy : ∀ e ∈ y, P e.1) :
    (∀ before k v after, x = before ++ (k, v) :: after → (∀ e ∈ before, same e.1 k = false) →
        ∃ w, valueAt y k = some w ∧ same v w = true) ↔
      ∀ c, P c → ∀ v, valueAt x c = some v → ∃ w, valueAt y c = some w ∧ same v w = true := by
  constructor
  · intro hwithin c hc v hv
    obtain ⟨before, k, after, rfl, hck, hbefore⟩ := valueAt_eq_some.mp hv
    have hk : P k := hx (k, v) (by simp)
    rw [valueAt_congr h hy hc hk hck]
    refine hwithin before k v after rfl fun e he => ?_
    have hpe : P e.1 := hx e (by simp [he])
    rw [h.comm hpe hk, ← h.congr_left hc hk hpe hck]
    exact hbefore e he
  · rintro hfound before k v after rfl hbefore
    have hk : P k := hx (k, v) (by simp)
    refine hfound k hk v (valueAt_eq_some.mpr ⟨before, k, after, rfl, h.refl hk, fun e he => ?_⟩)
    rw [h.comm hk (hx e (by simp [he]))]
    exact hbefore e he

/-- Each key of a map is one of another map just when nothing that the other one lacks is found. -/
theorem cover_iff (h : EquivalenceOn P fun a b => same a b = true) {x y : List (Value × Value)}
    (hx : ∀ e ∈ x, P e.1) (hy : ∀ e ∈ y, P e.1) :
    (∀ e ∈ y, ∃ f ∈ x, same f.1 e.1 = true) ↔
      ∀ c, P c → valueAt x c = none → valueAt y c = none := by
  simp only [valueAt_eq_none]
  constructor
  · intro hcover c hc hnone e he
    obtain ⟨f, hf, hfe⟩ := hcover e he
    rw [h.comm hc (hy e he), ← h.congr_left (hx f hf) (hy e he) hc hfe, ← h.comm hc (hx f hf)]
    exact hnone f hf
  · intro hlack e he
    by_contra hne
    have hnone : ∀ f ∈ x, same e.1 f.1 = false := fun f hf => by
      rw [h.comm (hy e he) (hx f hf), Bool.eq_false_iff]
      exact fun hfe => hne ⟨f, hf, hfe⟩
    have hself := hlack e.1 (hy e he) hnone e he
    rw [h.refl (hy e he)] at hself
    cases hself

theorem same_map_iff_agree (h : EquivalenceOn P fun a b => same a b = true)
    {x y : List (Value × Value)} (hx : ∀ e ∈ x, P e.1) (hy : ∀ e ∈ y, P e.1) :
    same (.map x) (.map y) = true ↔ Agree P x y := by
  rw [same, Bool.and_eq_true, entriesWithin_iff, List.all_eq_true, agree_iff, ← within_iff h hx hy,
    ← cover_iff h hx hy]
  simp only [holdsKey_iff, List.not_mem_nil, IsEmpty.forall_iff, implies_true, forall_const]

theorem of_valueAt {entries : List (Value × Value)} (he : ∀ e ∈ entries, P e.2) {c v : Value}
    (h : valueAt entries c = some v) : P v := by
  obtain ⟨before, k, after, rfl, _⟩ := valueAt_eq_some.mp h
  exact he (k, v) (by simp)

theorem agree_equivalence (h : EquivalenceOn P fun a b => same a b = true) :
    EquivalenceOn (fun entries => ∀ e ∈ entries, P e.2) (Agree P) := by
  constructor
  · intro x hx c _
    cases hv : valueAt x c with
    | none => exact .none
    | some v => exact .some (h.refl (of_valueAt hx hv))
  · intro x y hx hy hxy c hc
    have hrel := hxy c hc
    cases hv : valueAt x c <;> cases hw : valueAt y c <;> rw [hv, hw] at hrel <;> cases hrel
    · exact .none
    · next hvw => exact .some (h.symm (of_valueAt hx hv) (of_valueAt hy hw) hvw)
  · intro x y z hx hy hz hxy hyz c hc
    have hxy := hxy c hc
    have hyz := hyz c hc
    cases hv : valueAt x c <;> cases hw : valueAt y c <;> rw [hv, hw] at hxy <;> cases hxy <;>
      cases hu : valueAt z c <;> rw [hw, hu] at hyz <;> cases hyz
    · exact .none
    · next hvw _ hwu =>
      exact .some (h.trans (of_valueAt hx hv) (of_valueAt hy hw) (of_valueAt hz hu) hvw hwu)

theorem fields_equivalence (h : EquivalenceOn P fun a b => same a b = true) :
    EquivalenceOn (fun f : String × Value => P f.2)
      (fun f g => f.1 = g.1 ∧ same f.2 g.2 = true) :=
  ⟨fun hf => ⟨rfl, h.refl hf⟩, fun hf hg hfg => ⟨hfg.1.symm, h.symm hf hg hfg.2⟩,
    fun hf hg hk hfg hgk => ⟨hfg.1.trans hgk.1, h.trans hf hg hk hfg.2 hgk.2⟩⟩

/-- The values without values inside them. -/
def IsLeaf : Value → Prop
  | list _ | set _ | map _ | tuple _ | record _ => False
  | _ => True

theorem same_iff_of_isLeaf {a b : Value} (ha : a.IsLeaf) : same a b = true ↔ a = b := by
  cases a <;> cases ha <;> cases b <;> simp

theorem same_list_left {x : List Value} {b : Value} :
    same (.list x) b = true ↔ ∃ y, b = .list y ∧ List.Forall₂ (fun a b => same a b = true) x y := by
  cases b <;> simp [sameItems_iff]

theorem same_set_left {x : List Value} {b : Value} :
    same (.set x) b = true ↔ ∃ y, b = .set y ∧
      (∀ a ∈ x, ∃ b ∈ y, same a b = true) ∧ ∀ b ∈ y, ∃ a ∈ x, same a b = true := by
  cases b <;> simp [allHeldBy_iff, holds_iff]

theorem same_map_left {x : List (Value × Value)} {b : Value} :
    same (.map x) b = true ↔ ∃ y, b = .map y ∧ same (.map x) (.map y) = true := by
  cases b <;> simp

theorem same_tuple_left {x : List Value} {b : Value} :
    same (.tuple x) b = true ↔ ∃ y, b = .tuple y ∧ List.Forall₂ (fun a b => same a b = true) x y := by
  cases b <;> simp [sameItems_iff]

theorem same_record_left {x : List (String × Value)} {b : Value} :
    same (.record x) b = true ↔ ∃ y, b = .record y ∧
      List.Forall₂ (fun f g => f.1 = g.1 ∧ same f.2 g.2 = true) x y := by
  cases b <;> simp [sameFields_iff]

theorem same_list_iff {x y : List Value} :
    same (.list x) (.list y) = true ↔ List.Forall₂ (fun a b => same a b = true) x y := by
  simp [sameItems_iff]

theorem same_tuple_iff {x y : List Value} :
    same (.tuple x) (.tuple y) = true ↔ List.Forall₂ (fun a b => same a b = true) x y := by
  simp [sameItems_iff]

theorem same_set_iff {x y : List Value} :
    same (.set x) (.set y) = true ↔
      (∀ a ∈ x, ∃ b ∈ y, same a b = true) ∧ ∀ b ∈ y, ∃ a ∈ x, same a b = true := by
  simp [allHeldBy_iff, holds_iff]

theorem same_record_iff {x y : List (String × Value)} :
    same (.record x) (.record y) = true ↔
      List.Forall₂ (fun f g => f.1 = g.1 ∧ same f.2 g.2 = true) x y := by
  simp [sameFields_iff]

theorem sizeOf_item {items : List Value} {n : Nat} (h : sizeOf items < n) :
    ∀ v ∈ items, sizeOf v < n :=
  fun _ hv => (List.sizeOf_lt_of_mem hv).trans h

theorem sizeOf_entry {entries : List (Value × Value)} {n : Nat} (h : sizeOf entries < n) :
    ∀ e ∈ entries, sizeOf e.1 < n ∧ sizeOf e.2 < n := by
  rintro ⟨k, v⟩ he
  have hlt := List.sizeOf_lt_of_mem he
  simp only [Prod.mk.sizeOf_spec] at hlt
  constructor <;> simp only <;> omega

theorem sizeOf_field {fields : List (String × Value)} {n : Nat} (h : sizeOf fields < n) :
    ∀ f ∈ fields, sizeOf f.2 < n := by
  rintro ⟨name, v⟩ hf
  have hlt := List.sizeOf_lt_of_mem hf
  simp only [Prod.mk.sizeOf_spec] at hlt
  simp only
  omega

/-- Equality with one value is reflexive, symmetric and transitive. -/
structure EquivalenceAt (P : Value → Prop) (a : Value) : Prop where
  refl : same a a = true
  symm : ∀ {b}, P b → same a b = true → same b a = true
  trans : ∀ {b c}, P b → P c → same a b = true → same b c = true → same a c = true

theorem EquivalenceAt.of_isLeaf {a : Value} (h : a.IsLeaf) : EquivalenceAt P a where
  refl := (same_iff_of_isLeaf h).mpr rfl
  symm _ hab := by
    cases (same_iff_of_isLeaf h).mp hab
    exact hab
  trans _ _ hab hbc := by
    cases (same_iff_of_isLeaf h).mp hab
    exact hbc

/-- Values of one variant are equal as what they carry is. -/
theorem EquivalenceAt.of_variant {β : Type} {mk : β → Value} {Q : β → Prop} {inner : β → β → Prop}
    (h : EquivalenceOn Q inner) (hQ : ∀ x, P (mk x) → Q x)
    (e : ∀ x b, P (mk x) → P b → (same (mk x) b = true ↔ ∃ y, b = mk y ∧ inner x y))
    {x : β} (hx : P (mk x)) : EquivalenceAt P (mk x) where
  refl := (e x _ hx hx).mpr ⟨x, rfl, h.refl (hQ x hx)⟩
  symm hb hab := by
    obtain ⟨y, rfl, hxy⟩ := (e x _ hx hb).mp hab
    exact (e y _ hb hx).mpr ⟨x, rfl, h.symm (hQ x hx) (hQ y hb) hxy⟩
  trans hb hc hab hbc := by
    obtain ⟨y, rfl, hxy⟩ := (e x _ hx hb).mp hab
    obtain ⟨z, rfl, hyz⟩ := (e y _ hb hc).mp hbc
    exact (e x _ hx hc).mpr ⟨z, rfl, h.trans (hQ x hx) (hQ y hb) (hQ z hc) hxy hyz⟩

/-- Equality of values is an equivalence relation on the values up to any size. The values inside
three values are compared with one another, so the size is what the induction is on. -/
theorem same_equivalence_lt (n : Nat) :
    EquivalenceOn (fun v : Value => sizeOf v < n) fun a b => same a b = true := by
  induction n with
  | zero => exact ⟨fun h => absurd h (by omega), fun h => absurd h (by omega), fun h => absurd h (by omega)⟩
  | succ n ih =>
    have each (a : Value) (ha : sizeOf a < n + 1) : EquivalenceAt (fun v => sizeOf v < n + 1) a := by
      cases a with
      | list x =>
        refine .of_variant ih.forall₂ (fun y hy => ?_) (fun _ _ _ _ => same_list_left) ha
        rw [list.sizeOf_spec] at hy
        exact sizeOf_item (by omega)
      | set x =>
        refine .of_variant ih.covers (fun y hy => ?_) (fun _ _ _ _ => same_set_left) ha
        rw [set.sizeOf_spec] at hy
        exact sizeOf_item (by omega)
      | map x =>
        have small (y : List (Value × Value)) (hy : sizeOf (map y) < n + 1) :
            ∀ e ∈ y, sizeOf e.1 < n ∧ sizeOf e.2 < n := by
          rw [map.sizeOf_spec] at hy
          exact sizeOf_entry (by omega)
        refine .of_variant (agree_equivalence ih) (fun y hy e he => (small y hy e he).2) ?_ ha
        intro y b hy hb
        rw [same_map_left]
        refine exists_congr fun z => and_congr_right fun hz => ?_
        subst hz
        exact same_map_iff_agree ih (fun e he => (small y hy e he).1) fun e he => (small z hb e he).1
      | tuple x =>
        refine .of_variant ih.forall₂ (fun y hy => ?_) (fun _ _ _ _ => same_tuple_left) ha
        rw [tuple.sizeOf_spec] at hy
        exact sizeOf_item (by omega)
      | record x =>
        refine .of_variant (fields_equivalence ih).forall₂ (fun y hy => ?_)
          (fun _ _ _ _ => same_record_left) ha
        rw [record.sizeOf_spec] at hy
        exact sizeOf_field (by omega)
      | _ => exact .of_isLeaf trivial
    constructor
    · exact fun ha => (each _ ha).refl
    · exact fun ha hb => (each _ ha).symm hb
    · exact fun ha hb hc => (each _ ha).trans hb hc

/-- Equality of values is an equivalence relation. -/
theorem same_equivalence : EquivalenceOn (fun _ : Value => True) fun a b => same a b = true := by
  constructor
  · intro a _
    exact (same_equivalence_lt (sizeOf a + 1)).refl (by omega)
  · intro a b _ _
    exact (same_equivalence_lt (sizeOf a + sizeOf b + 1)).symm (by omega) (by omega)
  · intro a b c _ _ _
    exact (same_equivalence_lt (sizeOf a + sizeOf b + sizeOf c + 1)).trans (by omega) (by omega)
      (by omega)

@[simp] theorem same_refl (a : Value) : same a a = true :=
  same_equivalence.refl trivial

theorem same_symm {a b : Value} (h : same a b = true) : same b a = true :=
  same_equivalence.symm trivial trivial h

theorem same_trans {a b c : Value} (hab : same a b = true) (hbc : same b c = true) :
    same a c = true :=
  same_equivalence.trans trivial trivial trivial hab hbc

theorem same_null_right {a : Value} : same a .null = true ↔ a = .null := by
  cases a <;> simp

/-- Two maps are equal when each key has equal values in both or none in either. -/
theorem same_map_iff {x y : List (Value × Value)} :
    same (.map x) (.map y) = true ↔
      ∀ c, Option.Rel (fun v w => same v w = true) (valueAt x c) (valueAt y c) := by
  rw [same_map_iff_agree same_equivalence (fun _ _ => trivial) fun _ _ => trivial]
  exact ⟨fun h c => h c trivial, fun h c _ => h c⟩

theorem valueAt_eq_of_same {c d : Value} (h : same c d = true) (entries : List (Value × Value)) :
    valueAt entries c = valueAt entries d :=
  valueAt_congr same_equivalence (fun _ _ => trivial) trivial trivial h

theorem valueAt_cons (c k v : Value) (entries : List (Value × Value)) :
    valueAt ((k, v) :: entries) c = if same c k = true then some v else valueAt entries c := by
  unfold valueAt
  rw [List.find?_cons]
  cases same c k <;> rfl

theorem same_map_singleton {k l v w : Value} :
    same (.map [(k, v)]) (.map [(l, w)]) = true ↔ same k l = true ∧ same v w = true := by
  rw [same_map_iff]
  simp only [valueAt_cons]
  constructor
  · intro h
    have hk := h k
    rw [if_pos (same_refl k)] at hk
    by_cases hl : same k l = true
    · rw [if_pos hl] at hk
      cases hk with
      | some hv => exact ⟨hl, hv⟩
    · rw [if_neg hl] at hk
      cases hk
  · rintro ⟨hl, hv⟩ c
    by_cases hc : same c k = true
    · rw [if_pos hc, if_pos (same_trans hc hl)]
      exact .some hv
    · rw [if_neg hc, if_neg fun h => hc (same_trans h (same_symm hl))]
      exact .none

theorem exists_same_key {x y : List (Value × Value)} (h : same (.map x) (.map y) = true)
    {e : Value × Value} (he : e ∈ x) : ∃ f ∈ y, same e.1 f.1 = true := by
  have hrel := same_map_iff.mp h e.1
  cases hv : valueAt x e.1 with
  | none =>
    have hne := valueAt_eq_none.mp hv e he
    rw [same_refl] at hne
    cases hne
  | some v =>
    cases hw : valueAt y e.1 with
    | none => rw [hv, hw] at hrel; cases hrel
    | some w =>
      obtain ⟨before, k, after, rfl, hk, -⟩ := valueAt_eq_some.mp hw
      exact ⟨(k, w), by simp, hk⟩

end Value

end CqlWire
