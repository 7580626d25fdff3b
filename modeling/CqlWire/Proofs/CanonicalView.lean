import CqlWire.Json.View
import CqlWire.Proofs.DistinctMembers
import CqlWire.Table.Row

namespace CqlWire

open Value (same)

theorem Fields.same_get? {x y : Fields}
    (h : List.Forall₂ (fun f g => f.1 = g.1 ∧ same f.2 g.2 = true) x y) (name : String) :
    Option.Rel (fun a b => same a b = true) (x.get? name) (y.get? name) := by
  have found := h.find? (p := fun f => f.1 = name) (q := fun f => f.1 = name) fun f g hfg => by
    rw [hfg.1]
  exact found.map fun f g hfg => hfg.2

namespace DataType

variable {t u k v : DataType} {a b c d x y : Value} {f : Value → Value}

/-- Values of the type whose members compare apart are shown alike when they are equal. -/
def Shows (t : DataType) : Prop :=
  ∀ a b : Value, t.FitsApart a → t.FitsApart b → same a b = true → t.view a = t.view b

theorem Shows.of_ne_null (h : ∀ a b : Value, a ≠ .null → t.FitsApart a → t.FitsApart b →
    same a b = true → t.view a = t.view b) : t.Shows := by
  intro a b ha hb hab
  by_cases na : a = .null
  · subst na
    rw [Value.same_null_right.mp (Value.same_symm hab)]
  · exact h a b na ha hb hab

theorem Shows.list (ht : t.Shows) : Shows (.list t) := by
  refine .of_ne_null fun a b na ha hb h => ?_
  obtain ⟨x, rfl, hx⟩ := ha.fits.resolve_left na
  obtain ⟨y, rfl, hxy⟩ := Value.same_list_left.mp h
  obtain ⟨_, ⟨⟩, hy⟩ := hb.fits.resolve_left nofun
  have each := hxy.imp_mem fun a ma b mb hab =>
    ht a b ⟨hx a ma, ha.apart a ma⟩ ⟨hy b mb, hb.apart b mb⟩ hab
  exact congrArg Json.array each.map_eq_map

theorem Shows.set (ht : t.Shows) : Shows (.set t) := by
  refine .of_ne_null fun a b na ha hb h => ?_
  obtain ⟨x, rfl, hx⟩ := ha.fits.resolve_left na
  obtain ⟨y, rfl, hxy, hyx⟩ := Value.same_set_left.mp h
  obtain ⟨_, ⟨⟩, hy⟩ := hb.fits.resolve_left nofun
  have apartX : ∀ a ∈ x, t.FitsApart a := fun a ma => ⟨hx a ma, ha.apart.2 a ma⟩
  have apartY : ∀ b ∈ y, t.FitsApart b := fun b mb => ⟨hy b mb, hb.apart.2 b mb⟩
  have aligned := sortBy_forall₂_same (f := id) (fun a ma => (apartX a ma).steady) hy ha.apart.1
    hb.apart.1 hxy hyx
  have each := aligned.imp fun a b ⟨ma, mb, hab⟩ => ht a b (apartX a ma) (apartY b mb) hab
  exact congrArg Json.array each.map_eq_map

theorem Shows.map (hk : k.Shows) (hv : v.Shows) : Shows (.map k v) := by
  refine .of_ne_null fun a b na ha hb h => ?_
  obtain ⟨x, rfl, -, hx⟩ := ha.fits.resolve_left na
  obtain ⟨y, rfl, hxy⟩ := Value.same_map_left.mp h
  obtain ⟨_, ⟨⟩, -, hy⟩ := hb.fits.resolve_left nofun
  have keyX : ∀ e ∈ x, k.FitsApart e.1 := fun e me => ⟨(hx e me).1, (ha.apart.2 e me).1⟩
  have keyY : ∀ e ∈ y, k.FitsApart e.1 := fun e me => ⟨(hy e me).1, (hb.apart.2 e me).1⟩
  have aligned := sortBy_forall₂_same (f := Prod.fst) (fun e me => (keyX e me).steady)
    (fun e me => (keyY e me).fits) ha.apart.1 hb.apart.1 (fun e me => Value.exists_same_key hxy me)
    fun f mf => by
      obtain ⟨e, me, hfe⟩ := Value.exists_same_key (Value.same_symm hxy) mf
      exact ⟨e, me, Value.same_symm hfe⟩
  have each : List.Forall₂ (fun e f => (k.view e.1, v.view e.2) = (k.view f.1, v.view f.2))
      (sortBy (fun a b => k.order a.1 b.1) x) (sortBy (fun a b => k.order a.1 b.1) y) := by
    refine aligned.imp fun e f ⟨me, mf, hef⟩ => ?_
    have values := Value.same_map_iff.mp hxy e.1
    rw [valueAt_of_apart (fun e me => (keyX e me).steady) ha.apart.1 me,
      Value.valueAt_eq_of_same hef,
      valueAt_of_apart (fun e me => (keyY e me).steady) hb.apart.1 mf] at values
    cases values with
    | some hval =>
      rw [hk e.1 f.1 (keyX e me) (keyY f mf) hef,
        hv e.2 f.2 ⟨(hx e me).2, (ha.apart.2 e me).2⟩ ⟨(hy f mf).2, (hb.apart.2 f mf).2⟩ hval]
  exact congrArg Json.ofEntries each.map_eq_map

theorem viewPositions_eq {ts : List DataType} {x y : List Value} (hts : ∀ t ∈ ts, t.Shows)
    (lx : x.length = ts.length) (fx : FitsEach .exact ts x) (ax : ApartEach comparesApart ts x)
    (fy : FitsEach .exact ts y) (ay : ApartEach comparesApart ts y)
    (h : List.Forall₂ (fun a b => same a b = true) x y) :
    viewPositions ts x = viewPositions ts y := by
  induction h generalizing ts with
  | nil => rfl
  | @cons a b x y hab _ ih =>
    obtain ⟨t, ts, rfl⟩ := List.exists_cons_of_length_eq_add_one lx.symm
    have first := hts t (by simp) a b ⟨fx.1, ax.1⟩ ⟨fy.1, ay.1⟩ hab
    have rest := ih (fun u hu => hts u (by simp [hu])) (by simpa using lx) fx.2 ax.2 fy.2 ay.2
    exact congrArg₂ List.cons first rest

theorem Shows.tuple {ts : List DataType} (hts : ∀ t ∈ ts, t.Shows) : Shows (.tuple ts) := by
  refine .of_ne_null fun a b na ha hb h => ?_
  obtain ⟨x, rfl, lx, hx⟩ := ha.fits.resolve_left na
  obtain ⟨y, rfl, hxy⟩ := Value.same_tuple_left.mp h
  obtain ⟨_, ⟨⟩, -, hy⟩ := hb.fits.resolve_left nofun
  exact congrArg Json.array (viewPositions_eq hts lx hx ha.apart hy hb.apart hxy)

theorem viewFields_eq {types : FieldTypes} {x y : Fields} (hts : ∀ f ∈ types, f.2.Shows)
    (fx : FitsFields .exact types x) (ax : ApartFields comparesApart types x)
    (fy : FitsFields .exact types y) (ay : ApartFields comparesApart types y)
    (h : List.Forall₂ (fun f g => f.1 = g.1 ∧ same f.2 g.2 = true) x y) :
    viewFields types x = viewFields types y := by
  induction types with
  | nil => rfl
  | cons f types ih =>
    obtain ⟨name, t⟩ := f
    have rest := ih (fun g hg => hts g (by simp [hg])) fx.2 ax.2 fy.2 ay.2
    have found := Fields.same_get? h name
    have first : t.view (x.getD name) = t.view (y.getD name) :=
      hts (name, t) (by simp) _ _ ⟨fx.1, ax.1⟩ ⟨fy.1, ay.1⟩ (Fields.same_getD h name)
    unfold Fields.getD at first
    unfold viewFields
    cases hx : x.get? name <;> cases hy : y.get? name <;> rw [hx, hy] at found first
    · exact rest
    · cases found
    · cases found
    · exact congrArg₂ List.cons (congrArg (Prod.mk name) first) rest

theorem Shows.udt {keyspace name : String} {types : FieldTypes} (hts : ∀ f ∈ types, f.2.Shows) :
    Shows (.udt keyspace name types) := by
  refine .of_ne_null fun a b na ha hb h => ?_
  obtain ⟨x, rfl, -, hx⟩ := ha.fits.resolve_left na
  obtain ⟨y, rfl, hxy⟩ := Value.same_record_left.mp h
  obtain ⟨_, ⟨⟩, -, hy⟩ := hb.fits.resolve_left nofun
  exact congrArg Json.ofMembers (viewFields_eq hts hx ha.apart hy hb.apart hxy)

theorem shows (t : DataType) : t.Shows := by
  induction t with
  | leaf kind =>
    refine .of_ne_null fun a b na ha _ h => ?_
    have hl : a.IsLeaf := Kind.Holds.isLeaf (ha.fits.resolve_left na)
    rw [(Value.same_iff_of_isLeaf hl).mp h]
  | list t ih => exact ih.list
  | set t ih => exact ih.set
  | map k v ihk ihv => exact ihk.map ihv
  | tuple ts ih => exact .tuple ih
  | udt keyspace name types ih => exact .udt ih
  | frozen t ih => exact fun a b ha hb h => ih a b ⟨ha.fits, ha.apart⟩ ⟨hb.fits, hb.apart⟩ h

theorem view_null (t : DataType) : t.view .null = .null := by
  induction t with
  | frozen t ih => exact ih
  | _ => rfl

theorem ofEntries_key {a b c : Json} (h : Json.ofEntries [(a, c)] = Json.ofEntries [(b, c)]) :
    a = b := by
  cases a <;> cases b <;>
    simp [Json.ofEntries, Json.toString?, Json.ofMembers, Json.putMember] at h ⊢ <;> exact h

theorem viewPositions_nulls (before ts : List DataType) (items : List Value) :
    viewPositions (before ++ ts) (nulls before ++ items) =
      before.map (fun _ => Json.null) ++ viewPositions ts items := by
  induction before with
  | nil => rfl
  | cons t before ih => exact congrArg₂ List.cons (view_null t) ih

theorem viewFields_absent {types : FieldTypes} {fields : Fields}
    (h : ∀ f ∈ types, fields.get? f.1 = none) : viewFields types fields = [] := by
  induction types with
  | nil => rfl
  | cons f types ih =>
    obtain ⟨name, t⟩ := f
    rw [viewFields, h (name, t) (by simp)]
    exact ih fun g hg => h g (by simp [hg])

theorem viewFields_singleton {types : FieldTypes} (hn : (types.map Prod.fst).Nodup)
    {g : String × DataType} (hg : g ∈ types) (x : Value) :
    viewFields types [(g.1, x)] = [(g.1, g.2.view x)] := by
  induction types with
  | nil => cases hg
  | cons f types ih =>
    obtain ⟨name, t⟩ := f
    rw [List.map_cons, List.nodup_cons] at hn
    rcases List.mem_cons.mp hg with rfl | hg
    · have here : Fields.get? [(name, x)] name = some x := by simp [Fields.get?]
      have others : ∀ f ∈ types, Fields.get? [(name, x)] f.1 = none := by
        intro f hf
        have hne : name ≠ f.1 := fun e => hn.1 (List.mem_map.mpr ⟨f, hf, e.symm⟩)
        simp [Fields.get?, hne]
      rw [viewFields, here, viewFields_absent others]
    · have hne : g.1 ≠ name := fun e => hn.1 (List.mem_map.mpr ⟨g, hg, e⟩)
      have absent : Fields.get? [(g.1, x)] name = none := by simp [Fields.get?, hne]
      rw [viewFields, absent]
      exact ih hn.2 hg

theorem apartEach_nulls {differ : DataType → Value → Value → Prop} {before after : List DataType}
    (h : u.Apart differ x) :
    ApartEach differ (before ++ u :: after) (nulls before ++ x :: nulls after) := by
  induction before with
  | nil =>
    refine ⟨h, ?_⟩
    induction after with
    | nil => trivial
    | cons t after ih => exact ⟨apart_null differ t, ih⟩
  | cons t before ih => exact ⟨apart_null differ t, ih⟩

/-- Values of one type stand inside values of another, where they can be told apart when shown and
repeat nothing. -/
structure Shown (u t : DataType) (f : Value → Value) : Prop extends Embeds u t f where
  reveals : ∀ x y, t.view (f x) = t.view (f y) → u.view x = u.view y
  apart : ∀ differ x, u.Apart differ x → t.Apart differ (f x)

theorem exists_shown (hn : t.WellNamed) (hu : u ∈ t.children) : ∃ f, Shown u t f := by
  cases t with
  | leaf kind => cases hu
  | list t =>
    cases List.mem_singleton.mp hu
    exact ⟨_, embeds_list, fun x y h => by simpa [view] using h,
      fun differ x h => by simpa [Apart] using h⟩
  | set t =>
    cases List.mem_singleton.mp hu
    exact ⟨_, embeds_set, fun x y h => by simpa [view, sortBy, place] using h,
      fun differ x h => by simpa [Apart] using h⟩
  | map k v =>
    rcases List.mem_pair.mp hu with rfl | rfl
    · exact ⟨_, embeds_mapKey, fun x y h => ofEntries_key h,
        fun differ x h => by simpa [Apart, apart_null] using h⟩
    · refine ⟨_, embeds_mapValue, fun x y h => ?_,
        fun differ x h => by simpa [Apart, apart_null] using h⟩
      simpa [view, sortBy, place, view_null, Json.ofEntries, Json.toString?] using h
  | tuple ts =>
    obtain ⟨before, after, rfl⟩ := List.append_of_mem hu
    refine ⟨_, embeds_tuple before after, fun x y h => ?_, fun differ x h => apartEach_nulls h⟩
    have h := Json.array.inj h
    rw [viewPositions_nulls, viewPositions_nulls] at h
    exact (List.cons.inj (List.append_cancel_left h)).1
  | udt keyspace name types =>
    obtain ⟨g, hg, rfl⟩ := List.mem_map.mp hu
    have names := (wellNamed_udt.mp hn).1
    refine ⟨_, embeds_udt names hg, fun x y h => ?_, fun differ x h => ?_⟩
    · rw [view, view, viewFields_singleton names hg, viewFields_singleton names hg] at h
      simpa [Json.ofMembers, Json.putMember] using h
    · refine apartFields_iff.mpr fun f hf => ?_
      rw [Fields.getD_cons]
      split
      next e =>
        rw [List.inj_on_of_nodup_map names hf hg e.symm]
        exact h
      next => exact apart_null _ _
  | frozen t =>
    cases List.mem_singleton.mp hu
    exact ⟨id, ⟨fun _ => id, fun _ _ => id, fun _ _ => .rfl, fun _ _ => .rfl⟩, fun _ _ => id,
      fun _ _ => id⟩

/-- Two values, neither of them null, of a type. -/
def HasPair (Q : DataType → Value → Value → Prop) (t : DataType) : Prop :=
  ∃ a b, (a ≠ .null ∧ t.Fits .exact a) ∧ (b ≠ .null ∧ t.Fits .exact b) ∧ Q t a b

/-- Two values of a type inside another one are found in values of that one. -/
theorem hasPair_of_not_throughout {P : DataType → Prop} {Q : DataType → Value → Value → Prop}
    (hn : t.WellNamed) (h : ¬t.Throughout P)
    (found : ∀ u : DataType, u.WellNamed → ¬P u → u.HasPair Q)
    (lift : ∀ (u t : DataType) (f : Value → Value) (a b : Value), Shown u t f → Q u a b →
      Q t (f a) (f b)) : t.HasPair Q := by
  induction t using children_induct with
  | h t ih =>
    rcases not_throughout h with here | ⟨u, hu, inside⟩
    · exact found t hn here
    · obtain ⟨f, hf⟩ := exists_shown hn hu
      obtain ⟨a, b, ⟨na, fa⟩, ⟨nb, fb⟩, hab⟩ := ih u hu ((throughout_iff.mp hn).2 u hu) inside
      exact ⟨f a, f b, ⟨hf.ne_null a na, hf.fits a na fa⟩, ⟨hf.ne_null b nb, hf.fits b nb fb⟩,
        lift u t f a b hf hab⟩

theorem view_ne_text (ht : ¬t.Plain) (hf : t.Fits .exact a) (ha : a ≠ .null) (s : String) :
    t.view a ≠ .text s := by
  induction t with
  | leaf kind =>
    have plain : (leaf kind).Plain := throughout_leaf.mpr (by simp)
    exact absurd plain ht
  | list t | set t | tuple ts =>
    obtain ⟨items, rfl, -⟩ := hf.resolve_left ha
    simp [view]
  | map k v =>
    obtain ⟨entries, rfl, -⟩ := hf.resolve_left ha
    rw [view, Json.ofEntries]
    split <;> simp [Json.ofMembers]
  | udt keyspace name types =>
    obtain ⟨fields, rfl, -⟩ := hf.resolve_left ha
    simp [view, Json.ofMembers]
  | frozen t ih =>
    have inside : ¬t.Plain := fun hp => ht (throughout_frozen.mpr ⟨by simp, hp⟩)
    exact ih inside hf

theorem ofEntries_of_ne_text {key value : Json} {rest : List (Json × Json)}
    (h : ∀ s, key ≠ .text s) :
    Json.ofEntries ((key, value) :: rest) =
      .array (((key, value) :: rest).map fun e => .array [e.1, e.2]) := by
  have none : key.toString? = none := by
    cases key with
    | text s => exact absurd rfl (h s)
    | _ => rfl
  simp [Json.ofEntries, none]

theorem sortBy_pair {α : Type _} {order : α → α → Ordering} {a b : α} (h : order b a ≠ .lt) :
    sortBy order [a, b] = [a, b] := by
  simp [sortBy, place, h]

/-- A repeated element or key is shown twice. -/
theorem hasPair_repeated (h : ¬((∀ u, t ≠ .set u) ∧ ∀ k v, t ≠ .map k v)) :
    t.HasPair fun t a b => same a b = true ∧ t.view a ≠ t.view b := by
  have shape : (∃ u, t = .set u) ∨ ∃ k v, t = .map k v := by
    by_contra none
    rw [not_or] at none
    exact h ⟨fun u e => none.1 ⟨u, e⟩, fun k v e => none.2 ⟨k, v, e⟩⟩
  rcases shape with ⟨u, rfl⟩ | ⟨k, v, rfl⟩
  · refine ⟨.set [.null, .null], .set [.null], ⟨nofun, .inr ⟨_, rfl, by simp⟩⟩,
      ⟨nofun, .inr ⟨_, rfl, by simp⟩⟩, by simp [Value.same_set_iff], fun e => ?_⟩
    have length := congrArg List.length (Json.array.inj e)
    simp [(sortBy_perm _ _).length_eq] at length
  · refine ⟨.map [(.null, .null), (.null, .null)], .map [(.null, .null)],
      ⟨nofun, .inr ⟨_, rfl, trivial, by simp⟩⟩, ⟨nofun, .inr ⟨_, rfl, trivial, by simp⟩⟩,
      Value.same_map_iff.mpr fun c => ?_, fun e => ?_⟩
    · have once : Value.valueAt [(.null, .null), (.null, .null)] c =
          Value.valueAt [(.null, .null)] c := by
        rw [Value.valueAt_cons, Value.valueAt_cons]
        split <;> rfl
      rw [once]
      cases Value.valueAt [(.null, .null)] c with
      | none => exact .none
      | some w => exact .some (Value.same_refl w)
    · simp [view, sortBy, place, view_null, Json.ofEntries, Json.toString?] at e

/-- What equality tells apart and the order does not. -/
structure Blurred (t : DataType) (c d : Value) : Prop where
  order_eq : t.order c d = .eq
  same_ne : ¬same c d = true
  view_ne : t.view c ≠ t.view d
  apart_left : t.Apart unequal c
  apart_right : t.Apart unequal d

theorem hasPair_blurred (hn : t.WellNamed) (h : ¬t.Plain) : t.HasPair Blurred := by
  refine hasPair_of_not_throughout hn h (fun u _ here => ?_) fun u t f c d hf hcd => ?_
  · simp only [not_forall, not_and_or, not_not] at here
    obtain ⟨v, rfl | rfl⟩ := here
    · exact ⟨.list [], .list [.null], ⟨nofun, .inr ⟨_, rfl, nofun⟩⟩,
        ⟨nofun, .inr ⟨_, rfl, by simp⟩⟩, rfl, by simp [Value.same_list_iff], by simp [view],
        by simp [Apart], by simp [Apart, apart_null]⟩
    · exact ⟨.set [], .set [.null], ⟨nofun, .inr ⟨_, rfl, nofun⟩⟩,
        ⟨nofun, .inr ⟨_, rfl, by simp⟩⟩, rfl, by simp [Value.same_set_iff],
        by simp [view, sortBy, place], by simp [Apart], by simp [Apart, apart_null]⟩
  · exact ⟨(hf.order_iff c d).mpr hcd.order_eq, fun e => hcd.same_ne ((hf.same_iff c d).mp e),
      fun e => hcd.view_ne (hf.reveals c d e), hf.apart _ c hcd.apart_left,
      hf.apart _ d hcd.apart_right⟩

/-- Two elements or keys that compare equal and yet are not keep their places when they are sorted,
so that the other order is shown differently. -/
theorem hasPair_swapped (hn : t.WellNamed)
    (h : ¬((∀ u, t = .set u → u.Plain) ∧ ∀ k v, t = .map k v → k.Plain)) :
    t.HasPair fun t a b => t.Apart unequal a ∧ t.Apart unequal b ∧ same a b = true ∧
      t.view a ≠ t.view b := by
  simp only [not_and_or, not_forall] at h
  rcases h with ⟨u, rfl, hu⟩ | ⟨k, v, rfl, hk⟩
  · obtain ⟨c, d, ⟨nc, fc⟩, ⟨nd, fd⟩, hcd⟩ := hasPair_blurred (wellNamed_set.mp hn) hu
    have hdc := (exact_orderedOn u).eq_symm fc fd hcd.order_eq
    have apart {a b : Value} (hab : ¬same a b = true) (ha : u.Apart unequal a)
        (hb : u.Apart unequal b) : (set u).Apart unequal (.set [a, b]) := by
      simp [Apart, unequal, hab, ha, hb]
    refine ⟨.set [c, d], .set [d, c], ⟨nofun, .inr ⟨_, rfl, by simp [fc, fd]⟩⟩,
      ⟨nofun, .inr ⟨_, rfl, by simp [fc, fd]⟩⟩, apart hcd.same_ne hcd.apart_left hcd.apart_right,
      apart (fun e => hcd.same_ne (Value.same_symm e)) hcd.apart_right hcd.apart_left,
      by simp [Value.same_set_iff], fun e => ?_⟩
    rw [view, view, sortBy_pair (by simp [hdc]), sortBy_pair (by simp [hcd.order_eq])] at e
    exact hcd.view_ne (List.cons.inj (Json.array.inj e)).1
  · obtain ⟨c, d, ⟨nc, fc⟩, ⟨nd, fd⟩, hcd⟩ := hasPair_blurred (wellNamed_map.mp hn).1 hk
    have hdc := (exact_orderedOn k).eq_symm fc fd hcd.order_eq
    have apart {a b : Value} (hab : ¬same a b = true) (ha : k.Apart unequal a)
        (hb : k.Apart unequal b) : (map k v).Apart unequal (.map [(a, .null), (b, .null)]) := by
      simp [Apart, unequal, hab, ha, hb, apart_null]
    have shown {a b : Value} (fa : k.Fits .exact a) (na : a ≠ .null) (hba : k.order b a = .eq) :
        (map k v).view (.map [(a, .null), (b, .null)]) =
          .array [.array [k.view a, .null], .array [k.view b, .null]] := by
      rw [view, sortBy_pair (by simp [hba]), List.map_cons,
        ofEntries_of_ne_text (view_ne_text hk fa na)]
      simp [view_null]
    refine ⟨.map [(c, .null), (d, .null)], .map [(d, .null), (c, .null)],
      ⟨nofun, .inr ⟨_, rfl, trivial, by simp [fc, fd]⟩⟩,
      ⟨nofun, .inr ⟨_, rfl, trivial, by simp [fc, fd]⟩⟩,
      apart hcd.same_ne hcd.apart_left hcd.apart_right,
      apart (fun e => hcd.same_ne (Value.same_symm e)) hcd.apart_right hcd.apart_left,
      same_map_swap hcd.same_ne, fun e => ?_⟩
    rw [shown fc nc hdc, shown fd nd hcd.order_eq] at e
    have first := (List.cons.inj (Json.array.inj e)).1
    exact hcd.view_ne (List.cons.inj (Json.array.inj first)).1

theorem view_eq_iff_sequential (hn : t.WellNamed) :
    (∀ a b : Value, t.Fits .exact a → t.Fits .exact b → same a b = true → t.view a = t.view b) ↔
      t.Sequential := by
  constructor
  · intro h
    by_contra hs
    obtain ⟨a, b, ⟨-, fa⟩, ⟨-, fb⟩, hab, hne⟩ :=
      hasPair_of_not_throughout hn hs (fun u _ => hasPair_repeated) fun u t f a b hf hab =>
        ⟨(hf.same_iff a b).mpr hab.1, fun e => hab.2 (hf.reveals a b e)⟩
    exact hne (h a b fa fb hab)
  · intro hs a b fa fb hab
    exact shows t a b ⟨fa, hs.apart _ a⟩ ⟨fb, hs.apart _ b⟩ hab

theorem view_eq_iff_hasPlainMembers (hn : t.WellNamed) :
    (∀ a b : Value, t.Repeatless a → t.Repeatless b → same a b = true → t.view a = t.view b) ↔
      t.HasPlainMembers := by
  constructor
  · intro h
    by_contra hp
    obtain ⟨a, b, ⟨-, fa⟩, ⟨-, fb⟩, ra, rb, hab, hne⟩ :=
      hasPair_of_not_throughout hn hp (fun u => hasPair_swapped) fun u t f a b hf hab =>
        ⟨hf.apart _ a hab.1, hf.apart _ b hab.2.1, (hf.same_iff a b).mpr hab.2.2.1,
          fun e => hab.2.2.2 (hf.reveals a b e)⟩
    exact hne (h a b ⟨fa, ra⟩ ⟨fb, rb⟩ hab)
  · intro hp a b ra rb hab
    exact shows t a b (ra.fitsApart hp) (rb.fitsApart hp) hab

end DataType

namespace Table

variable {table : Table}

/-- Rows with equal cells in the primary key, whose members compare apart, have one key. -/
theorem key_eq_of_same {x y : Row} (lx : x.length = table.columns.length)
    (ly : y.length = table.columns.length)
    (h : ∀ c ∈ table.columns.zip (x.zip y), c.1.isKey = true →
      c.1.type.FitsApart c.2.1 ∧ c.1.type.FitsApart c.2.2 ∧ same c.2.1 c.2.2 = true) :
    table.key x = table.key y := by
  have cells (columns : List Column) : ∀ x y : Row, x.length = columns.length →
      y.length = columns.length →
      (∀ c ∈ columns.zip (x.zip y), c.1.isKey = true →
        c.1.type.FitsApart c.2.1 ∧ c.1.type.FitsApart c.2.2 ∧ same c.2.1 c.2.2 = true) →
      ((columns.zip x).filter fun c => c.1.isKey).map cellText =
        ((columns.zip y).filter fun c => c.1.isKey).map cellText := by
    induction columns with
    | nil => exact fun _ _ _ _ _ => rfl
    | cons column columns ih =>
      intro x y lx ly h
      obtain ⟨a, x, rfl⟩ := List.exists_cons_of_length_eq_add_one lx
      obtain ⟨b, y, rfl⟩ := List.exists_cons_of_length_eq_add_one ly
      rw [List.zip_cons_cons, List.zip_cons_cons, List.forall_mem_cons] at h
      have rest := ih x y (by simpa using lx) (by simpa using ly) h.2
      rw [List.zip_cons_cons, List.zip_cons_cons, List.filter_cons, List.filter_cons]
      cases hk : column.isKey with
      | false => simpa [hk] using rest
      | true =>
        obtain ⟨ta, tb, hab⟩ := h.1 hk
        have text : cellText (column, a) = cellText (column, b) :=
          congrArg Json.compact (DataType.shows column.type a b ta tb hab)
        simp [text, rest]
  have texts := congrArg (List.map fun text => text ++ ":") (cells table.columns x y lx ly h)
  rw [List.map_map, List.map_map] at texts
  exact congrArg String.join texts

end Table

namespace DataType

/-- Equal values of a type are all shown alike just when no set and no map is part of the type, and
those without repeats just when what their sets and the keys of their maps hold is plain. In every
type those are whose members compare apart, and rows with such cells in the primary key have the same
key. -/
theorem view_canonical (t : DataType) (table : Table) :
    (t.WellNamed →
      ((∀ a b : Value, t.Fits .exact a → t.Fits .exact b → same a b = true →
          t.view a = t.view b) ↔ t.Sequential) ∧
        ((∀ a b : Value, t.Repeatless a → t.Repeatless b → same a b = true →
          t.view a = t.view b) ↔ t.HasPlainMembers)) ∧
      (∀ a b : Value, t.FitsApart a → t.FitsApart b → same a b = true → t.view a = t.view b) ∧
        ∀ x y : Row, x.length = table.columns.length → y.length = table.columns.length →
          (∀ c ∈ table.columns.zip (x.zip y), c.1.isKey = true →
            c.1.type.FitsApart c.2.1 ∧ c.1.type.FitsApart c.2.2 ∧ same c.2.1 c.2.2 = true) →
          table.key x = table.key y :=
  ⟨fun hn => ⟨view_eq_iff_sequential hn, view_eq_iff_hasPlainMembers hn⟩, shows t,
    fun _ _ => Table.key_eq_of_same⟩

/-- A map of sets with its entries and their elements in two orders. -/
theorem view_canonical_nested :
    let t : DataType := .map (.leaf .text) (.set (.leaf .int))
    let a : Value := .map [(.text "x", .set [.int 3, .int 1]), (.text "y", .null)]
    let b : Value := .map [(.text "y", .null), (.text "x", .set [.int 1, .int 3])]
    let columns : List Column := [⟨"k", t, .partition⟩, ⟨"v", .leaf .int, .regular⟩]
    let table : Table := ⟨"ks", "t", columns, none, none⟩
    (t.FitsApart a ∧ t.FitsApart b ∧ same a b = true) ∧
      (t.WellNamed ∧ t.HasPlainMembers ∧ ∀ a b : Value, t.Repeatless a → t.Repeatless b →
        same a b = true → t.view a = t.view b) ∧
      t.view a = t.view b ∧ table.key [a, .int 1] = table.key [b, .int 2] := by
  intro t a b columns table
  have keys : (leaf .text).order (.text "x") (.text "y") ≠ .eq ∧
      (leaf .text).order (.text "y") (.text "x") ≠ .eq := by decide
  have elements : (leaf .int).order (.int 1) (.int 3) ≠ .eq ∧
      (leaf .int).order (.int 3) (.int 1) ≠ .eq := by decide
  have apartA : t.FitsApart a := by
    refine ⟨.inr ⟨_, rfl, trivial, by simp [Fits, Strictness.exact, Kind.Holds]⟩, ?_⟩
    simp [t, a, Apart, comparesApart, keys, elements]
  have apartB : t.FitsApart b := by
    refine ⟨.inr ⟨_, rfl, trivial, by simp [Fits, Strictness.exact, Kind.Holds]⟩, ?_⟩
    simp [t, b, Apart, comparesApart, keys, elements]
  have equal : same a b = true := by decide +kernel
  have named : t.WellNamed := by simp [t]
  have plain : t.HasPlainMembers := by simp [t, HasPlainMembers, Plain]
  obtain ⟨types, shown, rows⟩ := view_canonical t table
  refine ⟨⟨apartA, apartB, equal⟩, ⟨named, plain, (types named).2.mpr plain⟩,
    shown a b apartA apartB equal, rows _ _ rfl rfl fun c hc hk => ?_⟩
  have cells : c = (⟨"k", t, .partition⟩, a, b) ∨
      c = (⟨"v", .leaf .int, .regular⟩, .int 1, .int 2) := by simpa [table, columns] using hc
  rcases cells with rfl | rfl
  · exact ⟨apartA, apartB, equal⟩
  · cases hk

end DataType

end CqlWire
