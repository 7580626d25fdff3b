import CqlWire.Proofs.Embedding
import CqlWire.Proofs.Separation
import CqlWire.Proofs.WellFormed

namespace CqlWire

open Value (same)

namespace Value

/-- Induction over a value, all at once for the values directly inside it. -/
theorem contents_induct {motive : Value → Prop}
    (h : ∀ v : Value, (∀ c ∈ v.contents, motive c.2) → motive v) (v : Value) : motive v := by
  induction v with
  | list items ih | set items ih | tuple items ih => exact h _ (List.forall_mem_map.mpr ih)
  | map entries ih =>
    refine h _ fun c hc => ?_
    obtain ⟨e, he, hc⟩ := List.mem_flatMap.mp hc
    rcases List.mem_pair.mp hc with rfl | rfl
    · exact (ih e he).1
    · exact (ih e he).2
  | record fields ih => exact h _ (List.forall_mem_map.mpr ih)
  | _ => exact h _ nofun

/-- The place of one type directly inside another one. -/
def Place.Holds : Place → DataType → DataType → Prop
  | .listItem, t, u => t = .list u
  | .setItem, t, u => t = .set u
  | .mapKey, t, u => ∃ v, t = .map u v
  | .mapValue, t, u => ∃ k, t = .map k u
  | .tupleItem, t, u => ∃ ts, t = .tuple ts ∧ u ∈ ts
  | .recordField, t, u => ∃ keyspace name fields, t = .udt keyspace name fields ∧ u ∈ fields.map Prod.snd

theorem Place.Holds.mem_children {place : Place} {t u : DataType} (h : place.Holds t u) :
    u ∈ t.children := by
  cases place with
  | listItem | setItem =>
    cases h
    simp [DataType.children]
  | mapKey | mapValue =>
    obtain ⟨_, rfl⟩ := h
    simp [DataType.children]
  | tupleItem =>
    obtain ⟨ts, rfl, hu⟩ := h
    exact hu
  | recordField =>
    obtain ⟨keyspace, name, fields, rfl, hu⟩ := h
    exact hu

end Value

namespace DataType

variable {t u k : DataType} {a b : Value}

/-- What stands inside a value is exactly of a type that stands at the same place. -/
theorem Fits.contents (h : t.Fits .exact a) {c : Value.Place × Value} (hc : c ∈ a.contents) :
    ∃ u, c.1.Holds t.base u ∧ u.Fits .exact c.2 := by
  induction t with
  | leaf kind =>
    rcases h with rfl | h
    · cases hc
    · have hl := Kind.Holds.isLeaf h
      cases a <;> cases hl <;> cases hc
  | list t _ =>
    rcases h with rfl | ⟨items, rfl, fits⟩
    · cases hc
    · obtain ⟨x, hx, rfl⟩ := List.mem_map.mp hc
      exact ⟨t, rfl, fits x hx⟩
  | set t _ =>
    rcases h with rfl | ⟨items, rfl, fits⟩
    · cases hc
    · obtain ⟨x, hx, rfl⟩ := List.mem_map.mp hc
      exact ⟨t, rfl, fits x hx⟩
  | map k t _ _ =>
    rcases h with rfl | ⟨entries, rfl, -, fits⟩
    · cases hc
    · obtain ⟨e, he, hc⟩ := List.mem_flatMap.mp hc
      rcases List.mem_pair.mp hc with rfl | rfl
      · exact ⟨k, ⟨t, rfl⟩, (fits e he).1⟩
      · exact ⟨t, ⟨k, rfl⟩, (fits e he).2⟩
  | tuple ts _ =>
    rcases h with rfl | ⟨items, rfl, hl, fits⟩
    · cases hc
    · obtain ⟨x, hx, rfl⟩ := List.mem_map.mp hc
      obtain ⟨u, hu, hux⟩ := ((fitsEach_iff hl).mp fits).exists_mem_left hx
      exact ⟨u, ⟨ts, rfl, hu⟩, hux⟩
  | udt keyspace name types _ =>
    rcases h with rfl | ⟨fields, rfl, ⟨hcanonical, hknown⟩, fits⟩
    · cases hc
    · obtain ⟨f, hf, rfl⟩ := List.mem_map.mp hc
      obtain ⟨g, hg, hname⟩ := List.mem_map.mp (hknown f hf)
      have hfits := fitsFields_iff.mp fits g hg
      rw [hname, hcanonical.getD_of_mem hf] at hfits
      exact ⟨g.2, ⟨keyspace, name, types, rfl, List.mem_map_of_mem hg⟩, hfits⟩
  | frozen t ih => exact ih h

theorem plain_base_iff : t.base.Plain ↔ t.Plain :=
  throughout_base_iff (by simp)

theorem hasPlainKeys_base_iff : t.base.HasPlainKeys ↔ t.HasPlainKeys :=
  throughout_base_iff (by simp)

theorem Fits.solid (h : t.Fits .exact a) (ht : t.Plain) : a.Solid := by
  induction a using Value.contents_induct generalizing t with
  | h a ih =>
    obtain ⟨here, inside⟩ := throughout_iff.mp (plain_base_iff.mpr ht)
    refine .intro (fun c hc hplace => ?_) fun c hc => ?_
    · obtain ⟨u, hu, -⟩ := h.contents hc
      rcases hplace with hplace | hplace
      · rw [hplace] at hu
        exact absurd hu (here u).1
      · rw [hplace] at hu
        exact absurd hu (here u).2
    · obtain ⟨u, hu, hfits⟩ := h.contents hc
      exact ih c hc hfits (inside u hu.mem_children)

theorem Fits.settled (h : t.Fits .exact a) (ht : t.HasPlainKeys) : a.Settled := by
  induction a using Value.contents_induct generalizing t with
  | h a ih =>
    obtain ⟨here, inside⟩ := throughout_iff.mp (hasPlainKeys_base_iff.mpr ht)
    refine .intro (fun c hc hplace => ?_) fun c hc => ?_
    · obtain ⟨u, hu, hfits⟩ := h.contents hc
      rw [hplace] at hu
      obtain ⟨v, hv⟩ := hu
      exact hfits.solid (here u v hv)
    · obtain ⟨u, hu, hfits⟩ := h.contents hc
      exact ih c hc hfits (inside u hu.mem_children)

theorem exists_holds (kind : Kind) : ∃ v, kind.Holds v := by
  cases kind
  case uuid | timeuuid => exact ⟨_, ⟨0⟩, rfl⟩
  case inet => exact ⟨_, .v4 0, rfl⟩
  case decimal => exact ⟨_, ⟨0, 0⟩, rfl⟩
  case empty => exact ⟨.empty, rfl⟩
  all_goals exact ⟨_, default, rfl⟩

theorem exists_fits (t : DataType) : ∃ v, v ≠ .null ∧ t.Fits .exact v := by
  induction t with
  | leaf kind =>
    obtain ⟨v, hv⟩ := exists_holds kind
    exact ⟨v, hv.ne_null, .inr hv⟩
  | list t _ => exact ⟨.list [], nofun, .inr ⟨[], rfl, nofun⟩⟩
  | set t _ => exact ⟨.set [], nofun, .inr ⟨[], rfl, nofun⟩⟩
  | map k t _ _ => exact ⟨.map [], nofun, .inr ⟨[], rfl, trivial, nofun⟩⟩
  | tuple ts _ =>
    have each := forall₂_fits_nulls ts
    have hl := each.length_eq.symm
    exact ⟨.tuple (nulls ts), nofun, .inr ⟨_, rfl, hl, (fitsEach_iff hl).mpr each⟩⟩
  | udt keyspace name types _ =>
    exact ⟨.record [], nofun, .inr ⟨[], rfl, ⟨Fields.canonical_nil, nofun⟩,
      fitsFields_iff.mpr fun f _ => fits_null _ f.2⟩⟩
  | frozen t ih => exact ih

/-- A type with a list or a set in it has values that compare equal and yet are not. -/
theorem exists_blurred (hn : t.WellNamed) (h : ¬ t.Plain) :
    ∃ c d, (c ≠ .null ∧ t.Fits .exact c) ∧ (d ≠ .null ∧ t.Fits .exact d) ∧ t.order c d = .eq ∧
      ¬ same c d = true := by
  induction t using children_induct with
  | h t ih =>
    rcases not_throughout h with here | ⟨u, hu, inside⟩
    · simp only [not_forall, not_and_or, not_not] at here
      obtain ⟨u, rfl | rfl⟩ := here
      · exact ⟨.list [], .list [.null], ⟨nofun, .inr ⟨_, rfl, nofun⟩⟩,
          ⟨nofun, .inr ⟨_, rfl, by simp⟩⟩, rfl, by simp [Value.same_list_iff]⟩
      · exact ⟨.set [], .set [.null], ⟨nofun, .inr ⟨_, rfl, nofun⟩⟩,
          ⟨nofun, .inr ⟨_, rfl, by simp⟩⟩, rfl, by simp [Value.same_set_iff]⟩
    · obtain ⟨f, hf⟩ := exists_embeds hn hu
      obtain ⟨c, d, ⟨nc, hc⟩, ⟨nd, hd⟩, hcd, hne⟩ := ih u hu ((throughout_iff.mp hn).2 u hu) inside
      exact ⟨f c, f d, ⟨hf.ne_null c nc, hf.fits c nc hc⟩, ⟨hf.ne_null d nd, hf.fits d nd hd⟩,
        (hf.order_iff c d).mpr hcd, fun h => hne ((hf.same_iff c d).mp h)⟩

theorem sortedEntries_pair {e f : Value × Value} (h : k.order f.1 e.1 = .eq) :
    Value.sortedEntries k.order [e, f] = [e] := by
  simp [Value.sortedEntries, sortBy, place, collapse, collapseAfter, h]

/-- Entries with different keys may change places. -/
theorem same_map_swap {c d x y : Value} (hne : ¬ same c d = true) :
    same (.map [(c, x), (d, y)]) (.map [(d, y), (c, x)]) = true := by
  refine Value.same_map_iff.mpr fun e => ?_
  simp only [Value.valueAt_cons]
  by_cases hc : same e c = true
  · have hd : ¬ same e d = true := fun hd => hne (Value.same_trans (Value.same_symm hc) hd)
    rw [if_pos hc, if_neg hd, if_pos hc]
    exact .some (Value.same_refl _)
  · rw [if_neg hc]
    by_cases hd : same e d = true
    · rw [if_pos hd, if_pos hd]
      exact .some (Value.same_refl _)
    · rw [if_neg hd, if_neg hd, if_neg hc]
      exact .none

/-- Two entries with keys that compare equal and yet are not make two maps that are equal, as each
may come first, and yet do not compare equal. -/
theorem parted_map {c d x : Value} (hcd : k.order c d = .eq) (hdc : k.order d c = .eq)
    (hne : ¬ same c d = true) (hx : x ≠ .null) :
    same (.map [(c, .null), (d, x)]) (.map [(d, x), (c, .null)]) = true ∧
      (DataType.map k u).order (.map [(c, .null), (d, x)]) (.map [(d, x), (c, .null)]) ≠ .eq := by
  refine ⟨same_map_swap hne, fun h => ?_⟩
  have pairs := entriesOrder_eq_iff.mp h
  rw [sortedEntries_pair hdc, sortedEntries_pair hcd, List.forall₂_cons] at pairs
  exact hx (eq_null_of_order_left pairs.1.2)

/-- A type with a map whose keys hold a list or a set has values that are equal and yet do not
compare equal. -/
theorem exists_parted (hn : t.WellNamed) (h : ¬ t.HasPlainKeys) :
    ∃ a b, (a ≠ .null ∧ t.Fits .exact a) ∧ (b ≠ .null ∧ t.Fits .exact b) ∧ same a b = true ∧
      t.order a b ≠ .eq := by
  induction t using children_induct with
  | h t ih =>
    rcases not_throughout h with here | ⟨u, hu, inside⟩
    · simp only [not_forall] at here
      obtain ⟨k, u, rfl, hk⟩ := here
      obtain ⟨-, hnk, -⟩ := throughout_map.mp hn
      obtain ⟨c, d, ⟨nc, hc⟩, ⟨nd, hd⟩, hcd, hne⟩ := exists_blurred hnk hk
      obtain ⟨x, nx, hx⟩ := exists_fits u
      have hdc := (exact_orderedOn k).eq_symm hc hd hcd
      obtain ⟨hsame, hparted⟩ := parted_map (u := u) hcd hdc hne nx
      exact ⟨.map [(c, .null), (d, x)], .map [(d, x), (c, .null)],
        ⟨nofun, .inr ⟨_, rfl, trivial, by simp [hc, hd, hx]⟩⟩,
        ⟨nofun, .inr ⟨_, rfl, trivial, by simp [hc, hd, hx]⟩⟩, hsame, hparted⟩
    · obtain ⟨f, hf⟩ := exists_embeds hn hu
      obtain ⟨a, b, ⟨na, ha⟩, ⟨nb, hb⟩, hab, hne⟩ := ih u hu ((throughout_iff.mp hn).2 u hu) inside
      exact ⟨f a, f b, ⟨hf.ne_null a na, hf.fits a na ha⟩, ⟨hf.ne_null b nb, hf.fits b nb hb⟩,
        (hf.same_iff a b).mpr hab, fun h => hne ((hf.order_iff a b).mp h)⟩

end DataType

namespace Registry

variable {r : Registry} {t o : DataType}

theorem wellNamed_of_shape {s : Shape} (hs : o.shape = s) (h : s.toType.WellNamed) : o.WellNamed := by
  rw [← hs, DataType.toType_shape] at h
  exact (DataType.throughout_base_iff (by simp)).mp h

theorem wellNamed (hr : r.WellFormed) (h : r.resolve t = .ok o) : o.WellNamed := by
  refine resolve_induct (motive := fun _ o => o.WellNamed) (fun _ ho => ?_) (fun _ ho he => ?_)
    (fun _ ho _ he => ?_) (fun _ ho _ hk he => ?_) (fun _ ho hos => ?_) (fun _ ho hu hfs => ?_) h
  · exact wellNamed_of_shape ho DataType.wellNamed_leaf
  · exact wellNamed_of_shape ho (DataType.wellNamed_list.mpr he)
  · exact wellNamed_of_shape ho (DataType.wellNamed_set.mpr he)
  · exact wellNamed_of_shape ho (DataType.wellNamed_map.mpr ⟨hk, he⟩)
  · refine wellNamed_of_shape ho (DataType.wellNamed_tuple.mpr fun u hu => ?_)
    obtain ⟨_, -, h⟩ := hos.exists_mem_left hu
    exact h
  · refine wellNamed_of_shape ho (DataType.wellNamed_udt.mpr ⟨?_, fun f hf => ?_⟩)
    · rw [← (hfs.imp fun _ _ h => h.1).map_eq_map]
      exact hr.lookup hu
    · obtain ⟨_, -, -, h⟩ := hfs.exists_mem_left hf
      exact h

end Registry

end CqlWire
