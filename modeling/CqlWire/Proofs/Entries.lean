import CqlWire.Proofs.CanonicalView
import CqlWire.Proofs.JsonText
import CqlWire.Proofs.KeyTexts
import CqlWire.Proofs.Typing
import Mathlib.Data.List.Perm.Subperm

namespace CqlWire

/-- A list without repeats has as many items as one with the same items just when that has no repeats
either. -/
theorem length_eq_iff_nodup {α : Type _} {l m : List α} (hl : l.Nodup) (hm : ∀ a, a ∈ l ↔ a ∈ m) :
    l.length = m.length ↔ m.Nodup := by
  constructor
  · intro length
    have part := List.subperm_of_subset hl fun a ha => (hm a).mp ha
    exact (part.perm_of_length_le length.ge).nodup_iff.mp hl
  · exact fun h => ((List.perm_ext_iff_of_nodup hl h).mpr hm).length_eq

namespace Json

/-- A map is shown with `n` entries, as the members of an object or as pairs of a key and a value. -/
inductive HasEntries : Json → Nat → Prop
  | members (members : List (String × Json)) : HasEntries (.object members) members.length
  | pairs (entries : List (Json × Json)) :
    HasEntries (.array (entries.map fun e => .array [e.1, e.2])) entries.length

variable {name : String} {value : Json} {members ms : List (String × Json)}
  {entries : List (Json × Json)} {n : Nat}

theorem hasEntries_object : (object members).HasEntries n ↔ members.length = n :=
  ⟨fun h => by cases h; rfl, fun h => h ▸ .members members⟩

theorem mem_names_putMember {other : String} :
    other ∈ (putMember name value ms).map Prod.fst ↔ other = name ∨ other ∈ ms.map Prod.fst := by
  induction ms with
  | nil => simp [putMember]
  | cons m ms ih =>
    unfold putMember
    split
    next => simp
    next e => simp [Text.order_eq_iff.mp e]
    next =>
      rw [List.map_cons, List.mem_cons, ih, List.map_cons, List.mem_cons]
      exact or_left_comm

theorem names_putMember_pairwise (name : String) (value : Json)
    (h : (ms.map Prod.fst).Pairwise fun a b => Text.order a b = .lt) :
    ((putMember name value ms).map Prod.fst).Pairwise fun a b => Text.order a b = .lt := by
  have ord := Value.textOrder_orderedOn
  induction ms with
  | nil => exact List.pairwise_singleton _ _
  | cons m ms ih =>
    obtain ⟨hm, hs⟩ := List.pairwise_cons.mp h
    unfold putMember
    split
    next e =>
      refine List.pairwise_cons.mpr ⟨fun other ho => ?_, h⟩
      rcases List.mem_cons.mp ho with rfl | ho
      · exact e
      · exact ord.lt_trans_isLE trivial trivial trivial e (by simp [hm other ho])
    next e =>
      refine List.pairwise_cons.mpr ⟨fun other ho => ?_, hs⟩
      rw [Text.order_eq_iff.mp e]
      exact hm other ho
    next e =>
      refine List.pairwise_cons.mpr ⟨fun other ho => ?_, ih hs⟩
      rcases mem_names_putMember.mp ho with rfl | ho
      · rw [ord.swap trivial trivial, e]
        rfl
      · exact hm other ho

/-- An object has one member for each name. -/
theorem hasEntries_ofMembers :
    (ofMembers members).HasEntries members.length ↔ (members.map Prod.fst).Nodup := by
  have put : ∀ (members acc : List (String × Json)),
      (acc.map Prod.fst).Pairwise (fun a b => Text.order a b = .lt) →
      let ms := members.foldl (fun ms m => putMember m.1 m.2 ms) acc
      (ms.map Prod.fst).Pairwise (fun a b => Text.order a b = .lt) ∧
        ∀ name, name ∈ ms.map Prod.fst ↔ name ∈ members.map Prod.fst ∨ name ∈ acc.map Prod.fst := by
    intro members
    induction members with
    | nil => exact fun acc h => ⟨h, by simp⟩
    | cons m members ih =>
      intro acc h
      obtain ⟨sorted, names⟩ := ih _ (names_putMember_pairwise m.1 m.2 h)
      refine ⟨sorted, fun name => (names name).trans ?_⟩
      rw [mem_names_putMember, List.map_cons, List.mem_cons, or_left_comm, or_assoc]
  obtain ⟨sorted, names⟩ := put members [] .nil
  have distinct := sorted.imp (S := fun a b => a ≠ b) fun {a b} h e => by
    rw [Text.order_eq_iff.mpr e] at h
    cases h
  have lengths := length_eq_iff_nodup (m := members.map Prod.fst) distinct (by simpa using names)
  rw [List.length_map, List.length_map] at lengths
  exact hasEntries_object.trans lengths

theorem eq_map_of_mapM
    (h : (entries.mapM fun e => e.1.toString?.map fun name => (name, e.2)) = some members) :
    entries = members.map fun m => (.text m.1, m.2) := by
  induction entries generalizing members with
  | nil =>
    cases h
    rfl
  | cons e entries ih =>
    rw [List.mapM_cons] at h
    obtain ⟨m, hm, h⟩ := Option.bind_eq_some_iff.mp h
    obtain ⟨ms, hms, h⟩ := Option.bind_eq_some_iff.mp h
    cases h
    obtain ⟨key, value⟩ := e
    cases key with
    | text s =>
      cases hm
      rw [ih hms]
      rfl
    | _ => cases hm

theorem exists_mapM_of_texts (h : ∀ e ∈ entries, ∃ s, e.1 = .text s) :
    ∃ members, (entries.mapM fun e => e.1.toString?.map fun name => (name, e.2)) = some members := by
  induction entries with
  | nil => exact ⟨[], rfl⟩
  | cons e entries ih =>
    obtain ⟨⟨s, hs⟩, hrest⟩ := List.forall_mem_cons.mp h
    obtain ⟨members, hmembers⟩ := ih hrest
    refine ⟨(s, e.2) :: members, ?_⟩
    rw [List.mapM_cons, hmembers, hs]
    rfl

/-- Entries are lost just where all keys are texts and some of them are the same. -/
theorem hasEntries_ofEntries :
    (ofEntries entries).HasEntries entries.length ↔
      ((∀ e ∈ entries, ∃ s, e.1 = .text s) → (entries.map Prod.fst).Nodup) := by
  unfold ofEntries
  split
  next members h =>
    obtain rfl := eq_map_of_mapM h
    have keys : ((members.map fun m => (Json.text m.1, m.2)).map Prod.fst).Nodup ↔
        (members.map Prod.fst).Nodup := by
      rw [List.map_map, ← List.nodup_map_iff (f := Json.text) fun _ _ => text.inj, List.map_map]
      rfl
    rw [List.length_map, hasEntries_ofMembers, keys]
    exact ⟨fun h _ => h, fun h => h (List.forall_mem_map.mpr fun m _ => ⟨m.1, rfl⟩)⟩
  next h =>
    refine iff_of_true (.pairs entries) fun texts => ?_
    obtain ⟨members, hmembers⟩ := exists_mapM_of_texts texts
    cases h.symm.trans hmembers

end Json

namespace Value

/-- Keys that are all shown as texts, though two of them by one text. -/
def Merge (keys : List Value) : Prop :=
  (∀ key ∈ keys, ∃ s, key.toJson = .text s) ∧ ¬keys.Pairwise fun a b => ¬ShareText a b

variable {a b : Value}

theorem ShareText.merge (h : ShareText a b) : Merge [a, b] := by
  obtain ⟨s, ha, hb⟩ := h.exists_text
  exact ⟨by simp [ha, hb], by simpa using h⟩

theorem ShareText.kind_of_holds {kind : Kind} (h : ShareText a b) (holds : kind.Holds a) :
    kind = .float ∨ kind = .double ∨ kind = .decimal := by
  cases h <;> cases kind <;> simp [Kind.Holds] at holds ⊢

theorem shareText_ten : ShareText (.decimal ⟨1, -1⟩) (.decimal ⟨10, 0⟩) := by
  refine .decimal (by decide) (by decide) (by decide) ?_
  exact compare_eq_iff_eq.mp ((Decimal.numericOrder_eq_compare _ _).symm.trans (by decide))

/-- The kinds with different values that share a text. -/
theorem exists_shareText {kind : Kind} (h : kind = .float ∨ kind = .double ∨ kind = .decimal) :
    ∃ a b, kind.Holds a ∧ kind.Holds b ∧ same a b = false ∧ ShareText a b := by
  rcases h with rfl | rfl | rfl
  · exact ⟨.float 0x7fc00000, .float 0x7fc00001, ⟨_, rfl⟩, ⟨_, rfl⟩, by simp [same],
      .float (by decide) (by decide)⟩
  · exact ⟨.double 0x7ff8000000000000, .double 0x7ff8000000000001, ⟨_, rfl⟩, ⟨_, rfl⟩,
      by simp [same], .double (by decide) (by decide)⟩
  · exact ⟨_, _, ⟨_, rfl⟩, ⟨_, rfl⟩, by simp [same], shareText_ten⟩

theorem toJsonEntries_eq_map (entries : List (Value × Value)) :
    toJsonEntries entries = entries.map fun e => (e.1.toJson, e.2.toJson) := by
  induction entries with
  | nil => rfl
  | cons e entries ih =>
    rw [toJsonEntries, ih]
    rfl

end Value

namespace DataType

open Value (ShareText same)

variable {t k v : DataType} {a : Value} {keys : List Value} {entries : List (Value × Value)}
  {kind : Kind} {s : String}

theorem view_of_leaf (hl : k.leaf? = some kind) (a : Value) : k.view a = a.toJson := by
  induction k with
  | leaf kind => rfl
  | frozen t ih => exact ih hl
  | _ => cases hl

/-- Only leaf values are shown as texts. -/
theorem exists_kind_of_text (hf : k.Fits .exact a) (h : k.view a = .text s ∨ a.toJson = .text s) :
    ∃ kind, k.leaf? = some kind ∧ kind.Holds a := by
  by_cases null : a = .null
  · subst null
    rw [view_null] at h
    rcases h with h | h <;> cases h
  induction k with
  | leaf kind => exact ⟨kind, rfl, hf.resolve_left null⟩
  | list t | set t | tuple ts =>
    obtain ⟨items, rfl, -⟩ := hf.resolve_left null
    simp [view, Value.toJson] at h
  | map k t =>
    obtain ⟨entries, rfl, -⟩ := hf.resolve_left null
    have shown (entries : List (Json × Json)) : Json.ofEntries entries ≠ .text s := by
      unfold Json.ofEntries
      split <;> exact Json.noConfusion
    rw [view, Value.toJson] at h
    exact absurd h (not_or.mpr ⟨shown _, shown _⟩)
  | udt keyspace name types =>
    obtain ⟨fields, rfl, -⟩ := hf.resolve_left null
    simp [view, Value.toJson, Json.ofMembers] at h
  | frozen t ih => exact ih hf h

/-- Keys that differ are shown alike only if they share their text. -/
theorem nodup_texts_iff (hf : ∀ key ∈ keys, k.Fits .exact key)
    (hd : keys.Pairwise fun a b => same a b = false)
    (ht : ∀ key ∈ keys, ∃ s, key.toJson = .text s) :
    (keys.map Value.toJson).Nodup ↔ keys.Pairwise fun a b => ¬ShareText a b := by
  rw [List.Nodup, List.pairwise_map]
  constructor
  · intro h
    refine h.imp fun hne share => ?_
    obtain ⟨s, ha, hb⟩ := share.exists_text
    exact hne (ha.trans hb.symm)
  · intro h
    refine (hd.and h).imp_of_mem fun {a b} ha hb ⟨differ, apart⟩ e => ?_
    obtain ⟨s, hs⟩ := ht a ha
    obtain ⟨kind, hl, holds⟩ := exists_kind_of_text (hf a ha) (.inr hs)
    obtain ⟨kind', hl', holds'⟩ := exists_kind_of_text (hf b hb) (.inr (e ▸ hs))
    cases hl.symm.trans hl'
    rcases Value.eq_or_shareText holds holds' hs (e ▸ hs) with rfl | share
    · rw [Value.same_refl] at differ
      cases differ
    · exact apart share

/-- Keys shown in any order and in one of the two ways keep their entries unless they merge. -/
theorem hasEntries_iff_of_perm {f : Value → Json} {shown : List (Json × Json)}
    (hsame : ∀ key ∈ keys, ∀ s, f key = .text s ∨ key.toJson = .text s → f key = key.toJson)
    (hf : ∀ key ∈ keys, k.Fits .exact key) (hd : keys.Pairwise fun a b => same a b = false)
    (hperm : (shown.map Prod.fst).Perm (keys.map f)) :
    (Json.ofEntries shown).HasEntries keys.length ↔ ¬Value.Merge keys := by
  have length : shown.length = keys.length := by simpa using hperm.length_eq
  have texts : (∀ e ∈ shown, ∃ s, e.1 = Json.text s) ↔ ∀ key ∈ keys, ∃ s, key.toJson = .text s := by
    rw [← List.forall_mem_map (P := fun j => ∃ s, j = Json.text s) (f := Prod.fst)]
    simp only [hperm.mem_iff, List.forall_mem_map]
    refine forall₂_congr fun key hkey => exists_congr fun s => ?_
    exact ⟨fun h => (hsame key hkey s (.inl h)).symm.trans h,
      fun h => (hsame key hkey s (.inr h)).trans h⟩
  rw [← length, Json.hasEntries_ofEntries, texts, Value.Merge, not_and, not_not]
  refine forall_congr' fun ht => ?_
  have alike : keys.map f = keys.map Value.toJson :=
    List.map_congr_left fun key hkey => (ht key hkey).elim fun s hs => hsame key hkey s (.inr hs)
  rw [hperm.nodup_iff, alike, nodup_texts_iff hf hd ht]

theorem hasEntries_iff (hf : ∀ e ∈ entries, k.Fits .exact e.1)
    (hd : (entries.map Prod.fst).Pairwise fun a b => same a b = false) (v : DataType) :
    ((Value.map entries).toJson.HasEntries entries.length ↔
        ¬Value.Merge (entries.map Prod.fst)) ∧
      (((DataType.map k v).view (.map entries)).HasEntries entries.length ↔
        ¬Value.Merge (entries.map Prod.fst)) := by
  have keys : ∀ key ∈ entries.map Prod.fst, k.Fits .exact key := List.forall_mem_map.mpr hf
  have length : entries.length = (entries.map Prod.fst).length := (List.length_map Prod.fst).symm
  rw [length]
  constructor
  · refine hasEntries_iff_of_perm (fun _ _ _ _ => rfl) keys hd ?_
    rw [Value.toJsonEntries_eq_map, List.map_map, List.map_map]
    rfl
  · refine hasEntries_iff_of_perm (f := k.view) (fun key hkey s h => ?_) keys hd ?_
    · obtain ⟨kind, hl, -⟩ := exists_kind_of_text (keys key hkey) h
      exact view_of_leaf hl key
    · rw [List.map_map, List.map_map]
      exact (sortBy_perm _ entries).map _

theorem view_of_shape (h : t.shape = .map k v) (a : Value) :
    t.view a = (DataType.map k v).view a := by
  induction t with
  | map k' v' =>
    cases h
    rfl
  | frozen t ih => exact ih h
  | _ => cases h

/-- A map with keys that differ is shown with all its entries, unless its keys are all shown as texts
and two of them as one: bits that are no number, or one whole number written without a point. No map
of a type loses an entry so just when the keys of the type are neither floats nor decimals. -/
theorem entries_shown (h : t.shape = .map k v) :
    ((∀ entries : List (Value × Value), t.Fits .exact (.map entries) →
        ((entries.map Prod.fst).Pairwise fun a b => same a b = false) →
        (Value.map entries).toJson.HasEntries entries.length ∧
          (t.view (.map entries)).HasEntries entries.length) ↔
      ¬∃ kind, k.leaf? = some kind ∧ (kind = .float ∨ kind = .double ∨ kind = .decimal)) ∧
    ∀ entries : List (Value × Value), t.Fits .exact (.map entries) →
      ((entries.map Prod.fst).Pairwise fun a b => same a b = false) →
      ((Value.map entries).toJson.HasEntries entries.length ↔
        ¬Value.Merge (entries.map Prod.fst)) ∧
      ((t.view (.map entries)).HasEntries entries.length ↔
        ¬Value.Merge (entries.map Prod.fst)) := by
  have fits (entries : List (Value × Value)) : t.Fits .exact (.map entries) ↔
      ∀ e ∈ entries, k.Fits .exact e.1 ∧ v.Fits .exact e.2 := by
    rw [fits_shape, h]
    refine ⟨fun hf => ?_, fun each => .inr ⟨entries, rfl, trivial, each⟩⟩
    obtain ⟨_, ⟨⟩, -, each⟩ := hf.resolve_left nofun
    exact each
  have extent (entries : List (Value × Value)) (hf : t.Fits .exact (.map entries))
      (hd : (entries.map Prod.fst).Pairwise fun a b => same a b = false) := by
    have shown := hasEntries_iff (fun e he => ((fits entries).mp hf e he).1) hd v
    rw [← view_of_shape h] at shown
    exact shown
  refine ⟨⟨fun all => ?_, fun others entries hf hd => ?_⟩, extent⟩
  · rintro ⟨kind, hl, hkind⟩
    obtain ⟨a, b, ha, hb, differ, share⟩ := Value.exists_shareText hkind
    have holds (a : Value) (ha : kind.Holds a) : k.Fits .exact a := by
      rw [fits_shape, leaf?_eq_some.mp hl]
      exact .inr ha
    have hf : t.Fits .exact (.map [(a, .null), (b, .null)]) := by
      simp [fits, holds a ha, holds b hb]
    have hd : ([(a, Value.null), (b, .null)].map Prod.fst).Pairwise fun a b => same a b = false := by
      simp [differ]
    exact (extent _ hf hd).1.mp (all _ hf hd).1 share.merge
  · have apart : ¬Value.Merge (entries.map Prod.fst) := by
      rintro ⟨texts, merged⟩
      refine merged (List.pairwise_of_forall_mem_list fun a ha b hb share => others ?_)
      obtain ⟨s, hs⟩ := texts a ha
      obtain ⟨e, he, rfl⟩ := List.mem_map.mp ha
      obtain ⟨kind, hl, holds⟩ := exists_kind_of_text ((fits entries).mp hf e he).1 (.inr hs)
      exact ⟨kind, hl, share.kind_of_holds holds⟩
    obtain ⟨plain, typed⟩ := extent entries hf hd
    exact ⟨plain.mpr apart, typed.mpr apart⟩

/-- Of two entries one is lost where their keys are `1E1` and `10`, and none where they are two
zeros. -/
theorem entries_shown_decimal :
    let t : DataType := .frozen (.map (.leaf .decimal) (.leaf .int))
    let merged : List (Value × Value) := [(.decimal ⟨1, -1⟩, .int 1), (.decimal ⟨10, 0⟩, .int 2)]
    let zeros : List (Value × Value) := [(.decimal ⟨0, -1⟩, .int 1), (.decimal ⟨0, 0⟩, .int 2)]
    t.shape = .map (.leaf .decimal) (.leaf .int) ∧
      (t.Fits .exact (.map merged) ∧ (merged.map Prod.fst).Pairwise fun a b => same a b = false) ∧
      (t.Fits .exact (.map zeros) ∧ (zeros.map Prod.fst).Pairwise fun a b => same a b = false) ∧
      ¬(Value.map merged).toJson.HasEntries 2 ∧ ¬(t.view (.map merged)).HasEntries 2 ∧
      (Value.map zeros).toJson.HasEntries 2 ∧ (t.view (.map zeros)).HasEntries 2 := by
  intro t merged zeros
  have fits {x y : Decimal} {m n : Int32} :
      t.Fits .exact (.map [(.decimal x, .int m), (.decimal y, .int n)]) :=
    .inr ⟨_, rfl, trivial, by simp [Fits, Strictness.exact, Kind.Holds]⟩
  have apart {x y : Decimal} (h : x ≠ y) (m n : Int32) :
      ([(Value.decimal x, Value.int m), (.decimal y, .int n)].map Prod.fst).Pairwise
        fun a b => same a b = false := by simp [same, h]
  have hmerged := apart (x := ⟨1, -1⟩) (y := ⟨10, 0⟩) (by decide) 1 2
  have hzeros := apart (x := ⟨0, -1⟩) (y := ⟨0, 0⟩) (by decide) 1 2
  have alone : ¬Value.Merge (zeros.map Prod.fst) := by
    rintro ⟨-, h⟩
    refine h (List.pairwise_pair.mpr ?_)
    rintro ⟨⟩
    contradiction
  obtain ⟨-, shown⟩ := entries_shown (t := t) rfl
  obtain ⟨plain, typed⟩ := shown merged fits hmerged
  obtain ⟨plain', typed'⟩ := shown zeros fits hzeros
  exact ⟨rfl, ⟨fits, hmerged⟩, ⟨fits, hzeros⟩, fun h => plain.mp h Value.shareText_ten.merge,
    fun h => typed.mp h Value.shareText_ten.merge, plain'.mpr alone, typed'.mpr alone⟩

end DataType

end CqlWire
