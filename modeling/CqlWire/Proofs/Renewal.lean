import CqlWire.Proofs.Reload

namespace CqlWire

namespace FieldTypes

variable {R : DataType → DataType → Prop} {fields others : FieldTypes}

/-- Fields that go together by name and type. -/
def Aligned (R : DataType → DataType → Prop) (fields others : FieldTypes) : Prop :=
  List.Forall₂ (fun f g => f.1 = g.1 ∧ R f.2 g.2) fields others

theorem Aligned.declare (h : Aligned R fields others) (name : String) {t u : DataType} (htu : R t u) :
    Aligned R (declare fields name t) (declare others name u) := by
  induction h with
  | nil => exact .cons ⟨rfl, htu⟩ .nil
  | @cons f g fields others first rest ih =>
    obtain ⟨heq, hfg⟩ := first
    unfold FieldTypes.declare
    rw [← heq]
    split
    next => exact .cons ⟨rfl, htu⟩ rest
    next => exact .cons ⟨rfl, hfg⟩ ih

theorem Aligned.ofList (h : Aligned R fields others) : Aligned R (ofList fields) (ofList others) := by
  have declared {fields others acc acc' : FieldTypes} (h : Aligned R fields others)
      (hacc : Aligned R acc acc') :
      Aligned R (fields.foldl (fun fields d => FieldTypes.declare fields d.1 d.2) acc)
        (others.foldl (fun fields d => FieldTypes.declare fields d.1 d.2) acc') := by
    induction h generalizing acc acc' with
    | nil => exact hacc
    | cons first _ ih =>
      obtain ⟨heq, hfg⟩ := first
      rw [List.foldl_cons, List.foldl_cons, ← heq]
      exact ih (hacc.declare _ hfg)
  exact declared h .nil

end FieldTypes

namespace DataType

variable {r s : Registry} {keyspace input : String} {t o : DataType} {udt : Udt}

/-- One text names the same types with every registry that has them. -/
theorem mentions_of_parse (h : parse r keyspace input = .ok t) (hs : parse s keyspace input = .ok o) :
    o.mentions = t.mentions := by
  rw [parse_follows h s] at hs
  exact s.keepsNames_types.mentions_eq hs

theorem key_mem_mentions (h : udt.type ∈ t.nodes) : udt.key ∈ t.mentions := by
  induction t with
  | leaf kind => cases List.mem_singleton.mp h
  | list t ih | set t ih | frozen t ih => exact ih ((List.mem_cons.mp h).resolve_left nofun)
  | map k v ihk ihv =>
    rcases List.mem_append.mp ((List.mem_cons.mp h).resolve_left nofun) with h | h
    · exact List.mem_append_left _ (ihk h)
    · exact List.mem_append_right _ (ihv h)
  | tuple ts ih =>
    obtain ⟨t, ht, h⟩ := mem_nodesEach.mp ((List.mem_cons.mp h).resolve_left nofun)
    exact mem_mentionsEach.mpr ⟨t, ht, ih t ht h⟩
  | udt keyspace name fields =>
    cases List.mem_singleton.mp h
    exact List.mem_singleton_self _

theorem type_mem_nodes_freeze (h : udt.type ∈ t.freeze.nodes) : udt.type ∈ t.nodes := by
  cases t with
  | frozen t => exact h
  | _ => exact (List.mem_cons.mp h).resolve_left nofun

/-- What an expansion puts into a type is what is on record. -/
theorem lookup_of_expandWith (h : expandWith r.types t = .ok o) (hu : udt.type ∈ o.nodes) :
    r.lookup udt.keyspace udt.name = .ok udt := by
  induction t generalizing o with
  | leaf kind =>
    cases pure_eq_ok.mp h
    cases List.mem_singleton.mp hu
  | list t ih | set t ih =>
    obtain ⟨p, hp, h⟩ := bind_eq_ok.mp h
    cases pure_eq_ok.mp h
    exact ih hp ((List.mem_cons.mp hu).resolve_left nofun)
  | map k v ihk ihv =>
    obtain ⟨p, hp, h⟩ := bind_eq_ok.mp h
    obtain ⟨q, hq, h⟩ := bind_eq_ok.mp h
    cases pure_eq_ok.mp h
    rcases List.mem_append.mp ((List.mem_cons.mp hu).resolve_left nofun) with hu | hu
    · exact ihk hp hu
    · exact ihv hq hu
  | tuple ts ih =>
    obtain ⟨os, hos, h⟩ := bind_eq_ok.mp h
    cases pure_eq_ok.mp h
    obtain ⟨p, hp, hu⟩ := mem_nodesEach.mp ((List.mem_cons.mp hu).resolve_left nofun)
    obtain ⟨t, ht, htp⟩ := (expandEach_eq_ok.mp hos).exists_mem_left hp
    exact ih t ht htp hu
  | udt keyspace name fields =>
    obtain ⟨⟨k, n, fs⟩, hv, rfl⟩ := map_eq_ok.mp h
    obtain ⟨rfl, rfl⟩ := Registry.names_of_lookup hv
    obtain ⟨_, _, _⟩ := udt
    cases List.mem_singleton.mp hu
    exact hv
  | frozen t ih =>
    obtain ⟨p, hp, h⟩ := bind_eq_ok.mp h
    cases pure_eq_ok.mp h
    exact ih hp (type_mem_nodes_freeze hu)

theorem lookup_of_parse (h : parse r keyspace input = .ok t) (hu : udt.type ∈ t.nodes) :
    r.lookup udt.keyspace udt.name = .ok udt :=
  lookup_of_expandWith (expandWith_types_of_parse h) hu

end DataType

/-- A name stands in the type of a field. -/
def Udt.Mentions (udt : Udt) (n : QualifiedName) : Prop :=
  ∃ f ∈ udt.fields, n ∈ f.2.mentions

namespace Definition

variable {r s : Registry} {d : Definition} {udt new : Udt} {n : QualifiedName}

/-- What one definition describes with two registries: the fields are those of the same texts. -/
theorem aligned_of_resolve (h : d.resolve r = .ok udt) (hs : d.resolve s = .ok new) :
    FieldTypes.Aligned (fun t u => ∃ input, DataType.parse r d.keyspace input = .ok t ∧
      DataType.parse s d.keyspace input = .ok u) udt.fields new.fields := by
  obtain ⟨fields, hfields, h⟩ := bind_eq_ok.mp h
  obtain ⟨others, hothers, hs⟩ := bind_eq_ok.mp hs
  cases pure_eq_ok.mp h
  cases pure_eq_ok.mp hs
  have both := (mapM_eq_ok.mp hfields).flip.comp (mapM_eq_ok.mp hothers)
  refine FieldTypes.Aligned.ofList (both.imp ?_)
  rintro f g ⟨field, -, hf, hg⟩
  obtain ⟨t, ht, hf⟩ := bind_eq_ok.mp hf
  obtain ⟨u, hu, hg⟩ := bind_eq_ok.mp hg
  cases pure_eq_ok.mp hf
  cases pure_eq_ok.mp hg
  exact ⟨rfl, field.2, ht, hu⟩

theorem mentions_of_resolve (h : d.resolve r = .ok udt) (hs : d.resolve s = .ok new)
    (hn : udt.Mentions n) : new.Mentions n := by
  obtain ⟨f, hf, hn⟩ := hn
  obtain ⟨g, hg, -, input, ht, hu⟩ := (aligned_of_resolve h hs).exists_mem_right hf
  exact ⟨g, hg, DataType.mentions_of_parse ht hu ▸ hn⟩

/-- A definition describes one type with all registries that agree on what stands in its fields. -/
theorem eq_of_resolve (h : d.resolve r = .ok udt) (hs : d.resolve s = .ok new)
    (agree : ∀ n, udt.Mentions n → r.lookup n.1 n.2 = s.lookup n.1 n.2) : new = udt := by
  have fields : udt.fields = new.fields := by
    rw [← List.forall₂_eq_eq_eq]
    refine (aligned_of_resolve h hs).imp_mem fun f hf g _ ⟨hname, input, ht, hu⟩ => ?_
    rw [DataType.parse_congr ht fun n hn => agree n ⟨f, hf, hn⟩, hu] at ht
    exact Prod.ext hname (Except.ok.inj ht).symm
  obtain ⟨hkeyspace, hname⟩ := Prod.ext_iff.mp ((key_of_resolve hs).trans (key_of_resolve h).symm)
  obtain ⟨_, _, _⟩ := udt
  obtain ⟨_, _, _⟩ := new
  cases hkeyspace
  cases hname
  cases fields
  rfl

theorem refers_of_mentions (h : d.resolve r = .ok udt) (hn : udt.Mentions n) : d.Refers r n := by
  obtain ⟨f, hf, hn⟩ := hn
  obtain ⟨g, hg, hparse⟩ := exists_parse_of_resolve h hf
  exact ⟨g, hg, f.2, hparse, hn⟩

theorem contains_of_mentions (h : d.resolve r = .ok udt) (hn : udt.Mentions n) :
    r.contains n.1 n.2 = true :=
  contains_of_refers (refers_of_mentions h hn)

theorem lookup_of_part (h : d.resolve r = .ok udt) {f : String × DataType} (hf : f ∈ udt.fields)
    {v : Udt} (hv : v.type ∈ f.2.nodes) (hkey : v.key = n) : r.lookup n.1 n.2 = .ok v := by
  obtain ⟨g, -, hparse⟩ := exists_parse_of_resolve h hf
  subst hkey
  exact DataType.lookup_of_parse hparse hv

/-- What a field mentions is what is on record, and smaller than the owner of the field. -/
theorem exists_part (h : d.resolve r = .ok udt) (hn : udt.Mentions n) :
    ∃ f ∈ udt.fields, ∃ v : Udt, v.type ∈ f.2.nodes ∧ v.key = n ∧ r.lookup n.1 n.2 = .ok v ∧
      sizeOf v.type < sizeOf udt.type := by
  obtain ⟨f, hf, hn⟩ := hn
  obtain ⟨v, hv, rfl, hlt⟩ := DataType.exists_smaller_of_mention hf hn
  exact ⟨f, hf, v, hv, rfl, lookup_of_part h hf hv rfl, hlt⟩

/-- A definition is read with any registry that has the names of one with which it is read. -/
theorem exists_resolve (h : d.resolve r = .ok udt)
    (hs : ∀ n : QualifiedName, r.contains n.1 n.2 = true → s.contains n.1 n.2 = true) :
    ∃ new, d.resolve s = .ok new := by
  cases hnew : d.resolve s with
  | ok new => exact ⟨new, rfl⟩
  | error e =>
    obtain ⟨n, hn, missing, -⟩ := resolve_eq_error (parses_of_resolve h) hnew
    rw [hs n (contains_of_refers hn)] at missing
    cases missing

end Definition

namespace Registry

variable {r s t : Registry} {ds es done later before : List Definition} {d e : Definition} {udt : Udt}
  {n : QualifiedName}

/-- A type of the list that stands in a field of another one of the list stands there as it is on
record. -/
def Current (s : Registry) (ds : List Definition) : Prop :=
  ∀ d ∈ ds, ∀ e ∈ ds, d.key ≠ e.key → ∀ udt, s.lookup d.keyspace d.name = .ok udt →
    ∀ f ∈ udt.fields, ∀ v : Udt, v.type ∈ f.2.nodes → v.key = e.key →
      s.lookup e.keyspace e.name = .ok v

theorem Current.congr (h : s.Current ds) (hds : ∀ d, d ∈ es → d ∈ ds)
    (hst : ∀ n : QualifiedName, t.get? n.1 n.2 = s.get? n.1 n.2) : t.Current es := by
  intro d hd e he hne udt hu f hf v hv hkey
  have same (d : Definition) : t.lookup d.keyspace d.name = s.lookup d.keyspace d.name :=
    lookup_congr (n := d.key) (hst d.key)
  rw [same] at hu ⊢
  exact h d (hds d hd) e (hds e he) hne udt hu f hf v hv hkey

theorem Refers.congr {m : QualifiedName} (h : s.Refers m n)
    (hst : ∀ n : QualifiedName, t.get? n.1 n.2 = s.get? n.1 n.2) : t.Refers m n := by
  obtain ⟨udt, hu, hn⟩ := h
  exact ⟨udt, (lookup_congr (hst m)).trans hu, hn⟩

/-- The moment at which a definition is put on record, some others before it and some later: what is
on record then, and the type that the definition describes with it. -/
structure Moment (r s : Registry) (later : List Definition) (d : Definition) (before : List Definition)
    (t : Registry) (udt : Udt) : Prop where
  loaded : r.Loaded before t
  resolved : d.resolve t = .ok udt
  recorded : s.lookup d.keyspace d.name = .ok udt
  kept : ∀ n, n ≠ d.key → n ∉ later.map Definition.key → s.get? n.1 n.2 = t.get? n.1 n.2
  distinct : ((later ++ d :: before).map Definition.key).Nodup

theorem Loaded.get?_of_not_mem (h : r.Loaded done s) (hn : n ∉ done.map Definition.key) :
    s.get? n.1 n.2 = r.get? n.1 n.2 := by
  induction h with
  | nil => rfl
  | @cons done s d udt h hd ih =>
    rw [List.map_cons, List.mem_cons, not_or, ← Definition.key_of_resolve hd] at hn
    rw [get?_insert_of_ne hn.1]
    exact ih hn.2

/-- What is on record after a run was put there in the run or was there at first. -/
theorem Loaded.get?_eq_of_sources (h : r.Loaded done t)
    (hlisted : n ∈ done.map Definition.key → s.get? n.1 n.2 = t.get? n.1 n.2)
    (hold : r.contains n.1 n.2 = true → s.get? n.1 n.2 = r.get? n.1 n.2)
    (hn : t.contains n.1 n.2 = true) : s.get? n.1 n.2 = t.get? n.1 n.2 := by
  by_cases hm : n ∈ done.map Definition.key
  · exact hlisted hm
  · rw [h.get?_of_not_mem hm]
    exact hold ((h.contains_iff.mp hn).resolve_left hm)

theorem Loaded.moment (h : r.Loaded (later ++ d :: before) s)
    (hdistinct : ((later ++ d :: before).map Definition.key).Nodup) :
    ∃ t udt, Moment r s later d before t udt := by
  induction later generalizing s with
  | nil =>
    cases h with
    | cons h hd =>
      have hkey := Definition.key_of_resolve hd
      refine ⟨_, _, h, hd, lookup_insert_of_key hkey, fun n hn _ => ?_, hdistinct⟩
      exact get?_insert_of_ne (hkey ▸ hn)
  | cons last later ih =>
    cases h with
    | cons h hlast =>
      obtain ⟨hnew, hinner⟩ := List.nodup_cons.mp hdistinct
      obtain ⟨t, udt, loaded, resolved, recorded, kept, -⟩ := ih h hinner
      have hkey := Definition.key_of_resolve hlast
      have apart : d.key ≠ last.key := by
        intro heq
        exact hnew (heq ▸ List.mem_map_of_mem (List.mem_append_right _ List.mem_cons_self))
      refine ⟨t, udt, loaded, resolved, ?_, fun n hn hlater => ?_, hdistinct⟩
      · rw [← hkey] at apart
        exact (lookup_congr (n := d.key) (get?_insert_of_ne apart)).trans recorded
      · rw [List.map_cons, List.mem_cons, not_or, ← hkey] at hlater
        rw [get?_insert_of_ne hlater.1]
        exact kept n hn hlater.2

namespace Moment

theorem own (h : Moment r s later d before t udt) : d.key ∉ before.map Definition.key := by
  have distinct := h.distinct
  rw [List.map_append] at distinct
  exact (List.nodup_cons.mp (List.nodup_append.mp distinct).2.1).1

theorem apart (h : Moment r s later d before t udt) (he : e ∈ later) :
    e.key ≠ d.key ∧ e.key ∉ before.map Definition.key := by
  have distinct := h.distinct
  rw [List.map_append] at distinct
  have new : e.key ∉ (d :: before).map Definition.key := fun hm =>
    (List.nodup_append.mp distinct).2.2 _ (List.mem_map_of_mem he) _ hm rfl
  rwa [List.map_cons, List.mem_cons, not_or] at new

/-- What comes later is on record as it was at first. -/
theorem get?_eq_old (h : Moment r s later d before t udt) (he : e ∈ later) :
    t.get? e.keyspace e.name = r.get? e.keyspace e.name :=
  h.loaded.get?_of_not_mem (h.apart he).2

/-- What was put on record before is there in the end. -/
theorem get?_eq_of_mem (h : Moment r s later d before t udt) (hn : n ∈ before.map Definition.key) :
    s.get? n.1 n.2 = t.get? n.1 n.2 := by
  refine h.kept n (fun heq => h.own (heq ▸ hn)) fun hm => ?_
  obtain ⟨e, he, rfl⟩ := List.mem_map.mp hm
  exact (h.apart he).2 hn

theorem contains_old (h : Moment r s later d before t udt) (hn : udt.Mentions n)
    (hnew : n ∉ before.map Definition.key) : r.contains n.1 n.2 = true :=
  (h.loaded.contains_iff.mp (Definition.contains_of_mentions h.resolved hn)).resolve_left hnew

/-- What is not listed, and the type of the definition itself, is on record as it was at first. -/
theorem get?_eq_first (h : Moment r s later d before t udt)
    (hn : ¬(n ≠ d.key ∧ n ∈ (later ++ d :: before).map Definition.key)) :
    t.get? n.1 n.2 = r.get? n.1 n.2 := by
  apply h.loaded.get?_of_not_mem
  intro hm
  by_cases hkey : n = d.key
  · exact h.own (hkey ▸ hm)
  · refine hn ⟨hkey, ?_⟩
    rw [List.map_append, List.map_cons]
    exact List.mem_append_right _ (List.mem_cons_of_mem _ hm)

/-- Where nothing is stale, what a field mentions was on record then as it is in the end. -/
theorem exists_of_current (h : Moment r s later d before t udt)
    (hs : s.Current (later ++ d :: before)) (hn : udt.Mentions e.key)
    (he : e ∈ later ++ d :: before) (hne : e.key ≠ d.key) :
    ∃ v : Udt, t.lookup e.keyspace e.name = .ok v ∧ s.lookup e.keyspace e.name = .ok v ∧
      sizeOf v.type < sizeOf udt.type := by
  obtain ⟨f, hf, v, hv, hkey, found, hlt⟩ := Definition.exists_part h.resolved hn
  have listed : d ∈ later ++ d :: before := List.mem_append_right _ List.mem_cons_self
  exact ⟨v, found, hs d listed e he hne.symm udt h.recorded f hf v hv hkey, hlt⟩

end Moment

/-- After a run nothing is stale just when no type that a definition refers to is replaced later in
the run by a different one. -/
theorem Loaded.current_iff (h : r.Loaded done s) (hdistinct : (done.map Definition.key).Nodup) :
    s.Current done ↔ ∀ later d before, done = later ++ d :: before → ∀ e ∈ later,
      s.Refers d.key e.key → s.get? e.keyspace e.name = r.get? e.keyspace e.name := by
  constructor
  · rintro hc later d before rfl e he ⟨udt, hu, hn⟩
    obtain ⟨t, new, hm⟩ := h.moment hdistinct
    cases hu.symm.trans hm.recorded
    obtain ⟨f, hf, v, hv, hkey, found, -⟩ := Definition.exists_part hm.resolved hn
    have now := hc d (by simp) e (by simp [he]) (hm.apart he).1.symm udt hu f hf v hv hkey
    rw [← hm.get?_eq_old he, lookup_eq_ok.mp now]
    exact (lookup_eq_ok.mp found).symm
  · intro hrun d hd e he hne udt hu f hf v hv hkey
    obtain ⟨later, before, rfl⟩ := List.append_of_mem hd
    obtain ⟨t, new, hm⟩ := h.moment hdistinct
    cases hu.symm.trans hm.recorded
    have hn : udt.Mentions e.key := ⟨f, hf, hkey ▸ DataType.key_mem_mentions hv⟩
    have found := lookup_eq_ok.mp (Definition.lookup_of_part hm.resolved hf hv hkey)
    rw [lookup_eq_ok]
    rcases List.mem_append.mp he with he | he
    · exact ((hrun later d before rfl e he ⟨udt, hu, hn⟩).trans (hm.get?_eq_old he).symm).trans found
    · have he := (List.mem_cons.mp he).resolve_left fun heq => hne (heq ▸ rfl)
      exact (hm.get?_eq_of_mem (List.mem_map_of_mem he)).trans found

/-- Runs that leave nothing stale have the same types on record. -/
theorem Loaded.get?_eq_of_current {others : List Definition} (h : r.Loaded done s)
    (ht : r.Loaded others t) (hdistinct : (done.map Definition.key).Nodup) (hp : done.Perm others)
    (hs : s.Current done) (htc : t.Current others) (n : QualifiedName) :
    t.get? n.1 n.2 = s.get? n.1 n.2 := by
  have both := (hp.map _).nodup hdistinct
  -- What stands in a field is smaller than its owner, so that it is the same by induction.
  have listed (size : Nat) : ∀ d ∈ done, ∀ udt, s.lookup d.keyspace d.name = .ok udt →
      sizeOf udt.type = size → t.lookup d.keyspace d.name = .ok udt := by
    induction size using Nat.strong_induction_on with
    | _ size ih =>
      rintro d hd udt hu rfl
      obtain ⟨later, before, rfl⟩ := List.append_of_mem hd
      obtain ⟨a, known, ha⟩ := h.moment hdistinct
      cases hu.symm.trans ha.recorded
      obtain ⟨later', before', rfl⟩ := List.append_of_mem (hp.mem_iff.mp hd)
      obtain ⟨b, new, hb⟩ := ht.moment both
      rw [hb.recorded]
      refine congrArg _ (Definition.eq_of_resolve ha.resolved hb.resolved fun n hn => ?_)
      by_cases hlisted : n ≠ d.key ∧ n ∈ (later ++ d :: before).map Definition.key
      · obtain ⟨hne, e, he, rfl⟩ := hlisted.imp_right List.mem_map.mp
        have hn' := Definition.mentions_of_resolve ha.resolved hb.resolved hn
        obtain ⟨v, found, now, hlt⟩ := ha.exists_of_current hs hn he hne
        obtain ⟨w, found', now', -⟩ := hb.exists_of_current htc hn' (hp.mem_iff.mp he) hne
        cases (ih _ hlt e he v now rfl).symm.trans now'
        exact found.trans found'.symm
      · apply lookup_congr
        rw [ha.get?_eq_first hlisted, hb.get?_eq_first fun hm =>
          hlisted (hm.imp_right (hp.map _).mem_iff.mpr)]
  by_cases hn : n ∈ done.map Definition.key
  · obtain ⟨d, hd, rfl⟩ := List.mem_map.mp hn
    obtain ⟨later, before, rfl⟩ := List.append_of_mem hd
    obtain ⟨a, udt, ha⟩ := h.moment hdistinct
    have same := listed _ d hd udt ha.recorded rfl
    exact (lookup_eq_ok.mp same).trans (lookup_eq_ok.mp ha.recorded).symm
  · rw [h.get?_of_not_mem hn, ht.get?_of_not_mem fun hm => hn ((hp.map _).mem_iff.mpr hm)]

/-- No type that another definition of the list refers to is replaced by a different one. -/
def Stable (r s : Registry) (ds : List Definition) : Prop :=
  ∀ d ∈ ds, ∀ e ∈ ds, d.key ≠ e.key → s.Refers d.key e.key →
    r.contains e.keyspace e.name = true → s.get? e.keyspace e.name = r.get? e.keyspace e.name

theorem Stable.subset (h : r.Stable s ds) (hes : ∀ d, d ∈ es → d ∈ ds) : r.Stable s es :=
  fun d hd e he => h d (hes d hd) e (hes e he)

theorem Loaded.current_of_stable (h : r.Loaded done s) (hdistinct : (done.map Definition.key).Nodup)
    (hst : r.Stable s done) : s.Current done := by
  rw [h.current_iff hdistinct]
  rintro later d before rfl e he hrefers
  obtain ⟨t, udt, hm⟩ := h.moment hdistinct
  obtain ⟨hne, hnew⟩ := hm.apart he
  obtain ⟨new, hu, hn⟩ := hrefers
  cases hu.symm.trans hm.recorded
  exact hst d (by simp) e (by simp [he]) hne.symm ⟨udt, hu, hn⟩ (hm.contains_old hn hnew)

/-- In any other order the definitions are then put on record as they are after this run. -/
theorem Loaded.get?_eq_of_mem_of_stable {others : List Definition} (h : r.Loaded done s)
    (hdistinct : (done.map Definition.key).Nodup) (hst : r.Stable s done) (ht : r.Loaded others t)
    (hnodup : (others.map Definition.key).Nodup) (hsub : ∀ d ∈ others, d ∈ done) :
    ∀ n ∈ others.map Definition.key, s.get? n.1 n.2 = t.get? n.1 n.2 := by
  induction ht with
  | nil => nofun
  | @cons others t d new ht hd ih =>
    obtain ⟨hnew, hnodup⟩ := List.nodup_cons.mp hnodup
    obtain ⟨hmem, hsub⟩ := List.forall_mem_cons.mp hsub
    have before := ih hnodup hsub
    have hkey := Definition.key_of_resolve hd
    refine List.forall_mem_cons.mpr ⟨?_, fun n hn => ?_⟩
    · obtain ⟨later, earlier, rfl⟩ := List.append_of_mem hmem
      obtain ⟨a, udt, ha⟩ := h.moment hdistinct
      have put := lookup_eq_ok.mp (lookup_insert_of_key (s := t) hkey)
      refine (lookup_eq_ok.mp ha.recorded).trans (Eq.trans ?_ put.symm)
      refine congrArg some (Definition.eq_of_resolve ha.resolved hd fun n hn => ?_).symm
      have hn' := Definition.mentions_of_resolve ha.resolved hd hn
      by_cases hlisted : n ≠ d.key ∧ n ∈ (later ++ d :: earlier).map Definition.key
      · obtain ⟨hne, e, he, rfl⟩ := hlisted.imp_right List.mem_map.mp
        have old := hst d hmem e he hne.symm ⟨udt, ha.recorded, hn⟩
        have early := ha.loaded.get?_eq_of_sources ha.get?_eq_of_mem old
          (Definition.contains_of_mentions ha.resolved hn)
        have now := ht.get?_eq_of_sources (before e.key) old (Definition.contains_of_mentions hd hn')
        exact lookup_congr (early.symm.trans now)
      · apply lookup_congr
        rw [ha.get?_eq_first hlisted, ht.get?_of_not_mem fun hm => hlisted ⟨?_, ?_⟩]
        · rintro rfl
          exact hnew hm
        · obtain ⟨e, he, rfl⟩ := List.mem_map.mp hm
          exact List.mem_map_of_mem (hsub e he)
    · have apart : n ≠ new.key := by
        rintro rfl
        exact hnew (hkey ▸ hn)
      exact (before n hn).trans (get?_insert_of_ne apart).symm

theorem Loaded.get?_eq_of_stable {others : List Definition} (h : r.Loaded done s)
    (ht : r.Loaded others t) (hdistinct : (done.map Definition.key).Nodup) (hp : done.Perm others)
    (hst : r.Stable s done) (n : QualifiedName) : t.get? n.1 n.2 = s.get? n.1 n.2 := by
  by_cases hn : n ∈ others.map Definition.key
  · exact (h.get?_eq_of_mem_of_stable hdistinct hst ht ((hp.map _).nodup hdistinct)
      (fun d hd => hp.mem_iff.mpr hd) n hn).symm
  · rw [ht.get?_of_not_mem hn, h.get?_of_not_mem fun hm => hn ((hp.map _).mem_iff.mp hm)]

/-- The definitions of a run are loaded in one pass if they are listed in the order of the run. -/
theorem Loaded.loadPass_append (h : r.Loaded done s) (rest : List Definition) :
    r.loadPass (done.reverse ++ rest) = s.loadPass rest := by
  induction h generalizing rest with
  | nil => rfl
  | cons _ hd ih =>
    rw [List.reverse_cons, List.append_assoc, List.singleton_append, ih, loadPass, hd]

theorem Loaded.load_reverse (h : r.Loaded done s) : r.load done.reverse = (s, .ok done.length) := by
  have pass := h.loadPass_append []
  rw [List.append_nil] at pass
  rw [load, loadPasses, pass, loadPass, List.length_reverse]
  rfl

/-- A definition whose type was there at first may be left out of a run. -/
theorem Loaded.exists_without (h : r.Loaded (later ++ e :: before) s)
    (he : r.contains e.keyspace e.name = true) : ∃ t, r.Loaded (later ++ before) t := by
  induction later generalizing s with
  | nil =>
    cases h with
    | cons h _ => exact ⟨_, h⟩
  | cons d later ih =>
    cases h with
    | @cons _ u _ _ h hd =>
      obtain ⟨t, ht⟩ := ih h
      obtain ⟨new, hnew⟩ := Definition.exists_resolve (s := t) hd fun n hn => by
        rw [ht.contains_iff]
        rcases h.contains_iff.mp hn with hm | hold
        · obtain ⟨f, hf, rfl⟩ := List.mem_map.mp hm
          rcases List.mem_append.mp hf with hf | hf
          · exact .inl (List.mem_map_of_mem (List.mem_append_left _ hf))
          · rcases List.mem_cons.mp hf with rfl | hf
            · exact .inr he
            · exact .inl (List.mem_map_of_mem (List.mem_append_right _ hf))
        · exact .inr hold
      exact ⟨_, .cons ht hnew⟩

/-- It may be put on record last as well. -/
theorem Loaded.exists_last (h : r.Loaded (later ++ e :: before) s)
    (hdistinct : ((later ++ e :: before).map Definition.key).Nodup)
    (he : r.contains e.keyspace e.name = true) : ∃ t, r.Loaded (e :: (later ++ before)) t := by
  obtain ⟨a, udt, ha⟩ := h.moment hdistinct
  obtain ⟨t, ht⟩ := h.exists_without he
  obtain ⟨new, hnew⟩ := Definition.exists_resolve (s := t) ha.resolved fun n hn => by
    rw [ht.contains_iff, List.map_append, List.mem_append]
    exact (ha.loaded.contains_iff.mp hn).imp_left .inr
  exact ⟨_, .cons ht hnew⟩

/-- If no order leaves anything stale, or has another outcome, no type is replaced by a different one:
the definition of such a type could be put on record behind those that refer to it. -/
theorem Loaded.stable_of_orders (h : r.Loaded done s) (hdistinct : (done.map Definition.key).Nodup)
    (hall : ∀ others t, done.Perm others → r.Loaded others t →
      t.Current others ∧ ∀ n : QualifiedName, t.get? n.1 n.2 = s.get? n.1 n.2) : r.Stable s done := by
  intro d hd e he hne hrefers hold
  obtain ⟨later, before, rfl⟩ := List.append_of_mem he
  obtain ⟨t, ht⟩ := h.exists_last hdistinct hold
  have perm : (later ++ e :: before).Perm (e :: (later ++ before)) := List.perm_middle
  obtain ⟨hc, same⟩ := hall _ t perm ht
  have others := (List.mem_cons.mp (perm.mem_iff.mp hd)).resolve_left fun heq => hne (heq ▸ rfl)
  obtain ⟨after, rest, hsplit⟩ := List.append_of_mem others
  have run := (ht.current_iff ((perm.map _).nodup hdistinct)).mp hc
  have old := run (e :: after) d rest (by rw [hsplit]; rfl) e List.mem_cons_self (hrefers.congr same)
  exact (same e.key).symm.trans old

/-- A definition refers to the same names at the moment when it is put on record and in the end. -/
theorem Moment.refers_iff (h : Moment r s later d before t udt)
    (hs : r.Loaded (later ++ d :: before) s) : d.Refers s n ↔ d.Refers t n := by
  refine (Definition.refers_congr (Definition.parses_of_resolve h.resolved) fun n hn => ?_).2 n
  rw [hs.contains_iff, List.map_append, List.mem_append, List.map_cons, List.mem_cons]
  exact (h.loaded.contains_iff.mp (Definition.contains_of_refers hn)).imp_left fun hm => .inr (.inr hm)

/-- Definitions that refer to none behind them in the list are put on record as they are listed. -/
theorem Loaded.exists_in_order (h : r.Loaded done s) (hdistinct : (done.map Definition.key).Nodup)
    (hp : done.Perm ds) (horder : ds.Pairwise fun d e => ¬d.Refers s e.key) :
    ∃ t, r.Loaded ds.reverse t := by
  have from_front (back : List Definition) : ∀ front a, ds = front ++ back →
      r.Loaded front.reverse a → ∃ t, r.Loaded ds.reverse t := by
    induction back with
    | nil =>
      rintro front a rfl ha
      rw [List.append_nil]
      exact ⟨a, ha⟩
    | cons d back ih =>
      rintro front a hds ha
      have listed : d ∈ ds := hds ▸ List.mem_append_right _ List.mem_cons_self
      obtain ⟨later, before, rfl⟩ := List.append_of_mem (hp.mem_iff.mpr listed)
      obtain ⟨t, udt, hm⟩ := h.moment hdistinct
      cases hd : d.resolve a with
      | ok new =>
        refine ih (front ++ [d]) (a.insert new) (by rw [hds, List.append_assoc]; rfl) ?_
        rw [List.reverse_append]
        exact .cons ha hd
      | error e =>
        -- What the definition lacks stands before it in the run, but not in the list.
        obtain ⟨n, hn, missing, -⟩ :=
          Definition.resolve_eq_error (Definition.parses_of_resolve hm.resolved) hd
        rw [Bool.eq_false_iff, ne_eq, ha.contains_iff, not_or] at missing
        have found := hm.loaded.contains_iff.mp (Definition.contains_of_refers hn)
        obtain ⟨f, hf, rfl⟩ := List.mem_map.mp (found.resolve_right missing.2)
        have place : f ∈ front ++ d :: back :=
          hds ▸ hp.mem_iff.mp (List.mem_append_right _ (List.mem_cons_of_mem _ hf))
        rw [hds] at horder
        rcases List.mem_append.mp place with hfront | hback
        · exact absurd (List.mem_map_of_mem (List.mem_reverse.mpr hfront)) missing.1
        · rcases List.mem_cons.mp hback with rfl | hback
          · exact absurd (List.mem_map_of_mem hf) hm.own
          · have none_behind := (List.pairwise_cons.mp (List.pairwise_append.mp horder).2.1).1 f hback
            exact absurd ((hm.refers_iff h).mpr hn) none_behind
  exact from_front ds [] r rfl .nil

/-- Nothing is stale if each definition refers to none behind it in the list. -/
theorem current_of_order {count : Nat} (hdistinct : (ds.map Definition.key).Nodup)
    (h : (r.load ds).2 = .ok count)
    (horder : ds.Pairwise fun d e => ¬d.Refers (r.load ds).1 e.key) : (r.load ds).1.Current ds := by
  obtain ⟨done, hload, hdone⟩ := exists_loaded h
  obtain ⟨t, ht⟩ := hload.exists_in_order ((hdone.symm.map _).nodup hdistinct) hdone horder
  have same := ht.load_reverse
  rw [List.reverse_reverse] at same
  rw [same] at horder ⊢
  have distinct : (ds.reverse.map Definition.key).Nodup :=
    ((List.reverse_perm ds).symm.map _).nodup hdistinct
  refine Current.congr ((ht.current_iff distinct).mpr ?_) (fun d hd => List.mem_reverse.mpr hd)
    fun _ => rfl
  rintro later d before hsplit e he ⟨udt, hu, hn⟩
  rw [hsplit] at ht distinct
  obtain ⟨a, new, hm⟩ := ht.moment distinct
  cases hu.symm.trans hm.recorded
  have refers := (hm.refers_iff ht).mpr (Definition.refers_of_mentions hm.resolved hn)
  have behind : ds.reverse.Pairwise fun e d => ¬d.Refers t e.key := List.pairwise_reverse.mpr horder
  rw [hsplit] at behind
  exact absurd refers ((List.pairwise_append.mp behind).2.2 e he d List.mem_cons_self)

/-- Whether anything is stale after definitions took the place of others is decided by the order in
which they were put on record: a type that a definition refers to is replaced after it by a different
one. Nothing is if each definition refers to none behind it in the list. All orders that leave nothing
stale have one outcome. All orders that can be loaded leave nothing stale, with one outcome, just when
no type that another definition refers to is replaced by a different one. -/
theorem load_current_iff (r : Registry) (ds : List Definition)
    (hdistinct : (ds.map Definition.key).Nodup) (h : (r.load ds).2 = .ok ds.length) :
    (∃ done, r.Loaded done (r.load ds).1 ∧ done.Perm ds ∧ ((r.load ds).1.Current ds ↔
      ∀ later d before, done = later ++ d :: before → ∀ e ∈ later,
        (r.load ds).1.Refers d.key e.key →
          (r.load ds).1.get? e.keyspace e.name = r.get? e.keyspace e.name)) ∧
      ((ds.Pairwise fun d e => ¬d.Refers (r.load ds).1 e.key) → (r.load ds).1.Current ds) ∧
      (∀ es, ds.Perm es → (r.load es).2 = .ok es.length → (r.load ds).1.Current ds →
        (r.load es).1.Current ds → ∀ keyspace name,
          (r.load es).1.get? keyspace name = (r.load ds).1.get? keyspace name) ∧
      ((∀ es, ds.Perm es → (r.load es).2 = .ok es.length → (r.load es).1.Current ds ∧
          ∀ keyspace name, (r.load es).1.get? keyspace name = (r.load ds).1.get? keyspace name) ↔
        r.Stable (r.load ds).1 ds) := by
  obtain ⟨done, hload, hdone⟩ := exists_loaded h
  have distinct : (done.map Definition.key).Nodup := (hdone.symm.map _).nodup hdistinct
  have current {s : Registry} {es : List Definition} (hp : ds.Perm es) : s.Current es ↔ s.Current ds :=
    ⟨fun hc => hc.congr (fun d hd => hp.mem_iff.mp hd) fun _ => rfl,
      fun hc => hc.congr (fun d hd => hp.mem_iff.mpr hd) fun _ => rfl⟩
  refine ⟨⟨done, hload, hdone, ?_⟩, current_of_order hdistinct h, ?_, ?_, ?_⟩
  · rw [← current hdone.symm]
    exact hload.current_iff distinct
  · intro es hp hes hs ht keyspace name
    obtain ⟨others, hother, hothers⟩ := exists_loaded hes
    have perm := hdone.trans (hp.trans hothers.symm)
    exact hload.get?_eq_of_current hother distinct perm ((current hdone.symm).mpr hs)
      ((current (hp.trans hothers.symm)).mpr ht) (keyspace, name)
  · intro hall
    refine (hload.stable_of_orders distinct fun others t hp ht => ?_).subset fun d => hdone.mem_iff.mpr
    have perm := hdone.symm.trans hp
    obtain ⟨hc, same⟩ := hall _ (perm.trans (List.reverse_perm _).symm) (by rw [ht.load_reverse, List.length_reverse])
    rw [ht.load_reverse] at hc same
    exact ⟨(current perm).mpr hc, fun n => same n.1 n.2⟩
  · intro hst es hp hes
    obtain ⟨others, hother, hothers⟩ := exists_loaded hes
    have perm := hdone.trans (hp.trans hothers.symm)
    have stable := hst.subset fun d => hdone.mem_iff.mp
    have same := hload.get?_eq_of_stable hother distinct perm stable
    have hc := hload.current_of_stable distinct stable
    exact ⟨hc.congr (fun d hd => hdone.mem_iff.mpr hd) same, fun keyspace name => same (keyspace, name)⟩

theorem load_current_iff_replaced :
    let old : Udt := ⟨"ks", "a", [("v", .leaf .int)]⟩
    let new : Udt := ⟨"ks", "a", [("v", .leaf .text)]⟩
    let r : Registry := ⟨[old]⟩
    let a : Definition := ⟨"ks", "a", [("v", "text")]⟩
    let owner : Definition := ⟨"ks", "owner", [("y", "frozen<a>")]⟩
    let s : Registry := (r.load [owner, a]).1
    ((([owner, a].map Definition.key).Nodup ∧ (r.load [owner, a]).2 = .ok 2) ∧
      s.get? "ks" "a" = some new ∧
      s.get? "ks" "owner" = some ⟨"ks", "owner", [("y", .frozen old.type)]⟩) ∧
      ¬s.Current [owner, a] ∧
      ¬∀ es, [owner, a].Perm es → (r.load es).2 = .ok es.length → (r.load es).1.Current [owner, a] ∧
        ∀ keyspace name, (r.load es).1.get? keyspace name = s.get? keyspace name := by
  intro old new r a owner s
  have distinct : ([owner, a].map Definition.key).Nodup := by decide
  have loaded : r.load [owner, a] =
      (⟨[new, ⟨"ks", "owner", [("y", .frozen old.type)]⟩]⟩, .ok 2) := by
    rw [load, loadPasses]
    rfl
  have ok : (r.load [owner, a]).2 = .ok 2 := by rw [loaded]
  have hs : s = ⟨[new, ⟨"ks", "owner", [("y", .frozen old.type)]⟩]⟩ := congrArg Prod.fst loaded
  have now : s.lookup "ks" "a" = .ok new := by
    rw [hs]
    rfl
  have held : s.lookup "ks" "owner" = .ok ⟨"ks", "owner", [("y", .frozen old.type)]⟩ := by
    rw [hs]
    rfl
  have apart : owner.key ≠ a.key := by decide
  have differ : new ≠ old := by simp [new, old]
  have part : old.type ∈ (DataType.frozen old.type).nodes := List.mem_cons_of_mem _ (List.mem_singleton_self _)
  obtain ⟨-, -, -, orders⟩ := load_current_iff r [owner, a] distinct ok
  refine ⟨⟨⟨distinct, ok⟩, lookup_eq_ok.mp now, lookup_eq_ok.mp held⟩, fun hc => ?_, fun hall => ?_⟩
  · have stale := hc owner List.mem_cons_self a (List.mem_pair.mpr (.inr rfl)) apart _ held _
      (List.mem_singleton_self _) old part rfl
    exact differ (Except.ok.inj (now.symm.trans stale))
  · have refers : s.Refers owner.key a.key :=
      ⟨_, held, _, List.mem_singleton_self _, DataType.key_mem_mentions part⟩
    have kept := orders.mp hall owner List.mem_cons_self a (List.mem_pair.mpr (.inr rfl)) apart refers rfl
    exact differ (Option.some.inj ((lookup_eq_ok.mp now).symm.trans kept))

end Registry

end CqlWire
