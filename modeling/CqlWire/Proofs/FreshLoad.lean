import CqlWire.Proofs.Acyclic
import CqlWire.Proofs.InnerTypes
import CqlWire.Proofs.LoadPasses
import CqlWire.Proofs.References
import Mathlib.Data.Set.Finite.Basic
import Mathlib.Order.WellFounded

namespace CqlWire

/-- Where each of finitely many things is related to one of them, some are so in a cycle. -/
theorem exists_transGen_self {α : Type} {R : α → α → Prop} {l : List α} (hne : l ≠ [])
    (h : ∀ a ∈ l, ∃ b ∈ l, R a b) : ∃ a ∈ l, Relation.TransGen R a a := by
  by_contra hnone
  have acyclic : ∀ a ∈ l, ¬Relation.TransGen R a a := fun a ha cycle => hnone ⟨a, ha, cycle⟩
  let below (b a : {a // a ∈ l}) : Prop := Relation.TransGen R a.1 b.1
  have : Finite {a // a ∈ l} := (List.finite_toSet l).to_subtype
  have : IsTrans _ below := ⟨fun _ _ _ hab hbc => hbc.trans hab⟩
  have : Std.Irrefl below := ⟨fun a => acyclic a.1 a.2⟩
  have wf : WellFounded below := Finite.wellFounded_of_trans_of_irrefl below
  obtain ⟨first, hfirst⟩ := List.exists_mem_of_ne_nil l hne
  obtain ⟨a, -, lowest⟩ := wf.has_min Set.univ ⟨⟨first, hfirst⟩, trivial⟩
  obtain ⟨b, hb, hab⟩ := h a.1 a.2
  exact lowest ⟨b, hb⟩ trivial (.single hab)

/-- Nothing that is reached from below lies on a cycle. -/
theorem not_transGen_self_of_acc {α : Type} {R : α → α → Prop} {a : α} (h : Acc (fun b a => R a b) a) :
    ¬Relation.TransGen R a a := by
  induction h with
  | intro a _ ih =>
    intro cycle
    obtain ⟨b, hab, path⟩ := Relation.TransGen.head'_iff.mp cycle
    exact ih b hab (Relation.TransGen.tail' path hab)

namespace Registry

variable {r s t : Registry} {ds es done rest : List Definition} {d : Definition} {udt : Udt}
  {n : QualifiedName}

/-- The registry with a type without fields for each definition in front of those on record. -/
def announce (r : Registry) (ds : List Definition) : Registry :=
  ⟨ds.map (fun d => ⟨d.keyspace, d.name, []⟩) ++ r.entries⟩

theorem contains_announce :
    (r.announce ds).contains n.1 n.2 = true ↔
      n ∈ ds.map Definition.key ∨ r.contains n.1 n.2 = true := by
  have named (d : Definition) :
      isNamed n.1 n.2 ⟨d.keyspace, d.name, []⟩ = true ↔ d.key = n := by
    rw [isNamed_iff, Prod.ext_iff]
    rfl
  simp only [contains, get?, announce, List.find?_append, List.find?_map, Option.isSome_or,
    Bool.or_eq_true, Option.isSome_map, List.find?_isSome, Function.comp_apply, named, List.mem_map]

/-- Definitions of types that are not on record, each name given once. -/
structure Fresh (r : Registry) (ds : List Definition) : Prop where
  distinct : (ds.map Definition.key).Nodup
  absent : ∀ d ∈ ds, r.contains d.keyspace d.name = false

/-- Definitions put on record one after the other, the last one at the head of the list. -/
inductive Loaded (r : Registry) : List Definition → Registry → Prop
  | nil : Loaded r [] r
  | cons {done : List Definition} {s : Registry} {d : Definition} {udt : Udt} (h : Loaded r done s)
    (hd : d.resolve s = .ok udt) : Loaded r (d :: done) (s.insert udt)

/-- What is on record and what is left make up the list. -/
theorem kept_loaded (r : Registry) (ds : List Definition) :
    Kept fun s rest => ∃ done, r.Loaded done s ∧ (done ++ rest).Perm ds where
  perm hperm := by
    rintro ⟨done, h, hds⟩
    exact ⟨done, h, (hperm.symm.append_left done).trans hds⟩
  insert hd := by
    rintro ⟨done, h, hds⟩
    exact ⟨_, .cons h hd, List.perm_middle.symm.trans hds⟩

theorem Fresh.perm (h : r.Fresh ds) (hp : ds.Perm es) : r.Fresh es :=
  ⟨(hp.map _).nodup h.distinct, fun d hd => h.absent d (hp.mem_iff.mpr hd)⟩

theorem Fresh.tail (h : r.Fresh (d :: done)) : r.Fresh done :=
  ⟨(List.nodup_cons.mp h.distinct).2, fun e he => h.absent e (List.mem_cons_of_mem _ he)⟩

namespace Loaded

theorem contains_iff (h : r.Loaded done s) :
    s.contains n.1 n.2 = true ↔ n ∈ done.map Definition.key ∨ r.contains n.1 n.2 = true := by
  induction h with
  | nil => simp
  | cons _ hd ih => rw [contains_insert, ih, Definition.key_of_resolve hd, List.map_cons, List.mem_cons, or_assoc]

/-- The next definition is of a type that is not on record yet. -/
theorem not_contains (h : r.Loaded done s) (hf : r.Fresh (d :: done)) :
    s.contains d.key.1 d.key.2 = false := by
  rw [Bool.eq_false_iff, ne_eq, h.contains_iff, not_or]
  refine ⟨(List.nodup_cons.mp hf.distinct).1, ?_⟩
  have absent := hf.absent d List.mem_cons_self
  exact Bool.eq_false_iff.mp absent

end Loaded

theorem get?_insert_of_ne (hn : n ≠ udt.key) : (s.insert udt).get? n.1 n.2 = s.get? n.1 n.2 := by
  rw [get?_insert, if_neg fun h => hn (Udt.eq_key_iff.mpr h)]

theorem lookup_congr (h : s.get? n.1 n.2 = t.get? n.1 n.2) : s.lookup n.1 n.2 = t.lookup n.1 n.2 := by
  rw [lookup, lookup, h]

theorem lookup_insert_of_key (h : udt.key = n) : (s.insert udt).lookup n.1 n.2 = .ok udt := by
  rw [lookup_eq_ok, get?_insert, if_pos (Udt.eq_key_iff.mp h.symm)]

/-- Every definition is on record as the rest of the registry has it, and nothing else is changed. -/
structure Records (r : Registry) (ds : List Definition) (s : Registry) : Prop where
  listed : ∀ d ∈ ds, ∃ udt, s.lookup d.keyspace d.name = .ok udt ∧ d.resolve s = .ok udt
  others : ∀ n, n ∉ ds.map Definition.key → s.get? n.1 n.2 = r.get? n.1 n.2

theorem Records.perm (h : r.Records ds s) (hp : ds.Perm es) : r.Records es s :=
  ⟨fun d hd => h.listed d (hp.mem_iff.mpr hd),
    fun n hn => h.others n fun hm => hn ((hp.map _).mem_iff.mp hm)⟩

/-- A type of a new name changes no type that could be read before. -/
theorem resolve_insert (h : d.resolve s = .ok udt) {new : Udt}
    (hnew : s.contains new.key.1 new.key.2 = false) : d.resolve (s.insert new) = .ok udt := by
  rw [← h]
  refine Definition.resolve_congr (Definition.parses_of_resolve h) fun n hn => ?_
  have found := Definition.contains_of_refers hn
  apply lookup_congr
  apply get?_insert_of_ne
  rintro rfl
  rw [hnew] at found
  cases found

namespace Loaded

theorem records (h : r.Loaded done s) (hf : r.Fresh done) : r.Records done s := by
  induction h with
  | nil => exact ⟨nofun, fun _ _ => rfl⟩
  | @cons done s d udt h hd ih =>
    obtain ⟨listed, others⟩ := ih hf.tail
    have hkey := Definition.key_of_resolve hd
    have hnew : s.contains udt.key.1 udt.key.2 = false := by
      rw [hkey]
      exact h.not_contains hf
    constructor
    · intro e he
      rcases List.mem_cons.mp he with rfl | he
      · exact ⟨udt, lookup_insert_of_key hkey, resolve_insert hd hnew⟩
      · obtain ⟨known, hknown, hresolve⟩ := listed e he
        have apart : e.key ≠ udt.key := by
          rw [hkey]
          rintro heq
          exact (List.nodup_cons.mp hf.distinct).1 (heq ▸ List.mem_map_of_mem he)
        refine ⟨known, ?_, resolve_insert hresolve hnew⟩
        exact (lookup_congr (n := e.key) (get?_insert_of_ne apart)).trans hknown
    · intro n hn
      rw [List.map_cons, List.mem_cons, not_or] at hn
      rw [get?_insert_of_ne (hkey ▸ hn.1)]
      exact others n hn.2

/-- Loading puts definitions on record as any registry has them that has the types before. -/
theorem get?_eq_of_contains (h : r.Loaded done s)
    (old : ∀ n : QualifiedName, r.contains n.1 n.2 = true → t.get? n.1 n.2 = r.get? n.1 n.2)
    (listed : ∀ d ∈ done, ∃ udt, t.lookup d.keyspace d.name = .ok udt ∧ d.resolve t = .ok udt) :
    ∀ n : QualifiedName, s.contains n.1 n.2 = true → t.get? n.1 n.2 = s.get? n.1 n.2 := by
  induction h with
  | nil => exact old
  | @cons done s d udt h hd ih =>
    obtain ⟨first, others⟩ := List.forall_mem_cons.mp listed
    have before := ih others
    intro n hn
    by_cases hkey : n = udt.key
    -- All that this definition refers to was on record before it, where both registries agree.
    · obtain ⟨recorded, hrecorded, hresolve⟩ := first
      have same : d.resolve t = d.resolve s :=
        Definition.resolve_congr (Definition.parses_of_resolve hd) fun m hm =>
          lookup_congr (before m (Definition.contains_of_refers hm))
      rw [hresolve, hd] at same
      cases same
      have hk := hkey.trans (Definition.key_of_resolve hd)
      rw [get?_insert, if_pos (Udt.eq_key_iff.mp hkey), hk]
      exact lookup_eq_ok.mp hrecorded
    · rw [get?_insert_of_ne hkey]
      exact before n ((contains_insert.mp hn).resolve_left hkey)

/-- No other registry has the definitions on record. -/
theorem get?_eq_of_records (h : r.Loaded done s) (hf : r.Fresh done) (ht : r.Records done t)
    (n : QualifiedName) : t.get? n.1 n.2 = s.get? n.1 n.2 := by
  have old (n : QualifiedName) (hn : r.contains n.1 n.2 = true) : t.get? n.1 n.2 = r.get? n.1 n.2 := by
    apply ht.others
    intro hm
    obtain ⟨d, hd, rfl⟩ := List.mem_map.mp hm
    have absent : r.contains d.key.1 d.key.2 = false := hf.absent d hd
    rw [absent] at hn
    cases hn
  by_cases hn : s.contains n.1 n.2 = true
  · exact h.get?_eq_of_contains old ht.listed n hn
  · have hnew : n ∉ done.map Definition.key := fun hm => hn (h.contains_iff.mpr (.inl hm))
    rw [ht.others n hnew, (h.records hf).others n hnew]

/-- Each definition refers to those before it at most, with any registry that has all names. -/
theorem acc {known : Registry} (h : r.Loaded done s) (hf : r.Fresh ds) (hdone : ∀ d ∈ done, d ∈ ds)
    (hs : ∀ n : QualifiedName, s.contains n.1 n.2 = true → known.contains n.1 n.2 = true) :
    ∀ d ∈ done, Acc (fun e d => e ∈ ds ∧ d.Refers known e.key) d := by
  induction h with
  | nil => nofun
  | @cons done s d udt h hd ih =>
    obtain ⟨hmem, others⟩ := List.forall_mem_cons.mp hdone
    have before (n : QualifiedName) (hn : s.contains n.1 n.2 = true) : known.contains n.1 n.2 = true :=
      hs n (contains_insert.mpr (.inr hn))
    have earlier := ih others before
    refine List.forall_mem_cons.mpr ⟨?_, earlier⟩
    constructor
    rintro e ⟨he, hrefers⟩
    have parses := Definition.parses_of_resolve hd
    have same := (Definition.refers_congr parses fun n hn => before n (Definition.contains_of_refers hn)).2
    have found := Definition.contains_of_refers ((same _).mp hrefers)
    -- A name on record at that time is one loaded earlier, as no listed name was there before.
    rcases h.contains_iff.mp found with hkey | hold
    · obtain ⟨f, hfm, hfe⟩ := List.mem_map.mp hkey
      rw [List.inj_on_of_nodup_map hf.distinct (others f hfm) he hfe] at hfm
      exact earlier e hfm
    · have absent : r.contains e.key.1 e.key.2 = false := hf.absent e he
      rw [absent] at hold
      cases hold

end Loaded

/-- One definition of the list refers to another one. -/
def Needs (r : Registry) (ds : List Definition) (d e : Definition) : Prop :=
  e ∈ ds ∧ d.Refers (r.announce ds) e.key

/-- Every field type can be read, and no definition leads back to itself. -/
structure Loadable (r : Registry) (ds : List Definition) : Prop where
  parses : ∀ d ∈ ds, d.Parses (r.announce ds)
  acyclic : ∀ d ∈ ds, ¬Relation.TransGen (r.Needs ds) d d

theorem exists_loaded {count : Nat} (h : (r.load ds).2 = .ok count) :
    ∃ done, r.Loaded done (r.load ds).1 ∧ done.Perm ds := by
  have start : ∃ done, r.Loaded done r ∧ (done ++ ds).Perm ds := ⟨[], .nil, .refl ds⟩
  obtain ⟨done, hload, hperm⟩ := ((kept_loaded r ds).load start).2 count h
  rw [List.append_nil] at hperm
  exact ⟨done, hload, hperm⟩

theorem records_of_load {count : Nat} (hf : r.Fresh ds) (h : (r.load ds).2 = .ok count) :
    r.Records ds (r.load ds).1 := by
  obtain ⟨done, hload, hperm⟩ := exists_loaded h
  exact (hload.records (hf.perm hperm.symm)).perm hperm

theorem loadable_of_load {count : Nat} (hf : r.Fresh ds) (h : (r.load ds).2 = .ok count) :
    r.Loadable ds := by
  obtain ⟨done, hload, hperm⟩ := exists_loaded h
  have known (n : QualifiedName) (hn : (r.load ds).1.contains n.1 n.2 = true) :
      (r.announce ds).contains n.1 n.2 = true := by
    rw [contains_announce]
    exact (hload.contains_iff.mp hn).imp_left (hperm.map _).mem_iff.mp
  constructor
  · intro d hd
    obtain ⟨udt, -, hresolve⟩ := (records_of_load hf h).listed d hd
    have parses := Definition.parses_of_resolve hresolve
    exact (Definition.refers_congr parses fun n hn => known n (Definition.contains_of_refers hn)).1
  · intro d hd
    apply not_transGen_self_of_acc
    exact hload.acc hf (fun d hd => hperm.mem_iff.mp hd) known d (hperm.mem_iff.mpr hd)

/-- A definition that is refused for want of a type refers to one that is left over as well. -/
theorem exists_needs {e : Error} (hl : r.Loadable ds) (h : r.Loaded done s) (hp : (done ++ rest).Perm ds)
    (hd : d ∈ rest) (he : d.resolve s = .error e) : e.IsMissing ∧ ∃ b ∈ rest, r.Needs ds d b := by
  have parses := hl.parses d (hp.mem_iff.mp (List.mem_append_right _ hd))
  obtain ⟨n, hn, missing, rfl⟩ := Definition.resolve_eq_error parses he
  refine ⟨⟨_, _, rfl⟩, ?_⟩
  rw [Bool.eq_false_iff, ne_eq, h.contains_iff, not_or] at missing
  have found := (contains_announce.mp (Definition.contains_of_refers hn)).resolve_right missing.2
  obtain ⟨b, hb, rfl⟩ := List.mem_map.mp found
  refine ⟨b, ?_, hb, hn⟩
  have here := List.mem_append.mp (hp.mem_iff.mpr hb)
  exact here.resolve_left fun hdone => missing.1 (List.mem_map_of_mem hdone)

theorem load_of_loadable (hl : r.Loadable ds) : (r.load ds).2 = .ok ds.length := by
  cases he : (r.load ds).2 with
  | ok count => rw [(load_eq_ok.mp he).2]
  | error e =>
    have start : ∃ done, r.Loaded done r ∧ (done ++ ds).Perm ds := ⟨[], .nil, .refl ds⟩
    obtain ⟨rest, hne, ⟨done, hload, hperm⟩, ⟨d, hd, hde, hmissing⟩ | stuck⟩ :=
      (kept_loaded r ds).load_error start he
    · exact absurd (exists_needs hl hload hperm hd hde).1 hmissing
    -- Definitions that all wait for one another are in a cycle.
    · have needs : ∀ d ∈ rest, ∃ b ∈ rest, r.Needs ds d b := by
        intro d hd
        obtain ⟨e, hde, -⟩ := stuck d hd
        exact (exists_needs hl hload hperm hd hde).2
      obtain ⟨d, hd, cycle⟩ := exists_transGen_self hne needs
      exact absurd cycle (hl.acyclic d (hperm.mem_iff.mp (List.mem_append_right _ hd)))

theorem Loadable.perm (h : r.Loadable ds) (hp : ds.Perm es) : r.Loadable es := by
  have names (n : QualifiedName) (hn : (r.announce ds).contains n.1 n.2 = true) :
      (r.announce es).contains n.1 n.2 = true := by
    rw [contains_announce] at hn ⊢
    exact hn.imp_left (hp.map _).mem_iff.mp
  have same {d : Definition} (hd : d ∈ ds) := Definition.refers_congr (h.parses d hd) fun n hn =>
    names n (Definition.contains_of_refers hn)
  have needs (d e : Definition) (hd : d ∈ ds) (hde : r.Needs es d e) : e ∈ ds ∧ r.Needs ds d e := by
    have he := hp.mem_iff.mpr hde.1
    exact ⟨he, he, ((same hd).2 _).mp hde.2⟩
  constructor
  · exact fun d hd => (same (hp.mem_iff.mpr hd)).1
  · intro d hd cycle
    refine h.acyclic d (hp.mem_iff.mpr hd) ?_
    have path {b : Definition} (hb : Relation.TransGen (r.Needs es) d b) :
        b ∈ ds ∧ Relation.TransGen (r.Needs ds) d b := by
      induction hb with
      | single hde =>
        obtain ⟨he, step⟩ := needs _ _ (hp.mem_iff.mpr hd) hde
        exact ⟨he, .single step⟩
      | tail _ hbc ih =>
        obtain ⟨hc, step⟩ := needs _ _ ih.1 hbc
        exact ⟨hc, .tail ih.2 step⟩
    exact (path cycle).2

/-- Every type of the list is the one on record wherever it stands in a type on record. -/
def Embeds (s : Registry) (keys : List QualifiedName) : Prop :=
  ∀ keyspace name udt, s.lookup keyspace name = .ok udt → ∀ u ∈ udt.type.udts, u.key ∈ keys →
    s.lookup u.keyspace u.name = .ok u

theorem Loaded.embeds (h : r.Loaded done s) (hf : r.Fresh done) {keys : List QualifiedName}
    (hr : r.Embeds keys) : s.Embeds keys := by
  induction h with
  | nil => exact hr
  | @cons done s d udt h hd ih =>
    have before := ih hf.tail
    have hnew := h.not_contains hf
    rw [← Definition.key_of_resolve hd] at hnew
    have kept (u : Udt) (hu : s.lookup u.keyspace u.name = .ok u) :
        (s.insert udt).lookup u.keyspace u.name = .ok u := by
      have apart : u.key ≠ udt.key := by
        intro heq
        rw [← heq] at hnew
        have found : s.contains u.key.1 u.key.2 = true := Registry.contains_iff.mpr ⟨u, hu⟩
        rw [hnew] at found
        cases found
      exact (lookup_congr (n := u.key) (get?_insert_of_ne apart)).trans hu
    have old : ∀ keyspace name v, s.lookup keyspace name = .ok v → ∀ u ∈ v.type.udts,
        u.key ∈ keys → (s.insert udt).lookup u.keyspace u.name = .ok u :=
      fun keyspace name v hv u hu hkey => kept u (before keyspace name v hv u hu hkey)
    intro keyspace name v hv
    rw [lookup_eq_ok, get?_insert] at hv
    split at hv
    · cases hv
      refine Definition.forall_mem_udts_of_resolve old hd fun _ => ?_
      exact lookup_insert_of_key (n := udt.key) rfl
    · exact old keyspace name v (lookup_eq_ok.mpr hv)

/-- Definitions of new types are loaded, in any order, exactly if every field type can be read once
all of them are announced and none leads back to itself. They are counted then, and each is on record
as the registry has its field types, wherever it stands, and nothing else is changed. -/
theorem load_fresh (r : Registry) (ds : List Definition) (hdistinct : (ds.map Definition.key).Nodup)
    (habsent : ∀ d ∈ ds, r.contains d.keyspace d.name = false)
    (hfree : ∀ keyspace name udt, r.lookup keyspace name = .ok udt →
      ∀ u ∈ udt.type.udts, u.key ∉ ds.map Definition.key) :
    (∀ limit, ds.length ≤ limit → r.loadWithin limit ds = some (r.load ds)) ∧
      (∀ count, (r.load ds).2 = .ok count ↔ count = ds.length ∧
        (∀ d ∈ ds, d.Parses (r.announce ds)) ∧ ∀ d ∈ ds, ¬Relation.TransGen (r.Needs ds) d d) ∧
      (∀ es, ds.Perm es → ∀ count, ((r.load es).2 = .ok count ↔ (r.load ds).2 = .ok count) ∧
        ((r.load ds).2 = .ok count → ∀ keyspace name,
          (r.load es).1.get? keyspace name = (r.load ds).1.get? keyspace name)) ∧
      ∀ count, (r.load ds).2 = .ok count →
        (∀ text, Definition.listOfJson text = .ok ds → (r.loadJson text).2 = .ok count) ∧
        r.Records ds (r.load ds).1 ∧ (r.load ds).1.Embeds (ds.map Definition.key) := by
  have hf : r.Fresh ds := ⟨hdistinct, habsent⟩
  have loads {es : List Definition} {count : Nat} (he : r.Fresh es) :
      (r.load es).2 = .ok count ↔ count = es.length ∧ r.Loadable es :=
    ⟨fun h => ⟨(load_eq_ok.mp h).2, loadable_of_load he h⟩, fun ⟨hn, h⟩ => hn ▸ load_of_loadable h⟩
  refine ⟨fun limit => loadWithin_eq, fun count => ?_, ?_, ?_⟩
  · rw [loads hf]
    exact and_congr_right fun _ => ⟨fun h => ⟨h.parses, h.acyclic⟩, fun h => ⟨h.1, h.2⟩⟩
  · intro es hp count
    have he := hf.perm hp
    have both : (r.load es).2 = .ok count ↔ (r.load ds).2 = .ok count := by
      rw [loads hf, loads he, hp.length_eq]
      exact and_congr_right fun _ => ⟨fun h => h.perm hp.symm, fun h => h.perm hp⟩
    refine ⟨both, fun h keyspace name => ?_⟩
    -- What either order has on record is the same set of definitions, and that decides all.
    obtain ⟨done, hload, hdone⟩ := exists_loaded h
    have records := (records_of_load he (both.mpr h)).perm (hp.symm.trans hdone.symm)
    exact hload.get?_eq_of_records (hf.perm hdone.symm) records (keyspace, name)
  · intro count h
    refine ⟨fun text htext => ?_, records_of_load hf h, ?_⟩
    · simp only [loadJson, htext, h]
    · obtain ⟨done, hload, hdone⟩ := exists_loaded h
      refine hload.embeds (hf.perm hdone.symm) fun keyspace name udt hu u hmem hkey => ?_
      exact absurd hkey (hfree keyspace name udt hu u hmem)

theorem load_fresh_reversed :
    let base : Udt := ⟨"ks", "base", [("x", .leaf .int)]⟩
    let r : Registry := ⟨[base]⟩
    let inner : Definition := ⟨"ks", "Inner", [("x", "list<frozen<base>>")]⟩
    let outer : Definition := ⟨"ks", "outer", [("y", "frozen<\"Inner\">"), ("z", "base")]⟩
    ((([inner, outer].map Definition.key).Nodup ∧
        (∀ d ∈ [inner, outer], r.contains d.keyspace d.name = false) ∧
        ∀ keyspace name udt, r.lookup keyspace name = .ok udt →
          ∀ u ∈ udt.type.udts, u.key ∉ [inner, outer].map Definition.key) ∧
      (r.load [inner, outer]).2 = .ok 2) ∧
      r.loadWithin 2 [outer, inner] = some (r.load [outer, inner]) ∧
      (r.load [outer, inner]).2 = .ok 2 ∧
      (r.load [outer, inner]).1.get? "ks" "outer" = (r.load [inner, outer]).1.get? "ks" "outer" ∧
      (r.load [inner, outer]).1.get? "ks" "base" = some base := by
  intro base r inner outer
  have distinct : ([inner, outer].map Definition.key).Nodup := by decide
  have absent : ∀ d ∈ [inner, outer], r.contains d.keyspace d.name = false := by decide
  have free : ∀ keyspace name udt, r.lookup keyspace name = .ok udt →
      ∀ u ∈ udt.type.udts, u.key ∉ [inner, outer].map Definition.key := by
    intro keyspace name udt hu
    cases List.mem_singleton.mp (List.mem_of_find?_eq_some (lookup_eq_ok.mp hu))
    decide
  have ok : (r.load [inner, outer]).2 = .ok 2 := by
    rw [load, loadPasses]
    rfl
  have swapped : [inner, outer].Perm [outer, inner] := .swap _ _ _
  obtain ⟨-, -, orders, done⟩ := load_fresh r [inner, outer] distinct absent free
  obtain ⟨both, same⟩ := orders _ swapped 2
  obtain ⟨-, records, -⟩ := done 2 ok
  have turned := load_fresh r [outer, inner] ((swapped.map _).nodup distinct)
    (fun d hd => absent d (swapped.mem_iff.mpr hd))
    (fun keyspace name udt hu u hm hk => free keyspace name udt hu u hm ((swapped.map _).mem_iff.mpr hk))
  refine ⟨⟨⟨distinct, absent, free⟩, ok⟩, turned.1 2 (Nat.le_refl _), both.mpr ok, same ok _ _, ?_⟩
  exact records.others ("ks", "base") (by decide)

end Registry

end CqlWire
