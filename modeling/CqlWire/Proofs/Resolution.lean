import CqlWire.Proofs.Alignment
import CqlWire.Registry.Resolve

namespace CqlWire

theorem bind_eq_ok {ε α β : Type} {x : Except ε α} {f : α → Except ε β} {b : β} :
    (x >>= f) = .ok b ↔ ∃ a, x = .ok a ∧ f a = .ok b := by
  cases x <;> simp [bind, Except.bind]

theorem map_eq_ok {ε α β : Type} {f : α → β} {x : Except ε α} {b : β} :
    (f <$> x) = .ok b ↔ ∃ a, x = .ok a ∧ f a = b := by
  cases x <;> simp [Functor.map, Except.map]

theorem pure_eq_ok {ε α : Type} {a b : α} : (pure a : Except ε α) = .ok b ↔ a = b :=
  ⟨Except.ok.inj, fun h => by rw [h]; rfl⟩

theorem bind_eq_error {ε α β : Type} {x : Except ε α} {f : α → Except ε β} {e : ε} :
    (x >>= f) = .error e ↔ x = .error e ∨ ∃ a, x = .ok a ∧ f a = .error e := by
  cases x <;> simp [bind, Except.bind]

theorem map_eq_error {ε α β : Type} {f : α → β} {x : Except ε α} {e : ε} :
    (f <$> x) = .error e ↔ x = .error e := by
  cases x <;> simp [Functor.map, Except.map]

theorem exists_map_iff {ε α β : Type} {f : α → β} {x : Except ε α} :
    (∃ b, f <$> x = .ok b) ↔ ∃ a, x = .ok a := by
  constructor
  · rintro ⟨b, h⟩
    obtain ⟨a, ha, -⟩ := map_eq_ok.mp h
    exact ⟨a, ha⟩
  · rintro ⟨a, rfl⟩
    exact ⟨f a, rfl⟩

theorem exists_pair_iff {ε α β : Type} {x : Except ε α} {y : Except ε β} :
    (∃ c, (do return (← x, ← y)) = .ok c) ↔ (∃ a, x = .ok a) ∧ ∃ b, y = .ok b := by
  constructor
  · rintro ⟨c, hc⟩
    obtain ⟨a, ha, hc⟩ := bind_eq_ok.mp hc
    obtain ⟨b, hb, -⟩ := bind_eq_ok.mp hc
    exact ⟨⟨a, ha⟩, b, hb⟩
  · rintro ⟨⟨a, rfl⟩, b, rfl⟩
    exact ⟨(a, b), rfl⟩

theorem mapM_eq_ok {ε α β : Type} {f : α → Except ε β} {l : List α} {m : List β} :
    l.mapM f = .ok m ↔ List.Forall₂ (fun a b => f a = .ok b) l m := by
  induction l generalizing m with
  | nil => rw [List.mapM_nil, pure_eq_ok, List.forall₂_nil_left_iff, eq_comm]
  | cons a l ih =>
    rw [List.mapM_cons, bind_eq_ok]
    constructor
    · rintro ⟨b, hb, h⟩
      obtain ⟨bs, hbs, h⟩ := bind_eq_ok.mp h
      cases pure_eq_ok.mp h
      exact .cons hb (ih.mp hbs)
    · intro h
      cases h with
      | cons hb hbs => exact ⟨_, hb, bind_eq_ok.mpr ⟨_, ih.mpr hbs, rfl⟩⟩

theorem mapM_congr {ε α β : Type} {f g : α → Except ε β} {l : List α} (h : ∀ a ∈ l, f a = g a) :
    l.mapM f = l.mapM g := by
  induction l with
  | nil => rfl
  | cons a l ih =>
    obtain ⟨ha, hrest⟩ := List.forall_mem_cons.mp h
    rw [List.mapM_cons, List.mapM_cons, ha, ih hrest]

theorem mapM_eq_error {ε α β : Type} {f : α → Except ε β} {l : List α} {e : ε}
    (h : l.mapM f = .error e) : ∃ a ∈ l, f a = .error e := by
  induction l with
  | nil => cases h
  | cons a l ih =>
    rw [List.mapM_cons] at h
    rcases bind_eq_error.mp h with ha | ⟨b, -, h⟩
    · exact ⟨a, by simp, ha⟩
    rcases bind_eq_error.mp h with hrest | ⟨bs, -, h⟩
    · obtain ⟨c, hc, he⟩ := ih hrest
      exact ⟨c, by simp [hc], he⟩
    · cases h

theorem exists_mapM {ε α β : Type} {f : α → Except ε β} {l : List α}
    (h : ∀ a ∈ l, ∃ b, f a = .ok b) : ∃ m, l.mapM f = .ok m := by
  cases hm : l.mapM f with
  | ok m => exact ⟨m, rfl⟩
  | error e =>
    obtain ⟨a, ha, he⟩ := mapM_eq_error hm
    obtain ⟨b, hb⟩ := h a ha
    exact nomatch hb.symm.trans he

theorem exists_mapM_iff {ε α β : Type} {f : α → Except ε β} {l : List α} :
    (∃ m, l.mapM f = .ok m) ↔ ∀ a ∈ l, ∃ b, f a = .ok b := by
  refine ⟨fun ⟨m, h⟩ a ha => ?_, exists_mapM⟩
  obtain ⟨b, -, hb⟩ := (mapM_eq_ok.mp h).exists_mem_right ha
  exact ⟨b, hb⟩

/-- A `mapM` that gives results gives them in line with another list if each of them is. -/
theorem exists_mapM_forall₂ {ε α β γ : Type} {f : α → Except ε β} {R : β → γ → Prop} {l : List α}
    {n : List γ} (h : List.Forall₂ (fun a c => ∃ b, f a = .ok b ∧ R b c) l n) :
    ∃ m, l.mapM f = .ok m ∧ List.Forall₂ R m n := by
  induction h with
  | nil => exact ⟨[], rfl, .nil⟩
  | cons first _ ih =>
    obtain ⟨b, hb, hbc⟩ := first
    obtain ⟨m, hm, hmn⟩ := ih
    refine ⟨b :: m, ?_, .cons hbc hmn⟩
    rw [List.mapM_cons, hb, hm]
    rfl

namespace DataType

theorem expandEach_eq_mapM (expand : String → String → Except Error DataType) (ts : List DataType) :
    expandEach expand ts = ts.mapM (expandWith expand) := by
  induction ts with
  | nil => rfl
  | cons t ts ih =>
    rw [expandEach, List.mapM_cons, ih]

theorem expandEach_eq_ok {expand : String → String → Except Error DataType}
    {ts os : List DataType} :
    expandEach expand ts = .ok os ↔ List.Forall₂ (fun t o => expandWith expand t = .ok o) ts os := by
  rw [expandEach_eq_mapM, mapM_eq_ok]

/-- Expansion succeeds with the same result when more names expand. -/
theorem expandWith_mono {f g : String → String → Except Error DataType}
    (hfg : ∀ keyspace name o, f keyspace name = .ok o → g keyspace name = .ok o) {t o : DataType}
    (h : expandWith f t = .ok o) : expandWith g t = .ok o := by
  induction t generalizing o with
  | leaf kind => exact h
  | list t ih | set t ih | frozen t ih =>
    obtain ⟨p, hp, h⟩ := bind_eq_ok.mp h
    exact bind_eq_ok.mpr ⟨p, ih hp, h⟩
  | map k v ihk ihv =>
    obtain ⟨p, hp, h⟩ := bind_eq_ok.mp h
    obtain ⟨q, hq, h⟩ := bind_eq_ok.mp h
    exact bind_eq_ok.mpr ⟨p, ihk hp, bind_eq_ok.mpr ⟨q, ihv hq, h⟩⟩
  | tuple ts ih =>
    obtain ⟨os, hos, h⟩ := bind_eq_ok.mp h
    refine bind_eq_ok.mpr ⟨os, expandEach_eq_ok.mpr ?_, h⟩
    exact (expandEach_eq_ok.mp hos).imp_mem fun t ht _ _ hp => ih t ht hp
  | udt keyspace name fields => exact hfg keyspace name o h

theorem sizeOf_base_le (t : DataType) : sizeOf t.base ≤ sizeOf t := by
  induction t with
  | frozen t ih =>
    rw [base, frozen.sizeOf_spec]
    omega
  | _ => exact Nat.le_refl _

theorem sizeOf_shape_le {t : DataType} {s : Shape} (h : t.shape = s) : sizeOf s.toType ≤ sizeOf t := by
  rw [← h, toType_shape]
  exact sizeOf_base_le t

@[simp] theorem shape_freeze (t : DataType) : t.freeze.shape = t.shape := by
  cases t <;> rfl

end DataType

namespace Registry

variable {r : Registry}

theorem resolveWithin_succ {depth : Nat} {t o : DataType} (h : r.resolveWithin depth t = .ok o) :
    r.resolveWithin (depth + 1) t = .ok o := by
  induction depth generalizing t o with
  | zero =>
    refine DataType.expandWith_mono (fun keyspace name o h => ?_) h
    obtain ⟨udt, _, h⟩ := bind_eq_ok.mp h
    cases h
  | succ depth ih =>
    refine DataType.expandWith_mono (fun keyspace name o h => ?_) h
    obtain ⟨udt, hu, h⟩ := bind_eq_ok.mp h
    obtain ⟨fields, hf, h⟩ := bind_eq_ok.mp h
    refine bind_eq_ok.mpr ⟨udt, hu, bind_eq_ok.mpr ⟨fields, ?_, h⟩⟩
    refine mapM_eq_ok.mpr ((mapM_eq_ok.mp hf).imp fun f g hfg => ?_)
    obtain ⟨p, hp, hg⟩ := bind_eq_ok.mp hfg
    exact bind_eq_ok.mpr ⟨p, ih hp, hg⟩

/-- What the shape of a type resolves to: the types inside are resolved, and a user-defined type has
the fields on record. -/
inductive ResolvesShape (r : Registry) : Shape → Shape → Prop
  | leaf (kind : Kind) : ResolvesShape r (.leaf kind) (.leaf kind)
  | list {t o : DataType} (h : r.resolve t = .ok o) : ResolvesShape r (.list t) (.list o)
  | set {t o : DataType} (h : r.resolve t = .ok o) : ResolvesShape r (.set t) (.set o)
  | map {k l v w : DataType} (hk : r.resolve k = .ok l) (hv : r.resolve v = .ok w) :
    ResolvesShape r (.map k v) (.map l w)
  | tuple {ts os : List DataType} (h : List.Forall₂ (fun t o => r.resolve t = .ok o) ts os) :
    ResolvesShape r (.tuple ts) (.tuple os)
  | udt {declared udt : Udt} {fields : FieldTypes}
    (hu : r.lookup declared.keyspace declared.name = .ok udt)
    (h : List.Forall₂ (fun f g => f.1 = g.1 ∧ r.resolve f.2 = .ok g.2) udt.fields fields) :
    ResolvesShape r (.udt declared) (.udt ⟨udt.keyspace, udt.name, fields⟩)

/-- Resolution replaces each name by its type on record, whose fields resolve as well. -/
theorem resolveWithin_eq_expandWith (r : Registry) (depth : Nat) :
    ∃ expand, r.resolveWithin depth = DataType.expandWith expand ∧
      ∀ keyspace name o, expand keyspace name = .ok o → ∃ udt fields,
        r.lookup keyspace name = .ok udt ∧
        List.Forall₂ (fun f g => f.1 = g.1 ∧ r.resolveWithin depth f.2 = .ok g.2) udt.fields fields ∧
        o = .udt udt.keyspace udt.name fields := by
  cases depth with
  | zero =>
    refine ⟨_, rfl, fun keyspace name o h => ?_⟩
    obtain ⟨udt, _, h⟩ := bind_eq_ok.mp h
    cases h
  | succ depth =>
    refine ⟨_, rfl, fun keyspace name o h => ?_⟩
    obtain ⟨udt, hu, h⟩ := bind_eq_ok.mp h
    obtain ⟨fields, hf, h⟩ := bind_eq_ok.mp h
    refine ⟨udt, fields, hu, (mapM_eq_ok.mp hf).imp fun f g hfg => ?_, (pure_eq_ok.mp h).symm⟩
    obtain ⟨p, hp, hg⟩ := bind_eq_ok.mp hfg
    cases pure_eq_ok.mp hg
    exact ⟨rfl, resolveWithin_succ hp⟩

theorem resolve_shape {t o : DataType} (h : r.resolve t = .ok o) :
    r.ResolvesShape t.shape o.shape := by
  obtain ⟨expand, he, hexpand⟩ := resolveWithin_eq_expandWith r r.size
  have hr : r.resolve = DataType.expandWith expand := he
  rw [hr] at h
  induction t generalizing o with
  | leaf kind =>
    cases pure_eq_ok.mp h
    exact .leaf kind
  | list t =>
    obtain ⟨p, hp, h⟩ := bind_eq_ok.mp h
    cases pure_eq_ok.mp h
    exact .list (hr ▸ hp)
  | set t =>
    obtain ⟨p, hp, h⟩ := bind_eq_ok.mp h
    cases pure_eq_ok.mp h
    exact .set (hr ▸ hp)
  | map k v =>
    obtain ⟨p, hp, h⟩ := bind_eq_ok.mp h
    obtain ⟨q, hq, h⟩ := bind_eq_ok.mp h
    cases pure_eq_ok.mp h
    exact .map (hr ▸ hp) (hr ▸ hq)
  | tuple ts =>
    obtain ⟨os, hos, h⟩ := bind_eq_ok.mp h
    cases pure_eq_ok.mp h
    exact .tuple (hr ▸ DataType.expandEach_eq_ok.mp hos)
  | udt keyspace name declared =>
    obtain ⟨udt, fields, hu, hf, rfl⟩ := hexpand keyspace name o h
    rw [he, ← hr] at hf
    exact @ResolvesShape.udt r ⟨keyspace, name, declared⟩ udt fields hu hf
  | frozen t ih =>
    obtain ⟨p, hp, h⟩ := bind_eq_ok.mp h
    cases pure_eq_ok.mp h
    rw [DataType.shape_freeze]
    exact ih hp

/-- Induction over a type and what it resolves to, shape by shape. -/
theorem resolve_induct {motive : DataType → DataType → Prop}
    (leaf : ∀ {t o kind}, t.shape = .leaf kind → o.shape = .leaf kind → motive t o)
    (list : ∀ {t o e f}, t.shape = .list e → o.shape = .list f → motive e f → motive t o)
    (set : ∀ {t o e f}, t.shape = .set e → o.shape = .set f → r.resolve e = .ok f → motive e f →
      motive t o)
    (map : ∀ {t o k v l w}, t.shape = .map k v → o.shape = .map l w → r.resolve k = .ok l →
      motive k l → motive v w → motive t o)
    (tuple : ∀ {t o ts os}, t.shape = .tuple ts → o.shape = .tuple os →
      List.Forall₂ motive ts os → motive t o)
    (udt : ∀ {t o declared udt} {fields : FieldTypes}, t.shape = .udt declared →
      o.shape = .udt ⟨udt.keyspace, udt.name, fields⟩ →
      r.lookup declared.keyspace declared.name = .ok udt →
      List.Forall₂ (fun f g => f.1 = g.1 ∧ motive f.2 g.2) udt.fields fields → motive t o)
    {t o : DataType} (h : r.resolve t = .ok o) : motive t o := by
  induction hn : sizeOf o using Nat.strongRecOn generalizing t o with
  | ind n ih =>
    have inside {u p : DataType} (hp : sizeOf p < sizeOf o) (h : r.resolve u = .ok p) : motive u p :=
      ih (sizeOf p) (hn ▸ hp) h rfl
    have hshape := resolve_shape h
    generalize ht : t.shape = ts at hshape
    generalize ho : o.shape = os at hshape
    have hle := DataType.sizeOf_shape_le ho
    cases hshape with
    | leaf kind => exact leaf ht ho
    | list h =>
      rw [Shape.toType, DataType.list.sizeOf_spec] at hle
      exact list ht ho (inside (by omega) h)
    | set h =>
      rw [Shape.toType, DataType.set.sizeOf_spec] at hle
      exact set ht ho h (inside (by omega) h)
    | map hk hv =>
      rw [Shape.toType, DataType.map.sizeOf_spec] at hle
      exact map ht ho hk (inside (by omega) hk) (inside (by omega) hv)
    | tuple h =>
      rw [Shape.toType, DataType.tuple.sizeOf_spec] at hle
      refine tuple ht ho (h.imp_mem fun u _ p hp hup => inside ?_ hup)
      have hlt := List.sizeOf_lt_of_mem hp
      omega
    | udt hu h =>
      simp only [Shape.toType, Udt.type, DataType.udt.sizeOf_spec] at hle
      refine udt ht ho hu (h.imp_mem fun f _ g hg hfg => ⟨hfg.1, inside ?_ hfg.2⟩)
      obtain ⟨name, u⟩ := g
      have hlt := List.sizeOf_lt_of_mem hg
      simp only [Prod.mk.sizeOf_spec] at hlt ⊢
      omega

end Registry

end CqlWire
