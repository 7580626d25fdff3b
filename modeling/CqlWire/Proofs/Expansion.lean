import CqlWire.Proofs.TypeSkeleton
import CqlWire.Wire.Encode

namespace CqlWire

theorem bind_congr_of_map {ε α β γ : Type} {f : α → β} {x y : Except ε α} {g h : α → Except ε γ}
    (hxy : f <$> x = f <$> y) (hgh : ∀ a b, f a = f b → g a = h b) : x >>= g = y >>= h := by
  cases x with
  | error e =>
    cases y with
    | error e' =>
      cases hxy
      rfl
    | ok b => cases hxy
  | ok a =>
    cases y with
    | error e' => cases hxy
    | ok b => exact hgh a b (Except.ok.inj hxy)

namespace DataType

variable {expand : String → String → Except Error DataType} {t o : DataType}

theorem expandEach_map_congr {f : String → String → Except Error DataType} {g : DataType → DataType}
    {ts us : List DataType}
    (h : List.Forall₂ (fun t u => g <$> expandWith f t = expandWith expand u) ts us) :
    List.map g <$> expandEach f ts = expandEach expand us := by
  induction h with
  | nil => rfl
  | cons htu _ ih =>
    rw [expandEach, expandEach, ← htu, ← ih]
    simp only [map_bind, bind_map_left, map_pure, List.map_cons]

/-- Frozen wrappers can be taken off before an expansion or after it. -/
theorem thaw_expandWith (expand : String → String → Except Error DataType) (t : DataType) :
    thaw <$> expandWith expand t =
      expandWith (fun keyspace name => thaw <$> expand keyspace name) t.thaw := by
  induction t with
  | leaf kind => rfl
  | list t ih | set t ih =>
    rw [thaw, expandWith, expandWith, ← ih]
    simp only [map_bind, bind_map_left, map_pure, thaw]
  | map k v ihk ihv =>
    rw [thaw, expandWith, expandWith, ← ihk, ← ihv]
    simp only [map_bind, bind_map_left, map_pure, thaw]
  | tuple ts ih =>
    have each := expandEach_map_congr (List.forall₂_map_right_iff.mpr (List.forall₂_same.mpr ih))
    rw [thaw, expandWith, expandWith, thawEach_eq_map, ← each]
    simp only [map_bind, bind_map_left, map_pure, thaw, thawEach_eq_map]
  | udt keyspace name fields => rfl
  | frozen t ih =>
    rw [thaw, expandWith, ← ih]
    simp only [bind_pure_comp, Functor.map_map, thaw_freeze]

/-- Declared fields have no part in an expansion. -/
theorem expandWith_undeclared (expand : String → String → Except Error DataType) (t : DataType) :
    expandWith expand t.undeclared = expandWith expand t := by
  induction t with
  | leaf kind => rfl
  | list t ih | set t ih | frozen t ih => rw [undeclared, expandWith, expandWith, ih]
  | map k v ihk ihv => rw [undeclared, expandWith, expandWith, ihk, ihv]
  | tuple ts ih =>
    have each : List.map id <$> expandEach expand ts = expandEach expand (ts.map undeclared) := by
      refine expandEach_map_congr (List.forall₂_map_right_iff.mpr (List.forall₂_same.mpr fun t ht => ?_))
      rw [id_map, ih t ht]
    rw [List.map_id_fun, id_map] at each
    rw [undeclared, expandWith, expandWith, undeclaredEach_eq_map, each]
  | udt keyspace name fields => rfl

theorem thaw_expandWith_eq_skeleton (expand : String → String → Except Error DataType) (t : DataType) :
    thaw <$> expandWith expand t =
      expandWith (fun keyspace name => thaw <$> expand keyspace name) t.skeleton := by
  rw [thaw_expandWith, skeleton, expandWith_undeclared]

theorem freeze_freeze (t : DataType) : t.freeze.freeze = t.freeze := by
  cases t <;> rfl

/-- A type can be frozen before an expansion or after it. -/
theorem expandWith_freeze (expand : String → String → Except Error DataType) (t : DataType) :
    expandWith expand t.freeze = freeze <$> expandWith expand t := by
  cases t with
  | frozen t =>
    rw [freeze, expandWith]
    cases expandWith expand t with
    | error e => rfl
    | ok o => exact congrArg Except.ok (freeze_freeze o).symm
  | _ => rfl

/-- Each name is expanded to a user-defined type of that name. -/
def KeepsNames (expand : String → String → Except Error DataType) : Prop :=
  ∀ keyspace name o, expand keyspace name = .ok o → ∃ fields, o = .udt keyspace name fields

namespace KeepsNames

theorem isFrozen_eq (h : KeepsNames expand) (ho : expandWith expand t = .ok o) :
    o.isFrozen = t.isFrozen := by
  cases t with
  | leaf kind =>
    cases pure_eq_ok.mp ho
    rfl
  | list t | set t =>
    obtain ⟨p, -, ho⟩ := bind_eq_ok.mp ho
    cases pure_eq_ok.mp ho
    rfl
  | map k v =>
    obtain ⟨p, -, ho⟩ := bind_eq_ok.mp ho
    obtain ⟨q, -, ho⟩ := bind_eq_ok.mp ho
    cases pure_eq_ok.mp ho
    rfl
  | tuple ts =>
    obtain ⟨os, -, ho⟩ := bind_eq_ok.mp ho
    cases pure_eq_ok.mp ho
    rfl
  | udt keyspace name fields =>
    obtain ⟨fields, rfl⟩ := h keyspace name o ho
    rfl
  | frozen t =>
    obtain ⟨p, -, ho⟩ := bind_eq_ok.mp ho
    cases pure_eq_ok.mp ho
    exact isFrozen_freeze p

/-- An expansion changes wrappers and declared fields only. -/
theorem skeleton_eq (h : KeepsNames expand) (ho : expandWith expand t = .ok o) :
    o.skeleton = t.skeleton := by
  induction t generalizing o with
  | leaf kind =>
    cases pure_eq_ok.mp ho
    rfl
  | list t ih =>
    obtain ⟨p, hp, ho⟩ := bind_eq_ok.mp ho
    cases pure_eq_ok.mp ho
    exact congrArg DataType.list (ih hp)
  | set t ih =>
    obtain ⟨p, hp, ho⟩ := bind_eq_ok.mp ho
    cases pure_eq_ok.mp ho
    exact congrArg DataType.set (ih hp)
  | map k v ihk ihv =>
    obtain ⟨p, hp, ho⟩ := bind_eq_ok.mp ho
    obtain ⟨q, hq, ho⟩ := bind_eq_ok.mp ho
    cases pure_eq_ok.mp ho
    exact congrArg₂ DataType.map (ihk hp) (ihv hq)
  | tuple ts ih =>
    obtain ⟨os, hos, ho⟩ := bind_eq_ok.mp ho
    cases pure_eq_ok.mp ho
    have each : os.map skeleton = ts.map skeleton :=
      ((expandEach_eq_ok.mp hos).flip.imp_mem fun p _ t ht hp => ih t ht hp).map_eq_map
    rw [skeleton_tuple, skeleton_tuple, each]
  | udt keyspace name fields =>
    obtain ⟨fields, rfl⟩ := h keyspace name o ho
    rfl
  | frozen t ih =>
    obtain ⟨p, hp, ho⟩ := bind_eq_ok.mp ho
    cases pure_eq_ok.mp ho
    rw [skeleton_freeze]
    exact ih hp

/-- What an expansion gives is expanded to itself. -/
theorem expandWith_self (h : KeepsNames expand) (ho : expandWith expand t = .ok o) :
    expandWith expand o = .ok o := by
  induction t generalizing o with
  | leaf kind =>
    cases pure_eq_ok.mp ho
    rfl
  | list t ih | set t ih =>
    obtain ⟨p, hp, ho⟩ := bind_eq_ok.mp ho
    cases pure_eq_ok.mp ho
    exact bind_eq_ok.mpr ⟨p, ih hp, rfl⟩
  | map k v ihk ihv =>
    obtain ⟨p, hp, ho⟩ := bind_eq_ok.mp ho
    obtain ⟨q, hq, ho⟩ := bind_eq_ok.mp ho
    cases pure_eq_ok.mp ho
    exact bind_eq_ok.mpr ⟨p, ihk hp, bind_eq_ok.mpr ⟨q, ihv hq, rfl⟩⟩
  | tuple ts ih =>
    obtain ⟨os, hos, ho⟩ := bind_eq_ok.mp ho
    cases pure_eq_ok.mp ho
    have each : ∀ p ∈ os, expandWith expand p = .ok p := by
      intro p hp
      obtain ⟨t, ht, htp⟩ := (expandEach_eq_ok.mp hos).exists_mem_left hp
      exact ih t ht htp
    have again := expandEach_eq_ok.mpr (List.forall₂_same.mpr each)
    exact bind_eq_ok.mpr ⟨os, again, rfl⟩
  | udt keyspace name fields =>
    obtain ⟨fields, rfl⟩ := h keyspace name o ho
    exact ho
  | frozen t ih =>
    obtain ⟨p, hp, ho⟩ := bind_eq_ok.mp ho
    cases pure_eq_ok.mp ho
    rw [expandWith_freeze, ih hp]
    rfl

end KeepsNames

end DataType

namespace Registry

variable {r : Registry} {t u o : DataType} {keyspace name : String}

theorem resolve_eq_expandWith (r : Registry) :
    ∃ expand, r.resolve = DataType.expandWith expand ∧ DataType.KeepsNames expand := by
  obtain ⟨expand, he, hexpand⟩ := resolveWithin_eq_expandWith r r.size
  refine ⟨expand, he, fun keyspace name o ho => ?_⟩
  obtain ⟨udt, fields, hu, -, rfl⟩ := hexpand keyspace name o ho
  obtain ⟨hk, hn⟩ := names_of_lookup hu
  rw [hk, hn]
  exact ⟨fields, rfl⟩

theorem isFrozen_of_resolve (h : r.resolve t = .ok o) : o.isFrozen = t.isFrozen := by
  obtain ⟨expand, he, names⟩ := r.resolve_eq_expandWith
  rw [he] at h
  exact names.isFrozen_eq h

theorem skeleton_of_resolve (h : r.resolve t = .ok o) : o.skeleton = t.skeleton := by
  obtain ⟨expand, he, names⟩ := r.resolve_eq_expandWith
  rw [he] at h
  exact names.skeleton_eq h

theorem resolve_self (h : r.resolve t = .ok o) : r.resolve o = .ok o := by
  obtain ⟨expand, he, names⟩ := r.resolve_eq_expandWith
  rw [he] at h ⊢
  exact names.expandWith_self h

theorem thaw_resolve_congr (h : t.skeleton = u.skeleton) :
    DataType.thaw <$> r.resolve t = DataType.thaw <$> r.resolve u := by
  obtain ⟨expand, he, -⟩ := r.resolve_eq_expandWith
  rw [he, DataType.thaw_expandWith_eq_skeleton, h, ← DataType.thaw_expandWith_eq_skeleton]

/-- Types of one skeleton resolve alike, so what their order alone decides is the same. -/
theorem resolve_bind_congr {α : Type} (h : t.skeleton = u.skeleton) {next : DataType → Except Error α}
    (hnext : ∀ o p : DataType, o.order = p.order → next o = next p) :
    r.resolve t >>= next = r.resolve u >>= next := by
  apply bind_congr_of_map (thaw_resolve_congr h)
  intro o p hop
  exact hnext o p (DataType.order_eq_of_thaw hop)

theorem order_congr (h : t.skeleton = u.skeleton) (a b : Value) : r.order t a b = r.order u a b :=
  resolve_bind_congr h fun o p hop => by rw [hop]

end Registry

end CqlWire
