import CqlWire.Proofs.Mentions
import Mathlib.Data.List.Perm.Subperm

namespace CqlWire

/-- The error of a resolution that is not through at the depth it may use. -/
def Error.IsEndless (e : Error) : Prop :=
  ∃ keyspace name, e = .endlessType keyspace name

/-- What the depth was too small for. -/
def RunsOut {α : Type} (x : Except Error α) : Prop :=
  ∃ e, x = .error e ∧ e.IsEndless

/-- What keyspaces and names stand for, as far as it is known. -/
abbrev Expansion := String → String → Except Error DataType

/-- Two expansions differ only where one of them runs out. -/
def Expansion.Consistent (f g : Expansion) : Prop :=
  ∀ keyspace name, RunsOut (f keyspace name) ∨ RunsOut (g keyspace name) ∨
    f keyspace name = g keyspace name

variable {α β : Type} {x : Except Error α} {f g : Expansion} {allowed : QualifiedName → Prop}

theorem not_runsOut_pure (a : α) : ¬RunsOut (pure a : Except Error α) := by
  rintro ⟨e, he, -⟩
  cases he

theorem runsOut_bind {next : α → Except Error β} :
    RunsOut (x >>= next) ↔ RunsOut x ∨ ∃ a, x = .ok a ∧ RunsOut (next a) := by
  cases x with
  | error e => simp [RunsOut, bind, Except.bind]
  | ok a => simp [RunsOut, bind, Except.bind]

/-- A computation that asks what allowed names stand for, one after the other, and runs out with the
first answer that does. -/
structure Sequential (allowed : QualifiedName → Prop) (F : Expansion → Except Error α) : Prop where
  agree : ∀ {f g}, f.Consistent g → RunsOut (F f) ∨ RunsOut (F g) ∨ F f = F g
  cause : ∀ {f}, RunsOut (F f) → ∃ n, allowed n ∧ RunsOut (f n.1 n.2) ∧
    ∀ {g}, f.Consistent g → RunsOut (g n.1 n.2) → RunsOut (F g)

namespace Sequential

theorem const (hx : ¬RunsOut x) : Sequential allowed fun _ => x where
  agree _ := .inr (.inr rfl)
  cause h := absurd h hx

theorem ask {keyspace name : String} (h : allowed (keyspace, name)) :
    Sequential allowed fun f => f keyspace name where
  agree hfg := hfg keyspace name
  cause hf := ⟨(keyspace, name), h, hf, fun _ hg => hg⟩

theorem bind {F : Expansion → Except Error α} {G : α → Expansion → Except Error β}
    (hF : Sequential allowed F) (hG : ∀ a, Sequential allowed (G a)) :
    Sequential allowed fun f => F f >>= fun a => G a f where
  agree {f g} hfg := by
    rcases hF.agree hfg with hf | hg | heq
    · exact .inl (runsOut_bind.mpr (.inl hf))
    · exact .inr (.inl (runsOut_bind.mpr (.inl hg)))
    · cases ha : F f with
      | error e =>
        rw [← heq, ha]
        exact .inr (.inr rfl)
      | ok a =>
        rw [← heq, ha]
        exact (hG a).agree hfg
  cause {f} h := by
    rcases runsOut_bind.mp h with hf | ⟨a, ha, hf⟩
    · obtain ⟨n, hn, hfn, back⟩ := hF.cause hf
      exact ⟨n, hn, hfn, fun hfg hg => runsOut_bind.mpr (.inl (back hfg hg))⟩
    · obtain ⟨n, hn, hfn, back⟩ := (hG a).cause hf
      refine ⟨n, hn, hfn, fun {g} hfg hg => runsOut_bind.mpr ?_⟩
      rcases hF.agree hfg with ⟨e, he, -⟩ | hout | heq
      · rw [ha] at he
        cases he
      · exact .inl hout
      · exact .inr ⟨a, heq ▸ ha, back hfg hg⟩

theorem mapM {F : α → Expansion → Except Error β} {l : List α}
    (h : ∀ a ∈ l, Sequential allowed (F a)) : Sequential allowed fun f => l.mapM fun a => F a f := by
  induction l with
  | nil =>
    simp only [List.mapM_nil]
    exact const (not_runsOut_pure _)
  | cons a l ih =>
    simp only [List.mapM_cons]
    refine bind (h a (by simp)) fun b => bind (ih fun c hc => h c (by simp [hc])) fun bs => ?_
    exact const (not_runsOut_pure _)

theorem expandWith {t : DataType} (h : ∀ n ∈ t.mentions, allowed n) :
    Sequential allowed fun f => DataType.expandWith f t := by
  induction t with
  | leaf kind => exact const (not_runsOut_pure _)
  | list t ih | set t ih | frozen t ih =>
    exact bind (ih h) fun o => const (not_runsOut_pure _)
  | map k v ihk ihv =>
    have hk := ihk fun n hn => h n (List.mem_append_left _ hn)
    have hv := ihv fun n hn => h n (List.mem_append_right _ hn)
    exact bind hk fun p => bind hv fun q => const (not_runsOut_pure _)
  | tuple ts ih =>
    have each : Sequential allowed fun f => DataType.expandEach f ts := by
      simp only [DataType.expandEach_eq_mapM]
      refine mapM fun t ht => ih t ht fun n hn => ?_
      exact h n (DataType.mem_mentionsEach.mpr ⟨t, ht, hn⟩)
    exact bind each fun os => const (not_runsOut_pure _)
  | udt keyspace name fields => exact ask (h _ (by simp [DataType.mentions]))

end Sequential

namespace Registry

variable {r : Registry} {t o : DataType} {m n : QualifiedName} {d : Nat}

/-- The type on record under a name, the names in its fields replaced by what they stand for. -/
def unfold (r : Registry) (f : Expansion) : Expansion := fun keyspace name => do
  let udt ← r.lookup keyspace name
  let fields ← udt.fields.mapM fun x => return (x.1, ← DataType.expandWith f x.2)
  return .udt udt.keyspace udt.name fields

/-- What names stand for, where at most `depth` registered types lie within one another. -/
def expansion (r : Registry) : (depth : Nat) → Expansion
  | 0 => fun keyspace name => do
    let udt ← r.lookup keyspace name
    throw (.endlessType udt.keyspace udt.name)
  | depth + 1 => r.unfold (r.expansion depth)

theorem resolveWithin_eq (r : Registry) (d : Nat) :
    r.resolveWithin d = DataType.expandWith (r.expansion d) := by
  induction d with
  | zero => rfl
  | succ d ih =>
    rw [resolveWithin, ih]
    rfl

theorem not_isEndless_of_lookup {keyspace name : String} {e : Error}
    (h : r.lookup keyspace name = .error e) : ¬e.IsEndless := by
  rintro ⟨k, n, rfl⟩
  cases (lookup_eq_error h).2

theorem sequential_unfold (r : Registry) (keyspace name : String) :
    Sequential (r.Refers (keyspace, name)) fun f => r.unfold f keyspace name := by
  unfold unfold
  cases hu : r.lookup keyspace name with
  | error e =>
    refine .const ?_
    rintro ⟨_, ⟨⟩, he⟩
    exact not_isEndless_of_lookup hu he
  | ok udt =>
    have fields : Sequential (r.Refers (keyspace, name)) fun f =>
        udt.fields.mapM fun x => return (x.1, ← DataType.expandWith f x.2) := by
      refine .mapM fun x hx => .bind (.expandWith fun n hn => ?_) fun o => ?_
      · exact ⟨udt, hu, x, hx, hn⟩
      · exact .const (not_runsOut_pure _)
    exact fields.bind fun _ => .const (not_runsOut_pure _)

theorem expansion_of_lookup_error {keyspace name : String} {e : Error}
    (h : r.lookup keyspace name = .error e) (d : Nat) : r.expansion d keyspace name = .error e := by
  cases d with
  | zero => exact bind_eq_error.mpr (.inl h)
  | succ d => exact bind_eq_error.mpr (.inl h)

theorem runsOut_expansion_zero {keyspace name : String} :
    RunsOut (r.expansion 0 keyspace name) ↔ r.contains keyspace name = true := by
  rw [contains_iff]
  cases hu : r.lookup keyspace name with
  | error e =>
    rw [expansion_of_lookup_error hu]
    constructor
    · rintro ⟨_, ⟨⟩, he⟩
      exact absurd he (not_isEndless_of_lookup hu)
    · exact nofun
  | ok udt =>
    have out : r.expansion 0 keyspace name = .error (.endlessType udt.keyspace udt.name) :=
      bind_eq_error.mpr (.inr ⟨udt, hu, rfl⟩)
    rw [out]
    exact ⟨fun _ => ⟨udt, rfl⟩, fun _ => ⟨_, rfl, _, _, rfl⟩⟩

theorem consistent_expansion (r : Registry) (d e : Nat) :
    (r.expansion d).Consistent (r.expansion e) := by
  have base (e : Nat) (keyspace name : String) :
      RunsOut (r.expansion 0 keyspace name) ∨
        r.expansion 0 keyspace name = r.expansion e keyspace name := by
    cases hu : r.lookup keyspace name with
    | error err =>
      rw [expansion_of_lookup_error hu, expansion_of_lookup_error hu]
      exact .inr rfl
    | ok udt => exact .inl (runsOut_expansion_zero.mpr (contains_iff.mpr ⟨udt, hu⟩))
  induction d generalizing e with
  | zero =>
    intro keyspace name
    exact (base e keyspace name).imp_right .inr
  | succ d ih =>
    intro keyspace name
    cases e with
    | zero => exact .inr ((base (d + 1) keyspace name).imp_right Eq.symm)
    | succ e => exact (r.sequential_unfold keyspace name).agree (ih e)

/-- Whoever asks for the first name asks for the second one, whatever the depth. -/
def Calls (r : Registry) (m n : QualifiedName) : Prop :=
  r.Refers m n ∧ ∀ d, RunsOut (r.expansion d n.1 n.2) → RunsOut (r.expansion (d + 1) m.1 m.2)

theorem exists_calls (h : RunsOut (r.expansion (d + 1) m.1 m.2)) :
    ∃ n, r.Calls m n ∧ RunsOut (r.expansion d n.1 n.2) := by
  obtain ⟨n, hn, hout, back⟩ := (r.sequential_unfold m.1 m.2).cause h
  exact ⟨n, ⟨hn, fun e he => back (r.consistent_expansion d e) he⟩, hout⟩

theorem contains_of_runsOut (h : RunsOut (r.expansion d m.1 m.2)) : r.contains m.1 m.2 = true := by
  obtain ⟨e, he, hend⟩ := h
  cases hu : r.lookup m.1 m.2 with
  | ok udt => exact contains_iff.mpr ⟨udt, hu⟩
  | error err =>
    rw [expansion_of_lookup_error hu] at he
    cases he
    exact absurd hend (not_isEndless_of_lookup hu)

theorem runsOut_of_succ (h : RunsOut (r.expansion (d + 1) m.1 m.2)) :
    RunsOut (r.expansion d m.1 m.2) := by
  induction d generalizing m with
  | zero => exact runsOut_expansion_zero.mpr (contains_of_runsOut h)
  | succ d ih =>
    obtain ⟨n, hcalls, hn⟩ := exists_calls h
    exact hcalls.2 d (ih hn)

/-- Where the depth is too small, as many types as it is large lie within one another, and one more. -/
theorem exists_chain (h : RunsOut (r.expansion d m.1 m.2)) :
    ∃ l, l.length = d ∧ (m :: l).IsChain r.Calls ∧ ∀ n ∈ m :: l, r.contains n.1 n.2 = true := by
  induction d generalizing m with
  | zero => exact ⟨[], rfl, .singleton m, by simpa using contains_of_runsOut h⟩
  | succ d ih =>
    obtain ⟨n, hcalls, hn⟩ := exists_calls h
    obtain ⟨l, hl, chain, found⟩ := ih hn
    refine ⟨n :: l, by simp [hl], .cons_cons hcalls chain, ?_⟩
    exact List.forall_mem_cons.mpr ⟨contains_of_runsOut h, found⟩

theorem mem_names (h : r.contains m.1 m.2 = true) :
    m ∈ r.entries.map Udt.key := by
  obtain ⟨udt, hu⟩ := contains_iff.mp h
  have hmem : udt ∈ r.entries := List.mem_of_find?_eq_some (lookup_eq_ok.mp hu)
  exact List.mem_map.mpr ⟨udt, hmem, Prod.ext_iff.mpr (names_of_lookup hu)⟩

/-- More types within one another than are on record come back to one of them. -/
theorem exists_cycle (h : RunsOut (r.expansion d m.1 m.2)) (hd : r.size ≤ d) :
    ∃ n, Relation.ReflTransGen r.Calls m n ∧ Relation.TransGen r.Calls n n ∧
      r.contains n.1 n.2 = true := by
  obtain ⟨l, hl, chain, found⟩ := exists_chain h
  have pairs : (m :: l).Pairwise (Relation.TransGen r.Calls) :=
    List.isChain_iff_pairwise.mp (chain.imp fun _ _ => .single)
  have repeated : ¬(m :: l).Nodup := by
    intro distinct
    have hsub := List.Nodup.subperm distinct fun n hn => mem_names (found n hn)
    have hlen := hsub.length_le
    simp only [List.length_cons, List.length_map, hl] at hlen
    simp only [size] at hd
    omega
  obtain ⟨n, hn, hcycle⟩ : ∃ n ∈ m :: l, Relation.TransGen r.Calls n n := by
    by_contra hnone
    refine repeated (pairs.imp_of_mem fun {a b} ha _ hab heq => hnone ⟨a, ha, ?_⟩)
    rw [← heq] at hab
    exact hab
  refine ⟨n, ?_, hcycle, found n hn⟩
  rcases List.mem_cons.mp hn with rfl | hn
  · exact .refl
  · exact ((List.pairwise_cons.mp pairs).1 n hn).to_reflTransGen

theorem runsOut_of_transGen (h : Relation.TransGen r.Calls m n)
    (hn : RunsOut (r.expansion d n.1 n.2)) : RunsOut (r.expansion (d + 1) m.1 m.2) := by
  induction h with
  | single hcalls => exact hcalls.2 d hn
  | tail _ hcalls ih => exact ih (runsOut_of_succ (hcalls.2 d hn))

/-- A name that leads back to itself runs out at every depth. -/
theorem runsOut_of_cycle (h : Relation.TransGen r.Calls n n) (hn : r.contains n.1 n.2 = true)
    (d : Nat) : RunsOut (r.expansion d n.1 n.2) := by
  induction d with
  | zero => exact runsOut_expansion_zero.mpr hn
  | succ d ih => exact runsOut_of_transGen h ih

theorem runsOut_of_reflTransGen (h : Relation.ReflTransGen r.Calls m n)
    (hn : RunsOut (r.expansion d n.1 n.2)) : RunsOut (r.expansion d m.1 m.2) := by
  rcases Relation.reflTransGen_iff_eq_or_transGen.mp h with rfl | h
  · exact hn
  · exact runsOut_of_succ (runsOut_of_transGen h hn)

theorem recurs_of_cycle (h : Relation.TransGen r.Calls n n) : r.Recurs n :=
  Relation.TransGen.mono (fun _ _ hcalls => hcalls.1) n n h

/-- The types on record are followed without end: no depth is enough. -/
def Endless (r : Registry) (t : DataType) : Prop :=
  ∀ depth, RunsOut (r.resolveWithin depth t)

/-- Resolution runs out only where no depth is enough. -/
theorem endless_of_resolve (h : RunsOut (r.resolve t)) :
    r.Endless t ∧ r.Loops t := by
  have asked : Sequential (· ∈ t.mentions) fun f => DataType.expandWith f t :=
    .expandWith fun n hn => hn
  rw [resolve, resolveWithin_eq] at h
  obtain ⟨m, hm, hout, back⟩ := asked.cause h
  obtain ⟨n, path, cycle, found⟩ := exists_cycle hout (Nat.le_refl _)
  constructor
  · intro depth
    rw [resolveWithin_eq]
    apply back (r.consistent_expansion _ _)
    exact runsOut_of_reflTransGen path (runsOut_of_cycle cycle found depth)
  · exact ⟨n, ⟨m, hm, Relation.ReflTransGen.mono (fun _ _ hcalls => hcalls.1) m n path⟩, recurs_of_cycle cycle⟩

end Registry

end CqlWire
