import CqlWire.Proofs.Loading
import CqlWire.Proofs.Looping
import CqlWire.Proofs.Naming

namespace CqlWire.Registry

variable {r s : Registry} {t : DataType} {udt : Udt} {m n : QualifiedName} {keyspace name : String}

/-- No type on record lies within itself. -/
def Acyclic (r : Registry) : Prop :=
  ∀ n, ¬r.Recurs n

theorem Acyclic.not_loops (h : r.Acyclic) (t : DataType) : ¬r.Loops t := by
  rintro ⟨m, -, cycle⟩
  exact h m cycle

theorem Acyclic.mono (h : ∀ m n, s.Refers m n → r.Refers m n) (hr : r.Acyclic) : s.Acyclic :=
  fun n cycle => hr n (Relation.TransGen.mono h n n cycle)

theorem acyclic_empty : empty.Acyclic := by
  intro n cycle
  obtain ⟨m, ⟨udt, hu, -⟩, -⟩ := Relation.TransGen.head'_iff.mp cycle
  cases hu

theorem acyclic_erase (h : r.Acyclic) (keyspace name : String) : (r.erase keyspace name).Acyclic := by
  refine .mono (fun m n ⟨udt, hu, fields⟩ => ⟨udt, ?_, fields⟩) h
  rw [lookup_eq_ok, get?_erase] at hu
  split at hu
  · cases hu
  · exact lookup_eq_ok.mpr hu

theorem refers_insert :
    (r.insert udt).Refers m n ↔
      if m = udt.key then ∃ f ∈ udt.fields, n ∈ f.2.mentions else r.Refers m n := by
  simp only [Refers, lookup_eq_ok, get?_insert, ← Udt.eq_key_iff]
  split
  · simp
  · rfl

theorem refers_of_insert (hm : m ≠ udt.key) : (r.insert udt).Refers m n ↔ r.Refers m n := by
  rw [refers_insert, if_neg hm]

/-- A way to the type put on record is there without it. -/
theorem reaches_insert (h : Relation.ReflTransGen r.Refers m udt.key) :
    Relation.ReflTransGen (r.insert udt).Refers m udt.key := by
  induction h using Relation.ReflTransGen.head_induction_on with
  | refl => exact .refl
  | @head m k hmk _ ih =>
    by_cases hm : m = udt.key
    · rw [hm]
    · exact .head ((refers_of_insert hm).mpr hmk) ih

/-- A way past the type put on record meets it first on a way that is there without it. -/
theorem reaches_of_insert (h : Relation.ReflTransGen (r.insert udt).Refers m n) :
    Relation.ReflTransGen r.Refers m n ∨ Relation.ReflTransGen r.Refers m udt.key ∧
      Relation.ReflTransGen (r.insert udt).Refers udt.key n := by
  induction h using Relation.ReflTransGen.head_induction_on with
  | refl => exact .inl .refl
  | @head m k hmk path ih =>
    by_cases hm : m = udt.key
    · rw [hm] at hmk ⊢
      exact .inr ⟨.refl, .head hmk path⟩
    · have step := (refers_of_insert hm).mp hmk
      exact ih.imp (.head step) (And.imp_left (.head step))

theorem recurs_insert_iff :
    (r.insert udt).Recurs udt.key ↔ ∃ f ∈ udt.fields, r.Meets f.2 udt.key := by
  constructor
  · intro cycle
    obtain ⟨n, step, path⟩ := Relation.TransGen.head'_iff.mp cycle
    rw [refers_insert, if_pos rfl] at step
    obtain ⟨f, hf, hn⟩ := step
    rcases reaches_of_insert path with path | ⟨path, -⟩
    · exact ⟨f, hf, n, hn, path⟩
    · exact ⟨f, hf, n, hn, path⟩
  · rintro ⟨f, hf, n, hn, path⟩
    have step : (r.insert udt).Refers udt.key n := by
      rw [refers_insert, if_pos rfl]
      exact ⟨f, hf, hn⟩
    exact Relation.TransGen.head' step (reaches_insert path)

/-- A type that is put on record closes a cycle if and only if one of its fields leads to it. -/
theorem acyclic_insert_iff (h : r.Acyclic) :
    (r.insert udt).Acyclic ↔ ∀ f ∈ udt.fields, ¬r.Meets f.2 udt.key := by
  constructor
  · intro hi f hf hmeets
    exact hi _ (recurs_insert_iff.mpr ⟨f, hf, hmeets⟩)
  · intro hfields n cycle
    have fresh : ¬(r.insert udt).Recurs udt.key := fun cycle => by
      obtain ⟨f, hf, hmeets⟩ := recurs_insert_iff.mp cycle
      exact hfields f hf hmeets
    obtain ⟨m, step, path⟩ := Relation.TransGen.head'_iff.mp cycle
    have hn : n ≠ udt.key := by
      rintro rfl
      exact fresh cycle
    have hstep := (refers_of_insert hn).mp step
    rcases reaches_of_insert path with back | ⟨there, back⟩
    · exact h n (.head' hstep back)
    · refine fresh (Relation.TransGen.trans_right back (Relation.TransGen.head' step ?_))
      exact reaches_insert there

/-- Reached from the empty registry by changes none of which puts a type on record that one of its
fields leads back to. -/
inductive Grown : Registry → Prop
  | empty : Grown .empty
  | insert {r : Registry} {udt : Udt} (h : Grown r)
    (hu : ∀ f ∈ udt.fields, ¬r.Meets f.2 udt.key) : Grown (r.insert udt)
  | erase {r : Registry} (h : Grown r) (keyspace name : String) : Grown (r.erase keyspace name)

theorem Grown.acyclic (h : r.Grown) : r.Acyclic := by
  induction h with
  | empty => exact acyclic_empty
  | insert h hu ih => exact (acyclic_insert_iff ih).mpr hu
  | erase h keyspace name ih => exact acyclic_erase ih keyspace name

/-- Whatever the types on record refer to is on record. -/
def Closed (r : Registry) : Prop :=
  ∀ m n, r.Refers m n → r.contains n.1 n.2 = true

theorem Closed.contains_of_meets (h : r.Closed) (ht : t.KnownTo r) (hn : r.Meets t n) :
    r.contains n.1 n.2 = true := by
  obtain ⟨m, hm, path⟩ := hn
  rcases Relation.ReflTransGen.cases_tail path with rfl | ⟨k, -, step⟩
  · exact ht _ hm
  · exact h k _ step

theorem contains_insert :
    (r.insert udt).contains n.1 n.2 = true ↔ n = udt.key ∨ r.contains n.1 n.2 = true := by
  rw [contains, get?_insert, Udt.eq_key_iff]
  split
  next h => simp [h]
  next h => simp [h, contains]

theorem Grown.returns (h : r.Grown) (t : DataType) : r.Returns t :=
  Registry.returns (h.acyclic.not_loops t)

theorem runsOut_resolve (h : r.Loops t) (hmet : ∀ m, r.Meets t m → r.contains m.1 m.2 = true) :
    RunsOut (r.resolve t) := by
  cases hr : r.resolve t with
  | ok o => exact absurd h (resolve_eq_ok_iff.mp ⟨o, hr⟩).1
  | error e =>
    rcases resolve_eq_error hr with hend | ⟨m, hm, hmissing, -⟩
    · exact ⟨e, rfl, hend⟩
    · have found := hmet m hm
      rw [hmissing] at found
      cases found

/-- Resolution, order and encoding return, but for a type in which one stands that lies within
itself. Such a type is followed without end when all names in it are on record, by the encoders of
sets and maps as well, even of empty ones. -/
theorem returns_unless_loops (r : Registry) (t : DataType) :
    (r.Grown → r.Returns t) ∧ (¬r.Loops t → r.Returns t) ∧
      (RunsOut (r.resolve t) ↔ r.Endless t) ∧
      (r.Loops t → (∀ m, r.Meets t m → r.contains m.1 m.2 = true) →
        r.Endless t ∧ (∀ a b, RunsOut (r.order t a b)) ∧
        (∀ nested, RunsOut (Value.encode r (.set t) (.set []) nested)) ∧
        ∀ v nested, RunsOut (Value.encode r (.map t v) (.map []) nested)) := by
  refine ⟨fun h => h.returns t, returns, ⟨fun h => (endless_of_resolve h).1, fun h => h r.size⟩, ?_⟩
  intro hloops hmet
  have out : RunsOut (r.resolve t) := runsOut_resolve hloops hmet
  refine ⟨(endless_of_resolve out).1, fun a b => runsOut_order.mpr out, ?_, ?_⟩
  · exact Value.runsOut_encode_set rfl (by rw [Value.elementPayloads]; rfl) out
  · intro v
    exact Value.runsOut_encode_map rfl (by rw [Value.entryPayloads]; rfl) out

/-- A definition takes the place of the one before and refers to it. -/
theorem returns_unless_loops_reloaded :
    let t : DataType := .udt "ks" "a" []
    let first := empty.load [⟨"ks", "a", []⟩]
    let second := first.1.load [⟨"ks", "a", [("x", "frozen<a>")]⟩]
    first.2 = .ok 1 ∧ first.1.Returns t ∧ first.1.Returns (.set t) ∧
      second.2 = .ok 1 ∧ second.1.Loops t ∧ second.1.Endless t ∧
      (∀ a b, RunsOut (second.1.order t a b)) ∧
      ∀ nested, RunsOut (Value.encode second.1 (.set t) (.set []) nested) := by
  intro t first second
  let plain : Registry := ⟨[⟨"ks", "a", []⟩]⟩
  let looped : Registry := ⟨[⟨"ks", "a", [("x", .frozen t)]⟩]⟩
  have hfirst : empty.load [⟨"ks", "a", []⟩] = (plain, .ok 1) := by
    rw [Registry.load, loadPasses]
    rfl
  have hsecond : plain.load [⟨"ks", "a", [("x", "frozen<a>")]⟩] = (looped, .ok 1) := by
    rw [Registry.load, loadPasses]
    rfl
  have grown : (empty.insert ⟨"ks", "a", []⟩).Grown :=
    .insert .empty fun _ hf => absurd hf List.not_mem_nil
  have apart : ¬plain.Loops (.set t) := grown.acyclic.not_loops (.set t)
  have cycle : looped.Recurs ("ks", "a") :=
    .single ⟨_, rfl, _, List.mem_singleton_self _, List.mem_singleton_self _⟩
  have loops : looped.Loops t := ⟨_, ⟨_, List.mem_singleton_self _, .refl⟩, cycle⟩
  have closed : looped.Closed := by
    rintro m n ⟨udt, hu, f, hf, hn⟩
    cases List.mem_singleton.mp (List.mem_of_find?_eq_some (lookup_eq_ok.mp hu))
    cases List.mem_singleton.mp hf
    cases List.mem_singleton.mp hn
    rfl
  have known : t.KnownTo looped := by
    intro n hn
    cases List.mem_singleton.mp hn
    rfl
  obtain ⟨-, -, -, follows⟩ := returns_unless_loops looped t
  obtain ⟨endless, order, encode, -⟩ := follows loops fun _ => closed.contains_of_meets known
  simp only [first, second, hfirst, hsecond]
  refine ⟨trivial, (returns_unless_loops plain t).1 grown, ?_, trivial, loops, endless, order, encode⟩
  exact (returns_unless_loops plain (.set t)).2.1 apart

end CqlWire.Registry
