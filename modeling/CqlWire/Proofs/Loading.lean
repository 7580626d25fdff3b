import CqlWire.Proofs.Resolution
import CqlWire.Registry.Definition

namespace CqlWire.Registry

/-- What holds of a registry and the definitions still to be put on record, in any order, and stays
so when one of them is. -/
structure Kept (P : Registry → List Definition → Prop) : Prop where
  perm : ∀ {r ds es}, List.Perm ds es → P r ds → P r es
  insert : ∀ {r d ds udt}, d.resolve r = .ok udt → P r (d :: ds) → P (r.insert udt) ds

variable {P : Registry → List Definition → Prop} {r : Registry} {ds skipped : List Definition}

/-- A pass keeps what its steps keep. What it leaves over is still to be put on record, besides what
was skipped before. -/
theorem Kept.loadPass (hP : Kept P) (h : P r (ds ++ skipped)) :
    (∃ rest, P (r.loadPass ds).1 rest) ∧
      ∀ left, (r.loadPass ds).2 = .ok left → P (r.loadPass ds).1 (left.map Prod.fst ++ skipped) := by
  induction ds generalizing r skipped with
  | nil =>
    refine ⟨⟨_, h⟩, ?_⟩
    rintro left ⟨⟩
    exact h
  | cons d ds ih =>
    rw [Registry.loadPass]
    split
    next udt hd => exact ih (hP.insert hd h)
    next keyspace name hd =>
      have later : P r (ds ++ d :: skipped) := hP.perm List.perm_middle.symm h
      obtain ⟨held, hleft⟩ := ih later
      refine ⟨held, fun left hl => ?_⟩
      obtain ⟨rest, hrest, rfl⟩ := map_eq_ok.mp hl
      exact hP.perm List.perm_middle (hleft rest hrest)
    next => exact ⟨⟨_, h⟩, nofun⟩

/-- The same of all passes, which leave nothing over where they succeed. -/
theorem Kept.loadPasses (hP : Kept P) (h : P r ds) :
    (∃ rest, P (r.loadPasses ds).1 rest) ∧
      ((r.loadPasses ds).2 = .ok () → P (r.loadPasses ds).1 []) := by
  have pass {r s : Registry} {ds : List Definition} {outcome : Except Error (List (Definition × Error))}
      (hp : r.loadPass ds = (s, outcome)) (h : P r ds) :
      (∃ rest, P s rest) ∧ ∀ left, outcome = .ok left → P s (left.map Prod.fst) := by
    rw [← List.append_nil ds] at h
    have kept := hP.loadPass h
    simp only [List.append_nil, hp] at kept
    exact kept
  induction r, ds using Registry.loadPasses.induct with
  | case1 r ds s e hp =>
    rw [Registry.loadPasses, hp]
    exact ⟨(pass hp h).1, nofun⟩
  | case2 r ds s left hp hl =>
    obtain ⟨held, hleft⟩ := pass hp h
    simp only [Registry.loadPasses, hp, hl]
    refine ⟨held, fun _ => ?_⟩
    rw [List.getLast?_eq_none_iff] at hl
    rw [hl] at hleft
    exact hleft [] rfl
  | case3 r ds s left hp d e hl hlt ih =>
    rw [Registry.loadPasses]
    simp only [hp, hl, if_pos hlt]
    exact ih ((pass hp h).2 left rfl)
  | case4 r ds s left hp d e hl hlt =>
    rw [Registry.loadPasses]
    simp only [hp, hl, if_neg hlt]
    exact ⟨(pass hp h).1, nofun⟩

theorem Kept.load (hP : Kept P) (h : P r ds) :
    (∃ rest, P (r.load ds).1 rest) ∧ ∀ n, (r.load ds).2 = .ok n → P (r.load ds).1 [] := by
  obtain ⟨held, hdone⟩ := hP.loadPasses h
  exact ⟨held, fun n hn => hdone (load_eq_ok.mp hn).1⟩

end CqlWire.Registry
