import CqlWire.Proofs.Loading

namespace CqlWire

/-- The error of a type that is not on record. -/
def Error.IsMissing (e : Error) : Prop :=
  ∃ keyspace name, e = .notRegistered keyspace name

namespace Registry

variable {P : Registry → List Definition → Prop} {r s : Registry} {ds skipped : List Definition}
  {left : List (Definition × Error)} {e : Error}

/-- Puts definitions on record in at most `limit` passes, of which the first that leaves all of them
over ends with the last error; `none` stands for a need of more passes. -/
def passesWithin : (limit : Nat) → Registry → List Definition → Option (Registry × Except Error Unit)
  | _, r, [] => some (r, .ok ())
  | 0, _, _ :: _ => none
  | limit + 1, r, pending =>
    match r.loadPass pending with
    | (r, .error e) => some (r, .error e)
    | (r, .ok left) =>
      match left.getLast? with
      | none => passesWithin limit r (left.map Prod.fst)
      | some (_, e) =>
        if left.length = pending.length then some (r, .error e)
        else passesWithin limit r (left.map Prod.fst)

/-- The same with the number of definitions. -/
def loadWithin (limit : Nat) (r : Registry) (ds : List Definition) :
    Option (Registry × Except Error Nat) :=
  (passesWithin limit r ds).map fun (r, outcome) => (r, outcome.map fun _ => ds.length)

theorem length_le_of_loadPass (h : (r.loadPass ds).2 = .ok left) : left.length ≤ ds.length := by
  induction ds generalizing r left with
  | nil =>
    cases h
    exact Nat.le_refl _
  | cons d ds ih =>
    rw [loadPass] at h
    split at h
    next => exact Nat.le_succ_of_le (ih h)
    next =>
      obtain ⟨rest, hrest, rfl⟩ := map_eq_ok.mp h
      exact Nat.succ_le_succ (ih hrest)
    next => cases h

/-- A pass that leaves all definitions over changes nothing, and each of them is in want of a
type. -/
theorem loadPass_stuck (h : (r.loadPass ds).2 = .ok left) (hl : ds.length ≤ left.length) :
    (r.loadPass ds).1 = r ∧ ∀ d ∈ ds, ∃ e, d.resolve r = .error e ∧ e.IsMissing := by
  induction ds generalizing r left with
  | nil => exact ⟨rfl, nofun⟩
  | cons d ds ih =>
    rw [loadPass] at h ⊢
    split at h
    next udt hd =>
      have shorter := length_le_of_loadPass h
      rw [List.length_cons] at hl
      omega
    next keyspace name hd =>
      obtain ⟨rest, hrest, rfl⟩ := map_eq_ok.mp h
      obtain ⟨same, stuck⟩ := ih hrest (by simpa using hl)
      refine ⟨same, List.forall_mem_cons.mpr ⟨⟨_, hd, keyspace, name, rfl⟩, stuck⟩⟩
    next => cases h

/-- Each pass but the last gets a definition on record, so that there are no more passes than
definitions. -/
theorem passesWithin_eq {limit : Nat} (h : ds.length ≤ limit) :
    r.passesWithin limit ds = some (r.loadPasses ds) := by
  induction limit generalizing r ds with
  | zero =>
    rw [List.length_eq_zero_iff.mp (Nat.le_zero.mp h), passesWithin, loadPasses]
    rfl
  | succ limit ih =>
    cases ds with
    | nil =>
      rw [passesWithin, loadPasses]
      rfl
    | cons d ds =>
      have shorter {left} (hp : (r.loadPass (d :: ds)).2 = .ok left) := length_le_of_loadPass hp
      rw [passesWithin, loadPasses]
      · generalize r.loadPass (d :: ds) = pass at shorter
        obtain ⟨s, outcome⟩ := pass
        cases outcome with
        | error e => rfl
        | ok left =>
          have hle : left.length ≤ ds.length + 1 := shorter rfl
          cases hl : left.getLast? with
          | none =>
            rw [List.getLast?_eq_none_iff.mp hl]
            simp only [List.map_nil, List.getLast?_nil, passesWithin]
          | some last =>
            simp only [hl, List.length_cons]
            -- The two tests for a pass without progress differ, but no pass leaves over more.
            by_cases hlt : left.length < ds.length + 1
            · have rest : (left.map Prod.fst).length ≤ limit := by
                rw [List.length_map]
                rw [List.length_cons] at h
                omega
              rw [if_pos hlt, if_neg (by omega), ih rest]
            · rw [if_neg hlt, if_pos (by omega)]
      · exact List.cons_ne_nil d ds

theorem loadWithin_eq {limit : Nat} (h : ds.length ≤ limit) :
    r.loadWithin limit ds = some (r.load ds) := by
  rw [loadWithin, passesWithin_eq h]
  rfl

/-- The definition that ends a pass, with all that are not on record when it does. -/
theorem Kept.loadPass_error (hP : Kept P) (h : P r (ds ++ skipped))
    (he : (r.loadPass ds).2 = .error e) :
    ∃ d rest, P (r.loadPass ds).1 (d :: rest) ∧ d.resolve (r.loadPass ds).1 = .error e ∧
      ¬e.IsMissing := by
  induction ds generalizing r skipped with
  | nil => cases he
  | cons d ds ih =>
    rw [Registry.loadPass] at he ⊢
    split at he
    next udt hd => exact ih (hP.insert hd h) he
    next keyspace name hd =>
      -- A definition that is left over joins those that were before it.
      have later : P r (ds ++ d :: skipped) := hP.perm List.perm_middle.symm h
      exact ih later (map_eq_error.mp he)
    next e' hne hd =>
      cases he
      refine ⟨d, _, h, hd, ?_⟩
      rintro ⟨keyspace, name, rfl⟩
      exact hne keyspace name rfl

/-- What definitions are not on record when the loading fails: one of them is refused for another
reason than a missing type, or all of them are in want of one. -/
theorem Kept.loadPasses_error (hP : Kept P) (h : P r ds) (he : (r.loadPasses ds).2 = .error e) :
    ∃ rest, rest ≠ [] ∧ P (r.loadPasses ds).1 rest ∧
      ((∃ d ∈ rest, d.resolve (r.loadPasses ds).1 = .error e ∧ ¬e.IsMissing) ∨
        ∀ d ∈ rest, ∃ e, d.resolve (r.loadPasses ds).1 = .error e ∧ e.IsMissing) := by
  induction r, ds using Registry.loadPasses.induct with
  | case1 r ds s e' hp =>
    rw [Registry.loadPasses, hp] at he ⊢
    cases he
    rw [← List.append_nil ds] at h
    obtain ⟨d, rest, held, hd, hne⟩ := hP.loadPass_error h (by rw [hp])
    rw [hp] at held hd
    exact ⟨d :: rest, List.cons_ne_nil d rest, held, .inl ⟨d, List.mem_cons_self, hd, hne⟩⟩
  | case2 r ds s left hp hl =>
    simp only [Registry.loadPasses, hp, hl] at he
    cases he
  | case3 r ds s left hp d e' hl hlt ih =>
    have kept := hP.loadPass ((List.append_nil ds).symm ▸ h)
    simp only [hp, List.append_nil] at kept
    rw [Registry.loadPasses] at he ⊢
    simp only [hp, hl, if_pos hlt] at he ⊢
    exact ih (kept.2 left rfl) he
  | case4 r ds s left hp d e' hl hlt =>
    have same : (r.loadPass ds).2 = .ok left := by rw [hp]
    obtain ⟨unchanged, stuck⟩ := loadPass_stuck same (Nat.not_lt.mp hlt)
    rw [hp] at unchanged
    obtain rfl : s = r := unchanged
    rw [Registry.loadPasses] at he ⊢
    simp only [hp, hl, if_neg hlt] at he ⊢
    refine ⟨ds, ?_, h, .inr stuck⟩
    rintro rfl
    cases hp
    cases hl

theorem Kept.load_error (hP : Kept P) (h : P r ds) (he : (r.load ds).2 = .error e) :
    ∃ rest, rest ≠ [] ∧ P (r.load ds).1 rest ∧
      ((∃ d ∈ rest, d.resolve (r.load ds).1 = .error e ∧ ¬e.IsMissing) ∨
        ∀ d ∈ rest, ∃ e, d.resolve (r.load ds).1 = .error e ∧ e.IsMissing) :=
  hP.loadPasses_error h (load_eq_error.mp he)

end Registry

end CqlWire
