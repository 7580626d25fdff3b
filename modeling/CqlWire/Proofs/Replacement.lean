import CqlWire.Proofs.Equality

namespace CqlWire.Value

/-- A value with a place in it left open, directly inside. -/
inductive Hole where
  | listItem (before after : List Value)
  | setItem (before after : List Value)
  | mapKey (before : List (Value × Value)) (value : Value) (after : List (Value × Value))
  | mapValue (before : List (Value × Value)) (key : Value) (after : List (Value × Value))
  | tupleItem (before after : List Value)
  | recordField (before : List (String × Value)) (name : String) (after : List (String × Value))

/-- The value with another one put into the open place. -/
def Hole.fill : Hole → Value → Value
  | listItem before after, a => .list (before ++ a :: after)
  | setItem before after, a => .set (before ++ a :: after)
  | mapKey before value after, a => .map (before ++ (a, value) :: after)
  | mapValue before key after, a => .map (before ++ (key, a) :: after)
  | tupleItem before after, a => .tuple (before ++ a :: after)
  | recordField before name after, a => .record (before ++ (name, a) :: after)

variable {a b c k v : Value} {x y : List (Value × Value)}

theorem same_comm (a b : Value) : same a b = same b a :=
  Bool.eq_iff_iff.mpr ⟨same_symm, same_symm⟩

theorem same_congr_right (h : same a b = true) (c : Value) : same c a = same c b :=
  Bool.eq_iff_iff.mpr ⟨fun hc => same_trans hc h, fun hc => same_trans hc (same_symm h)⟩

theorem forall₂_same_refl (items : List Value) :
    List.Forall₂ (fun a b => same a b = true) items items :=
  List.forall₂_same.mpr fun a _ => same_refl a

theorem same_set_of_mem_iff {items others : List Value} (h : ∀ v, v ∈ items ↔ v ∈ others) :
    same (.set items) (.set others) = true :=
  same_set_iff.mpr ⟨fun a ha => ⟨a, (h a).mp ha, same_refl a⟩,
    fun b hb => ⟨b, (h b).mpr hb, same_refl b⟩⟩

theorem rel_same_refl (o : Option Value) : Option.Rel (fun v w => same v w = true) o o := by
  cases o with
  | none => exact .none
  | some v => exact .some (same_refl v)

theorem same_map_of_valueAt (h : ∀ c, valueAt x c = valueAt y c) :
    same (.map x) (.map y) = true := by
  refine same_map_iff.mpr fun c => ?_
  rw [h c]
  exact rel_same_refl _

theorem valueAt_append (x y : List (Value × Value)) (c : Value) :
    valueAt (x ++ y) c = (valueAt x c).or (valueAt y c) := by
  rw [valueAt, valueAt, valueAt, List.find?_append, Option.map_or]

/-- A later entry of a key that there is already does not count. -/
theorem valueAt_append_cons {d e : Value × Value} (hd : d ∈ x) (hde : same d.1 e.1 = true)
    (y : List (Value × Value)) (c : Value) : valueAt (x ++ e :: y) c = valueAt (x ++ y) c := by
  rw [valueAt_append, valueAt_append, valueAt_cons]
  split
  next hc =>
    have found : valueAt x c ≠ none := by
      intro hnone
      have hne := valueAt_eq_none.mp hnone d hd
      rw [same_trans hc (same_symm hde)] at hne
      cases hne
    obtain ⟨w, hw⟩ := Option.ne_none_iff_exists'.mp found
    rw [hw, Option.some_or, Option.some_or]
  next => rfl

/-- Where each key has one entry, the order of the entries does not count. -/
theorem valueAt_perm (h : x.Perm y) (hx : x.Pairwise fun e f => same e.1 f.1 = false) (c : Value) :
    valueAt x c = valueAt y c := by
  induction h with
  | nil => rfl
  | cons e _ ih =>
    rw [valueAt_cons, valueAt_cons, ih (List.pairwise_cons.mp hx).2]
  | swap e f rest =>
    have hne : same f.1 e.1 = false := (List.pairwise_cons.mp hx).1 e (by simp)
    have apart : ¬(same c f.1 = true ∧ same c e.1 = true) := by
      rintro ⟨hf, he⟩
      rw [same_trans (same_symm hf) he] at hne
      cases hne
    rw [valueAt_cons, valueAt_cons, valueAt_cons, valueAt_cons]
    by_cases hf : same c f.1 = true
    · rw [if_pos hf, if_neg fun he => apart ⟨hf, he⟩, if_pos hf]
    · rw [if_neg hf, if_neg hf]
  | trans hxz _ ihx ihz =>
    have hz := hxz.pairwise hx fun {e f} h => (same_comm f.1 e.1).trans h
    exact (ihx hx).trans (ihz hz)

theorem Hole.same_fill (hole : Hole) (h : same a b = true) :
    same (hole.fill a) (hole.fill b) = true := by
  have each (before after : List Value) :
      List.Forall₂ (fun a b => same a b = true) (before ++ a :: after) (before ++ b :: after) :=
    List.rel_append (forall₂_same_refl before) (.cons h (forall₂_same_refl after))
  cases hole with
  | listItem before after => exact same_list_iff.mpr (each before after)
  | setItem before after =>
    have items := each before after
    exact same_set_iff.mpr ⟨fun _ hv => items.exists_mem_right hv, fun _ hv => items.exists_mem_left hv⟩
  | mapKey before value after =>
    refine same_map_of_valueAt fun c => ?_
    rw [valueAt_append, valueAt_append, valueAt_cons, valueAt_cons, same_congr_right h c]
  | mapValue before key after =>
    refine same_map_iff.mpr fun c => ?_
    rw [valueAt_append, valueAt_append, valueAt_cons, valueAt_cons]
    cases valueAt before c with
    | some w => exact .some (same_refl w)
    | none =>
      rw [Option.none_or, Option.none_or]
      split
      · exact .some h
      · exact rel_same_refl _
  | tupleItem before after => exact same_tuple_iff.mpr (each before after)
  | recordField before name after =>
    have fields (l : List (String × Value)) :
        List.Forall₂ (fun f g => f.1 = g.1 ∧ same f.2 g.2 = true) l l :=
      List.forall₂_same.mpr fun f _ => ⟨rfl, same_refl f.2⟩
    exact same_record_iff.mpr (List.rel_append (fields before) (.cons ⟨rfl, h⟩ (fields after)))

/-- Replacing a value at any depth inside another one by an equal value gives an equal value. -/
theorem same_fillAll (holes : List Hole) (h : same a b = true) :
    same (holes.foldr Hole.fill a) (holes.foldr Hole.fill b) = true := by
  induction holes with
  | nil => exact h
  | cons hole holes ih => exact hole.same_fill ih

/-- Equality of values is an equivalence relation that replacement keeps. The items of a set may be
put in another order and repeated, and so may the entries of a map be put in another order where
each key has one; an entry of a key that comes earlier may be added. -/
theorem same_congruence :
    (∀ a, same a a = true) ∧ (∀ a b, same a b = true ↔ same b a = true) ∧
      (∀ a b c, same a b = true → same b c = true → same a c = true) ∧
      (∀ (holes : List Hole) (a b : Value), same a b = true →
        same (holes.foldr Hole.fill a) (holes.foldr Hole.fill b) = true) ∧
      (∀ items others : List Value, (∀ v, v ∈ items ↔ v ∈ others) →
        same (.set items) (.set others) = true) ∧
      (∀ x y : List (Value × Value), x.Perm y → (x.Pairwise fun e f => same e.1 f.1 = false) →
        same (.map x) (.map y) = true) ∧
      ∀ (x y : List (Value × Value)) (d e : Value × Value), d ∈ x → same d.1 e.1 = true →
        same (.map (x ++ e :: y)) (.map (x ++ y)) = true := by
  refine ⟨same_refl, fun a b => ⟨same_symm, same_symm⟩, fun a b c => same_trans, ?_, ?_, ?_, ?_⟩
  · exact fun holes a b => same_fillAll holes
  · exact fun items others => same_set_of_mem_iff
  · exact fun x y h hx => same_map_of_valueAt (valueAt_perm h hx)
  · exact fun x y d e hd hde => same_map_of_valueAt (valueAt_append_cons hd hde y)

theorem same_congruence_repeated_key :
    let nan : Value := .float 0x7fc00000
    let a : Value := .set [nan, .list [.null], nan]
    let b : Value := .set [.list [.null], nan]
    ((∀ v, v ∈ [nan, .list [.null], nan] ↔ v ∈ [.list [.null], nan]) ∧ same a b = true ∧
        (b, Value.int 1) ∈ [(b, Value.int 1)] ∧
        [(nan, Value.null), (b, Value.int 1)].Perm [(b, .int 1), (nan, .null)] ∧
        ([(nan, Value.null), (b, Value.int 1)].Pairwise fun e f => same e.1 f.1 = false)) ∧
      same (.tuple [.null, .map [(a, .int 1), (a, .int 2)]])
          (.tuple [.null, .map [(b, .int 1), (a, .int 2)]]) = true ∧
        same (.map [(b, .int 1), (a, .int 2)]) (.map [(b, .int 1)]) = true ∧
        same (.map [(nan, .null), (b, .int 1)]) (.map [(b, .int 1), (nan, .null)]) = true := by
  intro nan a b
  obtain ⟨-, symm, -, replace, sets, permute, repeats⟩ := same_congruence
  have hmem : ∀ v, v ∈ [nan, .list [.null], nan] ↔ v ∈ [.list [.null], nan] := by
    intro v
    simp only [List.mem_cons, List.not_mem_nil, or_false]
    tauto
  have hab : same a b = true := sets _ _ hmem
  have hperm : [(nan, Value.null), (b, Value.int 1)].Perm [(b, .int 1), (nan, .null)] := .swap _ _ _
  have hkeys : [(nan, Value.null), (b, Value.int 1)].Pairwise fun e f => same e.1 f.1 = false := by
    have leaf : nan.IsLeaf := trivial
    have apart : same nan b = false := Bool.eq_false_iff.mpr (mt (same_iff_of_isLeaf leaf).mp nofun)
    simp [apart]
  exact ⟨⟨hmem, hab, List.mem_singleton_self _, hperm, hkeys⟩,
    replace [.tupleItem [.null] [], .mapKey [] (.int 1) [(a, .int 2)]] a b hab,
    repeats [(b, .int 1)] [] (b, .int 1) (a, .int 2) (by simp) ((symm a b).mp hab),
    permute _ _ hperm hkeys⟩

end CqlWire.Value
