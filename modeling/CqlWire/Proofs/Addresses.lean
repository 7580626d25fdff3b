import CqlWire.Address
import CqlWire.Proofs.Words
import Mathlib.Data.List.Basic
import Mathlib.Data.List.TakeWhile

namespace CqlWire

namespace Hex

variable {m n : Nat} {c : Char}

theorem exists_of_mem_ofNat (h : c ∈ ofNat n) : ∃ d < 16, c = Nat.digitChar d := by
  unfold ofNat at h
  induction n using Nat.strongRecOn with
  | ind n ih =>
    rw [Nat.toDigits_eq_if (by decide)] at h
    split at h
    next hn => exact ⟨n, hn, List.mem_singleton.mp h⟩
    next hn =>
      rcases List.mem_append.mp h with h | h
      · exact ih (n / 16) (by omega) h
      · exact ⟨n % 16, Nat.mod_lt n (by decide), List.mem_singleton.mp h⟩

theorem ofNat_ne_nil (n : Nat) : ofNat n ≠ [] :=
  Nat.toDigits_ne_nil

theorem ofNat_injective (h : ofNat m = ofNat n) : m = n := by
  have digits : ∀ a < 16, ∀ b < 16, Nat.digitChar a = Nat.digitChar b → a = b := by decide
  unfold ofNat at h
  induction m using Nat.strongRecOn generalizing n with
  | ind m ih =>
    rw [Nat.toDigits_eq_if (n := m) (by decide), Nat.toDigits_eq_if (n := n) (by decide)] at h
    have length := congrArg List.length h
    have some (k : Nat) : (Nat.toDigits 16 k).length ≠ 0 :=
      mt List.length_eq_zero_iff.mp (ofNat_ne_nil k)
    split at h <;> split at h
    next hm hn => exact digits m hm n hn (List.singleton_inj.mp h)
    next hm hn => simp [hm, hn, some] at length
    next hm hn => simp [hm, hn, some] at length
    next =>
      obtain ⟨front, last⟩ := List.append_inj' h rfl
      have quotients := ih (m / 16) (by omega) front
      have remainders := digits (m % 16) (Nat.mod_lt m (by decide)) (n % 16)
        (Nat.mod_lt n (by decide)) (List.singleton_inj.mp last)
      omega

end Hex

section Words

variable {c s : Char} {x y x' y' : List (List Char)}

/-- Words joined by a character that is in none of them are told apart. -/
theorem intercalate_injective (hx : ∀ w ∈ x, s ∉ w) (hy : ∀ w ∈ y, s ∉ w) (nx : x ≠ [])
    (ny : y ≠ []) (h : [s].intercalate x = [s].intercalate y) : x = y := by
  rw [← List.splitOn_intercalate s hx nx, h, List.splitOn_intercalate s hy ny]

theorem mem_intercalate (h : c ∈ [s].intercalate x) : c = s ∨ ∃ w ∈ x, c ∈ w := by
  induction x with
  | nil => simp at h
  | cons w x ih =>
    cases x with
    | nil => exact .inr ⟨w, by simpa using h⟩
    | cons v x =>
      rw [List.intercalate_cons_cons, List.mem_append, List.mem_append] at h
      rcases h with (h | h) | h
      · exact .inr ⟨w, by simp, h⟩
      · exact .inl (List.mem_singleton.mp h)
      · exact (ih h).imp_right fun ⟨u, hu, hc⟩ => ⟨u, List.mem_cons_of_mem w hu, hc⟩

theorem intercalate_append (nx : x ≠ []) (ny : y ≠ []) :
    [s].intercalate (x ++ y) = [s].intercalate x ++ s :: [s].intercalate y := by
  induction x with
  | nil => exact absurd rfl nx
  | cons w x ih =>
    cases x with
    | nil =>
      obtain ⟨v, y, rfl⟩ := List.exists_cons_of_ne_nil ny
      simp [List.intercalate_cons_cons]
    | cons v x =>
      have rest := ih (by simp)
      rw [List.cons_append] at rest
      rw [List.cons_append, List.cons_append, List.intercalate_cons_cons, rest,
        List.intercalate_cons_cons]
      simp

/-- The words around a gap, an empty one on a side that has none. -/
def orEmpty (words : List (List Char)) : List (List Char) :=
  if words = [] then [[]] else words

theorem orEmpty_ne_nil (x : List (List Char)) : orEmpty x ≠ [] := by
  unfold orEmpty
  split
  next => exact List.cons_ne_nil _ _
  next h => exact h

theorem intercalate_orEmpty (s : Char) (x : List (List Char)) :
    [s].intercalate (orEmpty x) = [s].intercalate x := by
  unfold orEmpty
  split
  next h => rw [h, List.intercalate_singleton, List.intercalate_nil]
  next => rfl

theorem reverse_orEmpty (x : List (List Char)) : (orEmpty x).reverse = orEmpty x.reverse := by
  unfold orEmpty
  simp only [List.reverse_eq_nil_iff]
  split <;> rfl

theorem takeWhile_orEmpty (hx : ∀ w ∈ x, w ≠ []) (rest : List (List Char)) :
    (orEmpty x ++ [] :: rest).takeWhile (fun w => w ≠ []) = x := by
  unfold orEmpty
  split
  next h =>
    rw [h]
    rfl
  next =>
    rw [List.takeWhile_append_of_pos fun w hw => decide_eq_true (hx w hw)]
    simp

/-- The words before and behind a gap are those up to the first and from the last empty word. -/
theorem orEmpty_append_injective (hx : ∀ w ∈ x, w ≠ []) (hx' : ∀ w ∈ x', w ≠ [])
    (hy : ∀ w ∈ y, w ≠ []) (hy' : ∀ w ∈ y', w ≠ [])
    (h : orEmpty x ++ [] :: orEmpty y = orEmpty x' ++ [] :: orEmpty y') : x = x' ∧ y = y' := by
  have front := congrArg (List.takeWhile fun w => w ≠ []) h
  rw [takeWhile_orEmpty hx, takeWhile_orEmpty hx'] at front
  have back := congrArg (fun l => l.reverse.takeWhile fun w => w ≠ []) h
  simp only [List.reverse_append, List.reverse_cons, List.append_assoc, List.singleton_append,
    reverse_orEmpty] at back
  rw [takeWhile_orEmpty fun w hw => hy w (List.mem_reverse.mp hw),
    takeWhile_orEmpty fun w hw => hy' w (List.mem_reverse.mp hw)] at back
  exact ⟨front, List.reverse_injective back⟩

end Words

namespace Address

variable {g h : List Nat} {bits bits' : BitVec 128} {a b : Address}

theorem toList_dotted (octets : Bytes) :
    (dotted octets).toList = ['.'].intercalate (octets.map fun b => Nat.toDigits 10 b.toNat) := by
  rw [dotted, String.toList_intercalate, List.map_map]
  congr 1
  exact List.map_congr_left fun b _ => String.toList_ofList

theorem toList_colons (l : List Nat) : (colons l).toList = [':'].intercalate (l.map Hex.ofNat) := by
  rw [colons, String.toList_intercalate, List.map_map]
  congr 1
  exact List.map_congr_left fun n _ => String.toList_ofList

theorem isDigit_toDigits {n : Nat} {c : Char} (h : c ∈ Nat.toDigits 10 n) : c.isDigit = true :=
  Nat.isDigit_of_mem_toDigits (by decide) (by decide) h

theorem dotted_injective {x y : Bytes} (nx : x ≠ []) (ny : y ≠ []) (h : dotted x = dotted y) :
    x = y := by
  have chars := congrArg String.toList h
  rw [toList_dotted, toList_dotted] at chars
  have point (octets : Bytes) : ∀ w ∈ octets.map (fun b => Nat.toDigits 10 b.toNat), '.' ∉ w := by
    intro w hw hpoint
    obtain ⟨b, -, rfl⟩ := List.mem_map.mp hw
    cases isDigit_toDigits hpoint
  have numbers := intercalate_injective (point x) (point y) (by simpa using nx) (by simpa using ny)
    chars
  refine List.map_injective_iff.mpr (fun b b' hb => UInt8.toNat_inj.mp ?_) numbers
  have value := congrArg (Nat.ofDigitChars 10 · 0) hb
  simpa only [Nat.ofDigitChars_ten_toDigits] using value

/-- The groups that are left out are zeros. -/
theorem take_zeroRun {n : Nat} (hn : n ≤ zeroRun g) : g.take n = List.replicate n 0 := by
  obtain ⟨rest, hrest⟩ := List.takeWhile_prefix (fun m : Nat => decide (m = 0)) (l := g)
  have front : g.take n = (g.takeWhile fun m => m = 0).take n := by
    have whole := congrArg (List.take n) hrest
    rwa [List.take_append_of_le_length hn, eq_comm] at whole
  rw [front]
  refine List.eq_replicate_iff.mpr ⟨List.length_take_of_le hn, fun m hm => ?_⟩
  simpa using List.mem_takeWhile_imp (List.mem_of_mem_take hm)

theorem longestZeroRun_le (g : List Nat) :
    (longestZeroRun g).2 ≤ zeroRun (g.drop (longestZeroRun g).1) := by
  have chosen (runs : List (Nat × Nat)) (best : Nat × Nat)
      (hbest : best.2 ≤ zeroRun (g.drop best.1))
      (hruns : ∀ run ∈ runs, run.2 ≤ zeroRun (g.drop run.1)) :
      let longest := runs.foldl (fun best run => if best.2 < run.2 then run else best) best
      longest.2 ≤ zeroRun (g.drop longest.1) := by
    induction runs generalizing best with
    | nil => exact hbest
    | cons run runs ih =>
      obtain ⟨hrun, hruns⟩ := List.forall_mem_cons.mp hruns
      refine ih _ ?_ hruns
      dsimp only
      split
      · exact hrun
      · exact hbest
  refine chosen _ _ (Nat.zero_le _) fun run hrun => ?_
  obtain ⟨i, -, rfl⟩ := List.mem_map.mp hrun
  exact Nat.le_refl _

theorem eq_append_longestZeroRun (g : List Nat) :
    g.take (longestZeroRun g).1 ++ (List.replicate (longestZeroRun g).2 0 ++
      g.drop ((longestZeroRun g).1 + (longestZeroRun g).2)) = g := by
  rw [← take_zeroRun (longestZeroRun_le g), ← List.drop_drop, List.take_append_drop,
    List.take_append_drop]

/-- The words of groups between colons. -/
def spelled (g : List Nat) : List (List Char) :=
  let run := longestZeroRun g
  if 1 < run.2 then
    orEmpty ((g.take run.1).map Hex.ofNat) ++ [] :: orEmpty ((g.drop (run.1 + run.2)).map Hex.ofNat)
  else g.map Hex.ofNat

theorem map_ofNat_ne_nil (g : List Nat) : ∀ w ∈ g.map Hex.ofNat, w ≠ [] :=
  List.forall_mem_map.mpr fun n _ => Hex.ofNat_ne_nil n

theorem spelled_injective (hl : g.length = h.length) (e : spelled g = spelled h) : g = h := by
  have groups : Function.Injective (List.map Hex.ofNat) :=
    List.map_injective_iff.mpr fun _ _ => Hex.ofNat_injective
  have gap (x y : List (List Char)) (l : List Nat) : x ++ [] :: y ≠ l.map Hex.ofNat := fun e =>
    map_ofNat_ne_nil l [] (e ▸ by simp) rfl
  unfold spelled at e
  dsimp only at e
  split at e <;> split at e
  · obtain ⟨front, back⟩ := orEmpty_append_injective (map_ofNat_ne_nil _) (map_ofNat_ne_nil _)
      (map_ofNat_ne_nil _) (map_ofNat_ne_nil _) e
    have front := groups front
    have back := groups back
    -- Both have the same groups around the zeros, and so as many zeros.
    have hg := eq_append_longestZeroRun g
    have hh := eq_append_longestZeroRun h
    rw [front, back] at hg
    have zeros : (longestZeroRun g).2 = (longestZeroRun h).2 := by
      have lg := congrArg List.length hg
      have lh := congrArg List.length hh
      simp only [List.length_append, List.length_replicate] at lg lh
      omega
    rw [← hg, zeros]
    exact hh
  · exact absurd e (gap _ _ h)
  · exact absurd e.symm (gap _ _ g)
  · exact groups e

theorem spelled_ne_nil (hg : g ≠ []) : spelled g ≠ [] := by
  unfold spelled
  dsimp only
  split
  · simp
  · simpa using hg

theorem toList_toText_v6 (hm : bits.extractLsb' 32 96 ≠ 0xffff) :
    (v6 bits).toText.toList = [':'].intercalate (spelled (groups bits)) := by
  simp only [toText, if_neg hm, spelled]
  split
  next =>
    have gap (y : List (List Char)) (ny : y ≠ []) :
        [':'].intercalate ([] :: y) = ':' :: [':'].intercalate y :=
      intercalate_append (x := [[]]) (List.cons_ne_nil _ _) ny
    rw [intercalate_append (orEmpty_ne_nil _) (List.cons_ne_nil _ _), gap _ (orEmpty_ne_nil _),
      intercalate_orEmpty, intercalate_orEmpty, String.toList_append, String.toList_append,
      toList_colons, toList_colons, List.append_assoc]
    simp
  next => exact toList_colons _

theorem groups_injective (e : groups bits = groups bits') : bits = bits' := by
  refine BitVec.eq_of_getLsbD_eq fun j hj => ?_
  have group := BitVec.eq_of_toNat_eq (List.map_inj_left.mp e (j / 16) (by
    simp only [List.mem_cons, List.not_mem_nil, or_false]
    omega))
  have bit := congrArg (fun g => BitVec.getLsbD g (j % 16)) group
  simpa [BitVec.getLsbD_extractLsb', Nat.mod_lt, Nat.div_add_mod] using bit

theorem point_mem_dotted (n : Nat) : '.' ∈ (dotted (Bytes.ofNat 4 n)).toList := by
  rw [toList_dotted]
  obtain ⟨b, rest, hb⟩ := List.exists_cons_of_length_eq_add_one (Bytes.length_ofNat 4 n)
  obtain ⟨b', rest, rfl⟩ := List.exists_cons_of_length_eq_add_one (l := rest) (n := 2) (by
    have length := congrArg List.length hb
    rw [Bytes.length_ofNat, List.length_cons] at length
    omega)
  simp [hb, List.intercalate_cons_cons]

theorem colon_not_mem_dotted (octets : Bytes) : ':' ∉ (dotted octets).toList := by
  rw [toList_dotted]
  intro h
  rcases mem_intercalate h with h | ⟨w, hw, h⟩
  · cases h
  · obtain ⟨b, -, rfl⟩ := List.mem_map.mp hw
    cases isDigit_toDigits h

theorem mem_orEmpty {w : List Char} {x : List (List Char)} (h : w ∈ orEmpty x) :
    w = [] ∨ w ∈ x := by
  unfold orEmpty at h
  split at h
  next => exact .inl (List.mem_singleton.mp h)
  next => exact .inr h

theorem marks_not_mem_spelled {w : List Char} (hw : w ∈ spelled g) : '.' ∉ w ∧ ':' ∉ w := by
  have digits : w = [] ∨ ∃ n, w = Hex.ofNat n := by
    have each {l : List Nat} (h : w ∈ l.map Hex.ofNat) : ∃ n, w = Hex.ofNat n := by
      obtain ⟨n, -, rfl⟩ := List.mem_map.mp h
      exact ⟨n, rfl⟩
    unfold spelled at hw
    dsimp only at hw
    split at hw
    · rcases List.mem_append.mp hw with hw | hw
      · exact (mem_orEmpty hw).imp_right each
      · rcases List.mem_cons.mp hw with hw | hw
        · exact .inl hw
        · exact (mem_orEmpty hw).imp_right each
    · exact .inr (each hw)
  rcases digits with rfl | ⟨n, rfl⟩
  · exact ⟨List.not_mem_nil, List.not_mem_nil⟩
  · have others : ∀ d < 16, '.' ≠ Nat.digitChar d ∧ ':' ≠ Nat.digitChar d := by decide
    constructor <;> intro h <;> obtain ⟨d, hd, e⟩ := Hex.exists_of_mem_ofNat h
    · exact (others d hd).1 e
    · exact (others d hd).2 e

theorem point_not_mem_v6 (hm : bits.extractLsb' 32 96 ≠ 0xffff) :
    '.' ∉ (v6 bits).toText.toList := by
  rw [toList_toText_v6 hm]
  intro h
  rcases mem_intercalate h with h | ⟨w, hw, h⟩
  · cases h
  · exact (marks_not_mem_spelled hw).1 h

theorem dotted_ofNat_injective {m n : Nat}
    (h : dotted (Bytes.ofNat 4 m) = dotted (Bytes.ofNat 4 n)) :
    BitVec.ofNat 32 m = BitVec.ofNat 32 n := by
  have some (k : Nat) : Bytes.ofNat 4 k ≠ [] := by
    rw [← List.length_pos_iff, Bytes.length_ofNat]
    decide
  have value := congrArg Bytes.toNat (dotted_injective (some m) (some n) h)
  rw [Bytes.toNat_ofNat, Bytes.toNat_ofNat] at value
  exact BitVec.eq_of_toNat_eq value

/-- A dotted quad has points and no colons; only those of version 6 that are mapped have both. -/
theorem toText_v4_ne_v6 (bits : BitVec 32) (bits' : BitVec 128) :
    (v4 bits).toText ≠ (v6 bits').toText := by
  intro e
  by_cases hm : bits'.extractLsb' 32 96 = 0xffff
  · simp only [toText, if_pos hm] at e
    refine colon_not_mem_dotted (Bytes.ofNat 4 bits.toNat) ?_
    rw [e, String.toList_append]
    simp
  · exact point_not_mem_v6 hm (e ▸ point_mem_dotted bits.toNat)

theorem toText_v6_injective (e : (v6 bits).toText = (v6 bits').toText) : bits = bits' := by
  by_cases hm : bits.extractLsb' 32 96 = 0xffff <;> by_cases hm' : bits'.extractLsb' 32 96 = 0xffff
  · simp only [toText, if_pos hm, if_pos hm'] at e
    have low := congrArg BitVec.toNat (dotted_ofNat_injective (String.append_right_inj _ |>.mp e))
    rw [BitVec.toNat_ofNat, BitVec.toNat_ofNat] at low
    have high := congrArg BitVec.toNat (hm.trans hm'.symm)
    rw [BitVec.extractLsb'_toNat, BitVec.extractLsb'_toNat] at high
    refine BitVec.eq_of_toNat_eq ?_
    have hx := bits.isLt
    have hy := bits'.isLt
    omega
  · refine absurd ?_ (point_not_mem_v6 hm')
    rw [← e, toText, if_pos hm, String.toList_append]
    exact List.mem_append_right _ (point_mem_dotted _)
  · refine absurd ?_ (point_not_mem_v6 hm)
    rw [e, toText, if_pos hm', String.toList_append]
    exact List.mem_append_right _ (point_mem_dotted _)
  · have chars := congrArg String.toList e
    rw [toList_toText_v6 hm, toList_toText_v6 hm'] at chars
    have colons {l : List Nat} : ∀ w ∈ spelled l, ':' ∉ w := fun w hw =>
      (marks_not_mem_spelled hw).2
    have words := intercalate_injective colons colons (spelled_ne_nil (by simp [groups]))
      (spelled_ne_nil (by simp [groups])) chars
    exact groups_injective (spelled_injective (by simp [groups]) words)

/-- No two addresses have one text. -/
theorem toText_injective (e : a.toText = b.toText) : a = b := by
  cases a <;> cases b
  case v4.v4 bits bits' =>
    have same := dotted_ofNat_injective e
    rw [BitVec.ofNat_toNat, BitVec.ofNat_toNat, BitVec.setWidth_eq, BitVec.setWidth_eq] at same
    rw [same]
  case v4.v6 bits bits' => exact absurd e (toText_v4_ne_v6 bits bits')
  case v6.v4 bits bits' => exact absurd e.symm (toText_v4_ne_v6 bits' bits)
  case v6.v6 bits bits' => rw [toText_v6_injective e]

end Address

end CqlWire
