import CqlWire.Proofs.Generation

namespace CqlWire

open Memory (reserve)

/-- There is room for the largest collection and the longest text that can be asked for. -/
def Room.Ample (room : Room) (settings : Settings) (least : Nat) : Prop :=
  least + settings.maxExtra ≤ room.values ∧ max settings.maxText 1 ≤ room.bytes

namespace Random

variable {σ α β : Type} {room : Room} {ample : Prop} {x : StateM σ α} {y : StateT σ Confined α}
  {f : α → StateM σ β} {g : α → StateT σ Confined β} {P : α → Prop}

/-- A run in confined memory gives what the run in endless memory gives, or fails for want of room,
which does not happen where there is enough. -/
def Follows (room : Room) (ample : Prop) (x : StateM σ α) (y : StateT σ Confined α) : Prop :=
  ∀ s, y s room = .ok (x s) ∨ ¬ample ∧ y s room = .error .capacityOverflow

namespace Follows

theorem pure (a : α) : Follows room ample (pure a : StateM σ α) (pure a) :=
  fun _ => .inl rfl

theorem draw (run : StateM σ α) : Follows room ample (draw run) (draw run) :=
  fun _ => .inl rfl

theorem reserve {block : Block} (h : ample → room.Holds block) :
    Follows room ample (reserve block : StateM σ Unit) (reserve block) := by
  intro s
  have run : (Memory.reserve block : StateT σ Confined Unit) s room =
      (if room.Holds block then .ok () else .error .capacityOverflow) >>= fun u => .ok (u, s) := rfl
  rw [run]
  split
  next => exact .inl rfl
  next hb => exact .inr ⟨mt h hb, rfl⟩

theorem bind (h : Follows room ample x y) (hx : Yields x P)
    (hf : ∀ a, P a → Follows room ample (f a) (g a)) : Follows room ample (x >>= f) (y >>= g) := by
  intro s
  have run : (y >>= g) s room = y s room >>= fun r => g r.1 r.2 room := rfl
  rw [run]
  rcases h s with hs | ⟨short, hs⟩
  · rw [hs]
    exact hf _ (hx s) _
  · rw [hs]
    exact .inr ⟨short, rfl⟩

/-- What is computed from a result is the same in both. -/
theorem map {u : α → β} (h : Follows room ample x y) :
    Follows room ample (do return u (← x)) (do return u (← y)) :=
  h.bind (.any x) fun a _ => .pure (u a)

theorem times (h : Follows room ample x y) (n : Nat) : Follows room ample (times n x) (times n y) := by
  induction n with
  | zero => exact .pure []
  | succ n ih => exact h.bind (.any x) fun _ _ => ih.map

theorem mapM {l : List α} (h : ∀ a ∈ l, Follows room ample (f a) (g a)) :
    Follows room ample (l.mapM f) (l.mapM g) := by
  induction l with
  | nil => exact .pure []
  | cons a l ih =>
    rw [List.mapM_cons, List.mapM_cons]
    refine (h a List.mem_cons_self).bind (.any _) fun _ _ => ?_
    exact (ih fun b hb => h b (List.mem_cons_of_mem a hb)).map

theorem distinctWithin {x : StateM σ Value} {y : StateT σ Confined Value} (h : Follows room ample x y)
    (size runs : Nat) (kept : List Value) :
    Follows room ample (distinctWithin x size runs kept) (distinctWithin y size runs kept) := by
  induction runs generalizing kept with
  | zero => exact .pure _
  | succ runs ih =>
    unfold Random.distinctWithin
    split
    next => exact .pure _
    next => exact h.bind (.any x) fun v _ => ih _

theorem distinct {x : StateM σ Value} {y : StateT σ Confined Value} (h : Follows room ample x y)
    (size : Nat) : Follows room ample (distinct x size) (distinct y size) :=
  h.distinctWithin size _ []

end Follows

section Value

variable [RandomSource σ] {settings : Settings} {least : Nat} {t : DataType}

/-- The values of a type in confined memory follow those in endless memory. -/
def Alike (σ : Type) [RandomSource σ] (room : Room) (settings : Settings) (least : Nat) (t : DataType) :
    Prop :=
  Follows room (room.Ample settings least) (value settings least t : StateM σ Value)
    (value settings least t)

theorem follows_size (room : Room) (settings : Settings) (least : Nat) :
    Follows room (room.Ample settings least) (Random.size settings least : StateM σ Nat)
      (Random.size settings least) := by
  refine (Follows.draw _).bind (yields_upTo64 settings.maxExtra).draw fun n hn => ?_
  refine (Follows.reserve fun ample => ?_).bind (.any _) fun _ _ => .pure _
  exact Nat.le_trans (Nat.add_le_add_left hn least) ample.1

/-- A length is drawn, and as many bytes are asked for and filled. -/
theorem follows_textLength {f : Nat → StateM σ α} {g : Nat → StateT σ Confined α}
    (hf : ∀ n, Follows room (room.Ample settings least) (f n) (g n)) :
    Follows room (room.Ample settings least)
      (do
        let n ← draw (textLength settings)
        Memory.reserve (.bytes n)
        f n)
      (do
        let n ← draw (textLength settings)
        Memory.reserve (.bytes n)
        g n) := by
  refine (Follows.draw _).bind (yields_textLength settings).draw fun n hn => ?_
  refine (Follows.reserve fun ample => ?_).bind (.any _) fun _ _ => hf n
  exact Nat.le_trans hn.2 ample.2

theorem follows_text (room : Room) (settings : Settings) (least : Nat) :
    Follows room (room.Ample settings least) (text settings : StateM σ String) (text settings) :=
  follows_textLength fun _ => (Follows.draw _).map

theorem follows_leaf (room : Room) (settings : Settings) (least : Nat) (kind : Kind) :
    Follows room (room.Ample settings least) (leaf settings kind : StateM σ Value)
      (leaf settings kind) := by
  cases kind
  case ascii | text => exact (follows_text room settings least).map
  case blob => exact (follows_textLength fun _ => Follows.draw _).map
  case empty => exact .pure _
  all_goals exact .draw _

theorem follows_values {ts : List DataType} (h : ∀ t ∈ ts, Alike σ room settings least t) :
    Follows room (room.Ample settings least) (values settings least ts : StateM σ (List Value))
      (values settings least ts) := by
  induction ts with
  | nil => exact .pure []
  | cons t ts ih =>
    rw [values, values]
    refine (h t List.mem_cons_self).bind (.any _) fun _ _ => ?_
    exact (ih fun u hu => h u (List.mem_cons_of_mem t hu)).map

theorem follows_fieldValues {types : FieldTypes} (h : ∀ f ∈ types, Alike σ room settings least f.2) :
    Follows room (room.Ample settings least)
      (fieldValues settings least types : StateM σ (List (String × Value)))
      (fieldValues settings least types) := by
  induction types with
  | nil => exact .pure []
  | cons f types ih =>
    rw [fieldValues, fieldValues]
    refine (h f List.mem_cons_self).bind (.any _) fun _ _ => ?_
    exact (ih fun g hg => h g (List.mem_cons_of_mem f hg)).map

theorem alike (room : Room) (settings : Settings) (least : Nat) (t : DataType) :
    Alike σ room settings least t := by
  induction t with
  | leaf kind =>
    rw [Alike, value, value]
    exact follows_leaf room settings least kind
  | list t ih =>
    rw [Alike, value, value]
    exact (follows_size room settings least).bind (.any _) fun n _ => (ih.times n).map
  | set t ih =>
    rw [Alike, value, value]
    exact (follows_size room settings least).bind (.any _) fun n _ => (ih.distinct n).map
  | map k v ihk ihv =>
    rw [Alike, value, value]
    refine (follows_size room settings least).bind (.any _) fun n _ => ?_
    exact (ihk.distinct n).bind (.any _) fun keys _ => (Follows.mapM fun _ _ => ihv.map).map
  | tuple ts ih =>
    rw [Alike, value, value]
    exact (follows_values ih).map
  | udt keyspace name types ih =>
    rw [Alike, value, value]
    exact (follows_fieldValues ih).map
  | frozen t ih =>
    rw [Alike, value, value]
    exact ih

end Value

end Random

end CqlWire
