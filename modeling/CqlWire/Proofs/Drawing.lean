import CqlWire.Proofs.Equality
import CqlWire.Random.Value

namespace CqlWire.Random

-- A power of natural numbers is always the one that computes.
attribute [local instance (high)] instPowNat

variable {σ α β : Type} {m : StateM σ α} {f : α → StateM σ β} {P : α → Prop} {Q : β → Prop}

/-- A run gives a result with a property, whatever the state it starts in. -/
def Yields (m : StateM σ α) (P : α → Prop) : Prop :=
  ∀ s, P (m s).1

namespace Yields

theorem pure {a : α} (h : P a) : Yields (pure a : StateM σ α) P :=
  fun _ => h

theorem mono {P' : α → Prop} (h : Yields m P) (hP : ∀ a, P a → P' a) : Yields m P' :=
  fun s => hP _ (h s)

theorem bind (h : Yields m P) (hf : ∀ a, P a → Yields (f a) Q) : Yields (m >>= f) Q :=
  fun s => hf _ (h s) _

/-- What is computed from a result has what follows from the property of the result. -/
theorem map {g : α → β} (h : Yields m P) (hg : ∀ a, P a → Q (g a)) :
    Yields (do return g (← m)) Q :=
  h.bind fun a ha => .pure (hg a ha)

theorem any (m : StateM σ α) : Yields m fun _ => True :=
  fun _ => trivial

theorem draw (h : Yields m P) : Yields (Random.draw m : StateM σ α) P :=
  h

theorem times (h : Yields m P) (n : Nat) :
    Yields (times n m) fun l => l.length = n ∧ ∀ a ∈ l, P a := by
  induction n with
  | zero => exact .pure ⟨rfl, nofun⟩
  | succ n ih =>
    refine h.bind fun a ha => ih.map fun l hl => ?_
    exact ⟨congrArg Nat.succ hl.1, List.forall_mem_cons.mpr ⟨ha, hl.2⟩⟩

theorem mapM {l : List α} {R : α → β → Prop} (h : ∀ a ∈ l, Yields (f a) (R a)) :
    Yields (l.mapM f) (List.Forall₂ R l) := by
  induction l with
  | nil => exact .pure .nil
  | cons a l ih =>
    rw [List.mapM_cons]
    refine (h a List.mem_cons_self).bind fun b hb => ?_
    exact (ih fun c hc => h c (List.mem_cons_of_mem a hc)).map fun bs hbs => .cons hb hbs

end Yields

section Source

variable {n : Nat}

theorem yields_scaled {width floor : Nat} {draw : StateM σ Nat} (h : Yields draw (· < 2 ^ width))
    (hn : 0 < n) (redraws : Nat) : Yields (scaled width draw n floor redraws) (· < n) := by
  have scale (word : Nat) (hw : word < 2 ^ width) : word * n / 2 ^ width < n :=
    Nat.div_lt_of_lt_mul (Nat.mul_lt_mul_of_pos_right hw hn)
  induction redraws with
  | zero => exact h.map scale
  | succ redraws ih =>
    refine h.bind fun word hw => ?_
    dsimp only
    split
    · exact ih
    · exact .pure (scale word hw)

variable [RandomSource σ]

theorem yields_word64 : Yields (word64 : StateM σ Nat) (· < UInt64.size) :=
  (Yields.any _).map fun word _ => word.toNat_lt

theorem yields_below64 (hn : 0 < n) : Yields (below64 n : StateM σ Nat) (· < n) :=
  yields_scaled yields_word64 hn redraws

theorem yields_upTo64 (high : Nat) : Yields (upTo64 high : StateM σ Nat) (· ≤ high) := by
  unfold upTo64
  split
  next h => exact yields_word64.mono fun word hw => by omega
  next => exact (yields_below64 high.succ_pos).mono fun _ => Nat.le_of_lt_succ

end Source

section Value

variable {settings : Settings} {least size runs : Nat} {kept : List Value} {make : StateM σ Value}
  {P : Value → Prop}

/-- Values that differ from each other and have a property, as many as asked for or fewer. -/
structure Distinct (size : Nat) (P : Value → Prop) (l : List Value) : Prop where
  bounded : l.length ≤ size
  differ : l.Pairwise fun a b => Value.same a b = false
  each : ∀ a ∈ l, P a

theorem Distinct.mono {more : Nat} {l : List Value} (h : Distinct size P l) (hn : size ≤ more) :
    Distinct more P l :=
  ⟨Nat.le_trans h.bounded hn, h.differ, h.each⟩

theorem Distinct.imp {Q : Value → Prop} {l : List Value} (h : Distinct size P l)
    (hPQ : ∀ a, P a → Q a) : Distinct size Q l :=
  ⟨h.bounded, h.differ, fun a ha => hPQ a (h.each a ha)⟩

theorem Distinct.reverse {l : List Value} (h : Distinct size P l) : Distinct size P l.reverse := by
  refine ⟨by simpa using h.bounded, List.pairwise_reverse.mpr (h.differ.imp fun {a b} hab => ?_),
    fun a ha => h.each a (List.mem_reverse.mp ha)⟩
  rw [Bool.eq_false_iff] at hab ⊢
  exact mt Value.same_symm hab

/-- A value that differs from those kept is kept as well. -/
theorem Distinct.keep {v : Value} (h : Distinct size P kept) (hlt : kept.length < size) (hv : P v) :
    Distinct size P (if kept.any (· == v) then kept else v :: kept) := by
  split
  next => exact h
  next hnew =>
    refine ⟨hlt, List.pairwise_cons.mpr ⟨fun a ha => ?_, h.differ⟩, List.forall_mem_cons.mpr ⟨hv, h.each⟩⟩
    have hne : ¬Value.same a v = true := fun e => hnew (List.any_eq_true.mpr ⟨a, ha, e⟩)
    exact Bool.eq_false_iff.mpr (mt Value.same_symm hne)

variable [RandomSource σ]

theorem yields_textLength (settings : Settings) :
    Yields (textLength settings : StateM σ Nat) fun n => 1 ≤ n ∧ n ≤ max settings.maxText 1 :=
  (yields_below64 (by omega)).map fun _ h => ⟨by omega, by omega⟩

end Value

end CqlWire.Random
