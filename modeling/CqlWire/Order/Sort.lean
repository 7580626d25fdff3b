namespace CqlWire

/-- Puts `a` into a list with the greatest item first, before the items that are not greater. -/
def place (order : α → α → Ordering) (a : α) : List α → List α
  | [] => [a]
  | b :: rest => if order a b = .lt then b :: place order a rest else a :: b :: rest

/-- Sorts item by item and keeps the order of items that compare equal. -/
def sortBy (order : α → α → Ordering) (l : List α) : List α :=
  (l.foldl (fun sorted a => place order a sorted) []).reverse

/-- The items of a list that are not the same as `kept` or as the last item kept before them. -/
def collapseAfter (same : α → α → Bool) (kept : α) : List α → List α
  | [] => []
  | a :: rest =>
    if same a kept then collapseAfter same kept rest else a :: collapseAfter same a rest

/-- Keeps the first of neighbouring items that are the same. -/
def collapse (same : α → α → Bool) : List α → List α
  | [] => []
  | a :: rest => a :: collapseAfter same a rest

theorem place_perm (order : α → α → Ordering) (a : α) (l : List α) :
    (place order a l).Perm (a :: l) := by
  induction l with
  | nil => exact .refl _
  | cons b rest ih =>
    unfold place
    split
    · exact (ih.cons b).trans (.swap a b rest)
    · exact .refl _

theorem sortBy_perm (order : α → α → Ordering) (l : List α) : (sortBy order l).Perm l := by
  have h : ∀ (l acc : List α),
      (l.foldl (fun sorted a => place order a sorted) acc).Perm (l ++ acc) := by
    intro l
    induction l with
    | nil => exact fun acc => .refl _
    | cons a l ih =>
      intro acc
      refine (ih (place order a acc)).trans ?_
      refine ((place_perm order a acc).append_left l).trans ?_
      exact List.perm_middle
  simpa [sortBy] using (List.reverse_perm _).trans (h l [])

end CqlWire
