import CqlWire.Proofs.Tokens
import CqlWire.Type.ByteScan

namespace CqlWire

/-- So many bytes at the front of a text are whole characters. -/
def IsBoundary (input : String) (offset : Nat) : Prop :=
  ∃ front rest : String, input = front ++ rest ∧ offset = front.utf8ByteSize

theorem isBoundary_iff_isValid {input : String} {offset : Nat} :
    IsBoundary input offset ↔ String.Pos.Raw.IsValid input ⟨offset⟩ := by
  rw [String.Pos.Raw.isValid_iff_exists_append]
  simp only [IsBoundary, String.Pos.Raw.ext_iff]
  rfl

/-- A text can be cut at the end of whole characters. -/
theorem exists_pos_splits {input front rest : String} (h : input = front ++ rest) :
    ∃ p, input.pos? ⟨front.utf8ByteSize⟩ = some p ∧ p.Splits front rest := by
  have valid := isBoundary_iff_isValid.mp ⟨front, rest, h, rfl⟩
  have inside := String.Pos.Raw.isValidForSlice_eq_true_iff.mpr
    (String.Pos.Raw.isValidForSlice_toSlice_iff.mpr valid)
  have hp : input.pos? ⟨front.utf8ByteSize⟩ = some ⟨_, valid⟩ := by
    simp only [String.pos?, String.Slice.pos?, dif_pos inside]
    rfl
  exact ⟨_, hp, h, rfl⟩

namespace Scan

variable {input : String} {s s' t u : Scan} {p : Char → Bool} {c : Char} {cs rest : List Char}
  {offset : Nat}

/-- One place is reached from another over the characters between them. -/
def Reaches (s s' : Scan) : Prop :=
  ∃ cs, s.rest = cs ++ s'.rest ∧ s'.offset = s.offset + (String.ofList cs).utf8ByteSize

theorem Reaches.refl (s : Scan) : s.Reaches s :=
  ⟨[], rfl, rfl⟩

theorem Reaches.trans (h : s.Reaches t) (g : t.Reaches u) : s.Reaches u := by
  obtain ⟨cs, hs, ht⟩ := h
  obtain ⟨ds, hd, hu⟩ := g
  refine ⟨cs ++ ds, by rw [hs, hd, List.append_assoc], ?_⟩
  rw [hu, ht, String.ofList_append, String.utf8ByteSize_append, Nat.add_assoc]

theorem Reaches.length_le (h : s.Reaches t) : t.rest.length ≤ s.rest.length := by
  obtain ⟨cs, hs, -⟩ := h
  rw [hs, List.length_append]
  exact Nat.le_add_left _ _

/-- The place behind one character. -/
theorem reaches_cons (offset : Nat) (c : Char) (rest : List Char) :
    Reaches ⟨offset, c :: rest⟩ ⟨offset + c.utf8Size, rest⟩ :=
  ⟨[c], rfl, by simp [String.ofList_cons]⟩

theorem reaches_byte (offset : Nat) (rest : List Char) (h : c.utf8Size = 1) :
    Reaches ⟨offset, c :: rest⟩ ⟨offset + 1, rest⟩ :=
  h ▸ reaches_cons offset c rest

theorem advance_offset (h : s.next? = some c) : s.advance.offset = s.offset + c.utf8Size := by
  obtain ⟨offset, l⟩ := s
  cases l with
  | nil => cases h
  | cons d rest =>
    cases h
    rfl

theorem length_advance (h : s.next? = some c) : s.advance.rest.length + 1 = s.rest.length :=
  (congrArg List.length (next?_eq_some.mp h)).symm

theorem reaches_advance (s : Scan) : s.Reaches s.advance := by
  obtain ⟨offset, l⟩ := s
  cases l with
  | nil => exact .refl _
  | cons c rest => exact reaches_cons offset c rest

theorem dropWhile_of_pos (h : p c = true) :
    dropWhile p ⟨offset, c :: rest⟩ = dropWhile p ⟨offset + c.utf8Size, rest⟩ := by
  simp [dropWhile, h]

theorem dropWhile_of_neg (h : p c = false) :
    dropWhile p ⟨offset, c :: rest⟩ = ⟨offset, c :: rest⟩ := by
  simp [dropWhile, h]

theorem dropWhile_offset (p : Char → Bool) (s : Scan) :
    (s.dropWhile p).offset = s.offset + (String.ofList (s.rest.takeWhile p)).utf8ByteSize := by
  have hsum (l : List Char) (offset : Nat) : l.foldl (fun n c => n + c.utf8Size) offset =
      offset + (String.ofList l).utf8ByteSize := by
    induction l generalizing offset with
    | nil => rfl
    | cons c l ih =>
      rw [List.foldl_cons, ih, String.ofList_cons, String.utf8ByteSize_append,
        String.utf8ByteSize_singleton, Nat.add_assoc]
  exact hsum _ _

theorem dropWhile_offset_eq_iff :
    s.offset = (s.dropWhile p).offset ↔ s.rest.takeWhile p = [] := by
  rw [dropWhile_offset, Nat.left_eq_add, String.utf8ByteSize_eq_zero_iff,
    String.ofList_eq_empty_iff]

theorem reaches_dropWhile (p : Char → Bool) (s : Scan) : s.Reaches (s.dropWhile p) :=
  ⟨_, List.takeWhile_append_dropWhile.symm, dropWhile_offset p s⟩

theorem reaches_skipBlanks (s : Scan) : s.Reaches s.skipBlanks :=
  reaches_dropWhile isBlank s

theorem skipBlanks_idem (s : Scan) : s.skipBlanks.skipBlanks = s.skipBlanks := by
  obtain ⟨offset, l⟩ := s
  induction l generalizing offset with
  | nil => rfl
  | cons c rest ih =>
    simp only [skipBlanks] at ih ⊢
    cases h : isBlank c with
    | true => rw [dropWhile_of_pos h, ih]
    | false => rw [dropWhile_of_neg h, dropWhile_of_neg h]

theorem word_of_quote (h : s.skipBlanks.next? = some '"') :
    s.word = (do
      let (text, u) ← (fun v => (String.ofList v.1, v.2)) <$>
        quotedChars s.skipBlanks.advance.offset s.skipBlanks.advance.rest
      return (⟨text, true⟩, u)) := by
  have hquote := next?_eq_some.mp h
  have hoffset : s.skipBlanks.advance.offset = s.skipBlanks.offset + 1 := advance_offset h
  rw [hoffset, word]
  dsimp only
  split
  next rest hrest =>
    obtain rfl : rest = s.skipBlanks.advance.rest :=
      List.tail_eq_of_cons_eq (hrest.symm.trans hquote)
    cases quotedChars (s.skipBlanks.offset + 1) s.skipBlanks.advance.rest <;> rfl
  next hne => exact absurd hquote (hne _)

theorem word_of_not_quote (h : s.skipBlanks.next? ≠ some '"') :
    s.word = if s.skipBlanks.rest.takeWhile isWordChar = [] then s.skipBlanks.fail .expectedName
      else .ok (⟨String.ofList ((s.skipBlanks.rest.takeWhile isWordChar).map Char.toLower), false⟩,
        s.skipBlanks.dropWhile isWordChar) := by
  unfold word
  dsimp only
  split
  next rest hrest =>
    rw [next?, hrest] at h
    exact absurd rfl h
  next =>
    split
    next hnil => rw [if_pos hnil]
    next hne => rw [if_neg hne]

theorem Reaches.exists_front (h : (ofString input).Reaches s) :
    ∃ front, input = front ++ String.ofList s.rest ∧ s.offset = front.utf8ByteSize := by
  obtain ⟨cs, hs, ho⟩ := h
  refine ⟨String.ofList cs, ?_, ho.trans (Nat.zero_add _)⟩
  rw [← String.ofList_append, ← hs]
  exact String.ofList_toList.symm

theorem Reaches.offset_eq_size_iff (h : (ofString input).Reaches s) :
    s.offset = input.utf8ByteSize ↔ s.rest = [] := by
  obtain ⟨front, hinput, ho⟩ := h.exists_front
  rw [ho, hinput, String.utf8ByteSize_append, Nat.left_eq_add, String.utf8ByteSize_eq_zero_iff,
    String.ofList_eq_empty_iff]

/-- The text is cut at a place that is reached in it, and what follows are its characters. -/
theorem Reaches.exists_pos (h : (ofString input).Reaches s) :
    ∃ p front, input.pos? ⟨s.offset⟩ = some p ∧ p.Splits front (String.ofList s.rest) := by
  obtain ⟨front, hinput, ho⟩ := h.exists_front
  rw [ho]
  obtain ⟨p, hp, hsplits⟩ := exists_pos_splits hinput
  exact ⟨p, front, hp, hsplits⟩

theorem Reaches.isBoundary (h : (ofString input).Reaches s) : IsBoundary input s.offset := by
  obtain ⟨front, hinput, ho⟩ := h.exists_front
  exact ⟨front, _, hinput, ho⟩

theorem exists_reaches_of_isBoundary (h : IsBoundary input offset) :
    ∃ rest, (ofString input).Reaches ⟨offset, rest⟩ := by
  obtain ⟨front, rest, rfl, rfl⟩ := h
  exact ⟨rest.toList, front.toList, String.toList_append, by simp [ofString]⟩

end Scan

namespace ByteScan

open Scan (Failure Word)

variable {α β : Type} {input : String} {s t u : Scan} {n fuel : Nat} {p q : ByteScan} {x : Step α}
  {f : α → Step β} {a : α} {c : Char} {rest : List Char} {offset : Nat}

theorem bind_of_ok (h : x p = some (.ok a, q)) : (x >>= f) p = f a q := by
  show (x p >>= fun r => ExceptT.bindCont f r.1 r.2) = f a q
  rw [h]
  rfl

theorem bind_of_error {e : Failure} (h : x p = some (.error e, q)) :
    (x >>= f) p = some (.error e, q) := by
  show (x p >>= fun r => ExceptT.bindCont f r.1 r.2) = _
  rw [h]
  rfl

/-- What is read on bytes from a place with `n` brackets open, beside what is read on characters:
the same, up to the same place, with `n` brackets open again. A failure too stops at a place that
is reached, which a fault reports. -/
inductive Agrees (s : Scan) (n : Nat) :
    Option (Except Failure α × ByteScan) → Except Failure (α × Scan) → Prop
  | ok {u : Scan} (a : α) (h : s.Reaches u) : Agrees s n (some (.ok a, ⟨u.offset, n⟩)) (.ok (a, u))
  | fault {u : Scan} (cause : NameFault) (h : s.Reaches u) :
    Agrees s n (some (.error (.fault cause u.offset), ⟨u.offset, n⟩))
      (.error (.fault cause u.offset))
  | other {u : Scan} {e : Error} (h : s.Reaches u)
    (he : ∀ text cause offset, e ≠ .badTypeName text cause offset) :
    Agrees s n (some (.error (.other e), ⟨u.offset, n⟩)) (.error (.other e))

theorem Agrees.exists_outcome {o : Option (Except Failure α × ByteScan)}
    {y : Except Failure (α × Scan)} (h : Agrees s n o y) :
    ∃ outcome u, s.Reaches u ∧ o = some (outcome, ⟨u.offset, n⟩) := by
  cases h with
  | ok a h => exact ⟨_, _, h, rfl⟩
  | fault cause h => exact ⟨_, _, h, rfl⟩
  | other h he => exact ⟨_, _, h, rfl⟩

theorem Agrees.trans {o : Option (Except Failure α × ByteScan)} {y : Except Failure (α × Scan)}
    (hs : s.Reaches u) (h : Agrees u n o y) : Agrees s n o y := by
  cases h with
  | ok a h => exact .ok a (hs.trans h)
  | fault cause h => exact .fault cause (hs.trans h)
  | other h he => exact .other (hs.trans h) he

theorem Agrees.bind {y : Except Failure (α × Scan)} {g : α × Scan → Except Failure (β × Scan)}
    (h : Agrees s n (x p) y)
    (hf : ∀ a u, y = .ok (a, u) → s.Reaches u → Agrees u n (f a ⟨u.offset, n⟩) (g (a, u))) :
    Agrees s n ((x >>= f) p) (y >>= g) := by
  generalize hx : x p = o at h
  cases h with
  | ok a h =>
    rw [bind_of_ok hx]
    exact .trans h (hf _ _ rfl h)
  | fault cause h =>
    rw [bind_of_error hx]
    exact .fault cause h
  | other h he =>
    rw [bind_of_error hx]
    exact .other h he

theorem get_bind {f : ByteScan → Step β} : ((get : Step ByteScan) >>= f) p = f p p :=
  rfl

theorem next?_of_pos {start : input.Pos} (h : input.pos? ⟨p.offset⟩ = some start) :
    next? input p = some (.ok (input.sliceFrom start).front?, p) := by
  rw [next?, get_bind, h]
  rfl

theorem next?_eq (h : (Scan.ofString input).Reaches s) :
    next? input ⟨s.offset, n⟩ = some (.ok s.next?, ⟨s.offset, n⟩) := by
  obtain ⟨start, front, hstart, hsplits⟩ := h.exists_pos
  rw [next?_of_pos hstart, String.Slice.front?_eq, hsplits.copy_sliceFrom_eq, String.toList_ofList]
  rfl

theorem skip_bind {bytes : Nat} {f : Unit → Step β} :
    (skip bytes >>= f) ⟨offset, n⟩ = f () ⟨offset + bytes, n⟩ :=
  bind_of_ok rfl

theorem skipBlanks_eq (h : (Scan.ofString input).Reaches s) (hf : s.rest.length < fuel) :
    skipBlanks input fuel ⟨s.offset, n⟩ = some (.ok (), ⟨s.skipBlanks.offset, n⟩) := by
  induction fuel generalizing s with
  | zero => exact absurd hf (Nat.not_lt_zero _)
  | succ fuel ih =>
    rw [skipBlanks, bind_of_ok (next?_eq h)]
    obtain ⟨offset, l⟩ := s
    cases l with
    | nil => rfl
    | cons c rest =>
      simp only [Scan.next?, List.head?_cons]
      by_cases hc : isBlank c = true
      · rw [if_pos hc, skip_bind, Scan.skipBlanks, Scan.dropWhile_of_pos hc]
        exact ih (h.trans (Scan.reaches_cons offset c rest)) (Nat.lt_of_succ_lt_succ hf)
      · rw [if_neg hc, Scan.skipBlanks, Scan.dropWhile_of_neg (by simpa using hc)]
        rfl

theorem skipBlanks_bind {f : Unit → Step β} (h : (Scan.ofString input).Reaches s)
    (hf : s.rest.length < fuel) :
    (skipBlanks input fuel >>= f) ⟨s.offset, n⟩ = f () ⟨s.skipBlanks.offset, n⟩ :=
  bind_of_ok (skipBlanks_eq h hf)

/-- A character of one byte is passed by moving on by one. -/
theorem skip_one_bind {f : Unit → Step β} (h : s.next? = some c) (hc : c.utf8Size = 1) :
    (skip 1 >>= f) ⟨s.offset, n⟩ = f () ⟨s.advance.offset, n⟩ := by
  rw [skip_bind, Scan.advance_offset h, hc]

theorem utf8Size_of_isWordChar (h : Scan.isWordChar c = true) : c.utf8Size = 1 := by
  have hc := (Scan.toNat_of_isWordChar h).2
  rw [Char.utf8Size_eq_one_iff, UInt32.le_iff_toNat_le]
  exact Nat.le_trans hc (by decide)

theorem skipWord_eq (h : (Scan.ofString input).Reaches s) (hf : s.rest.length < fuel) :
    skipWord input fuel ⟨s.offset, n⟩ =
      some (.ok (), ⟨(s.dropWhile Scan.isWordChar).offset, n⟩) := by
  induction fuel generalizing s with
  | zero => exact absurd hf (Nat.not_lt_zero _)
  | succ fuel ih =>
    rw [skipWord, bind_of_ok (next?_eq h)]
    obtain ⟨offset, l⟩ := s
    cases l with
    | nil => rfl
    | cons c rest =>
      simp only [Scan.next?, List.head?_cons]
      by_cases hc : Scan.isWordChar c = true
      · have hsize := utf8Size_of_isWordChar hc
        rw [if_pos hc, skip_bind, Scan.dropWhile_of_pos hc, hsize]
        exact ih (h.trans (Scan.reaches_byte offset rest hsize)) (Nat.lt_of_succ_lt_succ hf)
      · rw [if_neg hc, Scan.dropWhile_of_neg (by simpa using hc)]
        rfl

theorem cut_eq {cs : List Char} (h : (Scan.ofString input).Reaches s) (hu : s.Reaches u)
    (hcs : s.rest = cs ++ u.rest) :
    cut input s.offset u.offset p = some (.ok (String.ofList cs), p) := by
  obtain ⟨start, front, hstart, hfirst⟩ := h.exists_pos
  obtain ⟨stop, before, hstop, hlast⟩ := (h.trans hu).exists_pos
  rw [hcs, String.ofList_append] at hfirst
  have hbefore : before = front ++ String.ofList cs := by
    have hinput := hlast.eq_append.symm.trans hfirst.eq_append
    rw [← String.append_assoc] at hinput
    exact String.append_left_inj _ |>.mp hinput
  rw [hbefore] at hlast
  obtain ⟨hle, htext⟩ := String.copy_slice_eq_iff_splits.mpr ⟨front, _, hfirst, hlast⟩
  rw [cut, hstart, hstop]
  simp only [String.slice?, dif_pos hle, htext]
  rfl

/-- What comes before the rest of a list, joined to what has been read already. -/
theorem map_cons {γ : Type} {y : Except Failure (List γ × Scan)} {f g : List γ → α} {c : γ}
    (h : ∀ l, f (c :: l) = g l) :
    (fun v => (f v.1, v.2)) <$> (do
      let (l, s) ← y
      return (c :: l, s)) = (fun v => (g v.1, v.2)) <$> y := by
  obtain e | ⟨l, s⟩ := y
  · rfl
  · show Except.ok (f (c :: l), s) = Except.ok (g l, s)
    rw [h]

theorem append_ofList_cons (done : String) (c : Char) (cs : List Char) :
    done ++ String.ofList (c :: cs) = done.push c ++ String.ofList cs := by
  rw [String.ofList_cons, ← String.append_assoc, String.append_singleton]

theorem agrees_quotedText (h : (Scan.ofString input).Reaches s) (hf : s.rest.length < fuel)
    (done : String) : Agrees s n (quotedText input fuel done ⟨s.offset, n⟩)
      ((fun v => (done ++ String.ofList v.1, v.2)) <$> Scan.quotedChars s.offset s.rest) := by
  induction fuel generalizing s done with
  | zero => exact absurd hf (Nat.not_lt_zero _)
  | succ fuel ih =>
    rw [quotedText, bind_of_ok (next?_eq h)]
    obtain ⟨offset, l⟩ := s
    cases l with
    | nil => exact .fault .openQuote (.refl _)
    | cons c rest =>
      simp only [Scan.next?, List.head?_cons]
      by_cases hc : c = '"'
      · subst hc
        have hnext := Scan.reaches_byte (c := '"') offset rest rfl
        rw [if_pos rfl, skip_bind, bind_of_ok (next?_eq (h.trans hnext))]
        by_cases hq : (⟨offset + 1, rest⟩ : Scan).next? = some '"'
        · obtain ⟨tail, rfl⟩ : ∃ tail, rest = '"' :: tail := ⟨_, Scan.next?_eq_some.mp hq⟩
          have hlast := hnext.trans (Scan.reaches_byte (c := '"') _ tail rfl)
          rw [if_pos hq, skip_bind, Scan.quotedChars,
            map_cons (f := fun cs => done ++ String.ofList cs) (append_ofList_cons done '"')]
          refine .trans hlast (ih (h.trans hlast) ?_ _)
          simp only [List.length_cons] at hf ⊢
          omega
        · rw [if_neg hq, Scan.quotedChars_close hq]
          simp only [Functor.map, Except.map, String.ofList_nil, String.append_empty]
          exact .ok done hnext
      · have hnext := Scan.reaches_cons offset c rest
        rw [if_neg hc, skip_bind, Scan.quotedChars_cons hc,
          map_cons (f := fun cs => done ++ String.ofList cs) (append_ofList_cons done c)]
        exact .trans hnext (ih (h.trans hnext) (Nat.lt_of_succ_lt_succ hf) (done.push c))

theorem agrees_word (h : (Scan.ofString input).Reaches s) (hf : s.rest.length < fuel) :
    Agrees s n (word input fuel ⟨s.offset, n⟩) s.word := by
  have hblanks := s.reaches_skipBlanks
  have hstart := h.trans hblanks
  have hleft := Nat.lt_of_le_of_lt hblanks.length_le hf
  refine .trans hblanks ?_
  rw [word, skipBlanks_bind h hf, bind_of_ok (next?_eq hstart)]
  by_cases hq : s.skipBlanks.next? = some '"'
  · have hquote := s.skipBlanks.reaches_advance
    rw [if_pos hq, skip_one_bind hq rfl, Scan.word_of_quote hq]
    have htext := agrees_quotedText (n := n) (hstart.trans hquote)
      (Nat.lt_of_le_of_lt hquote.length_le hleft) ""
    simp only [String.empty_append] at htext
    exact .trans hquote (htext.bind fun text u _ _ => .ok _ (.refl u))
  · rw [if_neg hq, Scan.word_of_not_quote hq]
    have hword := Scan.reaches_dropWhile Scan.isWordChar s.skipBlanks
    have hchars : s.skipBlanks.rest = s.skipBlanks.rest.takeWhile Scan.isWordChar ++
        (s.skipBlanks.dropWhile Scan.isWordChar).rest := List.takeWhile_append_dropWhile.symm
    rw [get_bind, bind_of_ok (skipWord_eq hstart hleft), get_bind]
    dsimp only
    by_cases hnil : s.skipBlanks.rest.takeWhile Scan.isWordChar = []
    · have hstop := Scan.dropWhile_offset_eq_iff.mpr hnil
      rw [if_pos hnil, if_pos hstop, ← hstop]
      exact .fault .expectedName (.refl _)
    · rw [if_neg hnil, if_neg (mt Scan.dropWhile_offset_eq_iff.mp hnil),
        bind_of_ok (cut_eq hstart hword hchars)]
      have hlower (cs : List Char) :
          (String.ofList cs).map Char.toLower = String.ofList (cs.map Char.toLower) :=
        String.toList_inj.mp (by rw [String.toList_map, String.toList_ofList, String.toList_ofList])
      rw [hlower]
      exact .ok _ hword

end ByteScan

end CqlWire
