import CqlWire.Proofs.Resolution
import CqlWire.Text.Quoted
import CqlWire.Type.Scan

namespace CqlWire

/-- A mark between the words of a type name. -/
inductive Mark where
  | opening | closing | comma | point

def Mark.char : Mark → Char
  | opening => '<'
  | closing => '>'
  | comma => ','
  | point => '.'

/-- A token of a type name. -/
inductive Token where
  | word (w : Scan.Word)
  | mark (m : Mark)

/-- How a token is written: a word with letters in either case, a text between quotes in which each
quote stands twice, or a mark. -/
inductive Token.Spelling : Token → List Char → Prop
  | plain {cs : List Char} (nonempty : cs ≠ []) (chars : ∀ c ∈ cs, Scan.isWordChar c = true) :
    Spelling (.word ⟨String.ofList (cs.map Char.toLower), false⟩) cs
  | quoted (s : String) : Spelling (.word ⟨s, true⟩) ('"' :: (Quoted.double s.toList ++ ['"']))
  | mark (m : Mark) : Spelling (.mark m) [m.char]

/-- A text that consists of tokens, with white space before each of them and at the end. -/
inductive Spelled : List Token → List Char → Prop
  | nil {blanks : List Char} (hb : ∀ c ∈ blanks, isBlank c = true) : Spelled [] blanks
  | cons {token : Token} {tokens : List Token} {blanks cs rest : List Char}
    (hb : ∀ c ∈ blanks, isBlank c = true) (ht : token.Spelling cs) (h : Spelled tokens rest) :
    Spelled (token :: tokens) (blanks ++ (cs ++ rest))

/-- A character at which every word ends. -/
def Delimits (c : Char) : Prop :=
  Scan.isWordChar c = false ∧ c ≠ '"'

theorem Scan.toNat_of_isWordChar {c : Char} (h : Scan.isWordChar c = true) :
    48 ≤ c.toNat ∧ c.toNat ≤ 122 := by
  simp only [Scan.isWordChar, Bool.or_eq_true, Bool.and_eq_true, decide_eq_true_eq, beq_iff_eq,
    Char.le_def, UInt32.le_iff_toNat_le] at h
  rcases h with ((h | h) | h) | rfl
  · have low : 97 ≤ c.toNat := h.1
    have high : c.toNat ≤ 122 := h.2
    omega
  · have low : 65 ≤ c.toNat := h.1
    have high : c.toNat ≤ 90 := h.2
    omega
  · have low : 48 ≤ c.toNat := h.1
    have high : c.toNat ≤ 57 := h.2
    omega
  · decide

theorem delimits_of_isBlank {c : Char} (h : isBlank c = true) : Delimits c := by
  simp only [isBlank, blankRanges, List.any_cons, List.any_nil, Bool.or_eq_true, Bool.and_eq_true,
    decide_eq_true_eq, Bool.or_false] at h
  constructor
  · by_contra hw
    have bounds := Scan.toNat_of_isWordChar (by simpa using hw)
    omega
  · rintro rfl
    revert h
    decide

theorem Mark.delimits (m : Mark) : Delimits m.char := by
  cases m <;> exact ⟨by decide, by decide⟩

theorem Mark.not_isBlank (m : Mark) : isBlank m.char = false := by
  cases m <;> decide

theorem Token.Spelling.exists_cons {token : Token} {cs : List Char} (h : token.Spelling cs) :
    ∃ c rest, cs = c :: rest ∧ isBlank c = false := by
  cases h with
  | plain nonempty chars =>
    obtain ⟨c, rest, rfl⟩ := List.exists_cons_of_ne_nil nonempty
    refine ⟨c, rest, rfl, ?_⟩
    by_contra hb
    have hw := chars c List.mem_cons_self
    rw [(delimits_of_isBlank (by simpa using hb)).1] at hw
    cases hw
  | quoted s => exact ⟨_, _, rfl, by decide⟩
  | mark m => exact ⟨_, _, rfl, m.not_isBlank⟩

namespace Spelled

variable {token : Token} {tokens others : List Token} {cs ds blanks : List Char}

theorem blanks_append (hb : ∀ c ∈ blanks, isBlank c = true) (h : Spelled tokens cs) :
    Spelled tokens (blanks ++ cs) := by
  cases h with
  | nil hcs => exact .nil (List.forall_mem_append.mpr ⟨hb, hcs⟩)
  | cons hcs ht h =>
    rw [← List.append_assoc]
    exact .cons (List.forall_mem_append.mpr ⟨hb, hcs⟩) ht h

theorem append (h : Spelled tokens cs) (g : Spelled others ds) :
    Spelled (tokens ++ others) (cs ++ ds) := by
  induction h with
  | nil hb => exact g.blanks_append hb
  | cons hb ht _ ih =>
    simp only [List.append_assoc, List.cons_append]
    exact .cons hb ht ih

theorem split (h : Spelled (tokens ++ others) cs) :
    ∃ x y, cs = x ++ y ∧ Spelled tokens x ∧ Spelled others y := by
  induction tokens generalizing cs with
  | nil => exact ⟨[], cs, rfl, .nil nofun, h⟩
  | cons token tokens ih =>
    cases h with
    | cons hb ht h =>
      obtain ⟨x, y, rfl, hx, hy⟩ := ih h
      exact ⟨_, y, by simp only [List.append_assoc], .cons hb ht hx, hy⟩

theorem length_le (h : Spelled tokens cs) : tokens.length ≤ cs.length := by
  induction h with
  | nil => exact Nat.zero_le _
  | cons _ ht _ ih =>
    obtain ⟨c, rest, rfl, -⟩ := ht.exists_cons
    simp only [List.length_append, List.length_cons]
    omega

end Spelled

namespace Scan

variable {s s' t t' : Scan} {w : Word} {token : Token} {tokens others : List Token} {m : Mark}
  {c : Char} {cs rest : List Char} {offset : Nat}

/-- The text from one place to another consists of tokens. -/
def Spans (tokens : List Token) (s s' : Scan) : Prop :=
  ∃ cs, Spelled tokens cs ∧ s.rest = cs ++ s'.rest

/-- The same text follows two places, but for white space. -/
def Meets (s s' : Scan) : Prop :=
  s.skipBlanks.rest = s'.skipBlanks.rest

theorem Spans.append (h : Spans tokens s t) (g : Spans others t s') :
    Spans (tokens ++ others) s s' := by
  obtain ⟨cs, hcs, hs⟩ := h
  obtain ⟨ds, hds, ht⟩ := g
  exact ⟨cs ++ ds, hcs.append hds, by rw [hs, ht, List.append_assoc]⟩

theorem Spans.split (h : Spans (tokens ++ others) s s') :
    ∃ t, Spans tokens s t ∧ Spans others t s' := by
  obtain ⟨cs, hcs, hs⟩ := h
  obtain ⟨x, y, rfl, hx, hy⟩ := hcs.split
  exact ⟨⟨0, y ++ s'.rest⟩, ⟨x, hx, by rw [hs, List.append_assoc]⟩, y, hy, rfl⟩

theorem rest_eq_skipBlanks (s : Scan) :
    s.rest = s.rest.takeWhile isBlank ++ s.skipBlanks.rest :=
  List.takeWhile_append_dropWhile.symm

theorem isBlank_of_mem_takeWhile (s : Scan) : ∀ c ∈ s.rest.takeWhile isBlank, isBlank c = true :=
  List.all_eq_true.mp List.all_takeWhile

theorem skipBlanks_rest {blanks : List Char} (hb : ∀ c ∈ blanks, isBlank c = true)
    (h : s.rest = blanks ++ t.rest) : s.Meets t := by
  have dropped (s : Scan) : s.skipBlanks.rest = s.rest.dropWhile isBlank := rfl
  rw [Meets, dropped, dropped, h, List.dropWhile_append_of_pos hb]

theorem meets_skipBlanks (s : Scan) : s.Meets s.skipBlanks :=
  skipBlanks_rest s.isBlank_of_mem_takeWhile s.rest_eq_skipBlanks

theorem Meets.skipBlanks (h : s.Meets t) : s.skipBlanks.Meets t :=
  s.meets_skipBlanks.symm.trans h

theorem spans_skipBlanks (s : Scan) : Spans [] s s.skipBlanks :=
  ⟨_, .nil s.isBlank_of_mem_takeWhile, s.rest_eq_skipBlanks⟩

theorem meets_of_spans (h : Spans [] s s') : s.Meets s' := by
  obtain ⟨cs, hcs, hs⟩ := h
  cases hcs with
  | nil hb => exact skipBlanks_rest hb hs

theorem skipBlanks_of_not_isBlank (h : ∀ c ∈ s.next?, isBlank c = false) :
    s.skipBlanks.rest = s.rest := by
  obtain ⟨offset, l⟩ := s
  cases l with
  | nil => rfl
  | cons c rest =>
    have hc := h c rfl
    simp [skipBlanks, dropWhile, hc]

/-- Tokens start with the first one, behind white space. -/
theorem spans_cons : Spans (token :: tokens) s s' ↔
    ∃ cs t, token.Spelling cs ∧ s.skipBlanks.rest = cs ++ t.rest ∧ Spans tokens t s' := by
  constructor
  · rintro ⟨_, hcs, hs⟩
    cases hcs with
    | @cons _ _ blanks cs rest hb ht h =>
      obtain ⟨c, l, rfl, hc⟩ := ht.exists_cons
      rw [List.append_assoc, List.append_assoc] at hs
      have hmeets : s.Meets ⟨0, c :: l ++ (rest ++ s'.rest)⟩ := skipBlanks_rest hb hs
      refine ⟨c :: l, ⟨0, rest ++ s'.rest⟩, ht, ?_, rest, h, rfl⟩
      rw [hmeets, skipBlanks_of_not_isBlank]
      rintro d ⟨⟩
      exact hc
  · rintro ⟨cs, t, ht, hs, rest, h, hrest⟩
    have start := s.rest_eq_skipBlanks
    rw [hs, hrest] at start
    exact ⟨_, .cons s.isBlank_of_mem_takeWhile ht h, start.trans (by simp)⟩

theorem Meets.spans (hm : t.Meets s) (h : Spans (token :: tokens) s s') :
    Spans (token :: tokens) t s' := by
  rw [spans_cons] at h ⊢
  rw [hm]
  exact h

theorem next?_eq_some : s.next? = some c ↔ s.rest = c :: s.advance.rest := by
  obtain ⟨offset, l⟩ := s
  cases l <;> simp [next?, advance, eq_comm]

theorem spans_of_next (h : s.skipBlanks.next? = some m.char) :
    Spans [.mark m] s s.skipBlanks.advance :=
  spans_cons.mpr ⟨_, _, .mark m, next?_eq_some.mp h, [], .nil nofun, rfl⟩

theorem mark_of_spans (h : Spans (.mark m :: tokens) s s') :
    s.skipBlanks.next? = some m.char ∧ Spans tokens s.skipBlanks.advance s' := by
  obtain ⟨cs, t, hm, hs, cs', hcs', ht⟩ := spans_cons.mp h
  cases hm
  have hnext : s.skipBlanks.next? = some m.char := by
    rw [next?, hs]
    rfl
  have hrest : t.rest = s.skipBlanks.advance.rest :=
    List.tail_eq_of_cons_eq (hs.symm.trans (next?_eq_some.mp hnext))
  exact ⟨hnext, cs', hcs', hrest.symm.trans ht⟩

theorem expect_eq_ok {want : Char} (h : s.expect want = .ok s') :
    s.skipBlanks.next? = some want ∧ s' = s.skipBlanks.advance := by
  unfold expect at h
  dsimp only at h
  split at h
  next hnext =>
    cases h
    exact ⟨hnext, rfl⟩
  next => cases h

theorem quotedChars_close (h : rest.head? ≠ some '"') :
    quotedChars offset ('"' :: rest) = .ok ([], ⟨offset + 1, rest⟩) := by
  rw [quotedChars, if_pos rfl]
  rintro l - rfl
  exact h rfl

theorem quotedChars_cons (h : c ≠ '"') :
    quotedChars offset (c :: rest) = (do
      let (cs, s) ← quotedChars (offset + c.utf8Size) rest
      return (c :: cs, s)) := by
  rw [quotedChars, if_neg h]
  rintro l rfl
  exact absurd rfl h

/-- The text up to the closing quote has each quote twice. -/
theorem eq_double_of_quotedChars (h : quotedChars offset rest = .ok (cs, s')) :
    rest = Quoted.double cs ++ '"' :: s'.rest := by
  induction offset, rest using quotedChars.induct generalizing cs with
  | case1 offset => cases h
  | case2 offset rest ih =>
    obtain ⟨⟨ds, t⟩, hds, h⟩ := bind_eq_ok.mp h
    cases h
    rw [ih hds]
    rfl
  | case3 offset rest hrest =>
    have hne : rest.head? ≠ some '"' := by
      cases rest with
      | nil => nofun
      | cons c rest =>
        rintro ⟨⟩
        exact hrest rest rfl rfl
    rw [quotedChars_close hne] at h
    cases h
    rfl
  | case4 offset c rest _ hc ih =>
    rw [quotedChars_cons hc] at h
    obtain ⟨⟨ds, t⟩, hds, h⟩ := bind_eq_ok.mp h
    cases h
    rw [ih hds, Quoted.double, if_neg hc]
    rfl

theorem exists_quotedChars (cs : List Char) (h : rest.head? ≠ some '"') (offset : Nat) :
    ∃ n, quotedChars offset (Quoted.double cs ++ '"' :: rest) = .ok (cs, ⟨n, rest⟩) := by
  induction cs generalizing offset with
  | nil => exact ⟨_, quotedChars_close h⟩
  | cons c cs ih =>
    rw [Quoted.double]
    by_cases hc : c = '"'
    · obtain ⟨n, hn⟩ := ih (offset + 2)
      refine ⟨n, ?_⟩
      rw [if_pos hc, hc]
      exact bind_eq_ok.mpr ⟨_, hn, rfl⟩
    · obtain ⟨n, hn⟩ := ih (offset + c.utf8Size)
      refine ⟨n, ?_⟩
      rw [if_neg hc, List.cons_append, quotedChars_cons hc]
      exact bind_eq_ok.mpr ⟨_, hn, rfl⟩

theorem spans_of_word (h : s.word = .ok (w, s')) : Spans [.word w] s s' := by
  unfold word at h
  dsimp only at h
  split at h
  next rest hrest =>
    obtain ⟨⟨cs, t⟩, hcs, h⟩ := bind_eq_ok.mp h
    cases h
    refine spans_cons.mpr ⟨_, t, .quoted _, ?_, [], .nil nofun, rfl⟩
    rw [hrest, eq_double_of_quotedChars hcs]
    simp
  next =>
    split at h
    next => cases h
    next hne =>
      cases h
      have chars := List.all_eq_true.mp (List.all_takeWhile (p := isWordChar) (l := s.skipBlanks.rest))
      refine spans_cons.mpr ⟨_, _, .plain hne chars, ?_, [], .nil nofun, rfl⟩
      exact List.takeWhile_append_dropWhile.symm

/-- A word is read up to a character at which it ends. -/
theorem exists_word (hw : Token.Spelling (.word w) cs) (hs : s.skipBlanks.rest = cs ++ rest)
    (hd : ∀ c ∈ rest.head?, Delimits c) : ∃ t, s.word = .ok (w, t) ∧ t.rest = rest := by
  unfold word
  dsimp only
  cases hw with
  | quoted text =>
    have hq : s.skipBlanks.rest = '"' :: (Quoted.double text.toList ++ '"' :: rest) := by
      rw [hs]
      simp
    have hne : rest.head? ≠ some '"' := fun h => (hd '"' h).2 rfl
    obtain ⟨n, hn⟩ := exists_quotedChars text.toList hne (s.skipBlanks.offset + 1)
    refine ⟨⟨n, rest⟩, ?_, rfl⟩
    simp only [hq, hn]
    simp [bind, Except.bind, pure, Except.pure]
  | plain nonempty chars =>
    have hstop : rest.takeWhile isWordChar = [] ∧ rest.dropWhile isWordChar = rest := by
      cases rest with
      | nil => exact ⟨rfl, rfl⟩
      | cons d rest =>
        have hw := (hd d rfl).1
        exact ⟨by simp [hw], by simp [hw]⟩
    have hfront : s.skipBlanks.rest.takeWhile isWordChar = cs := by
      rw [hs, List.takeWhile_append_of_pos chars, hstop.1, List.append_nil]
    have hback : s.skipBlanks.rest.dropWhile isWordChar = rest := by
      rw [hs, List.dropWhile_append_of_pos chars, hstop.2]
    refine ⟨s.skipBlanks.dropWhile isWordChar, ?_, hback⟩
    split
    next tail htail =>
      exfalso
      rw [htail, List.takeWhile_cons] at hfront
      exact nonempty hfront.symm
    next =>
      split
      next hnil => exact absurd (hfront.symm.trans hnil) nonempty
      next => rw [hfront]

theorem word_of_spans (h : Spans (.word w :: tokens) s s')
    (hd : ∀ t, Spans tokens t s' → ∀ c ∈ t.next?, Delimits c) :
    ∃ t, s.word = .ok (w, t) ∧ Spans tokens t s' := by
  obtain ⟨cs, t, hw, hs, cs', hcs', ht⟩ := spans_cons.mp h
  obtain ⟨u, hu, hrest⟩ := exists_word hw hs (hd t ⟨cs', hcs', ht⟩)
  exact ⟨u, hu, cs', hcs', hrest.trans ht⟩

theorem delimits_of_skipBlanks (h : ∀ c ∈ s.skipBlanks.next?, Delimits c) :
    ∀ c ∈ s.next?, Delimits c := by
  intro c hc
  by_cases hb : isBlank c = true
  · exact delimits_of_isBlank hb
  · refine h c ?_
    rw [next?, skipBlanks_of_not_isBlank]
    · exact hc
    · rintro d hd
      cases Option.mem_unique hc hd
      simpa using hb

theorem delimits_of_mark (h : Spans (.mark m :: tokens) s s') : ∀ c ∈ s.next?, Delimits c := by
  apply delimits_of_skipBlanks
  rw [(mark_of_spans h).1]
  rintro c ⟨⟩
  exact m.delimits

/-- The end of an argument follows, or the end of the text. -/
def Closes (s : Scan) : Prop :=
  ∀ c ∈ s.skipBlanks.next?, c = Mark.comma.char ∨ c = Mark.closing.char

theorem closes_of_mark (h : Spans (.mark m :: tokens) s s') (hm : m = .comma ∨ m = .closing) :
    s.Closes := by
  intro c hc
  rw [(mark_of_spans h).1] at hc
  cases hc
  exact hm.imp (congrArg Mark.char) (congrArg Mark.char)

theorem Closes.of_meets (h : s.Closes) (hm : t.Meets s) : t.Closes := by
  rw [Closes, next?, hm]
  exact h

theorem Closes.next?_ne_point (h : s.Closes) : s.skipBlanks.next? ≠ some '.' := by
  intro hpoint
  rcases h _ hpoint with hc | hc
  · exact absurd hc (by decide)
  · exact absurd hc (by decide)

theorem Closes.delimits (h : s.Closes) : ∀ c ∈ s.next?, Delimits c := by
  apply delimits_of_skipBlanks
  intro c hc
  rcases h c hc with rfl | rfl
  · exact Mark.comma.delimits
  · exact Mark.closing.delimits

end Scan

end CqlWire
