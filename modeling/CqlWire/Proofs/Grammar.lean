import CqlWire.Proofs.Reading
import CqlWire.Proofs.Tokens

namespace CqlWire

/-- A word before a bracketed list. -/
def bracketed (word : String) (arguments : List Token) : List Token :=
  .word ⟨word, false⟩ :: .mark .opening :: (arguments ++ [.mark .closing])

mutual

/-- The tokens that name a type, with at most `levels` brackets open at once. -/
inductive Derives (r : Registry) (keyspace : String) : (levels : Nat) → List Token → DataType → Prop
  | leaf {levels : Nat} {kind : Kind} {word : String} (h : kind.Named word) :
    Derives r keyspace levels [.word ⟨word, false⟩] (.leaf kind)
  | list {levels : Nat} {tokens : List Token} {t : DataType} (h : Derives r keyspace levels tokens t) :
    Derives r keyspace (levels + 1) (bracketed "list" tokens) (.list t)
  | set {levels : Nat} {tokens : List Token} {t : DataType} (h : Derives r keyspace levels tokens t) :
    Derives r keyspace (levels + 1) (bracketed "set" tokens) (.set t)
  | frozen {levels : Nat} {tokens : List Token} {t : DataType}
    (h : Derives r keyspace levels tokens t) :
    Derives r keyspace (levels + 1) (bracketed "frozen" tokens) t.freeze
  | map {levels : Nat} {tokens others : List Token} {k v : DataType}
    (hk : Derives r keyspace levels tokens k) (hv : Derives r keyspace levels others v) :
    Derives r keyspace (levels + 1) (bracketed "map" (tokens ++ .mark .comma :: others)) (.map k v)
  | tuple {levels : Nat} {tokens : List Token} {ts : List DataType}
    (h : DerivesEach r keyspace levels tokens ts) :
    Derives r keyspace (levels + 1) (bracketed "tuple" tokens) (.tuple ts)
  | named {levels : Nat} {w : Scan.Word} {udt : Udt}
    (hw : w.quoted = true ∨ w.text ∉ bracketWords ∧ w.text ∉ leafWords)
    (h : r.lookup keyspace w.text = .ok udt) : Derives r keyspace levels [.word w] udt.type
  | qualified {levels : Nat} {w v : Scan.Word} {udt : Udt}
    (hw : w.quoted = true ∨ w.text ∉ bracketWords) (h : r.lookup w.text v.text = .ok udt) :
    Derives r keyspace levels [.word w, .mark .point, .word v] udt.type

/-- The tokens that name types, with commas between them. -/
inductive DerivesEach (r : Registry) (keyspace : String) :
    (levels : Nat) → List Token → List DataType → Prop
  | one {levels : Nat} {tokens : List Token} {t : DataType} (h : Derives r keyspace levels tokens t) :
    DerivesEach r keyspace levels tokens [t]
  | cons {levels : Nat} {tokens others : List Token} {t : DataType} {ts : List DataType}
    (h : Derives r keyspace levels tokens t) (hs : DerivesEach r keyspace levels others ts) :
    DerivesEach r keyspace levels (tokens ++ .mark .comma :: others) (t :: ts)

end

namespace DataType

open Scan (Word Spans)

variable {r : Registry} {keyspace input : String} {levels limit : Nat} {t k v : DataType}
  {ts : List DataType} {s s' u : Scan} {w : Word} {tokens others : List Token}
  {read : NameReader} {inner? : Option NameReader}

section Soundness

/-- What a reader gives is named by the tokens it reads. -/
def ReadsNames (P : List Token → DataType → Prop) (read : NameReader) : Prop :=
  ∀ {s t s'}, read s = .ok (t, s') → ∃ tokens, Spans tokens s s' ∧ P tokens t

/-- The reader of arguments, if there is one, has one level less. -/
def ReadsBelow (r : Registry) (keyspace : String) (levels : Nat) (inner? : Option NameReader) : Prop :=
  ∀ read ∈ inner?, ∃ below, levels = below + 1 ∧ ReadsNames (Derives r keyspace below) read

theorem derivesEach_of_readArguments (hread : ReadsNames (Derives r keyspace levels) read)
    (h : readArguments read limit s = .ok (ts, s')) :
    ∃ tokens, Spans (tokens ++ [.mark .closing]) s s' ∧ DerivesEach r keyspace levels tokens ts := by
  induction limit generalizing s ts s' with
  | zero => cases h
  | succ limit ih =>
    obtain ⟨⟨t, u⟩, ht, h⟩ := bind_eq_ok.mp h
    obtain ⟨tokens, hspans, hderives⟩ := hread ht
    dsimp only at h
    split at h
    next hcomma =>
      obtain ⟨⟨us, last⟩, hus, h⟩ := bind_eq_ok.mp h
      cases h
      obtain ⟨others, hothers, heach⟩ := ih hus
      have comma : Spans [.mark .comma] u u.skipBlanks.advance := Scan.spans_of_next hcomma
      refine ⟨tokens ++ .mark .comma :: others, ?_, .cons hderives heach⟩
      simpa using hspans.append (comma.append hothers)
    next =>
      split at h
      next hclosing =>
        cases h
        exact ⟨tokens, hspans.append (Scan.spans_of_next hclosing), .one hderives⟩
      next => cases h

theorem derivesEach_of_readBracketed (hread : ReadsBelow r keyspace levels inner?)
    (h : readBracketed inner? s = .ok (ts, s')) :
    ∃ below tokens, levels = below + 1 ∧ DerivesEach r keyspace below tokens ts ∧
      Spans (.mark .opening :: (tokens ++ [.mark .closing])) s s' := by
  obtain ⟨u, hu, h⟩ := bind_eq_ok.mp h
  obtain ⟨hnext, rfl⟩ := Scan.expect_eq_ok hu
  cases inner? with
  | none => cases h
  | some read =>
    obtain ⟨below, hlevels, hread⟩ := hread read rfl
    obtain ⟨tokens, hspans, heach⟩ := derivesEach_of_readArguments hread h
    have opening : Spans [.mark .opening] s s.skipBlanks.advance := Scan.spans_of_next hnext
    exact ⟨below, tokens, hlevels, heach, opening.append hspans⟩

theorem derives_of_readOne (hread : ReadsBelow r keyspace levels inner?)
    (h : readOne inner? s = .ok (t, s')) :
    ∃ below tokens, levels = below + 1 ∧ Derives r keyspace below tokens t ∧
      Spans (.mark .opening :: (tokens ++ [.mark .closing])) s s' := by
  obtain ⟨⟨ts, u⟩, hts, h⟩ := bind_eq_ok.mp h
  obtain ⟨below, tokens, hlevels, heach, hspans⟩ := derivesEach_of_readBracketed hread hts
  split at h
  next e last heq =>
    cases heq
    cases h
    -- One type is read, so there is no comma between the brackets.
    cases heach with
    | one h => exact ⟨below, tokens, hlevels, h, hspans⟩
    | cons _ hs => cases hs
  next => cases h

theorem derives_of_readTwo (hread : ReadsBelow r keyspace levels inner?)
    (h : readTwo inner? s = .ok ((k, v), s')) :
    ∃ below tokens others, levels = below + 1 ∧ Derives r keyspace below tokens k ∧
      Derives r keyspace below others v ∧
      Spans (.mark .opening :: ((tokens ++ .mark .comma :: others) ++ [.mark .closing])) s s' := by
  obtain ⟨⟨ts, u⟩, hts, h⟩ := bind_eq_ok.mp h
  obtain ⟨below, tokens, hlevels, heach, hspans⟩ := derivesEach_of_readBracketed hread hts
  split at h
  next e f last heq =>
    cases heq
    cases h
    cases heach with
    | cons hk hs =>
      cases hs with
      | one hv => exact ⟨below, _, _, hlevels, hk, hv, hspans⟩
      | cons _ hs => cases hs
  next => cases h

theorem derives_of_readNamed (hspans : Spans [.word w] s u)
    (hw : w.quoted = true ∨ w.text ∉ bracketWords)
    (hleaf : u.skipBlanks.next? ≠ some '.' → w.quoted = true ∨ w.text ∉ leafWords)
    (h : readNamed r keyspace w u = .ok (t, s')) :
    ∃ tokens, Spans tokens s s' ∧ Derives r keyspace levels tokens t := by
  by_cases hpoint : u.skipBlanks.next? = some '.'
  · rw [readNamed_qualified hpoint] at h
    obtain ⟨⟨v, last⟩, hv, h⟩ := bind_eq_ok.mp h
    obtain ⟨ht, rfl⟩ := looked_eq_ok.mp h
    obtain ⟨udt, hu, rfl⟩ := map_eq_ok.mp ht
    have point : Spans [.mark .point] u u.skipBlanks.advance := Scan.spans_of_next hpoint
    exact ⟨_, hspans.append (point.append (Scan.spans_of_word hv)), .qualified hw hu⟩
  · rw [readNamed_plain hpoint] at h
    obtain ⟨ht, rfl⟩ := looked_eq_ok.mp h
    obtain ⟨udt, hu, rfl⟩ := map_eq_ok.mp ht
    refine ⟨_, hspans.append u.spans_skipBlanks, .named ?_ hu⟩
    rcases hw with hq | hw
    · exact .inl hq
    · exact (hleaf hpoint).imp_right fun hl => ⟨hw, hl⟩

theorem readsNames_readWith (hread : ReadsBelow r keyspace levels inner?) :
    ReadsNames (Derives r keyspace levels) (readWith r keyspace inner?) := by
  intro s t s' h
  obtain ⟨⟨w, u⟩, hw, -⟩ := bind_eq_ok.mp h
  have first := Scan.spans_of_word hw
  cases leads w with
  | quoted name =>
    rw [readWith_quoted hw rfl] at h
    exact derives_of_readNamed first (.inl rfl) (fun _ => .inl rfl) h
  | list =>
    rw [readWith_list hw] at h
    obtain ⟨⟨e, last⟩, he, h⟩ := bind_eq_ok.mp h
    obtain ⟨below, tokens, rfl, hderives, hspans⟩ := derives_of_readOne hread he
    cases h
    exact ⟨_, first.append hspans, .list hderives⟩
  | set =>
    rw [readWith_set hw] at h
    obtain ⟨⟨e, last⟩, he, h⟩ := bind_eq_ok.mp h
    obtain ⟨below, tokens, rfl, hderives, hspans⟩ := derives_of_readOne hread he
    cases h
    exact ⟨_, first.append hspans, .set hderives⟩
  | map =>
    rw [readWith_map hw] at h
    obtain ⟨⟨⟨k, v⟩, last⟩, hkv, h⟩ := bind_eq_ok.mp h
    obtain ⟨below, tokens, others, rfl, hk, hv, hspans⟩ := derives_of_readTwo hread hkv
    cases h
    exact ⟨_, first.append hspans, .map hk hv⟩
  | frozen =>
    rw [readWith_frozen hw] at h
    obtain ⟨⟨e, last⟩, he, h⟩ := bind_eq_ok.mp h
    obtain ⟨below, tokens, rfl, hderives, hspans⟩ := derives_of_readOne hread he
    cases h
    exact ⟨_, first.append hspans, .frozen hderives⟩
  | tuple =>
    rw [readWith_tuple hw] at h
    obtain ⟨⟨ts, last⟩, hts, h⟩ := bind_eq_ok.mp h
    obtain ⟨below, tokens, rfl, heach, hspans⟩ := derivesEach_of_readBracketed hread hts
    cases h
    exact ⟨_, first.append hspans, .tuple heach⟩
  | plain hn =>
    rw [readWith_plain hw rfl hn] at h
    split at h
    next hpoint => exact derives_of_readNamed first (.inr hn) (fun hne => absurd hpoint hne) h
    next hpoint =>
      split at h
      next kind hkind =>
        cases h
        exact ⟨_, first.append u.spans_skipBlanks, .leaf (Kind.ofWord_eq_known.mp hkind)⟩
      next => cases h
      next hother =>
        have hleaf := Kind.ofWord_eq_other.mp hother
        exact derives_of_readNamed first (.inr hn) (fun _ => .inr hleaf) h

theorem readsNames_readWithin (r : Registry) (keyspace : String) (levels : Nat) :
    ReadsNames (Derives r keyspace levels) (readWithin r keyspace levels) := by
  induction levels with
  | zero =>
    refine readsNames_readWith fun read hread => ?_
    cases hread
  | succ levels ih =>
    refine readsNames_readWith fun read hread => ?_
    cases hread
    exact ⟨levels, rfl, ih⟩

end Soundness

section Completeness

/-- A reader takes tokens, up to the end of an argument, for a type. -/
def Accepts (read : NameReader) (tokens : List Token) (t : DataType) : Prop :=
  ∀ {s s'}, Spans tokens s s' → s'.Closes → ∃ u, read s = .ok (t, u) ∧ u.Meets s'

/-- The same for types with commas between them, up to the closing bracket. -/
def AcceptsEach (read : NameReader) (tokens : List Token) (ts : List DataType) : Prop :=
  ts.length ≤ tokens.length + 1 ∧ ∀ {limit s s'}, ts.length ≤ limit →
    Spans (tokens ++ [.mark .closing]) s s' → ∃ u, readArguments read limit s = .ok (ts, u) ∧ u.Meets s'

theorem AcceptsEach.one (h : Accepts read tokens t) : AcceptsEach read tokens [t] := by
  refine ⟨Nat.le_add_left _ _, fun {limit s s'} hl hspans => ?_⟩
  obtain ⟨limit, rfl⟩ := Nat.exists_eq_add_of_le' hl
  obtain ⟨mid, hfirst, hclosing⟩ := hspans.split
  obtain ⟨u, hu, hmeets⟩ := h hfirst (Scan.closes_of_mark hclosing (.inr rfl))
  obtain ⟨hnext, hrest⟩ := Scan.mark_of_spans (hmeets.spans hclosing)
  refine ⟨u.skipBlanks.advance, ?_, Scan.meets_of_spans hrest⟩
  have hcomma : u.skipBlanks.next? ≠ some ',' := by
    rw [hnext]
    decide
  simp only [List.length_singleton, readArguments, hu, bind, Except.bind, if_neg hcomma]
  exact if_pos hnext

theorem AcceptsEach.cons (h : Accepts read tokens t) (hs : AcceptsEach read others ts) :
    AcceptsEach read (tokens ++ .mark .comma :: others) (t :: ts) := by
  obtain ⟨hlength, hs⟩ := hs
  constructor
  · simp only [List.length_cons, List.length_append]
    omega
  intro limit s s' hl hspans
  obtain ⟨limit, rfl⟩ := Nat.exists_eq_add_of_le' (Nat.le_trans (Nat.le_add_left 1 _) hl)
  rw [List.append_assoc] at hspans
  obtain ⟨mid, hfirst, hcomma⟩ := hspans.split
  obtain ⟨u, hu, hmeets⟩ := h hfirst (Scan.closes_of_mark hcomma (.inl rfl))
  obtain ⟨hnext, hrest⟩ := Scan.mark_of_spans (hmeets.spans hcomma)
  obtain ⟨last, hlast, hend⟩ := hs (Nat.le_of_succ_le_succ hl) hrest
  refine ⟨last, ?_, hend⟩
  have hnext : u.skipBlanks.next? = some ',' := hnext
  simp only [readArguments, hu, bind, Except.bind]
  rw [if_pos hnext, hlast]
  rfl

theorem exists_readBracketed (h : AcceptsEach read tokens ts)
    (hspans : Spans (.mark .opening :: (tokens ++ [.mark .closing])) s s') :
    ∃ u, readBracketed (some read) s = .ok (ts, u) ∧ u.Meets s' := by
  obtain ⟨hnext, hrest⟩ := Scan.mark_of_spans hspans
  have hopen : s.expect '<' = .ok s.skipBlanks.advance := if_pos hnext
  -- The reader gives up after as many arguments as characters are left.
  have hlimit : ts.length ≤ s.skipBlanks.advance.rest.length + 1 := by
    obtain ⟨cs, hcs, hs⟩ := hrest
    have hcount := hcs.length_le
    have hlength := h.1
    simp only [List.length_append, List.length_singleton] at hcount
    rw [hs, List.length_append]
    omega
  obtain ⟨u, hu, hmeets⟩ := h.2 hlimit hrest
  refine ⟨u, ?_, hmeets⟩
  simp only [readBracketed, hopen, bind, Except.bind]
  exact hu

theorem exists_readOne (h : Accepts read tokens t)
    (hspans : Spans (.mark .opening :: (tokens ++ [.mark .closing])) s s') :
    ∃ u, readOne (some read) s = .ok (t, u) ∧ u.Meets s' := by
  obtain ⟨u, hu, hmeets⟩ := exists_readBracketed (.one h) hspans
  refine ⟨u, ?_, hmeets⟩
  rw [readOne, hu]
  rfl

/-- The word before a bracketed list. -/
theorem bracketed_of_spans {word : String} (h : Spans (bracketed word tokens) s s') :
    ∃ u, s.word = .ok (⟨word, false⟩, u) ∧
      Spans (.mark .opening :: (tokens ++ [.mark .closing])) u s' :=
  Scan.word_of_spans h fun _ hopen => Scan.delimits_of_mark hopen

/-- A word at the end of an argument. -/
theorem exists_word_of_spans (h : Spans [.word w] s s') (hc : s'.Closes) :
    ∃ u, s.word = .ok (w, u) ∧ u.Meets s' := by
  obtain ⟨u, hu, hrest⟩ := Scan.word_of_spans h fun _ hblank =>
    (hc.of_meets (Scan.meets_of_spans hblank)).delimits
  exact ⟨u, hu, Scan.meets_of_spans hrest⟩

theorem accepts_leaf {kind : Kind} {word : String} (h : kind.Named word) :
    Accepts (readWith r keyspace inner?) [.word ⟨word, false⟩] (.leaf kind) := by
  intro s s' hspans hc
  obtain ⟨u, hu, hmeets⟩ := exists_word_of_spans hspans hc
  have hpoint := (hc.of_meets hmeets).next?_ne_point
  refine ⟨u.skipBlanks, ?_, hmeets.skipBlanks⟩
  rw [readWith_plain hu rfl h.not_mem, if_neg hpoint, Kind.ofWord_eq_known.mpr h]

theorem accepts_named {udt : Udt} (hw : w.quoted = true ∨ w.text ∉ bracketWords ∧ w.text ∉ leafWords)
    (h : r.lookup keyspace w.text = .ok udt) :
    Accepts (readWith r keyspace inner?) [.word w] udt.type := by
  intro s s' hspans hc
  obtain ⟨u, hu, hmeets⟩ := exists_word_of_spans hspans hc
  have hpoint := (hc.of_meets hmeets).next?_ne_point
  refine ⟨u.skipBlanks, ?_, hmeets.skipBlanks⟩
  have hfound : r.types keyspace w.text = .ok udt.type := map_eq_ok.mpr ⟨udt, h, rfl⟩
  rw [readWith_named hu hw hpoint, readNamed_plain hpoint, hfound]
  rfl

theorem accepts_qualified {v : Word} {udt : Udt} (hw : w.quoted = true ∨ w.text ∉ bracketWords)
    (h : r.lookup w.text v.text = .ok udt) :
    Accepts (readWith r keyspace inner?) [.word w, .mark .point, .word v] udt.type := by
  intro s s' hspans hc
  obtain ⟨u, hu, hrest⟩ := Scan.word_of_spans hspans fun _ hpoint => Scan.delimits_of_mark hpoint
  obtain ⟨hpoint, hrest⟩ := Scan.mark_of_spans hrest
  obtain ⟨last, hlast, hmeets⟩ := exists_word_of_spans hrest hc
  refine ⟨last, ?_, hmeets⟩
  have hfound : r.types w.text v.text = .ok udt.type := map_eq_ok.mpr ⟨udt, h, rfl⟩
  rw [readWith_qualified hu hw hpoint, readNamed_qualified hpoint, hlast]
  simp only [bind, Except.bind, hfound]
  rfl

theorem readWithin_eq (r : Registry) (keyspace : String) (levels : Nat) :
    ∃ inner?, readWithin r keyspace levels = readWith r keyspace inner? := by
  cases levels with
  | zero => exact ⟨none, rfl⟩
  | succ levels => exact ⟨some (readWithin r keyspace levels), rfl⟩

/-- The reader takes what is derived, with as many brackets open as it may read. -/
theorem accepts_of_derives (h : Derives r keyspace levels tokens t) :
    Accepts (readWithin r keyspace levels) tokens t := by
  refine @Derives.rec r keyspace
    (fun levels tokens t _ => Accepts (readWithin r keyspace levels) tokens t)
    (fun levels tokens ts _ => AcceptsEach (readWithin r keyspace levels) tokens ts)
    ?leaf ?list ?set ?frozen ?map ?tuple ?named ?qualified ?one ?cons levels tokens t h
  case leaf =>
    intro levels kind word hword
    obtain ⟨inner?, heq⟩ := readWithin_eq r keyspace levels
    rw [heq]
    exact accepts_leaf hword
  -- These types end with a bracket of their own, so that it does not matter what follows.
  case list =>
    intro levels tokens t _ ih s s' hspans _
    obtain ⟨u, hu, hrest⟩ := bracketed_of_spans hspans
    obtain ⟨last, hlast, hmeets⟩ := exists_readOne ih hrest
    refine ⟨last, ?_, hmeets⟩
    rw [readWithin, readWith_list hu, hlast]
    rfl
  case set =>
    intro levels tokens t _ ih s s' hspans _
    obtain ⟨u, hu, hrest⟩ := bracketed_of_spans hspans
    obtain ⟨last, hlast, hmeets⟩ := exists_readOne ih hrest
    refine ⟨last, ?_, hmeets⟩
    rw [readWithin, readWith_set hu, hlast]
    rfl
  case frozen =>
    intro levels tokens t _ ih s s' hspans _
    obtain ⟨u, hu, hrest⟩ := bracketed_of_spans hspans
    obtain ⟨last, hlast, hmeets⟩ := exists_readOne ih hrest
    refine ⟨last, ?_, hmeets⟩
    rw [readWithin, readWith_frozen hu, hlast]
    rfl
  case map =>
    intro levels tokens others k v _ _ ihk ihv s s' hspans _
    obtain ⟨u, hu, hrest⟩ := bracketed_of_spans hspans
    obtain ⟨last, hlast, hmeets⟩ := exists_readBracketed (.cons ihk (.one ihv)) hrest
    refine ⟨last, ?_, hmeets⟩
    rw [readWithin, readWith_map hu, readTwo, hlast]
    rfl
  case tuple =>
    intro levels tokens ts _ ih s s' hspans _
    obtain ⟨u, hu, hrest⟩ := bracketed_of_spans hspans
    obtain ⟨last, hlast, hmeets⟩ := exists_readBracketed ih hrest
    refine ⟨last, ?_, hmeets⟩
    rw [readWithin, readWith_tuple hu, hlast]
    rfl
  case named =>
    intro levels w udt hw hfound
    obtain ⟨inner?, heq⟩ := readWithin_eq r keyspace levels
    rw [heq]
    exact accepts_named hw hfound
  case qualified =>
    intro levels w v udt hw hfound
    obtain ⟨inner?, heq⟩ := readWithin_eq r keyspace levels
    rw [heq]
    exact accepts_qualified hw hfound
  -- The lists of arguments are the other half of the mutual relation.
  case one => exact fun _ ih => .one ih
  case cons => exact fun _ _ ih ihs => .cons ih ihs

end Completeness

theorem derives_of_parse (h : parse r keyspace input = .ok t) :
    ∃ tokens, Spelled tokens input.toList ∧ Derives r keyspace nestingLimit tokens t := by
  unfold parse at h
  dsimp only at h
  split at h
  next o ho =>
    cases h
    obtain ⟨⟨v, s⟩, hv, ho⟩ := bind_eq_ok.mp ho
    obtain ⟨tokens, hspans, hderives⟩ := readsNames_readWithin r keyspace _ hv
    dsimp only at ho
    split at ho
    next hend =>
      cases ho
      obtain ⟨cs, hcs, hrest⟩ := hspans.append s.spans_skipBlanks
      rw [hend, List.append_nil] at hrest
      rw [List.append_nil] at hcs
      have htext : input.toList = cs := hrest
      exact ⟨tokens, htext ▸ hcs, hderives⟩
    next => cases ho
  next => cases h
  next => cases h

theorem parse_of_derives (hs : Spelled tokens input.toList)
    (h : Derives r keyspace nestingLimit tokens t) : parse r keyspace input = .ok t := by
  have whole : Spans tokens (.ofString input) ⟨0, []⟩ := ⟨_, hs, (List.append_nil _).symm⟩
  -- Nothing follows the last token, so that it closes like an argument.
  obtain ⟨u, hu, hmeets⟩ := accepts_of_derives h whole nofun
  have hend : u.skipBlanks.rest = [] := hmeets
  unfold parse
  simp only [hu, bind, Except.bind, hend, if_true]
  rfl

/-- The parser accepts its grammar, with at most 64 brackets open at once, and nothing else. -/
theorem parse_eq_ok_iff (r : Registry) (keyspace input : String) (t : DataType) :
    parse r keyspace input = .ok t ↔
      ∃ tokens, Spelled tokens input.toList ∧ Derives r keyspace nestingLimit tokens t :=
  ⟨derives_of_parse, fun ⟨_, hs, h⟩ => parse_of_derives hs h⟩

end DataType

end CqlWire
