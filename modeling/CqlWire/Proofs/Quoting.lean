import CqlWire.Proofs.Printing

namespace CqlWire

/-- The quoting rule leaves the words of the grammar as they are. -/
theorem Quoted.isPlain_of_mem {word : String} (h : word ∈ bracketWords ∨ word ∈ leafWords) :
    isPlain word.toList = true := by
  have plain : ∀ w ∈ bracketWords ++ leafWords, isPlain w.toList = true := by decide
  exact plain word (List.mem_append.mpr h)

theorem Kind.Named.mem_leafWords {kind : Kind} {word : String} (h : kind.Named word) :
    word ∈ leafWords := by
  cases h with
  | name => simp [leafWords, Kind.mem_all]
  | varchar => decide

theorem Kind.ofWord_eq_unsupported {word : String} (h : word = "counter" ∨ word = "duration") :
    ofWord word = .unsupported word := by
  rcases h with rfl | rfl <;> rfl

theorem Kind.named_or_unsupported {word : String} (h : word ∈ leafWords) :
    (∃ kind : Kind, kind.Named word) ∨ word = "counter" ∨ word = "duration" := by
  simp only [leafWords, List.mem_cons, List.mem_map] at h
  rcases h with rfl | hc | hd | ⟨kind, -, rfl⟩
  · exact .inl ⟨.text, .varchar⟩
  · exact .inr (.inl hc)
  · exact .inr (.inr hd)
  · exact .inl ⟨kind, .name kind⟩

theorem Token.ofIdentifier_of_isPlain {word : String} (h : Quoted.isPlain word.toList = true) :
    ofIdentifier word = .word ⟨word, false⟩ := by
  rw [ofIdentifier, h]
  rfl

section Words

variable {w : Scan.Word} {tokens : List Token} {t : DataType}

theorem Token.word_mem_listed {parts : List (List Token)} :
    .word w ∈ listed parts ↔ ∃ tokens ∈ parts, .word w ∈ tokens := by
  induction parts with
  | nil => simp [listed]
  | cons tokens parts ih =>
    cases parts with
    | nil => simp [listed]
    | cons next rest => simp [listed, ih]

/-- A word that is none of the grammar. -/
def Scan.Word.Own (w : Scan.Word) : Prop :=
  w.quoted = true ∨ w.text ∉ bracketWords ∧ w.text ∉ leafWords

theorem Scan.Word.Own.ne {word : String} (hw : w.Own) (h : word ∈ bracketWords ∨ word ∈ leafWords) :
    w ≠ ⟨word, false⟩ := by
  rintro rfl
  rcases hw with hq | ⟨hb, hl⟩
  · cases hq
  · exact h.elim hb hl

theorem word_mem_bracketed {word : String} (hw : w.Own) (h : word ∈ bracketWords) :
    .word w ∈ bracketed word tokens ↔ .word w ∈ tokens := by
  simp [bracketed, hw.ne (.inl h)]

/-- The words in the name of a type that are none of the grammar are the names of user-defined types
in it. -/
theorem DataType.word_mem_tokens_iff (hw : w.Own) :
    .word w ∈ t.tokens ↔ ∃ n ∈ t.mentions, Token.ofIdentifier n.2 = .word w := by
  induction t with
  | leaf kind => simp [tokens, mentions, hw.ne (.inr (Kind.Named.name kind).mem_leafWords)]
  | list t ih | set t ih | frozen t ih =>
    rw [tokens, word_mem_bracketed hw (by decide)]
    exact ih
  | map k v ihk ihv =>
    rw [tokens, word_mem_bracketed hw (by decide)]
    simp [ihk, ihv, mentions, or_and_right, exists_or]
  | tuple ts ih =>
    rw [tokens, word_mem_bracketed hw (by decide), tokensEach_eq_listed, Token.word_mem_listed]
    simp only [List.mem_map, exists_exists_and_eq_and, mentions, mem_mentionsEach]
    constructor
    · rintro ⟨t, ht, h⟩
      obtain ⟨n, hn, heq⟩ := (ih t ht).mp h
      exact ⟨n, ⟨t, ht, hn⟩, heq⟩
    · rintro ⟨n, ⟨t, ht, hn⟩, heq⟩
      exact ⟨t, ht, (ih t ht).mpr ⟨n, hn, heq⟩⟩
  | udt keyspace name fields => simp [tokens, mentions, eq_comm]

end Words

namespace DataType

open Scan (Spans)

variable {r : Registry} {keyspace space input name : String} {inner? : Option NameReader}
  {s u : Scan} {tokens : List Token} {udt : Udt}

/-- The tokens of a whole text reach to the place before nothing. -/
theorem spans_ofString (h : Spelled tokens input.toList) : Spans tokens (.ofString input) ⟨0, []⟩ :=
  ⟨_, h, (List.append_nil _).symm⟩

theorem spelled_qualified (keyspace name : String) :
    Spelled [.ofIdentifier keyspace, .mark .point, .ofIdentifier name]
      (Quoted.identifier keyspace ++ "." ++ Quoted.identifier name).toList := by
  have first := Spelled.single (Token.spelling_identifier keyspace)
  have point : Spelled [.mark .point] ".".toList := .single (.mark .point)
  have last := Spelled.single (Token.spelling_identifier name)
  rw [String.toList_append, String.toList_append]
  exact (first.append point).append last

/-- A text of one word. -/
theorem exists_word_ofString {w : Scan.Word} (h : Spelled [.word w] input.toList) :
    ∃ u, (Scan.ofString input).word = .ok (w, u) ∧ u.skipBlanks.next? ≠ some '.' ∧
      u.skipBlanks.skipBlanks.rest = [] := by
  obtain ⟨u, hu, hmeets⟩ := exists_word_of_spans (spans_ofString h) nofun
  have hend : u.skipBlanks.rest = [] := hmeets
  exact ⟨u, hu, by simp [Scan.next?, hend], hmeets.skipBlanks⟩

/-- A word before brackets is nothing without them. -/
theorem readWith_eq_error {word : String} (hw : word ∈ bracketWords)
    (hs : s.word = .ok (⟨word, false⟩, u)) (h : u.skipBlanks.next? ≠ some '<') :
    readWith r keyspace inner? s = u.skipBlanks.fail (.expected '<' u.skipBlanks.next?) := by
  have missing : readBracketed inner? u = u.skipBlanks.fail (.expected '<' u.skipBlanks.next?) := by
    have expected : u.expect '<' = u.skipBlanks.fail (.expected '<' u.skipBlanks.next?) := if_neg h
    rw [readBracketed, expected]
    rfl
  simp only [bracketWords, List.mem_cons, List.not_mem_nil, or_false] at hw
  rcases hw with rfl | rfl | rfl | rfl | rfl
  · rw [readWith_list hs, readOne, missing]
    rfl
  · rw [readWith_set hs, readOne, missing]
    rfl
  · rw [readWith_map hs, readTwo, missing]
    rfl
  · rw [readWith_tuple hs, missing]
    rfl
  · rw [readWith_frozen hs, readOne, missing]
    rfl

theorem parse_eq_badTypeName {cause : NameFault}
    (h : readWithin r keyspace nestingLimit (.ofString input) = u.fail cause) :
    parse r keyspace input = .error (.badTypeName input cause u.offset) := by
  unfold parse
  simp only [h]
  rfl

theorem parse_eq_of_looked {x : Except Error DataType}
    (h : readWithin r keyspace nestingLimit (.ofString input) = looked x u)
    (hu : u.skipBlanks.rest = []) : parse r keyspace input = x := by
  unfold parse
  cases x with
  | ok t => simp [h, looked, hu, bind, Except.bind, pure, Except.pure]
  | error e => simp [h, looked, bind, Except.bind]

/-- A text that begins with a word before brackets, but goes on with something else. -/
theorem parse_bracketWord {word : String} {next : Option Char} (hw : word ∈ bracketWords)
    (hs : Spelled (.word ⟨word, false⟩ :: tokens) input.toList)
    (hn : ∀ u, Spans tokens u ⟨0, []⟩ → u.skipBlanks.next? = next) (hd : ∀ c ∈ next, Delimits c)
    (hne : next ≠ some '<') :
    ∃ offset, parse r keyspace input = .error (.badTypeName input (.expected '<' next) offset) := by
  obtain ⟨inner?, heq⟩ := readWithin_eq r keyspace nestingLimit
  obtain ⟨u, hu, hrest⟩ := Scan.word_of_spans (spans_ofString hs) fun u h =>
    Scan.delimits_of_skipBlanks (by rwa [hn u h])
  have hnext := hn u hrest
  refine ⟨_, parse_eq_badTypeName (u := u.skipBlanks) ?_⟩
  rw [heq, readWith_eq_error hw hu (by rwa [hnext]), hnext]

/-- A name with a meaning of its own in the grammar apart, what an identifier names is what is on
record under it. -/
theorem parse_identifier (hb : name ∉ bracketWords) (hl : name ∉ leafWords) :
    parse r keyspace (Quoted.identifier name) = r.types keyspace name := by
  obtain ⟨inner?, heq⟩ := readWithin_eq r keyspace nestingLimit
  obtain ⟨u, hu, hpoint, hend⟩ := exists_word_ofString (.single (Token.spelling_identifier name))
  refine parse_eq_of_looked ?_ hend
  rw [heq, readWith_named hu (.inr ⟨hb, hl⟩) hpoint, readNamed_plain hpoint]

/-- Behind a keyspace every name stands for itself. -/
theorem parse_qualified (hb : space ∉ bracketWords) :
    parse r keyspace (Quoted.identifier space ++ "." ++ Quoted.identifier name) =
      r.types space name := by
  obtain ⟨inner?, heq⟩ := readWithin_eq r keyspace nestingLimit
  obtain ⟨u, hu, hrest⟩ := Scan.word_of_spans (spans_ofString (spelled_qualified space name))
    fun _ hpoint => Scan.delimits_of_mark hpoint
  obtain ⟨hpoint, hrest⟩ := Scan.mark_of_spans hrest
  obtain ⟨last, hlast, hmeets⟩ := exists_word_of_spans hrest nofun
  refine parse_eq_of_looked (u := last) ?_ hmeets
  rw [heq, readWith_qualified hu (.inr hb) hpoint, readNamed_qualified hpoint, hlast]
  rfl

/-- A name that is also a word before brackets is refused, for the brackets that it lacks. -/
theorem parse_identifier_bracketWord (h : name ∈ bracketWords) :
    ∃ offset, parse r keyspace (Quoted.identifier name) =
      .error (.badTypeName name (.expected '<' none) offset) := by
  have plain := Quoted.isPlain_of_mem (.inl h)
  have spelled := Spelled.single (Token.spelling_identifier name)
  rw [Token.ofIdentifier_of_isPlain plain] at spelled
  rw [Quoted.identifier, if_pos plain] at spelled ⊢
  refine parse_bracketWord h spelled (fun u hu => ?_) nofun nofun
  have hend : u.skipBlanks.rest = [] := Scan.meets_of_spans hu
  rw [Scan.next?, hend]
  rfl

theorem parse_qualified_bracketWord (h : space ∈ bracketWords) :
    let input := Quoted.identifier space ++ "." ++ Quoted.identifier name
    ∃ offset, parse r keyspace input = .error (.badTypeName input (.expected '<' (some '.')) offset) := by
  have spelled := spelled_qualified space name
  rw [Token.ofIdentifier_of_isPlain (Quoted.isPlain_of_mem (.inl h))] at spelled
  refine parse_bracketWord h spelled (fun u hu => (Scan.mark_of_spans hu).1) ?_ (by decide)
  rintro c ⟨⟩
  exact Mark.point.delimits

/-- A name that is also the word of a leaf type gives that type, whatever is on record. -/
theorem parse_identifier_leaf {kind : Kind} (h : kind.Named name) :
    parse r keyspace (Quoted.identifier name) = .ok (.leaf kind) := by
  have spelled := Spelled.single (Token.spelling_identifier name)
  rw [Token.ofIdentifier_of_isPlain (Quoted.isPlain_of_mem (.inr h.mem_leafWords))] at spelled
  exact parse_of_derives spelled (.leaf h)

theorem parse_identifier_unsupported (h : name = "counter" ∨ name = "duration") :
    parse r keyspace (Quoted.identifier name) = .error (.unsupported name) := by
  have hl : name ∈ leafWords := by rcases h with rfl | rfl <;> decide
  have hb : name ∉ bracketWords := by rcases h with rfl | rfl <;> decide
  obtain ⟨inner?, heq⟩ := readWithin_eq r keyspace nestingLimit
  have spelled := Spelled.single (Token.spelling_identifier name)
  rw [Token.ofIdentifier_of_isPlain (Quoted.isPlain_of_mem (.inr hl))] at spelled
  obtain ⟨u, hu, hpoint, hend⟩ := exists_word_ofString spelled
  refine parse_eq_of_looked ?_ hend
  rw [heq, readWith_plain hu rfl hb, if_neg hpoint, Kind.ofWord_eq_unsupported h]
  rfl

/-- Which names on record the quoting rule protects: it looks at the characters of a name only, so
that a name that is a word of the grammar reads as that word. In front of a point the words of leaf
types are names like others, but those before brackets are not. -/
theorem parse_identifier_iff (h : r.lookup space name = .ok udt) :
    (parse r space (Quoted.identifier name) = .ok udt.type ↔
      name ∉ bracketWords ∧ name ∉ leafWords) ∧
    (∀ keyspace, parse r keyspace (Quoted.identifier space ++ "." ++ Quoted.identifier name) =
      .ok udt.type ↔ space ∉ bracketWords) := by
  have found : r.types space name = .ok udt.type := map_eq_ok.mpr ⟨udt, h, rfl⟩
  refine ⟨⟨fun hp => ⟨fun hb => ?_, fun hl => ?_⟩, fun ⟨hb, hl⟩ => ?_⟩, fun keyspace => ⟨fun hp hb => ?_,
    fun hb => ?_⟩⟩
  · obtain ⟨offset, he⟩ : ∃ offset, parse r space (Quoted.identifier name) = .error _ :=
      parse_identifier_bracketWord hb
    cases hp.symm.trans he
  · rcases Kind.named_or_unsupported hl with ⟨kind, hk⟩ | hu
    · cases hp.symm.trans (parse_identifier_leaf hk)
    · cases hp.symm.trans (parse_identifier_unsupported hu)
  · exact (parse_identifier hb hl).trans found
  · have refused (input : String) (he : ∃ e, parse r keyspace input = .error e) :
        parse r keyspace input ≠ .ok udt.type := by
      obtain ⟨e, he⟩ := he
      exact he ▸ nofun
    obtain ⟨offset, he⟩ := parse_qualified_bracketWord hb
    exact refused _ ⟨_, he⟩ hp
  · exact (parse_qualified hb).trans found

/-- A type on record as `int` is found behind its keyspace only. -/
theorem parse_identifier_iff_int :
    let udt : Udt := ⟨"shop", "int", [("amount", .leaf .bigint)]⟩
    let r := Registry.insert ⟨[]⟩ udt
    r.lookup "shop" "int" = .ok udt ∧
      ¬parse r "shop" (Quoted.identifier "int") = .ok udt.type ∧
      ∀ keyspace, parse r keyspace (Quoted.identifier "shop" ++ "." ++ Quoted.identifier "int") =
        .ok udt.type := by
  intro udt r
  have found : r.lookup "shop" "int" = .ok udt := by rfl
  obtain ⟨plain, qualified⟩ := parse_identifier_iff found
  exact ⟨found, mt plain.mp (by decide), fun keyspace => (qualified keyspace).mpr (by decide)⟩

end DataType

end CqlWire
