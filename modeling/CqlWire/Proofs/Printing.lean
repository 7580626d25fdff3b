import CqlWire.Proofs.Grammar
import CqlWire.Proofs.Termination
import CqlWire.Type.Name

namespace CqlWire

theorem Quoted.isWordChar_of_isPlainTail {c : Char} (h : isPlainTail c = true) :
    Scan.isWordChar c = true := by
  simp only [isPlainTail, isLower, Bool.or_eq_true] at h
  rcases h with (h | h) | h <;> simp only [Scan.isWordChar, h, Bool.true_or, Bool.or_true]

theorem Quoted.toLower_of_isPlainTail {c : Char} (h : isPlainTail c = true) : c.toLower = c := by
  have apart : ¬('A'.val ≤ c.val ∧ c.val ≤ 'Z'.val) := by
    simp only [UInt32.le_iff_toNat_le]
    rintro ⟨hl, hu⟩
    have low : 65 ≤ c.val.toNat := hl
    have high : c.val.toNat ≤ 90 := hu
    simp only [isPlainTail, isLower, Bool.or_eq_true, Bool.and_eq_true, decide_eq_true_eq,
      beq_iff_eq, Char.le_def, UInt32.le_iff_toNat_le] at h
    rcases h with (h | h) | rfl
    · have letter : 97 ≤ c.val.toNat := h.1
      omega
    · have digit : c.val.toNat ≤ 57 := h.2
      omega
    · have underscore : 'Z'.val.toNat < '_'.val.toNat := by decide
      omega
  exact dif_neg apart

namespace Token

variable {token : Token} {tokens : List Token} {word : String} {cs : List Char}

theorem Spelling.of_isPlain (h : Quoted.isPlain word.toList = true) :
    Spelling (.word ⟨word, false⟩) word.toList := by
  have tail : ∀ c ∈ word.toList, Quoted.isPlainTail c = true := by
    cases hw : word.toList with
    | nil => nofun
    | cons c cs =>
      rw [hw] at h
      simp only [Quoted.isPlain, Bool.and_eq_true, List.all_eq_true] at h
      refine List.forall_mem_cons.mpr ⟨?_, h.2⟩
      simp [Quoted.isPlainTail, h.1]
  have nonempty : word.toList ≠ [] := by
    intro hnil
    rw [hnil] at h
    cases h
  have lower : word.toList.map Char.toLower = word.toList :=
    (List.map_congr_left fun c hc => Quoted.toLower_of_isPlainTail (tail c hc)).trans (List.map_id _)
  have spelling := Spelling.plain nonempty fun c hc => Quoted.isWordChar_of_isPlainTail (tail c hc)
  rwa [lower, String.ofList_toList] at spelling

/-- The word that an identifier is in a statement. -/
def ofIdentifier (name : String) : Token :=
  .word ⟨name, !Quoted.isPlain name.toList⟩

theorem spelling_identifier (name : String) :
    (ofIdentifier name).Spelling (Quoted.identifier name).toList := by
  unfold ofIdentifier Quoted.identifier
  by_cases h : Quoted.isPlain name.toList = true
  · rw [if_pos h, h]
    exact .of_isPlain h
  · rw [if_neg h, Bool.eq_false_iff.mpr h, String.toList_ofList]
    exact .quoted name

/-- Tokens between commas. -/
def listed : List (List Token) → List Token
  | [] => []
  | [tokens] => tokens
  | tokens :: next :: rest => tokens ++ .mark .comma :: listed (next :: rest)

end Token

namespace Spelled

variable {token : Token} {tokens : List Token} {cs : List Char}

theorem single (h : token.Spelling cs) : Spelled [token] cs := by
  have spelled : Spelled [token] ([] ++ (cs ++ [])) := .cons nofun h (.nil nofun)
  simpa using spelled

theorem bracketed (word : String) (hw : Quoted.isPlain word.toList = true) (h : Spelled tokens cs) :
    Spelled (bracketed word tokens) (word.toList ++ '<' :: (cs ++ ['>'])) := by
  have opening : Spelled [.mark .opening] ['<'] := single (.mark .opening)
  have closing : Spelled [.mark .closing] ['>'] := single (.mark .closing)
  exact (single (.of_isPlain hw)).append (opening.append (h.append closing))

/-- A comma and a blank, as the names of types have them. -/
theorem comma (h : Spelled tokens cs) : Spelled (.mark .comma :: tokens) (", ".toList ++ cs) := by
  have blank : ∀ c ∈ [' '], isBlank c = true := List.forall_mem_singleton.mpr rfl
  exact (single (.mark .comma)).append (h.blanks_append blank)

theorem listed {parts : List (List Token)} {texts : List String}
    (h : List.Forall₂ (fun tokens text => Spelled tokens text.toList) parts texts) :
    Spelled (Token.listed parts) (", ".intercalate texts).toList := by
  induction h with
  | nil => exact .nil nofun
  | @cons tokens text parts texts first rest ih =>
    cases rest with
    | nil => exact first
    | cons second rest =>
      rw [String.intercalate_cons_cons, String.toList_append, String.toList_append, List.append_assoc]
      exact first.append ih.comma

end Spelled

namespace DataType

mutual

/-- The types in a type, itself included, but for those in declared fields. -/
def nodes : DataType → List DataType
  | .leaf kind => [.leaf kind]
  | .list t => .list t :: nodes t
  | .set t => .set t :: nodes t
  | .map k v => .map k v :: (nodes k ++ nodes v)
  | .tuple ts => .tuple ts :: nodesEach ts
  | .udt keyspace name fields => [.udt keyspace name fields]
  | .frozen t => .frozen t :: nodes t

def nodesEach : List DataType → List DataType
  | [] => []
  | t :: ts => nodes t ++ nodesEach ts

end

mutual

/-- How many brackets are open at once in the name of a type. -/
def nesting : DataType → Nat
  | .leaf _ | .udt _ _ _ => 0
  | .list t | .set t | .frozen t => nesting t + 1
  | .map k v => max (nesting k) (nesting v) + 1
  | .tuple ts => nestingEach ts + 1

def nestingEach : List DataType → Nat
  | [] => 0
  | t :: ts => max (nesting t) (nestingEach ts)

end

mutual

/-- The tokens of the name of a type. -/
def tokens : DataType → List Token
  | .leaf kind => [.word ⟨kind.name, false⟩]
  | .list t => bracketed "list" (tokens t)
  | .set t => bracketed "set" (tokens t)
  | .map k v => bracketed "map" (tokens k ++ .mark .comma :: tokens v)
  | .tuple ts => bracketed "tuple" (tokensEach ts)
  | .udt _ name _ => [.ofIdentifier name]
  | .frozen t => bracketed "frozen" (tokens t)

def tokensEach : List DataType → List Token
  | [] => []
  | [t] => tokens t
  | t :: u :: ts => tokens t ++ .mark .comma :: tokensEach (u :: ts)

end

variable {r : Registry} {keyspace : String} {levels : Nat} {toks : List Token} {t o : DataType}
  {ts os : List DataType}

theorem mem_nodesEach {u : DataType} : u ∈ nodesEach ts ↔ ∃ t ∈ ts, u ∈ t.nodes := by
  induction ts with
  | nil => simp [nodesEach]
  | cons t ts ih => simp [nodesEach, ih]

/-- What is in a type is the type itself or in one directly inside it. -/
theorem mem_nodes {u : DataType} (h : u ∈ t.nodes) : u = t ∨ ∃ c ∈ t.children, u ∈ c.nodes := by
  cases t with
  | leaf kind | udt keyspace name fields => exact .inl (List.mem_singleton.mp h)
  | list t | set t | frozen t =>
    exact (List.mem_cons.mp h).imp_right fun hu => ⟨t, List.mem_singleton_self t, hu⟩
  | map k v =>
    refine (List.mem_cons.mp h).imp_right fun hu => ?_
    rcases List.mem_append.mp hu with hu | hu
    · exact ⟨k, List.mem_cons_self, hu⟩
    · exact ⟨v, List.mem_cons_of_mem k (List.mem_singleton_self v), hu⟩
  | tuple ts => exact (List.mem_cons.mp h).imp_right mem_nodesEach.mp

theorem nestingEach_le : nestingEach ts ≤ levels ↔ ∀ t ∈ ts, t.nesting ≤ levels := by
  induction ts with
  | nil => simp [nestingEach]
  | cons t ts ih => rw [nestingEach, Nat.max_le, ih, List.forall_mem_cons]

theorem tokensEach_eq_listed (ts : List DataType) : tokensEach ts = Token.listed (ts.map tokens) := by
  induction ts with
  | nil => rfl
  | cons t ts ih =>
    cases ts with
    | nil => rfl
    | cons u ts =>
      rw [tokensEach, ih]
      rfl

theorem spelled_tokensEach (h : ∀ t ∈ ts, Spelled t.tokens t.name.toList) :
    Spelled (tokensEach ts) (", ".intercalate (names ts)).toList := by
  rw [tokensEach_eq_listed, names_eq_map]
  exact .listed (List.forall₂_map_left_iff.mpr (List.forall₂_map_right_iff.mpr (List.forall₂_same.mpr h)))

/-- The name of a type is made of its tokens. -/
theorem spelled_tokens (t : DataType) : Spelled t.tokens t.name.toList := by
  induction t with
  | leaf kind =>
    have plain : Quoted.isPlain kind.name.toList = true := by cases kind <;> decide
    exact .single (.of_isPlain plain)
  | list t ih =>
    have spelled := Spelled.bracketed "list" (by decide) ih
    simpa [name, tokens] using spelled
  | set t ih =>
    have spelled := Spelled.bracketed "set" (by decide) ih
    simpa [name, tokens] using spelled
  | map k v ihk ihv =>
    have spelled := Spelled.bracketed "map" (by decide) (ihk.append ihv.comma)
    simpa [name, tokens] using spelled
  | tuple ts ih =>
    have spelled := Spelled.bracketed "tuple" (by decide) (spelled_tokensEach ih)
    simpa [name, tokens] using spelled
  | udt keyspace name fields => exact .single (Token.spelling_identifier name)
  | frozen t ih =>
    have spelled := Spelled.bracketed "frozen" (by decide) ih
    simpa [name, tokens] using spelled

theorem derivesEach_tokens (h : List.Forall₂ (fun t o => Derives r keyspace levels t.tokens o) ts os)
    (hne : ts ≠ []) : DerivesEach r keyspace levels (tokensEach ts) os := by
  induction h with
  | nil => exact absurd rfl hne
  | @cons t o ts os first rest ih =>
    cases rest with
    | nil => exact .one first
    | cons second rest => exact .cons first (ih (List.cons_ne_nil _ _))

/-- The names of user-defined types in the type are none that the parser takes for other types. -/
def Unreserved (t : DataType) : Prop :=
  ∀ n ∈ t.mentions, n.2 ∉ bracketWords ∧ n.2 ∉ leafWords

theorem exists_below {n levels : Nat} (h : n + 1 ≤ levels) : ∃ below, levels = below + 1 ∧ n ≤ below :=
  ⟨levels - 1, by omega, by omega⟩

/-- The tokens of a type name the type on record for each of its names. -/
theorem derives_tokens (ho : expandWith (fun _ name => r.types keyspace name) t = .ok o)
    (hn : t.nesting ≤ levels) (htuple : ∀ u ∈ t.nodes, u ≠ .tuple []) (hnames : t.Unreserved) :
    Derives r keyspace levels t.tokens o := by
  induction t generalizing levels o with
  | leaf kind =>
    cases pure_eq_ok.mp ho
    exact .leaf (.name kind)
  | list t ih =>
    obtain ⟨p, hp, ho⟩ := bind_eq_ok.mp ho
    cases pure_eq_ok.mp ho
    obtain ⟨below, rfl, hb⟩ := exists_below hn
    exact .list (ih hp hb (List.forall_mem_cons.mp htuple).2 hnames)
  | set t ih =>
    obtain ⟨p, hp, ho⟩ := bind_eq_ok.mp ho
    cases pure_eq_ok.mp ho
    obtain ⟨below, rfl, hb⟩ := exists_below hn
    exact .set (ih hp hb (List.forall_mem_cons.mp htuple).2 hnames)
  | map k v ihk ihv =>
    obtain ⟨p, hp, ho⟩ := bind_eq_ok.mp ho
    obtain ⟨q, hq, ho⟩ := bind_eq_ok.mp ho
    cases pure_eq_ok.mp ho
    obtain ⟨below, rfl, hb⟩ := exists_below hn
    obtain ⟨hnk, hnv⟩ := Nat.max_le.mp hb
    obtain ⟨htk, htv⟩ := List.forall_mem_append.mp (List.forall_mem_cons.mp htuple).2
    obtain ⟨hk, hv⟩ := List.forall_mem_append.mp hnames
    exact .map (ihk hp hnk htk hk) (ihv hq hnv htv hv)
  | tuple ts ih =>
    obtain ⟨os, hos, ho⟩ := bind_eq_ok.mp ho
    cases pure_eq_ok.mp ho
    obtain ⟨below, rfl, hb⟩ := exists_below hn
    obtain ⟨here, inside⟩ := List.forall_mem_cons.mp htuple
    have each : List.Forall₂ (fun t p => Derives r keyspace below t.tokens p) ts os := by
      refine (expandEach_eq_ok.mp hos).imp_mem fun t ht p _ hp => ?_
      refine ih t ht hp (nestingEach_le.mp hb t ht) ?_ fun n hm => ?_
      · exact fun u hu => inside u (mem_nodesEach.mpr ⟨t, ht, hu⟩)
      · exact hnames n (mem_mentionsEach.mpr ⟨t, ht, hm⟩)
    exact .tuple (derivesEach_tokens each fun hnil => here (by rw [hnil]))
  | udt k name fields =>
    obtain ⟨udt, hu, rfl⟩ := map_eq_ok.mp ho
    exact .named (.inr (hnames (k, name) (List.mem_singleton_self _))) hu
  | frozen t ih =>
    obtain ⟨p, hp, ho⟩ := bind_eq_ok.mp ho
    cases pure_eq_ok.mp ho
    obtain ⟨below, rfl, hb⟩ := exists_below hn
    exact .frozen (ih hp hb (List.forall_mem_cons.mp htuple).2 hnames)

/-- The name of a type is read as the type with what is on record for each of its names, which all
lie in one keyspace. -/
theorem parse_name_eq_ok (hn : t.nesting ≤ nestingLimit) (htuple : ∀ u ∈ t.nodes, u ≠ .tuple [])
    (hnames : t.Unreserved) (hks : ∀ n ∈ t.mentions, n.1 = keyspace)
    (ho : expandWith r.types t = .ok o) : parse r keyspace t.name = .ok o := by
  refine parse_of_derives (spelled_tokens t) (derives_tokens ?_ hn htuple hnames)
  rw [← ho]
  exact expandWith_congr fun n hm => by rw [hks n hm]

theorem exists_udt_of_mem_mentions {n : QualifiedName} (h : n ∈ t.mentions) :
    ∃ udt : Udt, udt.type ∈ t.nodes ∧ udt.key = n := by
  induction t with
  | leaf kind => cases h
  | list t ih | set t ih | frozen t ih =>
    obtain ⟨udt, hu, hkey⟩ := ih h
    exact ⟨udt, List.mem_cons_of_mem _ hu, hkey⟩
  | map k v ihk ihv =>
    rcases List.mem_append.mp h with h | h
    · obtain ⟨udt, hu, hkey⟩ := ihk h
      exact ⟨udt, List.mem_cons_of_mem _ (List.mem_append_left _ hu), hkey⟩
    · obtain ⟨udt, hu, hkey⟩ := ihv h
      exact ⟨udt, List.mem_cons_of_mem _ (List.mem_append_right _ hu), hkey⟩
  | tuple ts ih =>
    obtain ⟨t, ht, hm⟩ := mem_mentionsEach.mp h
    obtain ⟨udt, hu, hkey⟩ := ih t ht hm
    exact ⟨udt, List.mem_cons_of_mem _ (mem_nodesEach.mpr ⟨t, ht, hu⟩), hkey⟩
  | udt keyspace name fields =>
    exact ⟨⟨keyspace, name, fields⟩, List.mem_singleton_self _, (List.mem_singleton.mp h).symm⟩

/-- A type with all that is on record is expanded to itself, unless something is frozen twice. -/
theorem expandWith_types_self
    (hu : ∀ udt : Udt, udt.type ∈ t.nodes → r.lookup udt.keyspace udt.name = .ok udt)
    (hf : ∀ u ∈ t.nodes, ∀ v, u ≠ .frozen (.frozen v)) : expandWith r.types t = .ok t := by
  induction t with
  | leaf kind => rfl
  | list t ih | set t ih =>
    have inner := ih (fun udt h => hu udt (List.mem_cons_of_mem _ h)) (List.forall_mem_cons.mp hf).2
    rw [expandWith, inner]
    rfl
  | map k v ihk ihv =>
    obtain ⟨hfk, hfv⟩ := List.forall_mem_append.mp (List.forall_mem_cons.mp hf).2
    have key := ihk (fun udt h => hu udt (List.mem_cons_of_mem _ (List.mem_append_left _ h))) hfk
    have value := ihv (fun udt h => hu udt (List.mem_cons_of_mem _ (List.mem_append_right _ h))) hfv
    rw [expandWith, key, value]
    rfl
  | tuple ts ih =>
    have inside := (List.forall_mem_cons.mp hf).2
    have each : ∀ t ∈ ts, expandWith r.types t = .ok t := by
      intro t ht
      refine ih t ht (fun udt h => hu udt ?_) fun u h => inside u (mem_nodesEach.mpr ⟨t, ht, h⟩)
      exact List.mem_cons_of_mem _ (mem_nodesEach.mpr ⟨t, ht, h⟩)
    rw [expandWith, expandEach_eq_ok.mpr (List.forall₂_same.mpr each)]
    rfl
  | udt keyspace name fields =>
    have found := hu ⟨keyspace, name, fields⟩ (List.mem_singleton_self _)
    exact map_eq_ok.mpr ⟨_, found, rfl⟩
  | frozen t ih =>
    obtain ⟨here, inside⟩ := List.forall_mem_cons.mp hf
    have inner := ih (fun udt h => hu udt (List.mem_cons_of_mem _ h)) inside
    rw [expandWith, inner]
    cases t with
    | frozen t => exact absurd rfl (here t)
    | _ => rfl

/-- A type that the parser can give where it may open so many brackets: its name opens no more, it
has no tuple without positions, and nothing in it is frozen twice. -/
structure Expressible (levels : Nat) (t : DataType) : Prop where
  nesting_le : t.nesting ≤ levels
  nodes : ∀ u ∈ t.nodes, u ≠ .tuple [] ∧ ∀ v, u ≠ .frozen (.frozen v)

theorem Expressible.freeze (h : t.Expressible levels) : t.freeze.Expressible (levels + 1) := by
  obtain ⟨hn, hnodes⟩ := h
  cases t with
  | frozen t => exact ⟨Nat.le_succ_of_le hn, hnodes⟩
  | _ => exact ⟨Nat.succ_le_succ hn, List.forall_mem_cons.mpr ⟨by simp, hnodes⟩⟩

theorem expressible_of_derives (h : Derives r keyspace levels toks t) : t.Expressible levels := by
  refine @Derives.rec r keyspace (fun levels _ t _ => t.Expressible levels)
    (fun levels _ ts _ => ts ≠ [] ∧ ∀ t ∈ ts, t.Expressible levels)
    ?leaf ?list ?set ?frozen ?map ?tuple ?named ?qualified ?one ?cons levels toks t h
  case leaf =>
    intro levels kind word _
    exact ⟨Nat.zero_le _, List.forall_mem_singleton.mpr (by simp)⟩
  case list | set =>
    intro levels tokens t _ ih
    exact ⟨Nat.succ_le_succ ih.nesting_le, List.forall_mem_cons.mpr ⟨by simp, ih.nodes⟩⟩
  case frozen =>
    intro levels tokens t _ ih
    exact ih.freeze
  case map =>
    intro levels tokens others k v _ _ ihk ihv
    refine ⟨Nat.succ_le_succ (Nat.max_le.mpr ⟨ihk.nesting_le, ihv.nesting_le⟩), ?_⟩
    exact List.forall_mem_cons.mpr ⟨by simp, List.forall_mem_append.mpr ⟨ihk.nodes, ihv.nodes⟩⟩
  case tuple =>
    rintro levels tokens ts - ⟨hne, each⟩
    refine ⟨Nat.succ_le_succ (nestingEach_le.mpr fun t ht => (each t ht).nesting_le), ?_⟩
    refine List.forall_mem_cons.mpr ⟨by simpa using hne, fun u hu => ?_⟩
    obtain ⟨t, ht, hu⟩ := mem_nodesEach.mp hu
    exact (each t ht).nodes u hu
  case named | qualified =>
    intros
    exact ⟨Nat.zero_le _, List.forall_mem_singleton.mpr (by simp)⟩
  case one =>
    intro levels tokens t _ ih
    exact ⟨List.cons_ne_nil _ _, List.forall_mem_singleton.mpr ih⟩
  case cons =>
    intro levels tokens others t ts _ _ ih ihs
    exact ⟨List.cons_ne_nil _ _, List.forall_mem_cons.mpr ⟨ih, ihs.2⟩⟩

theorem expressible_of_parse {input : String} (h : parse r keyspace input = .ok t) :
    t.Expressible nestingLimit := by
  obtain ⟨tokens, -, hderives⟩ := derives_of_parse h
  exact expressible_of_derives hderives

/-- Parsing undoes printing: a type is read from its name if at most 64 brackets are open in it, it
has no tuple without positions and nothing frozen twice, and its user-defined types are those on
record, in the keyspace of the parser and under names that mean nothing else. -/
theorem parse_name (hn : t.nesting ≤ nestingLimit)
    (hnodes : ∀ u ∈ t.nodes, u ≠ .tuple [] ∧ ∀ v, u ≠ .frozen (.frozen v))
    (hudts : ∀ udt : Udt, udt.type ∈ t.nodes → udt.keyspace = keyspace ∧
      r.lookup keyspace udt.name = .ok udt ∧ udt.name ∉ bracketWords ∧ udt.name ∉ leafWords) :
    parse r keyspace t.name = .ok t := by
  have mentioned {P : QualifiedName → Prop} (h : ∀ udt : Udt, udt.type ∈ t.nodes → P udt.key) :
      ∀ n ∈ t.mentions, P n := by
    intro n hm
    obtain ⟨udt, hu, rfl⟩ := exists_udt_of_mem_mentions hm
    exact h udt hu
  have recorded : expandWith r.types t = .ok t := by
    refine expandWith_types_self (fun udt hu => ?_) fun u hu => (hnodes u hu).2
    obtain ⟨hks, found, -⟩ := hudts udt hu
    rw [hks]
    exact found
  have unreserved : t.Unreserved := mentioned fun udt hu => (hudts udt hu).2.2
  have local_names : ∀ n ∈ t.mentions, n.1 = keyspace := mentioned fun udt hu => (hudts udt hu).1
  exact parse_name_eq_ok hn (fun u hu => (hnodes u hu).1) unreserved local_names recorded

theorem parse_name_quoted :
    let odd : Udt := ⟨"ks", "List<a, \"b\">", [("x", .leaf .int)]⟩
    let nameless : Udt := ⟨"ks", "", [("y", .udt "other" "list" [])]⟩
    let r : Registry := ⟨[odd, nameless]⟩
    let t : DataType := .map (.frozen (.list odd.type)) (.tuple [nameless.type, .leaf .text])
    (t.nesting ≤ nestingLimit ∧ (∀ u ∈ t.nodes, u ≠ .tuple [] ∧ ∀ v, u ≠ .frozen (.frozen v)) ∧
      ∀ udt : Udt, udt.type ∈ t.nodes → udt.keyspace = "ks" ∧ r.lookup "ks" udt.name = .ok udt ∧
        udt.name ∉ bracketWords ∧ udt.name ∉ leafWords) ∧
      parse r "ks" t.name = .ok t := by
  intro odd nameless r t
  have shallow : t.nesting ≤ nestingLimit := by decide
  have nodes : ∀ u ∈ t.nodes, u ≠ .tuple [] ∧ ∀ v, u ≠ .frozen (.frozen v) := by
    simp [t, odd, nameless, Udt.type, nodes, nodesEach]
  have udts : ∀ udt : Udt, udt.type ∈ t.nodes → udt.keyspace = "ks" ∧
      r.lookup "ks" udt.name = .ok udt ∧ udt.name ∉ bracketWords ∧ udt.name ∉ leafWords := by
    rintro ⟨keyspace, name, fields⟩ h
    simp only [t, odd, nameless, Udt.type, DataType.nodes, nodesEach, List.mem_cons, List.mem_append,
      List.not_mem_nil, reduceCtorEq, or_false, false_or, udt.injEq] at h
    rcases h with ⟨rfl, rfl, rfl⟩ | ⟨rfl, rfl, rfl⟩
    · exact ⟨rfl, rfl, by decide, by decide⟩
    · exact ⟨rfl, rfl, by decide, by decide⟩
  exact ⟨⟨shallow, nodes, udts⟩, parse_name shallow nodes udts⟩

end DataType

end CqlWire
