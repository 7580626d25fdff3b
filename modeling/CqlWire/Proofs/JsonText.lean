import CqlWire.Registry.Definition
import Mathlib.Data.List.DropRight
import Mathlib.Data.List.Forall2
import Mathlib.Tactic.SplitIfs

namespace CqlWire

theorem Hex.padded_control {n : Nat} (h : n < 0x20) :
    padded 4 n = ['0', '0', digit (n / 16), digit (n % 16)] := by
  revert n
  decide

namespace Document.FromJson

section Characters

variable {rest before : List Char} {broken : Bool} {a b c d e : Char} {n : Nat}

theorem characters_plain (hq : c ≠ '"') (hb : c ≠ '\\') (hl : ¬c < ' ') :
    characters broken before (c :: rest) = characters broken (c :: before) rest := by
  rw [characters]
  · rw [if_neg (not_or.mpr ⟨hl, hb⟩)]
  · exact hq
  · rintro _ _ _ _ _ _ _ _ _ rfl
    exact fun _ => hb rfl
  · rintro _ _ _ _ _ rfl
    exact fun _ => hb rfl
  · rintro _ _ rfl
    exact fun _ => hb rfl

theorem characters_letter (hc : c ≠ 'u') (he : escaped? c = some e) :
    characters broken before ('\\' :: c :: rest) = characters broken (e :: before) rest := by
  rw [characters]
  · rw [he]
  · rintro _ _ _ _ _ _ _ _ _ rfl
    exact fun _ => hc rfl
  · rintro _ _ _ _ _ rfl
    exact fun _ => hc rfl

theorem characters_unit_none (h : unit? a b c d = none) :
    characters broken before ('\\' :: 'u' :: a :: b :: c :: d :: rest) = none := by
  by_cases hu : ∃ e f g k tail, rest = '\\' :: 'u' :: e :: f :: g :: k :: tail
  · obtain ⟨e, f, g, k, tail, rfl⟩ := hu
    rw [characters, h]
  · rw [characters]
    · rw [h]
    · exact fun e f g k tail heq => hu ⟨e, f, g, k, tail, heq⟩

/-- A code unit that is none of a pair is a character, whatever follows. -/
theorem characters_unit (h : unit? a b c d = some n) (hh : isHigh n = false) (hl : isLow n = false) :
    characters broken before ('\\' :: 'u' :: a :: b :: c :: d :: rest) =
      characters broken (Char.ofNat n :: before) rest := by
  by_cases hu : ∃ e f g k tail, rest = '\\' :: 'u' :: e :: f :: g :: k :: tail
  · obtain ⟨e, f, g, k, tail, rfl⟩ := hu
    rw [characters, h]
    cases hm : unit? e f g k with
    | some m => simp [hh, hl]
    -- The next escape is read ahead, but it is no better on its own.
    | none => simp only [characters_unit_none hm]
  · rw [characters]
    · simp [h, hh, hl]
    · exact fun e f g k tail heq => hu ⟨e, f, g, k, tail, heq⟩

/-- A character is read from its escape. -/
theorem characters_escape (c : Char) :
    characters broken before (Json.escape c ++ rest) = characters broken (c :: before) rest := by
  unfold Json.escape
  split_ifs with quote backslash line turn tab back feed control
  · subst quote
    exact characters_letter (by decide) rfl
  · subst backslash
    exact characters_letter (by decide) rfl
  · subst line
    exact characters_letter (by decide) rfl
  · subst turn
    exact characters_letter (by decide) rfl
  · subst tab
    exact characters_letter (by decide) rfl
  · obtain rfl : c = '\x08' := Char.toNat_inj.mp back
    exact characters_letter (by decide) rfl
  · obtain rfl : c = '\x0c' := Char.toNat_inj.mp feed
    exact characters_letter (by decide) rfl
  · have unit : unit? '0' '0' (Hex.digit (c.toNat / 16)) (Hex.digit (c.toNat % 16)) = some c.toNat := by
      have high : c.toNat / 16 < 16 := by omega
      have low : c.toNat % 16 < 16 := by omega
      have zero : Hex.digitValue? '0' = some 0 := rfl
      simp only [unit?, zero, Hex.digitValue?_digit high, Hex.digitValue?_digit low,
        Option.bind_eq_bind, Option.bind_some, Option.pure_def, Option.some.injEq]
      omega
    have below : c.toNat < 0xd800 := by omega
    have single : isHigh c.toNat = false ∧ isLow c.toNat = false := by
      simp only [isHigh, isLow, Bool.and_eq_false_iff, decide_eq_false_iff_not]
      omega
    rw [Hex.padded_control control]
    have read : characters broken before ('\\' :: 'u' :: '0' :: '0' :: Hex.digit (c.toNat / 16) ::
        Hex.digit (c.toNat % 16) :: rest) = characters broken (Char.ofNat c.toNat :: before) rest :=
      characters_unit unit single.1 single.2
    rw [Char.ofNat_toNat] at read
    exact read
  · have space : ¬c < ' ' := control
    exact characters_plain quote backslash space

/-- A text is read from between its quotes. -/
theorem characters_flatMap_escape (cs : List Char) :
    characters false before (cs.flatMap Json.escape ++ '"' :: rest) =
      some (.text (String.ofList (before.reverse ++ cs)), rest) := by
  induction cs generalizing before with
  | nil =>
    rw [List.flatMap_nil, List.nil_append, characters, List.append_nil]
    rfl
  | cons c cs ih =>
    rw [List.flatMap_cons, List.append_assoc, characters_escape, ih, List.reverse_cons,
      List.append_assoc]
    rfl

theorem quoted_quote (s : String) : quoted (Json.quote s ++ rest) = some (.text s, rest) := by
  have whole : characters false [] (s.toList.flatMap Json.escape ++ '"' :: rest) =
      some (.text s, rest) := by
    rw [characters_flatMap_escape, List.reverse_nil, List.nil_append, String.ofList_toList]
  rw [Json.quote, List.cons_append, List.cons_append, List.append_assoc]
  exact whole

end Characters

section Values

variable {limit level : Nat} {s s' t u v rest : List Char} {d key : Document} {ds : List Document}
  {es : List (Document × Document)}

theorem skipBlanks_append {blanks : List Char} (hb : ∀ c ∈ blanks, isBlank c = true) (s : List Char) :
    skipBlanks (blanks ++ s) = skipBlanks s :=
  List.dropWhile_append_of_pos hb

theorem isBlank_of_mem_newLine {c : Char} (h : c ∈ Json.newLine level) : isBlank c = true := by
  rcases List.mem_cons.mp h with rfl | h
  · decide
  · rw [List.eq_of_mem_replicate h]
    decide

theorem skipBlanks_newLine (level : Nat) (s : List Char) :
    skipBlanks (Json.newLine level ++ s) = skipBlanks s :=
  skipBlanks_append (fun _ => isBlank_of_mem_newLine) s

theorem skipBlanks_skipBlanks (s : List Char) : skipBlanks (skipBlanks s) = skipBlanks s :=
  List.dropWhile_idempotent _ _

theorem value_congr (h : skipBlanks s = skipBlanks t) : value limit s = value limit t := by
  cases limit with
  | zero => rfl
  | succ limit => rw [value, value, h]

theorem items_congr (h : skipBlanks s = skipBlanks t) : items limit s = items limit t := by
  cases limit with
  | zero => rfl
  | succ limit => rw [items, items, value_congr h]

theorem members_congr (h : skipBlanks s = skipBlanks t) : members limit s = members limit t := by
  cases limit with
  | zero => rfl
  | succ limit => rw [members, members, h]

/-- No value starts with the bracket at the end of an array. -/
theorem value_closing (limit : Nat) (rest : List Char) : value limit (']' :: rest) = none := by
  cases limit with
  | zero => rfl
  | succ limit => rfl

theorem items_last (h : value limit s = some (d, t)) (ht : skipBlanks t = ']' :: rest) :
    items (limit + 1) s = some ([d], rest) := by
  simp only [items, h, Option.bind_eq_bind, Option.bind_some, ht]
  rfl

theorem items_comma (h : value limit s = some (d, t)) (ht : skipBlanks t = ',' :: u)
    (hu : items limit u = some (ds, rest)) : items (limit + 1) s = some (d :: ds, rest) := by
  simp only [items, h, Option.bind_eq_bind, Option.bind_some, ht, hu]
  rfl

theorem members_last (hk : quoted (skipBlanks s) = some (key, t)) (ht : skipBlanks t = ':' :: u)
    (h : value limit u = some (d, v)) (hv : skipBlanks v = '\x7d' :: rest) :
    members (limit + 1) s = some ([(key, d)], rest) := by
  simp only [members, hk, h, Option.bind_eq_bind, Option.bind_some, ht, hv]
  rfl

theorem members_comma (hk : quoted (skipBlanks s) = some (key, t)) (ht : skipBlanks t = ':' :: u)
    (h : value limit u = some (d, v)) (hv : skipBlanks v = ',' :: s')
    (hs : members limit s' = some (es, rest)) : members (limit + 1) s = some ((key, d) :: es, rest) := by
  simp only [members, hk, h, Option.bind_eq_bind, Option.bind_some, ht, hv, hs]
  rfl

theorem value_array (h : items limit s = some (ds, rest)) (hs : ∀ t, skipBlanks s ≠ ']' :: t) :
    value (limit + 1) ('[' :: s) = some (.sequence ds, rest) := by
  have opening : skipBlanks ('[' :: s) = '[' :: s := rfl
  rw [← items_congr (skipBlanks_skipBlanks s)] at h
  rw [value, opening]
  simp only [h, Option.map_some]

theorem value_object (h : members limit s = some (es, rest)) (hs : ∀ t, skipBlanks s ≠ '\x7d' :: t) :
    value (limit + 1) ('\x7b' :: s) = some (.mapping es, rest) := by
  have opening : skipBlanks ('\x7b' :: s) = '\x7b' :: s := rfl
  rw [← members_congr (skipBlanks_skipBlanks s)] at h
  rw [value, opening]
  simp only [h, Option.map_some]

end Values

end Document.FromJson

namespace Json

open Document.FromJson

variable {j : Json} {d : Document} {js : List Json} {ds : List Document} {ms : List (String × Json)}
  {es : List (Document × Document)} {level limit : Nat} {rest : List Char}

theorem prettyItems_cons (level : Nat) (j k : Json) (js : List Json) :
    prettyItems level (j :: k :: js) =
      newLine level ++ (prettyChars level j ++ ',' :: prettyItems level (k :: js)) := by
  rw [prettyItems, List.append_assoc]
  exact List.cons_ne_nil k js

theorem prettyMembers_cons (level : Nat) (name : String) (j : Json) (m : String × Json)
    (ms : List (String × Json)) :
    prettyMembers level ((name, j) :: m :: ms) =
      newLine level ++ (quote name ++ ':' :: ' ' :: (prettyChars level j ++ ',' ::
        prettyMembers level (m :: ms))) := by
  rw [prettyMembers]
  · simp only [List.append_assoc, List.cons_append]
  · exact List.cons_ne_nil m ms

/-- A value is read as a document from its text, at any depth and before any other text. -/
def Reads (j : Json) (d : Document) : Prop :=
  ∀ level limit rest, (prettyChars level j).length ≤ limit →
    value limit (prettyChars level j ++ rest) = some (d, rest)

theorem reads_text (s : String) : (text s).Reads (.text s) := by
  intro level limit rest h
  cases limit with
  | zero => cases h
  | succ limit => exact quoted_quote s

theorem Reads.value_newLine (h : j.Reads d) (hl : (prettyChars level j).length ≤ limit) :
    value limit (newLine level ++ (prettyChars level j ++ rest)) = some (d, rest) := by
  rw [value_congr (skipBlanks_newLine level _)]
  exact h level limit rest hl

theorem Reads.skipBlanks_ne (h : j.Reads d) (rest tail : List Char) :
    skipBlanks (newLine level ++ (prettyChars level j ++ rest)) ≠ ']' :: tail := by
  intro heq
  have read : value _ (newLine level ++ (prettyChars level j ++ rest)) = some (d, rest) :=
    h.value_newLine (Nat.le_refl _)
  have closing : skipBlanks (']' :: tail) = ']' :: tail := rfl
  rw [value_congr (heq.trans closing.symm), value_closing] at read
  cases read

/-- Items are read up to the bracket at the end of their array. -/
theorem items_prettyItems (h : List.Forall₂ Reads js ds) (hne : js ≠ [])
    (hl : (prettyItems level js).length ≤ limit) (below : Nat) :
    items limit (prettyItems level js ++ (newLine below ++ ']' :: rest)) = some (ds, rest) := by
  induction h generalizing limit with
  | nil => exact absurd rfl hne
  | @cons j d js ds first others ih =>
    cases limit with
    | zero => cases js <;> cases hl
    | succ limit =>
    -- An item takes one step, and one character at least: the line break before it.
    cases others with
    | nil =>
      rw [prettyItems, List.length_append, newLine, List.length_cons] at hl
      rw [prettyItems, List.append_assoc]
      exact items_last (first.value_newLine (by omega)) (skipBlanks_newLine below _)
    | @cons k e js ds second others =>
      rw [prettyItems_cons, List.length_append, List.length_append, newLine, List.length_cons,
        List.length_cons] at hl
      rw [prettyItems_cons, List.append_assoc, List.append_assoc]
      exact items_comma (first.value_newLine (by omega)) rfl (ih (List.cons_ne_nil k js) (by omega))

theorem reads_array (h : List.Forall₂ Reads js ds) : (array js).Reads (.sequence ds) := by
  intro level limit rest hl
  cases limit with
  | zero => cases js <;> cases hl
  | succ limit =>
    cases h with
    | nil => rfl
    | @cons j d js ds first others =>
      have bounded : (prettyItems (level + 1) (j :: js)).length ≤ limit := by
        simp only [prettyChars, List.length_append, List.length_cons] at hl
        omega
      simp only [prettyChars, List.cons_append, List.append_assoc, List.nil_append]
      refine value_array
        (items_prettyItems (.cons first others) (List.cons_ne_nil j js) bounded level) ?_
      cases js with
      | nil =>
        rw [prettyItems, List.append_assoc]
        exact first.skipBlanks_ne _
      | cons k js =>
        rw [prettyItems_cons, List.append_assoc, List.append_assoc]
        exact first.skipBlanks_ne _

/-- Members are read up to the brace at the end of their object. -/
theorem members_prettyMembers
    (h : List.Forall₂ (fun m e => e.1 = .text m.1 ∧ Reads m.2 e.2) ms es) (hne : ms ≠ [])
    (hl : (prettyMembers level ms).length ≤ limit) (below : Nat) :
    members limit (prettyMembers level ms ++ (newLine below ++ '\x7d' :: rest)) = some (es, rest) := by
  induction h generalizing limit with
  | nil => exact absurd rfl hne
  | @cons m e ms es first others ih =>
    obtain ⟨name, j⟩ := m
    obtain ⟨_, d⟩ := e
    obtain ⟨rfl, hd⟩ := first
    have name_read (rest : List Char) :
        quoted (skipBlanks (newLine level ++ (quote name ++ rest))) = some (.text name, rest) := by
      rw [skipBlanks_newLine]
      exact quoted_quote name
    have value_read (limit : Nat) (hl : (prettyChars level j).length ≤ limit) (rest : List Char) :
        value limit (' ' :: (prettyChars level j ++ rest)) = some (d, rest) := by
      have blank : skipBlanks (' ' :: (prettyChars level j ++ rest)) =
          skipBlanks (prettyChars level j ++ rest) := rfl
      rw [value_congr blank]
      exact hd level limit rest hl
    cases limit with
    | zero => cases ms <;> cases hl
    | succ limit =>
    cases others with
    | nil =>
      simp only [prettyMembers, List.length_append, List.length_cons] at hl
      simp only [prettyMembers, List.append_assoc, List.cons_append]
      exact members_last (name_read _) rfl (value_read limit (by omega) _) (skipBlanks_newLine below _)
    | @cons n e ms es second others =>
      simp only [prettyMembers_cons, List.length_append, List.length_cons] at hl
      simp only [prettyMembers_cons, List.append_assoc, List.cons_append]
      have value := value_read limit (by omega)
      exact members_comma (name_read _) rfl (value _) rfl (ih (List.cons_ne_nil n ms) (by omega))

theorem reads_object (h : List.Forall₂ (fun m e => e.1 = .text m.1 ∧ Reads m.2 e.2) ms es) :
    (object ms).Reads (.mapping es) := by
  intro level limit rest hl
  cases limit with
  | zero => cases ms <;> cases hl
  | succ limit =>
    cases h with
    | nil => rfl
    | @cons m e ms es first others =>
      have bounded : (prettyMembers (level + 1) (m :: ms)).length ≤ limit := by
        simp only [prettyChars, List.length_append, List.length_cons] at hl
        omega
      simp only [prettyChars, List.cons_append, List.append_assoc, List.nil_append]
      refine value_object
        (members_prettyMembers (.cons first others) (List.cons_ne_nil m ms) bounded level) fun _ => ?_
      cases ms with
      | nil =>
        rw [prettyMembers, List.append_assoc, List.append_assoc, skipBlanks_newLine]
        intro heq
        cases heq
      | cons n ms =>
        rw [prettyMembers_cons, List.append_assoc, skipBlanks_newLine]
        intro heq
        cases heq

/-- A text without blanks at either end is read as a whole. -/
theorem Reads.ofJson?_pretty (h : j.Reads d) : Document.ofJson? j.pretty = some d := by
  have read := h 0 (2 * (prettyChars 0 j).length + 2) [] (by omega)
  rw [List.append_nil] at read
  simp only [Document.ofJson?, pretty, String.toList_ofList, read]
  rfl

end Json

namespace Definition

/-- A definition as a document. -/
def toDocument (d : Definition) : Document :=
  .mapping [(.text "keyspace", .text d.keyspace), (.text "name", .text d.name),
    (.text "fields", .sequence (d.fields.map fun f =>
      .mapping [(.text "name", .text f.1), (.text "type", .text f.2)]))]

theorem reads_toJson (d : Definition) : d.toJson.Reads d.toDocument := by
  have texts (name s : String) :
      Document.text name = .text name ∧ (Json.text s).Reads (.text s) := ⟨rfl, Json.reads_text s⟩
  have field (f : String × String) :
      (Json.object [("name", .text f.1), ("type", .text f.2)]).Reads
        (.mapping [(.text "name", .text f.1), (.text "type", .text f.2)]) :=
    Json.reads_object (.cons (texts _ f.1) (.cons (texts _ f.2) .nil))
  have fields := Json.reads_array (List.forall₂_map_left_iff.mpr
    (List.forall₂_map_right_iff.mpr (List.forall₂_same.mpr fun f (_ : f ∈ d.fields) => field f)))
  exact Json.reads_object (.cons (texts _ d.keyspace) (.cons (texts _ d.name)
    (.cons ⟨rfl, fields⟩ .nil)))

theorem mapM_map_eq_some {α β : Type} {read : β → Option α} {write : α → β}
    (h : ∀ a, read (write a) = some a) (l : List α) : (l.map write).mapM read = some l := by
  have inverse : read ∘ write = fun a => pure (id a) := funext h
  rw [List.mapM_map, inverse, List.mapM_pure, List.map_id]
  rfl

theorem fieldOf?_field (f : String × String) :
    fieldOf? (.mapping [(.text "name", .text f.1), (.text "type", .text f.2)]) = some f := by
  simp [fieldOf?, Document.record?, Document.member?, Document.isNamed, Document.text?,
    Document.isKey]

theorem ofDocument?_toDocument (d : Definition) : ofDocument? d.toDocument = some d := by
  have fields := mapM_map_eq_some fieldOf?_field d.fields
  simp [ofDocument?, toDocument, Document.record?, Document.member?, Document.isNamed,
    Document.text?, Document.isKey, Document.sequence?, -List.mapM_map, fields]

/-- The definitions that a JSON text was made of are read from it. -/
theorem listOfJson_pretty (ds : List Definition) :
    listOfJson (Json.array (ds.map toJson)).pretty = .ok ds := by
  have each : List.Forall₂ Json.Reads (ds.map toJson) (ds.map toDocument) :=
    List.forall₂_map_left_iff.mpr (List.forall₂_map_right_iff.mpr
      (List.forall₂_same.mpr fun d _ => d.reads_toJson))
  have read : (Document.sequence (ds.map toDocument)).sequence?.bind (List.mapM ofDocument?) =
      some ds := mapM_map_eq_some ofDocument?_toDocument ds
  rw [listOfJson, (Json.reads_array each).ofJson?_pretty]
  simp only [Option.bind_eq_bind, Option.bind_some, read]

end Definition

end CqlWire
