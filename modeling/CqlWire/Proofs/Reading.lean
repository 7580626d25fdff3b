import CqlWire.Proofs.Resolution
import CqlWire.Type.Parser

namespace CqlWire

/-- The words that name a leaf type: its name, and `varchar` for text. -/
inductive Kind.Named : Kind → String → Prop
  | name (kind : Kind) : Named kind kind.name
  | varchar : Named .text "varchar"

/-- The words of leaf types, two without an encoding among them. -/
def leafWords : List String :=
  "varchar" :: "counter" :: "duration" :: Kind.all.map Kind.name

/-- The words before a bracketed list of types. -/
def bracketWords : List String :=
  ["list", "set", "map", "tuple", "frozen"]

theorem Kind.ofWord_eq_known {kind : Kind} {word : String} :
    ofWord word = .known kind ↔ kind.Named word := by
  constructor
  · intro h
    unfold ofWord at h
    split at h
    next hv =>
      cases h
      rw [hv]
      exact .varchar
    split at h
    next => cases h
    split at h
    next found hfound =>
      cases h
      have hname : kind.name = word := by simpa using List.find?_some hfound
      rw [← hname]
      exact .name kind
    next => cases h
  · rintro (_ | _)
    · exact ofWord_name kind
    · rfl

theorem Kind.ofWord_eq_other {word : String} : ofWord word = .other ↔ word ∉ leafWords := by
  unfold ofWord leafWords
  by_cases hv : word = "varchar"
  · simp [hv]
  by_cases hu : word = "counter" ∨ word = "duration"
  · rcases hu with rfl | rfl <;> simp
  rw [if_neg hv, if_neg hu]
  obtain ⟨hc, hd⟩ := not_or.mp hu
  split
  next kind hkind =>
    have hname : kind.name = word := by simpa using List.find?_some hkind
    simp [← hname, Kind.mem_all]
  next hnone =>
    simp only [List.find?_eq_none, decide_eq_true_eq] at hnone
    simp only [List.mem_cons, hv, hc, hd, List.mem_map, not_or, not_exists, not_and, true_iff,
      not_false_eq_true, true_and]
    exact hnone

theorem Kind.Named.not_mem {kind : Kind} {word : String} (h : kind.Named word) :
    word ∉ bracketWords := by
  cases h with
  | name => cases kind <;> decide
  | varchar => decide

/-- The types on record, by keyspace and name. -/
def Registry.types (r : Registry) (keyspace name : String) : Except Error DataType :=
  Udt.type <$> r.lookup keyspace name

namespace DataType

open Scan (Failure Word)

variable {r : Registry} {keyspace : String} {inner? : Option NameReader} {s u : Scan} {w : Word}
  {t : DataType}

/-- What is looked up for a text that was read up to a place. -/
def looked {α : Type} (x : Except Error α) (s : Scan) : Except Failure (α × Scan) :=
  match x with
  | .ok a => .ok (a, s)
  | .error e => .error (.other e)

theorem looked_eq_ok {α : Type} {x : Except Error α} {a : α} :
    looked x s = .ok (a, u) ↔ x = .ok a ∧ s = u := by
  cases x <;> simp [looked]

/-- A name without a keyspace of its own. -/
theorem readNamed_plain (h : s.skipBlanks.next? ≠ some '.') :
    readNamed r keyspace w s = looked (r.types keyspace w.text) s.skipBlanks := by
  unfold readNamed Registry.types
  simp only [if_neg h, pure_bind]
  cases r.lookup keyspace w.text <;> rfl

theorem readNamed_qualified (h : s.skipBlanks.next? = some '.') :
    readNamed r keyspace w s = (do
      let (v, u) ← s.skipBlanks.advance.word
      looked (r.types w.text v.text) u) := by
  unfold readNamed Registry.types
  simp only [if_pos h, pure_bind]
  congr 1
  funext ⟨v, u⟩
  cases r.lookup w.text v.text <;> rfl

/-- What the first word of a name can be. -/
inductive Leads : Word → Prop
  | quoted (name : String) : Leads ⟨name, true⟩
  | list : Leads ⟨"list", false⟩
  | set : Leads ⟨"set", false⟩
  | map : Leads ⟨"map", false⟩
  | frozen : Leads ⟨"frozen", false⟩
  | tuple : Leads ⟨"tuple", false⟩
  | plain {name : String} (h : name ∉ bracketWords) : Leads ⟨name, false⟩

theorem leads (w : Word) : Leads w := by
  obtain ⟨name, quoted⟩ := w
  cases quoted with
  | true => exact .quoted name
  | false =>
    by_cases h : name ∈ bracketWords
    · simp only [bracketWords, List.mem_cons, List.not_mem_nil, or_false] at h
      rcases h with rfl | rfl | rfl | rfl | rfl
      · exact .list
      · exact .set
      · exact .map
      · exact .tuple
      · exact .frozen
    · exact .plain h

theorem readWith_quoted (h : s.word = .ok (w, u)) (hw : w.quoted = true) :
    readWith r keyspace inner? s = readNamed r keyspace w u := by
  simp only [readWith, h, bind, Except.bind, if_pos hw]

theorem readWith_list (h : s.word = .ok (⟨"list", false⟩, u)) :
    readWith r keyspace inner? s = (do
      let (t, s) ← readOne inner? u
      return (.list t, s)) := by
  rw [readWith, h]
  rfl

theorem readWith_set (h : s.word = .ok (⟨"set", false⟩, u)) :
    readWith r keyspace inner? s = (do
      let (t, s) ← readOne inner? u
      return (.set t, s)) := by
  rw [readWith, h]
  rfl

theorem readWith_map (h : s.word = .ok (⟨"map", false⟩, u)) :
    readWith r keyspace inner? s = (do
      let ((k, v), s) ← readTwo inner? u
      return (.map k v, s)) := by
  rw [readWith, h]
  rfl

theorem readWith_frozen (h : s.word = .ok (⟨"frozen", false⟩, u)) :
    readWith r keyspace inner? s = (do
      let (t, s) ← readOne inner? u
      return (t.freeze, s)) := by
  rw [readWith, h]
  rfl

theorem readWith_tuple (h : s.word = .ok (⟨"tuple", false⟩, u)) :
    readWith r keyspace inner? s = (do
      let (ts, s) ← readBracketed inner? u
      return (.tuple ts, s)) := by
  rw [readWith, h]
  rfl

theorem readWith_plain (h : s.word = .ok (w, u)) (hq : w.quoted = false)
    (hw : w.text ∉ bracketWords) :
    readWith r keyspace inner? s =
      if u.skipBlanks.next? = some '.' then readNamed r keyspace w u
      else
        match Kind.ofWord w.text with
        | .known kind => .ok (.leaf kind, u.skipBlanks)
        | .unsupported name => .error (.other (.unsupported name))
        | .other => readNamed r keyspace w u := by
  simp only [bracketWords, List.mem_cons, List.not_mem_nil, or_false, not_or] at hw
  obtain ⟨hlist, hset, hmap, htuple, hfrozen⟩ := hw
  rw [readWith, h]
  simp only [bind, Except.bind, hq, hlist, hset, hmap, htuple, hfrozen, Bool.false_eq_true, if_false]
  rfl

/-- A word that has no other meaning is a name. -/
theorem readWith_named (h : s.word = .ok (w, u))
    (hw : w.quoted = true ∨ w.text ∉ bracketWords ∧ w.text ∉ leafWords)
    (hpoint : u.skipBlanks.next? ≠ some '.') :
    readWith r keyspace inner? s = readNamed r keyspace w u := by
  cases hq : w.quoted with
  | true => exact readWith_quoted h hq
  | false =>
    obtain ⟨hb, hl⟩ := hw.resolve_left (by simp [hq])
    rw [readWith_plain h hq hb, if_neg hpoint, Kind.ofWord_eq_other.mpr hl]

theorem readWith_qualified (h : s.word = .ok (w, u)) (hw : w.quoted = true ∨ w.text ∉ bracketWords)
    (hpoint : u.skipBlanks.next? = some '.') :
    readWith r keyspace inner? s = readNamed r keyspace w u := by
  cases hq : w.quoted with
  | true => exact readWith_quoted h hq
  | false =>
    rw [readWith_plain h hq (hw.resolve_left (by simp [hq]))]
    exact if_pos hpoint

end DataType

end CqlWire
