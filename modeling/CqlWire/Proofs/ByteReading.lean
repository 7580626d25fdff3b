import CqlWire.Proofs.Boundaries
import CqlWire.Proofs.Reading

namespace CqlWire

namespace DataType

variable {r : Registry} {keyspace : String} {inner? : Option NameReader} {s : Scan} {arity : Nat}

/-- Refuses a number of types other than `arity`, which is left open as zero. -/
def counted (arity : Nat) : List DataType × Scan → Except Scan.Failure (List DataType × Scan)
  | (ts, s) =>
    if arity ≠ 0 ∧ ts.length ≠ arity then s.fail (.wrongArity arity ts.length) else .ok (ts, s)

/-- A bracketed list of types, `arity` of them unless that is zero. -/
def readCounted (inner? : Option NameReader) (arity : Nat) (s : Scan) :
    Except Scan.Failure (List DataType × Scan) :=
  readBracketed inner? s >>= counted arity

theorem readNamed_skipBlanks {w : Scan.Word} :
    readNamed r keyspace w s.skipBlanks = readNamed r keyspace w s := by
  rw [readNamed, readNamed, Scan.skipBlanks_idem]

theorem readBracketed_eq_counted : readBracketed inner? s = readCounted inner? 0 s := by
  rw [readCounted]
  rcases readBracketed inner? s with e | ⟨ts, u⟩ <;> rfl

theorem readOne_eq_counted : readOne inner? s = (do
    let (ts, u) ← readCounted inner? 1 s
    return (ts.headD (.leaf .empty), u)) := by
  rw [readOne, readCounted]
  rcases readBracketed inner? s with e | ⟨_ | ⟨t, _ | ⟨t', ts⟩⟩, u⟩
  · rfl
  · rfl
  · rfl
  · rfl

theorem readTwo_eq_counted : (do
    let ((k, v), u) ← readTwo inner? s
    return (DataType.map k v, u)) = (do
    let (ts, u) ← readCounted inner? 2 s
    match ts with
    | k :: v :: _ => return (.map k v, u)
    | ts => u.fail (.wrongArity 2 ts.length)) := by
  rw [readTwo, readCounted]
  rcases readBracketed inner? s with e | ⟨_ | ⟨k, _ | ⟨v, _ | ⟨t, ts⟩⟩⟩, u⟩
  · rfl
  · rfl
  · rfl
  · rfl
  · rfl

/-- What reads the types between brackets, with so many brackets open around them. -/
def within? (r : Registry) (keyspace : String) (brackets : Nat) : Option NameReader :=
  if brackets < nestingLimit then some (readWithin r keyspace (nestingLimit - (brackets + 1)))
  else none

theorem readWithin_eq_within (r : Registry) (keyspace : String) (brackets : Nat) :
    readWithin r keyspace (nestingLimit - brackets) =
      readWith r keyspace (within? r keyspace brackets) := by
  rw [within?]
  split
  next h =>
    have hlevels : nestingLimit - brackets = nestingLimit - (brackets + 1) + 1 := by omega
    rw [hlevels, readWithin]
  next h => rw [Nat.sub_eq_zero_of_le (Nat.le_of_not_lt h), readWithin]

/-- The type that a whole text names, and the place at its end. -/
def readToEnd (r : Registry) (keyspace input : String) :
    Except Scan.Failure (DataType × Scan) := do
  let (t, s) ← readWithin r keyspace nestingLimit (.ofString input)
  if s.skipBlanks.rest = [] then return (t, s.skipBlanks) else s.skipBlanks.fail .trailing

theorem parse_eq_readToEnd (r : Registry) (keyspace input : String) :
    parse r keyspace input = (Prod.fst <$> readToEnd r keyspace input).mapError
      (ByteScan.report input) := by
  have hmap : (do
      let (t, s) ← readWithin r keyspace nestingLimit (.ofString input)
      let s := s.skipBlanks
      if s.rest = [] then return t else s.fail .trailing) =
        Prod.fst <$> readToEnd r keyspace input := by
    rw [readToEnd, map_bind]
    congr 1
    funext ⟨t, s⟩
    dsimp only
    split <;> rfl
  rw [parse, hmap]
  rcases Prod.fst <$> readToEnd r keyspace input with (⟨cause, offset⟩ | e) | t
  · rfl
  · rfl
  · rfl

end DataType

namespace ByteScan

open Scan (Failure Word)
open DataType (NameReader readCounted within?)

variable {input keyspace : String} {r : Registry} {s u : Scan} {n fuel arity limit : Nat} {w : Word}
  {read : NameReader}

theorem agrees_looked (k name : String) (s : Scan) :
    Agrees s n ((match r.lookup k name with
      | .ok found => (pure found.type : Step DataType)
      | .error e => throw (Failure.other e)) ⟨s.offset, n⟩)
      (DataType.looked (r.types k name) s) := by
  rw [Registry.types]
  cases h : r.lookup k name with
  | ok found => exact .ok _ (.refl s)
  | error e =>
    obtain ⟨-, rfl⟩ := Registry.lookup_eq_error h
    exact .other (.refl s) (by simp)

theorem agrees_readNamed (h : (Scan.ofString input).Reaches s) (hf : s.rest.length < fuel) :
    Agrees s n (readNamed input r keyspace fuel w ⟨s.offset, n⟩)
      (DataType.readNamed r keyspace w s) := by
  have hblanks := s.reaches_skipBlanks
  have hstart := h.trans hblanks
  refine .trans hblanks ?_
  rw [readNamed, skipBlanks_bind h hf, bind_of_ok (next?_eq hstart)]
  by_cases hpoint : s.skipBlanks.next? = some '.'
  · have hname := s.skipBlanks.reaches_advance
    have hleft := Nat.lt_of_le_of_lt (hblanks.trans hname).length_le hf
    rw [DataType.readNamed_qualified hpoint, if_pos hpoint, skip_one_bind hpoint rfl]
    have hword := agrees_word (n := n) (hstart.trans hname) hleft
    exact .trans hname (hword.bind fun v u _ _ => agrees_looked _ _ u)
  · rw [DataType.readNamed_plain hpoint, if_neg hpoint]
    exact agrees_looked _ _ _

theorem Agrees.bind_place {α β : Type} {x : Step α} {a : α} {f : α → Step β} {p : ByteScan}
    {y : Except Failure Scan} {g : Scan → Except Failure (β × Scan)}
    (h : Agrees s n (x p) ((fun u => (a, u)) <$> y))
    (hf : ∀ u, y = .ok u → s.Reaches u → Agrees u n (f a ⟨u.offset, n⟩) (g u)) :
    Agrees s n ((x >>= f) p) (y >>= g) := by
  rw [← bind_map_left (fun u => (a, u)) y fun v => g v.2]
  refine h.bind fun b u hv hu => ?_
  obtain ⟨v, hy, hv⟩ := map_eq_ok.mp hv
  cases hv
  exact hf _ hy hu

theorem agrees_expect {want : Char} (h : (Scan.ofString input).Reaches s)
    (hf : s.rest.length < fuel) : Agrees s n (expect input fuel want ⟨s.offset, n⟩)
      ((fun u => ((), u)) <$> s.expect want) := by
  have hstart := h.trans s.reaches_skipBlanks
  refine .trans s.reaches_skipBlanks ?_
  rw [expect, skipBlanks_bind h hf, bind_of_ok (next?_eq hstart), Scan.expect]
  cases hnext : s.skipBlanks.next? with
  | none => exact .fault _ (.refl _)
  | some c =>
    simp only [Option.some.injEq]
    by_cases hc : c = want
    · rw [if_pos hc, if_pos hc]
      have hskip : skip c.utf8Size ⟨s.skipBlanks.offset, n⟩ =
          some (.ok (), ⟨s.skipBlanks.advance.offset, n⟩) := by
        rw [Scan.advance_offset hnext]
        rfl
      rw [hskip]
      exact .ok _ s.skipBlanks.reaches_advance
    · rw [if_neg hc, if_neg hc]
      exact .fault _ (.refl _)

/-- With enough fuel the types of a text are read on its bytes as `read` reads them. A type between
brackets is read three calls below the one around them, behind one character at least. -/
def Reads (input : String) (r : Registry) (keyspace : String) (fuel n : Nat) (read : NameReader) :
    Prop :=
  ∀ s, (Scan.ofString input).Reaches s → 3 * s.rest.length + 3 ≤ fuel →
    Agrees s n (readType input r keyspace fuel ⟨s.offset, n⟩) (read s)

/-- The loop over the types between brackets, behind those that have been read. -/
theorem agrees_further (hread : ∀ m ≤ fuel, Reads input r keyspace m n read)
    (h : (Scan.ofString input).Reaches s) (hf : 3 * s.rest.length + 3 ≤ fuel)
    (hlimit : s.rest.length < limit) (done : List DataType) :
    Agrees s n ((do
        let t ← readType input r keyspace fuel
        readFurther input r keyspace fuel (done ++ [t])) ⟨s.offset, n⟩)
      ((fun v => (done ++ v.1, v.2)) <$> DataType.readArguments read limit s) := by
  induction fuel generalizing s limit done with
  | zero => omega
  | succ fuel ih =>
    obtain ⟨limit, rfl⟩ := Nat.exists_eq_add_of_lt hlimit
    rw [DataType.readArguments, map_bind]
    refine (hread _ (Nat.le_refl _) s h hf).bind fun t u _ hu => ?_
    have hleft := hu.length_le
    have hstart := (h.trans hu).trans u.reaches_skipBlanks
    rw [readFurther, skipBlanks_bind (h.trans hu) (by omega), bind_of_ok (next?_eq hstart)]
    refine .trans u.reaches_skipBlanks ?_
    dsimp only
    have hblanks := u.reaches_skipBlanks.length_le
    have hnext := u.skipBlanks.reaches_advance
    by_cases hcomma : u.skipBlanks.next? = some ','
    · have hlength := Scan.length_advance hcomma
      rw [if_pos hcomma, if_pos hcomma, skip_one_bind hcomma rfl,
        map_cons (g := fun ts => (done ++ [t]) ++ ts) (by simp)]
      exact .trans hnext (ih (fun m hm => hread m (Nat.le_succ_of_le hm)) (hstart.trans hnext)
        (by omega) (by omega) (done ++ [t]))
    rw [if_neg hcomma, if_neg hcomma]
    by_cases hclosing : u.skipBlanks.next? = some '>'
    · rw [if_pos hclosing, if_pos hclosing, skip_one_bind hclosing rfl]
      exact .ok _ hnext
    · rw [if_neg hclosing, if_neg hclosing]
      exact .fault .expectedSeparator (.refl _)

/-- The bracket that was opened for a list is closed behind it. -/
theorem Agrees.closed {α : Type} {o : Option (Except Failure α × ByteScan)}
    {y : Except Failure (α × Scan)} (h : Agrees s (n + 1) o y) :
    Agrees s n (do
      let (outcome, p) ← o
      return (outcome, ← p.closeBracket?)) y := by
  cases h with
  | ok a h => exact .ok a h
  | fault cause h => exact .fault cause h
  | other h he => exact .other h he

theorem agrees_checkArity (ts : List DataType) (s : Scan) :
    Agrees s n (checkArity arity ts ⟨s.offset, n⟩) (DataType.counted arity (ts, s)) := by
  rw [checkArity, DataType.counted]
  by_cases h : arity ≠ 0 ∧ ts.length ≠ arity
  · rw [if_pos h, if_pos h]
    exact .fault _ (.refl s)
  · rw [if_neg h, if_neg h]
    exact .ok ts (.refl s)

theorem agrees_readArguments (hread : ∀ m < fuel, Reads input r keyspace m n read)
    (h : (Scan.ofString input).Reaches s) (hf : 3 * s.rest.length + 4 ≤ fuel) :
    Agrees s n (readArguments input r keyspace fuel arity ⟨s.offset, n⟩)
      (DataType.readArguments read (s.rest.length + 1) s >>= DataType.counted arity) := by
  obtain ⟨fuel, rfl⟩ := Nat.exists_eq_add_of_le' (Nat.le_trans (Nat.le_add_left 1 _) hf)
  have hlist := agrees_further (fun m hm => hread m (Nat.lt_succ_of_le hm)) h (by omega)
    (Nat.lt_succ_self _) []
  simp only [List.nil_append, id_map'] at hlist
  rw [readArguments, ← bind_assoc]
  exact hlist.bind fun ts u _ _ => agrees_checkArity ts u

theorem agrees_readBracketed
    (hread : ∀ m < fuel, Reads input r keyspace m (n + 1)
      (DataType.readWithin r keyspace (nestingLimit - (n + 1))))
    (h : (Scan.ofString input).Reaches s) (hf : 3 * s.rest.length + 2 ≤ fuel) :
    Agrees s n (readBracketed input r keyspace fuel arity ⟨s.offset, n⟩)
      (readCounted (within? r keyspace n) arity s) := by
  obtain ⟨fuel, rfl⟩ := Nat.exists_eq_add_of_le' (Nat.le_trans (Nat.le_add_left 1 _) hf)
  rw [readBracketed, readCounted, DataType.readBracketed, bind_assoc]
  refine (agrees_expect h (by omega)).bind_place fun u hopen hu => ?_
  obtain ⟨hnext, rfl⟩ := Scan.expect_eq_ok hopen
  have hlength := Scan.length_advance hnext
  have hblanks := s.reaches_skipBlanks.length_le
  rw [get_bind, within?]
  by_cases hdeep : nestingLimit ≤ n
  · rw [if_pos hdeep, if_neg (Nat.not_lt_of_le hdeep)]
    exact .fault _ (.refl _)
  · rw [if_neg hdeep, if_pos (Nat.lt_of_not_le hdeep)]
    refine Agrees.closed (agrees_readArguments ?_ (h.trans hu) (by omega))
    exact fun m hm => hread m (Nat.lt_succ_of_lt hm)

theorem agrees_readOne {inner? : Option NameReader} (make : DataType → DataType)
    (h : Agrees s n (readBracketed input r keyspace fuel 1 ⟨s.offset, n⟩)
      (readCounted inner? 1 s)) :
    Agrees s n ((do
        let ts ← readBracketed input r keyspace fuel 1
        return make (ts.headD (.leaf .empty))) ⟨s.offset, n⟩)
      (do
        let (t, u) ← DataType.readOne inner? s
        return (make t, u)) := by
  rw [DataType.readOne_eq_counted, bind_assoc]
  exact h.bind fun _ u _ _ => .ok _ (.refl u)

theorem agrees_readTwo {inner? : Option NameReader}
    (h : Agrees s n (readBracketed input r keyspace fuel 2 ⟨s.offset, n⟩)
      (readCounted inner? 2 s)) :
    Agrees s n ((do
        match ← readBracketed input r keyspace fuel 2 with
        | k :: v :: _ => return DataType.map k v
        | types => fail (.wrongArity 2 types.length)) ⟨s.offset, n⟩)
      (do
        let ((k, v), u) ← DataType.readTwo inner? s
        return (.map k v, u)) := by
  rw [DataType.readTwo_eq_counted]
  refine h.bind fun ts u _ _ => ?_
  rcases ts with _ | ⟨k, _ | ⟨v, ts⟩⟩
  · exact .fault _ (.refl u)
  · exact .fault _ (.refl u)
  · exact .ok _ (.refl u)

/-- The brackets that are open and the levels that are left make up the limit. -/
theorem reads_readWithin (fuel n : Nat) :
    Reads input r keyspace fuel n (DataType.readWithin r keyspace (nestingLimit - n)) := by
  -- The types between brackets are read with less fuel, but not with one less.
  induction fuel using Nat.strongRecOn generalizing n with
  | _ fuel ih =>
    intro s h hf
    obtain ⟨fuel, rfl⟩ := Nat.exists_eq_add_of_le' (Nat.le_trans (Nat.le_add_left 1 _) hf)
    rw [DataType.readWithin_eq_within, DataType.readWith, readType]
    refine (agrees_word h (by omega)).bind fun w u hw hu => ?_
    have hstart := h.trans hu
    have hleft := hu.length_le
    have hfuel : u.rest.length < fuel := by omega
    have hlist (arity : Nat) : Agrees u n (readBracketed input r keyspace fuel arity ⟨u.offset, n⟩)
        (readCounted (within? r keyspace n) arity u) :=
      agrees_readBracketed (fun m hm => ih m (Nat.lt_succ_of_lt hm) (n + 1)) hstart (by omega)
    cases DataType.leads w with
    | quoted name =>
      rw [if_pos rfl]
      exact agrees_readNamed hstart hfuel
    | list =>
      simp only [Bool.false_eq_true, String.reduceEq, reduceIte]
      exact agrees_readOne .list (hlist 1)
    | set =>
      simp only [Bool.false_eq_true, String.reduceEq, reduceIte]
      exact agrees_readOne .set (hlist 1)
    | map =>
      simp only [Bool.false_eq_true, String.reduceEq, reduceIte]
      exact agrees_readTwo (hlist 2)
    | frozen =>
      simp only [Bool.false_eq_true, String.reduceEq, reduceIte]
      exact agrees_readOne DataType.freeze (hlist 1)
    | tuple =>
      simp only [Bool.false_eq_true, String.reduceEq, reduceIte]
      rw [DataType.readBracketed_eq_counted]
      exact (hlist 0).bind fun ts u _ _ => .ok (DataType.tuple ts) (.refl u)
    | @plain name hn =>
      simp only [bracketWords, List.mem_cons, List.not_mem_nil, or_false, not_or] at hn
      obtain ⟨notList, notSet, notMap, notTuple, notFrozen⟩ := hn
      simp only [Bool.false_eq_true, notList, notSet, notMap, notTuple, notFrozen, if_false]
      have hblanks := u.reaches_skipBlanks
      have hnamed : Agrees u.skipBlanks n
          (readNamed input r keyspace fuel ⟨name, false⟩ ⟨u.skipBlanks.offset, n⟩)
          (DataType.readNamed r keyspace ⟨name, false⟩ u) := by
        rw [← DataType.readNamed_skipBlanks]
        exact agrees_readNamed (hstart.trans hblanks) (Nat.lt_of_le_of_lt hblanks.length_le hfuel)
      rw [skipBlanks_bind hstart hfuel, bind_of_ok (next?_eq (hstart.trans hblanks))]
      refine .trans hblanks ?_
      by_cases hpoint : u.skipBlanks.next? = some '.'
      · rw [if_pos hpoint, if_pos hpoint]
        exact hnamed
      · rw [if_neg hpoint, if_neg hpoint]
        cases Kind.ofWord name with
        | known kind => exact .ok _ (.refl _)
        | unsupported word => exact .other (.refl _) (by simp)
        | other => exact hnamed

theorem agrees_readWhole (hf : 3 * (input.length + 1) ≤ fuel) :
    Agrees (.ofString input) 0 (readWhole input r keyspace fuel ⟨0, 0⟩)
      (DataType.readToEnd r keyspace input) := by
  have hlength : (Scan.ofString input).rest.length = input.length := String.length_toList
  rw [readWhole]
  refine (reads_readWithin fuel 0 _ (.refl _) (by omega)).bind fun t s _ hs => ?_
  have hleft := hs.length_le
  have hend := hs.trans s.reaches_skipBlanks
  rw [skipBlanks_bind hs (by omega), get_bind]
  refine .trans s.reaches_skipBlanks ?_
  dsimp only
  by_cases hrest : s.skipBlanks.rest = []
  · rw [if_pos hrest, if_pos (hend.offset_eq_size_iff.mpr hrest)]
    exact .ok t (.refl _)
  · rw [if_neg hrest, if_neg (mt hend.offset_eq_size_iff.mp hrest)]
    exact .fault .trailing (.refl _)

/-- The bytes of a text name what its characters name. -/
theorem exists_parse (r : Registry) (keyspace : String) (hf : 3 * (input.length + 1) ≤ fuel) :
    ∃ offset, IsBoundary input offset ∧
      parse fuel r keyspace input = some (DataType.parse r keyspace input, ⟨offset, 0⟩) ∧
      ∀ text cause place, DataType.parse r keyspace input = .error (.badTypeName text cause place) →
        text = input ∧ place = offset := by
  have hwhole : Agrees (.ofString input) 0 (readWhole input r keyspace fuel ⟨0, 0⟩) _ :=
    agrees_readWhole hf
  rw [DataType.parse_eq_readToEnd, parse]
  generalize DataType.readToEnd r keyspace input = y at hwhole
  generalize readWhole input r keyspace fuel ⟨0, 0⟩ = o at hwhole
  cases hwhole with
  | ok t h =>
    refine ⟨_, h.isBoundary, rfl, fun text cause place hp => ?_⟩
    cases hp
  | @fault u cause h =>
    refine ⟨_, h.isBoundary, rfl, fun text cause place hp => ?_⟩
    cases hp
    exact ⟨rfl, rfl⟩
  | other h he =>
    refine ⟨_, h.isBoundary, rfl, fun text cause place hp => ?_⟩
    cases hp
    exact absurd rfl (he _ _ _)

/-- The reading of a type name goes through the bytes of any text to an end, which is the type or
the error of `DataType.parse`, and cuts the text between characters only. An error in the text is
reported behind whole characters. Behind a bracketed list, whether it is read or refused, as many
brackets are open as before it. -/
theorem stays_on_boundaries (r : Registry) (keyspace input : String) (fuel : Nat)
    (hf : 3 * (input.length + 1) ≤ fuel) :
    (∃ offset, IsBoundary input offset ∧
      parse fuel r keyspace input = some (DataType.parse r keyspace input, ⟨offset, 0⟩)) ∧
    (∀ text cause offset,
      DataType.parse r keyspace input = .error (.badTypeName text cause offset) →
        text = input ∧ IsBoundary input offset) ∧
    ∀ arity (s : ByteScan), IsBoundary input s.offset →
      ∃ outcome offset, IsBoundary input offset ∧
        readBracketed input r keyspace fuel arity s = some (outcome, ⟨offset, s.brackets⟩) := by
  obtain ⟨offset, hoffset, hparse, herror⟩ := exists_parse r keyspace hf
  refine ⟨⟨offset, hoffset, hparse⟩, ?_, ?_⟩
  · intro text cause place h
    obtain ⟨htext, rfl⟩ := herror text cause place h
    exact ⟨htext, hoffset⟩
  · rintro arity ⟨offset, n⟩ hs
    obtain ⟨rest, hstart⟩ := Scan.exists_reaches_of_isBoundary hs
    have hleft : rest.length ≤ input.length :=
      Nat.le_trans hstart.length_le (Nat.le_of_eq String.length_toList)
    have hlist : Agrees ⟨offset, rest⟩ n
        (readBracketed input r keyspace fuel arity ⟨offset, n⟩) _ :=
      agrees_readBracketed (fun m _ => reads_readWithin m (n + 1)) hstart (by dsimp only; omega)
    obtain ⟨outcome, u, hu, ho⟩ := hlist.exists_outcome
    exact ⟨outcome, u.offset, (hstart.trans hu).isBoundary, ho⟩

/-- White space of two bytes behind a quoted name of two bytes: the error is eleven bytes into the
text, and nine characters. -/
theorem stays_on_boundaries_quoted :
    let input := "list<\"é\"\u00a0int>"
    let r := Registry.insert ⟨[]⟩ ⟨"shop", "é", []⟩
    3 * (input.length + 1) ≤ 60 ∧
      DataType.parse r "shop" input = .error (.badTypeName input .expectedSeparator 11) ∧
      IsBoundary input 11 ∧ ∃ outcome offset, IsBoundary input offset ∧
        readBracketed input r "shop" 60 1 ⟨4, 7⟩ = some (outcome, ⟨offset, 7⟩) := by
  intro input r
  have hf : 3 * (input.length + 1) ≤ 60 := by decide
  have herror : DataType.parse r "shop" input =
      .error (.badTypeName input .expectedSeparator 11) := by
    simp only [input, r]
    rfl
  have hopen : IsBoundary input 4 := ⟨"list", "<\"é\"\u00a0int>", by decide, by decide⟩
  obtain ⟨-, errors, lists⟩ := stays_on_boundaries r "shop" input 60 hf
  exact ⟨hf, herror, (errors _ _ _ herror).2, lists 1 ⟨4, 7⟩ hopen⟩

end ByteScan

end CqlWire
