import CqlWire.Proofs.Quoting

namespace CqlWire.DataType

open Scan (Spans)

variable {r : Registry} {keyspace name : String} {levels limit : Nat} {t o : DataType}
  {ts os : List DataType} {read : NameReader} {inner? : Option NameReader} {s s' u : Scan}

/-- The type with what the name of each user-defined type in it, by itself, is read as. -/
def reread (r : Registry) (keyspace : String) (t : DataType) : Except Error DataType :=
  expandWith (fun _ name => parse r keyspace (Quoted.identifier name)) t

/-- For the tokens of the type, up to the end of an argument, the reader gives nothing else. -/
def RereadBy (r : Registry) (keyspace : String) (read : NameReader) (t : DataType) : Prop :=
  ∀ {s s' u o}, Spans t.tokens s s' → s'.Closes → read s = .ok (o, u) →
    t.reread r keyspace = .ok o ∧ u.Meets s'

theorem reread_of_readArguments (h : ∀ t ∈ ts, RereadBy r keyspace read t) (hne : ts ≠ [])
    (hspans : Spans (tokensEach ts ++ [.mark .closing]) s s')
    (hread : readArguments read limit s = .ok (os, u)) :
    List.Forall₂ (fun t o => t.reread r keyspace = .ok o) ts os ∧ u.Meets s' := by
  induction ts generalizing limit s os with
  | nil => exact absurd rfl hne
  | cons t ts ih =>
    obtain ⟨first, others⟩ := List.forall_mem_cons.mp h
    cases limit with
    | zero => cases hread
    | succ limit =>
      obtain ⟨⟨o, v⟩, hv, hread⟩ := bind_eq_ok.mp hread
      dsimp only at hread
      cases ts with
      | nil =>
        obtain ⟨mid, hfirst, hclosing⟩ := hspans.split
        obtain ⟨ho, hmeets⟩ := first hfirst (Scan.closes_of_mark hclosing (.inr rfl)) hv
        obtain ⟨hnext, hrest⟩ := Scan.mark_of_spans (hmeets.spans hclosing)
        have hcomma : v.skipBlanks.next? ≠ some ',' := by
          rw [hnext]
          decide
        rw [if_neg hcomma] at hread
        cases (if_pos hnext).symm.trans hread
        exact ⟨.cons ho .nil, Scan.meets_of_spans hrest⟩
      | cons t' ts =>
        rw [tokensEach, List.append_assoc] at hspans
        obtain ⟨mid, hfirst, hcomma⟩ := hspans.split
        obtain ⟨ho, hmeets⟩ := first hfirst (Scan.closes_of_mark hcomma (.inl rfl)) hv
        obtain ⟨hnext, hrest⟩ := Scan.mark_of_spans (hmeets.spans hcomma)
        have hnext : v.skipBlanks.next? = some ',' := hnext
        rw [if_pos hnext] at hread
        obtain ⟨⟨rest, last⟩, hlast, hread⟩ := bind_eq_ok.mp hread
        cases hread
        obtain ⟨each, hend⟩ := ih others (List.cons_ne_nil t' ts) hrest hlast
        exact ⟨.cons ho each, hend⟩

/-- The reader of what may stand between brackets gives nothing else for any of the types there. -/
theorem reread_of_readBracketed
    (h : ∀ read ∈ inner?, ∀ t ∈ ts, RereadBy r keyspace read t) (hne : ts ≠ [])
    (hspans : Spans (.mark .opening :: (tokensEach ts ++ [.mark .closing])) s s')
    (hread : readBracketed inner? s = .ok (os, u)) :
    List.Forall₂ (fun t o => t.reread r keyspace = .ok o) ts os ∧ u.Meets s' := by
  obtain ⟨v, hv, hread⟩ := bind_eq_ok.mp hread
  obtain ⟨-, rfl⟩ := Scan.expect_eq_ok hv
  cases inner? with
  | none => cases hread
  | some read => exact reread_of_readArguments (h read rfl) hne (Scan.mark_of_spans hspans).2 hread

theorem reread_of_readOne (h : ∀ read ∈ inner?, RereadBy r keyspace read t)
    (hspans : Spans (.mark .opening :: (t.tokens ++ [.mark .closing])) s s')
    (hread : readOne inner? s = .ok (o, u)) : t.reread r keyspace = .ok o ∧ u.Meets s' := by
  obtain ⟨⟨os, v⟩, hos, hread⟩ := bind_eq_ok.mp hread
  have inner : ∀ read ∈ inner?, ∀ t' ∈ [t], RereadBy r keyspace read t' := fun read hr =>
    List.forall_mem_singleton.mpr (h read hr)
  obtain ⟨each, hend⟩ := reread_of_readBracketed inner (List.cons_ne_nil t []) hspans hos
  cases each with
  | cons ho rest =>
    cases rest
    cases hread
    exact ⟨ho, hend⟩

theorem rereadBy_leaf (kind : Kind) : RereadBy r keyspace (readWith r keyspace inner?) (.leaf kind) := by
  intro s s' u o hspans hc hread
  obtain ⟨v, hv, hmeets⟩ := accepts_leaf (.name kind) hspans hc
  cases hv.symm.trans hread
  exact ⟨rfl, hmeets⟩

/-- A name that is a word of the grammar is read as that word, inside other types as well. -/
theorem rereadBy_udt (k name : String) (fields : FieldTypes) :
    RereadBy r keyspace (readWith r keyspace inner?) (.udt k name fields) := by
  intro s s' u o hspans hc hread
  replace hspans : Spans [.ofIdentifier name] s s' := hspans
  by_cases hb : name ∈ bracketWords
  · rw [Token.ofIdentifier_of_isPlain (Quoted.isPlain_of_mem (.inl hb))] at hspans
    obtain ⟨v, hv, hmeets⟩ := exists_word_of_spans hspans hc
    have hopen : v.skipBlanks.next? ≠ some '<' := by
      intro hnext
      rcases hc.of_meets hmeets _ hnext with hc | hc
      · exact absurd hc (by decide)
      · exact absurd hc (by decide)
    cases (readWith_eq_error hb hv hopen).symm.trans hread
  by_cases hl : name ∈ leafWords
  · rw [Token.ofIdentifier_of_isPlain (Quoted.isPlain_of_mem (.inr hl))] at hspans
    rcases Kind.named_or_unsupported hl with ⟨kind, hk⟩ | hu
    · obtain ⟨v, hv, hmeets⟩ := accepts_leaf hk hspans hc
      cases hv.symm.trans hread
      exact ⟨parse_identifier_leaf hk, hmeets⟩
    · obtain ⟨v, hv, hmeets⟩ := exists_word_of_spans hspans hc
      rw [readWith_plain hv rfl hb, if_neg (hc.of_meets hmeets).next?_ne_point,
        Kind.ofWord_eq_unsupported hu] at hread
      cases hread
  · obtain ⟨v, hv, hmeets⟩ := exists_word_of_spans hspans hc
    have hpoint := (hc.of_meets hmeets).next?_ne_point
    rw [readWith_named hv (.inr ⟨hb, hl⟩) hpoint, readNamed_plain hpoint] at hread
    obtain ⟨ho, rfl⟩ := looked_eq_ok.mp hread
    exact ⟨(parse_identifier hb hl).trans ho, hmeets.skipBlanks⟩

/-- One bracket further inside, the reader has one level less, if any is left. -/
theorem exists_rereading (levels : Nat)
    (h : ∀ t ∈ ts, ∀ levels, RereadBy r keyspace (readWithin r keyspace levels) t) :
    ∃ inner?, readWithin r keyspace levels = readWith r keyspace inner? ∧
      ∀ read ∈ inner?, ∀ t ∈ ts, RereadBy r keyspace read t := by
  cases levels with
  | zero => exact ⟨none, rfl, nofun⟩
  | succ levels =>
    refine ⟨_, rfl, ?_⟩
    rintro read ⟨⟩ t ht
    exact h t ht levels

/-- A type around one other, which is between brackets behind its word. -/
theorem rereadBy_wrapped {word : String} {wrap : DataType → DataType}
    (inside : ∀ levels, RereadBy r keyspace (readWithin r keyspace levels) t)
    (htokens : o.tokens = bracketed word t.tokens)
    (hread : ∀ {inner? s u}, s.word = .ok (⟨word, false⟩, u) → readWith r keyspace inner? s = (do
      let (p, s) ← readOne inner? u
      return (wrap p, s)))
    (hreread : o.reread r keyspace = (do return wrap (← t.reread r keyspace))) (levels : Nat) :
    RereadBy r keyspace (readWithin r keyspace levels) o := by
  obtain ⟨inner?, heq, hinner⟩ := exists_rereading levels (List.forall_mem_singleton.mpr inside)
  intro s s' u o' hspans hc h
  rw [htokens] at hspans
  obtain ⟨v, hv, hrest⟩ := bracketed_of_spans hspans
  rw [heq, hread hv] at h
  obtain ⟨⟨p, last⟩, hp, h⟩ := bind_eq_ok.mp h
  cases h
  obtain ⟨ho, hmeets⟩ := reread_of_readOne (fun read hr => hinner read hr t (by simp)) hrest hp
  rw [hreread, ho]
  exact ⟨rfl, hmeets⟩

theorem rereadBy_readWithin (htuple : ∀ u ∈ t.nodes, u ≠ .tuple []) (levels : Nat) :
    RereadBy r keyspace (readWithin r keyspace levels) t := by
  induction t generalizing levels with
  | leaf kind =>
    obtain ⟨inner?, heq⟩ := readWithin_eq r keyspace levels
    rw [heq]
    exact rereadBy_leaf kind
  | list t ih =>
    exact rereadBy_wrapped (ih (List.forall_mem_cons.mp htuple).2) rfl readWith_list rfl levels
  | set t ih =>
    exact rereadBy_wrapped (ih (List.forall_mem_cons.mp htuple).2) rfl readWith_set rfl levels
  | map k v ihk ihv =>
    obtain ⟨htk, htv⟩ := List.forall_mem_append.mp (List.forall_mem_cons.mp htuple).2
    have inside : ∀ t ∈ [k, v], ∀ levels, RereadBy r keyspace (readWithin r keyspace levels) t :=
      List.forall_mem_cons.mpr ⟨ihk htk, List.forall_mem_singleton.mpr (ihv htv)⟩
    obtain ⟨inner?, heq, hinner⟩ := exists_rereading levels inside
    intro s s' u o hspans hc hread
    obtain ⟨w, hw, hrest⟩ := bracketed_of_spans hspans
    rw [heq, readWith_map hw] at hread
    obtain ⟨⟨⟨p, q⟩, last⟩, hpq, hread⟩ := bind_eq_ok.mp hread
    cases hread
    obtain ⟨⟨os, w'⟩, hos, hpq⟩ := bind_eq_ok.mp hpq
    obtain ⟨each, hmeets⟩ := reread_of_readBracketed hinner (List.cons_ne_nil k [v]) hrest hos
    cases each with
    | cons hk rest =>
      cases rest with
      | cons hv rest =>
        cases rest
        cases hpq
        exact ⟨bind_eq_ok.mpr ⟨p, hk, bind_eq_ok.mpr ⟨q, hv, rfl⟩⟩, hmeets⟩
  | tuple ts ih =>
    obtain ⟨here, inside⟩ := List.forall_mem_cons.mp htuple
    have hne : ts ≠ [] := fun hnil => here (by rw [hnil])
    have each (t : DataType) (ht : t ∈ ts) := ih t ht fun u hu => inside u (mem_nodesEach.mpr ⟨t, ht, hu⟩)
    obtain ⟨inner?, heq, hinner⟩ := exists_rereading levels each
    intro s s' u o hspans hc hread
    obtain ⟨v, hv, hrest⟩ := bracketed_of_spans hspans
    rw [heq, readWith_tuple hv] at hread
    obtain ⟨⟨os, last⟩, hos, hread⟩ := bind_eq_ok.mp hread
    cases hread
    obtain ⟨each, hmeets⟩ := reread_of_readBracketed hinner hne hrest hos
    exact ⟨bind_eq_ok.mpr ⟨os, expandEach_eq_ok.mpr each, rfl⟩, hmeets⟩
  | udt k name fields =>
    obtain ⟨inner?, heq⟩ := readWithin_eq r keyspace levels
    rw [heq]
    exact rereadBy_udt k name fields
  | frozen t ih =>
    exact rereadBy_wrapped (ih (List.forall_mem_cons.mp htuple).2) rfl readWith_frozen rfl levels

/-- What the name of a type is read as, but for the names in it, is settled by the type. -/
theorem reread_of_parse (htuple : ∀ u ∈ t.nodes, u ≠ .tuple [])
    (h : parse r keyspace t.name = .ok o) : t.reread r keyspace = .ok o := by
  unfold parse at h
  dsimp only at h
  split at h
  next p hp =>
    cases h
    obtain ⟨⟨q, u⟩, hq, hp⟩ := bind_eq_ok.mp hp
    dsimp only at hp
    split at hp
    next =>
      cases hp
      exact (rereadBy_readWithin htuple _ (spans_ofString (spelled_tokens t)) nofun hq).1
    next => cases hp
  next => cases h
  next => cases h

/-- An identifier gives a leaf type or what is on record under it. -/
theorem named_or_recorded_of_parse (h : parse r keyspace (Quoted.identifier name) = .ok o) :
    (∃ kind : Kind, o = .leaf kind) ∨
      name ∉ bracketWords ∧ name ∉ leafWords ∧ r.types keyspace name = .ok o := by
  by_cases hb : name ∈ bracketWords
  · obtain ⟨offset, he⟩ : ∃ offset, parse r keyspace (Quoted.identifier name) = .error _ :=
      parse_identifier_bracketWord hb
    cases h.symm.trans he
  by_cases hl : name ∈ leafWords
  · rcases Kind.named_or_unsupported hl with ⟨kind, hk⟩ | hu
    · cases h.symm.trans (parse_identifier_leaf hk)
      exact .inl ⟨kind, rfl⟩
    · cases h.symm.trans (parse_identifier_unsupported hu)
  · exact .inr ⟨hb, hl, (parse_identifier hb hl).symm.trans h⟩

theorem reread_ne_frozen (ht : ∀ u, t ≠ .frozen u) : t.reread r keyspace ≠ .ok (.frozen o) := by
  intro h
  cases t with
  | leaf kind => cases h
  | list t | set t | tuple ts =>
    obtain ⟨p, -, heq⟩ := bind_eq_ok.mp h
    cases heq
  | map k v =>
    obtain ⟨p, -, h⟩ := bind_eq_ok.mp h
    obtain ⟨q, -, heq⟩ := bind_eq_ok.mp h
    cases heq
  | udt k name fields =>
    rcases named_or_recorded_of_parse h with ⟨kind, heq⟩ | ⟨-, -, h⟩
    · cases heq
    · obtain ⟨udt, -, heq⟩ := map_eq_ok.mp h
      cases heq
  | frozen t => exact ht t rfl

/-- A type that is read back from its name refers to types of one keyspace, by names that mean
nothing else. -/
theorem own_names_of_reread (hfrozen : ∀ u ∈ t.nodes, ∀ v, u ≠ .frozen (.frozen v))
    (h : t.reread r keyspace = .ok t) :
    ∀ n ∈ t.mentions, n.1 = keyspace ∧ n.2 ∉ bracketWords ∧ n.2 ∉ leafWords := by
  induction t with
  | leaf kind => nofun
  | list t ih | set t ih =>
    obtain ⟨p, hp, heq⟩ := bind_eq_ok.mp h
    cases heq
    exact ih (List.forall_mem_cons.mp hfrozen).2 hp
  | map k v ihk ihv =>
    obtain ⟨p, hp, h⟩ := bind_eq_ok.mp h
    obtain ⟨q, hq, heq⟩ := bind_eq_ok.mp h
    cases heq
    obtain ⟨hfk, hfv⟩ := List.forall_mem_append.mp (List.forall_mem_cons.mp hfrozen).2
    exact List.forall_mem_append.mpr ⟨ihk hfk hp, ihv hfv hq⟩
  | tuple ts ih =>
    obtain ⟨os, hos, heq⟩ := bind_eq_ok.mp h
    cases heq
    have inside := (List.forall_mem_cons.mp hfrozen).2
    intro n hn
    obtain ⟨t, ht, hn⟩ := mem_mentionsEach.mp hn
    refine ih t ht (fun u hu => inside u (mem_nodesEach.mpr ⟨t, ht, hu⟩)) ?_ n hn
    exact List.forall₂_same.mp (expandEach_eq_ok.mp hos) t ht
  | udt k name fields =>
    refine List.forall_mem_singleton.mpr ?_
    rcases named_or_recorded_of_parse h with ⟨kind, heq⟩ | ⟨hb, hl, h⟩
    · cases heq
    · obtain ⟨udt, hudt, heq⟩ := map_eq_ok.mp h
      obtain ⟨hkeyspace, -⟩ := Registry.names_of_lookup hudt
      cases heq
      exact ⟨hkeyspace, hb, hl⟩
  | frozen t ih =>
    obtain ⟨p, hp, heq⟩ := bind_eq_ok.mp h
    obtain ⟨here, inside⟩ := List.forall_mem_cons.mp hfrozen
    cases p with
    | frozen p => exact absurd hp (reread_ne_frozen fun u => by rintro rfl; exact here u rfl)
    | _ =>
      cases heq
      exact ih inside hp

end CqlWire.DataType
