import CqlWire.Proofs.Descriptors
import CqlWire.Proofs.Spelling

namespace CqlWire

namespace Reading

variable {α β : Type} {x : Reading α} {f : α → Reading β} {a : α} {n : Nat}
  {P : Bytes → α → Prop} {Q : Bytes → β → Prop}

/-- What the reading gives is related to the bytes that it takes. -/
def Spells (x : Reading α) (P : Bytes → α → Prop) : Prop :=
  ∀ c a c', x c = .ok a c' → ∃ bytes, c.rest = bytes ++ c'.rest ∧ P bytes a

/-- A length or count that is not negative is spelled in one way. -/
theorem toNat_toInt {bytes : Bytes} (hlen : bytes.length = lengthSize) (hm : ¬Bytes.toInt bytes < 0) :
    (Bytes.toInt bytes).toNat < Frame.limit ∧
      Bytes.ofNat lengthSize (Bytes.toInt bytes).toNat = bytes := by
  obtain ⟨hlt, hspelled⟩ := Bytes.ofNat_toNat_of_length hlen
  unfold Bytes.toInt at hm ⊢
  split at hm
  next hsmall =>
    rw [if_pos hsmall, Int.toNat_natCast]
    rw [hlen] at hsmall
    simp only [lengthSize, Nat.reducePow] at hsmall
    exact ⟨by simp only [Frame.limit]; omega, hspelled⟩
  next =>
    rw [hlen] at hm
    simp only [lengthSize, Nat.reducePow, Int.reducePow] at hlt hm
    omega

namespace Spells

theorem pure (h : P [] a) : Spells (pure a) P := by
  intro c b c' hread
  cases hread
  exact ⟨[], rfl, h⟩

theorem throw {e : Error} : Spells (throw e) P :=
  fun _ _ _ hread => nomatch hread

theorem bind (hx : x.Spells P)
    (hf : ∀ front a, P front a → (f a).Spells fun back b => Q (front ++ back) b) :
    Spells (x >>= f) Q := by
  intro c b c' hread
  simp only [Bind.bind, EStateM.bind] at hread
  split at hread
  next a c'' hfirst =>
    obtain ⟨front, hfront, ha⟩ := hx c a c'' hfirst
    obtain ⟨back, hback, hb⟩ := hf front a ha c'' b c' hread
    exact ⟨front ++ back, by rw [hfront, hback, List.append_assoc], hb⟩
  next => cases hread

theorem map {g : α → β} (hx : x.Spells P) (hg : ∀ bytes a, P bytes a → Q bytes (g a)) :
    Spells (do return g (← x)) Q :=
  hx.bind fun front a ha => .pure (by rw [List.append_nil]; exact hg front a ha)

theorem bytes (n : Nat) : Spells (bytes n) fun bytes a => bytes = a ∧ a.length = n := by
  intro c a c' hread
  unfold Reading.bytes at hread
  split at hread
  next hle =>
    cases hread
    exact ⟨c.rest.take n, (List.take_append_drop n c.rest).symm, rfl, List.length_take_of_le hle⟩
  next => cases hread

theorem int32 : Spells int32 fun bytes m => bytes.length = lengthSize ∧ m = Bytes.toInt bytes := by
  refine (bytes lengthSize).map ?_
  rintro _ a ⟨rfl, hlen⟩
  exact ⟨hlen, rfl⟩

theorem count : Spells count fun bytes n => Frame.count n = .ok bytes := by
  refine int32.bind ?_
  rintro front m ⟨hlen, rfl⟩
  split
  next => exact .throw
  next hm =>
    refine .pure ?_
    rw [List.append_nil]
    exact Frame.count_eq_ok.mpr (toNat_toInt hlen hm)

theorem payload : Spells payload fun bytes p => ∀ body, p = some body → Frame.payload p = .ok bytes := by
  refine int32.bind ?_
  rintro front m ⟨hlen, rfl⟩
  split
  next => exact .pure nofun
  next hm =>
    refine (bytes _).map ?_
    rintro _ body ⟨rfl, hbody⟩ _ -
    obtain ⟨hlt, hspelled⟩ := toNat_toInt hlen hm
    rw [Frame.payload_some_eq_ok, hbody, hspelled]
    exact ⟨hlt, rfl⟩

theorem text : Spells text fun bytes s => DataType.textBytes s = .ok bytes := by
  refine payload.bind ?_
  intro front p hp
  split
  next => exact .throw
  next body =>
    split
    next s hs =>
      refine .pure ?_
      rw [List.append_nil, DataType.textBytes, Text.toBytes_of_ofBytes? hs]
      exact hp body rfl
    next => exact .throw

theorem many (hx : x.Spells P) (n : Nat) :
    Spells (many x n) fun bytes as => as.length = n ∧
      ∃ blocks, List.Forall₂ (fun a block => P block a) as blocks ∧ blocks.flatten = bytes := by
  induction n with
  | zero => exact .pure ⟨rfl, [], .nil, rfl⟩
  | succ n ih =>
    refine hx.bind fun front a ha => ih.map ?_
    rintro _ as ⟨hlen, blocks, hblocks, rfl⟩
    exact ⟨congrArg Nat.succ hlen, front :: blocks, .cons ha hblocks, rfl⟩

theorem named (hx : x.Spells P) :
    Spells (named x) fun bytes b => ∃ front back, DataType.textBytes b.1 = .ok front ∧ P back b.2 ∧
      front ++ back = bytes :=
  text.bind fun front _ hs => hx.map fun back _ ha => ⟨front, back, hs, ha, rfl⟩

end Spells

end Reading

namespace DataType

variable {t u : DataType} {bytes : Bytes}

/-- The bytes are the binary form of some type, as a builder gives it or not. -/
def Spellable (bytes : Bytes) : Prop :=
  ∃ u : DataType, u.toBytes = .ok bytes

theorem spellable_field {block : Bytes} {f : String × DataType}
    (h : ∃ front back, textBytes f.1 = .ok front ∧ Spellable back ∧ front ++ back = block) :
    ∃ g, fieldBytes g = .ok block := by
  obtain ⟨front, back, hname, ⟨u, hu⟩, rfl⟩ := h
  exact ⟨(f.1, u), fieldBytes_eq_ok.mpr ⟨front, back, hname, hu, rfl⟩⟩

theorem exists_forall₂ {α γ : Type} {R : γ → Bytes → Prop} {as : List α} {blocks : List Bytes}
    (h : List.Forall₂ (fun _ block => ∃ c, R c block) as blocks) :
    ∃ cs : List γ, cs.length = as.length ∧ List.Forall₂ R cs blocks := by
  obtain ⟨cs, hlen, hcs⟩ := h.exists_zip
  refine ⟨cs, hlen, ?_⟩
  rw [← List.map_snd_zip hlen.le, List.forall₂_map_left_iff]
  exact hcs

open Reading (Spells typeWithin)

theorem typeWithin_spells (levels : Nat) : (typeWithin levels).Spells fun bytes _ => Spellable bytes := by
  induction levels with
  | zero => exact .throw
  | succ levels ih =>
    refine (Spells.bytes 1).bind ?_
    rintro _ head ⟨rfl, hlen⟩
    obtain ⟨tag, rfl⟩ := List.length_eq_one_iff.mp hlen
    rw [List.headD_cons]
    dsimp only
    split
    next kind hkind =>
      have htag : kind.tag = tag := by simpa using List.find?_some hkind
      exact .pure ⟨.leaf kind, by rw [toBytes, htag]; rfl⟩
    next =>
      split_ifs with hlist hset hmap htuple hudt hfrozen
      · refine ih.map ?_
        rintro bytes _ ⟨u, hu⟩
        exact ⟨.list u, toBytes_list_eq_ok.mpr ⟨bytes, hu, by rw [hlist]; rfl⟩⟩
      · refine ih.map ?_
        rintro bytes _ ⟨u, hu⟩
        exact ⟨.set u, toBytes_set_eq_ok.mpr ⟨bytes, hu, by rw [hset]; rfl⟩⟩
      · refine ih.bind ?_
        rintro key _ ⟨k, hk⟩
        refine ih.map ?_
        rintro value _ ⟨v, hv⟩
        exact ⟨.map k v, toBytes_map_eq_ok.mpr ⟨key, hk, value, hv, by rw [hmap]; rfl⟩⟩
      · refine Spells.count.bind fun count n hcount => (ih.many n).map ?_
        rintro _ ts ⟨rfl, blocks, hblocks, rfl⟩
        obtain ⟨us, hlen, hus⟩ := exists_forall₂ hblocks
        rw [← hlen] at hcount
        exact ⟨.tuple us, toBytes_tuple_eq_ok.mpr ⟨count, blocks, hcount, hus, by rw [htuple]; rfl⟩⟩
      · refine Spells.text.bind fun ks keyspace hks => Spells.text.bind fun nm name hnm =>
          Spells.count.bind fun count n hcount => (ih.named.many n).map ?_
        rintro _ fields ⟨rfl, blocks, hblocks, rfl⟩
        obtain ⟨us, hlen, hus⟩ := exists_forall₂ (hblocks.imp fun _ _ => spellable_field)
        rw [← hlen] at hcount
        exact ⟨.udt keyspace name us, toBytes_udt_eq_ok.mpr ⟨ks, nm, count, blocks, hks, hnm, hcount,
          hus, by rw [hudt]; rfl⟩⟩
      · refine ih.map ?_
        rintro bytes _ ⟨u, hu⟩
        exact ⟨.frozen u, toBytes_frozen_eq_ok.mpr ⟨bytes, hu, by rw [hfrozen]; rfl⟩⟩
      · exact .throw

theorem spellable_of_ofBytes (h : ofBytes bytes = .ok t) : Spellable bytes := by
  unfold ofBytes at h
  split at h
  next => cases h
  next u c hread =>
    split at h
    next hend =>
      obtain ⟨front, hfront, hspelled⟩ := typeWithin_spells _ _ u c hread
      rw [List.length_eq_zero_iff.mp hend, List.append_nil] at hfront
      cases hfront
      exact hspelled
    next => cases h

theorem length_textBytes {s : String} (h : textBytes s = .ok bytes) :
    (Text.toBytes s).length < Frame.limit ∧ bytes.length = lengthSize + (Text.toBytes s).length :=
  ⟨(Frame.payload_some_eq_ok.mp h).1, Frame.length_payload h⟩

theorem length_flatten_eq {α : Type} {w : α → Nat} {as : List α} {blocks : List Bytes}
    (h : List.Forall₂ (fun a block => block.length = w a) as blocks) :
    blocks.flatten.length = (as.map w).sum := by
  induction h with
  | nil => rfl
  | cons first _ ih => rw [List.flatten_cons, List.length_append, first, ih, List.map_cons, List.sum_cons]

theorem sized_field {f : String × DataType} (h : fieldBytes f = .ok bytes)
    (hf : ∀ body, f.2.toBytes = .ok body → f.2.Sized ∧ body.length = f.2.span) :
    ((Text.toBytes f.1).length < Frame.limit ∧ f.2.Sized) ∧ bytes.length = fieldSpan f := by
  obtain ⟨head, body, hhead, hbody, rfl⟩ := fieldBytes_eq_ok.mp h
  obtain ⟨hlt, hlen⟩ := length_textBytes hhead
  obtain ⟨hsized, hspan⟩ := hf body hbody
  exact ⟨⟨hlt, hsized⟩, by rw [List.length_append, hlen, hspan, fieldSpan]⟩

/-- A type with a binary form is short enough for it, and the form has as many bytes as its parts. -/
theorem sized_of_toBytes (h : t.toBytes = .ok bytes) : t.Sized ∧ bytes.length = t.span := by
  induction t generalizing bytes with
  | leaf kind =>
    cases h
    exact ⟨sized_leaf, rfl⟩
  | list t ih =>
    obtain ⟨body, hbody, rfl⟩ := toBytes_list_eq_ok.mp h
    obtain ⟨hsized, hlen⟩ := ih hbody
    exact ⟨sized_list.mpr hsized, congrArg Nat.succ hlen⟩
  | set t ih =>
    obtain ⟨body, hbody, rfl⟩ := toBytes_set_eq_ok.mp h
    obtain ⟨hsized, hlen⟩ := ih hbody
    exact ⟨sized_set.mpr hsized, congrArg Nat.succ hlen⟩
  | map k v ihk ihv =>
    obtain ⟨key, hkey, value, hvalue, rfl⟩ := toBytes_map_eq_ok.mp h
    obtain ⟨hk, hklen⟩ := ihk hkey
    obtain ⟨hv, hvlen⟩ := ihv hvalue
    refine ⟨sized_map.mpr ⟨hk, hv⟩, ?_⟩
    simp only [span, List.length_append, List.length_cons, hklen, hvlen]
    omega
  | tuple ts ih =>
    obtain ⟨count, blocks, hcount, hblocks, rfl⟩ := toBytes_tuple_eq_ok.mp h
    have hlt := (Frame.count_eq_ok.mp hcount).1
    have hclen := Shape.length_count hcount
    have each := hblocks.imp_mem fun t ht block _ hb => ih t ht hb
    have hblen := length_flatten_eq (each.imp fun _ _ h => h.2)
    refine ⟨sized_tuple.mpr ⟨hlt, fun t ht => ?_⟩, ?_⟩
    · obtain ⟨_, -, hsized, -⟩ := each.exists_mem_right ht
      exact hsized
    · simp only [span, spanEach_eq_sum, List.length_append, List.length_cons, hclen, hblen]
      omega
  | udt keyspace name fields ih =>
    obtain ⟨ks, nm, count, blocks, hks, hnm, hcount, hblocks, rfl⟩ := toBytes_udt_eq_ok.mp h
    have hlt := (Frame.count_eq_ok.mp hcount).1
    have hclen := Shape.length_count hcount
    obtain ⟨hkslt, hkslen⟩ := length_textBytes hks
    obtain ⟨hnmlt, hnmlen⟩ := length_textBytes hnm
    have each := hblocks.imp_mem fun f hf block _ hb =>
      sized_field hb fun body hbody => ih f hf hbody
    have hblen := length_flatten_eq (each.imp fun _ _ h => h.2)
    have short : ∀ f ∈ fields, (Text.toBytes f.1).length < Frame.limit ∧ f.2.Sized := fun f hf => by
      obtain ⟨_, -, hshort, -⟩ := each.exists_mem_right hf
      exact hshort
    refine ⟨sized_udt.mpr ⟨⟨hlt, ?_⟩, fun f hf => (short f hf).2⟩, ?_⟩
    · refine List.forall_mem_cons.mpr ⟨hkslt, List.forall_mem_cons.mpr ⟨hnmlt, ?_⟩⟩
      exact List.forall_mem_map.mpr fun f hf => (short f hf).1
    · simp only [span, spanFields_eq_sum, List.length_append, List.length_cons, hclen, hblen, hkslen,
        hnmlen]
      omega
  | frozen t ih =>
    obtain ⟨body, hbody, rfl⟩ := toBytes_frozen_eq_ok.mp h
    obtain ⟨hsized, hlen⟩ := ih hbody
    exact ⟨sized_frozen.mpr hsized, congrArg Nat.succ hlen⟩

theorem Sized.freeze (h : t.Sized) : t.freeze.Sized := by
  rcases freeze_cases t with ⟨-, -, hfreeze⟩ | ⟨-, hfreeze⟩ <;> rw [hfreeze]
  · exact h
  · exact sized_frozen.mpr h

theorem sized_proper (h : t.Sized) : t.proper.Sized := by
  induction t with
  | leaf kind => exact h
  | list t ih => exact sized_list.mpr (ih (sized_list.mp h))
  | set t ih => exact sized_set.mpr (ih (sized_set.mp h))
  | map k v ihk ihv =>
    obtain ⟨hk, hv⟩ := sized_map.mp h
    exact sized_map.mpr ⟨ihk hk, ihv hv⟩
  | tuple ts ih =>
    obtain ⟨hlt, inside⟩ := sized_tuple.mp h
    rw [proper, properEach_eq_map]
    refine sized_tuple.mpr ⟨?_, List.forall_mem_map.mpr fun t ht => ih t ht (inside t ht)⟩
    rwa [List.length_map]
  | udt keyspace name fields ih =>
    obtain ⟨⟨hlt, short⟩, inside⟩ := sized_udt.mp h
    have names := FieldTypes.map_fst_ofList_subset (properFields fields)
    have count := FieldTypes.length_ofList_le (properFields fields)
    rw [map_fst_properFields] at names
    rw [length_properFields] at count
    refine sized_udt.mpr ⟨⟨Nat.lt_of_le_of_lt count hlt, fun s hs => short s ?_⟩,
      forall_mem_ofList_properFields fun f hf => ih f hf (inside f hf)⟩
    exact List.cons_subset_cons _ (List.cons_subset_cons _ names) hs
  | frozen t ih => exact (ih (sized_frozen.mp h)).freeze

theorem describable_proper (h : t.Sized) : t.proper.Describable :=
  ⟨wellNamed_proper t, frozenOnce_proper t, sized_proper h⟩

theorem height_freeze_le (t : DataType) : t.freeze.height ≤ t.height + 1 := by
  rcases freeze_cases t with ⟨-, -, hfreeze⟩ | ⟨-, hfreeze⟩ <;> rw [hfreeze]
  · exact Nat.le_succ _
  · exact Nat.le_refl _

/-- Types within one another are not more once the type is as the builders give it. -/
theorem height_proper_le (t : DataType) : t.proper.height ≤ t.height := by
  induction t with
  | leaf kind => exact Nat.le_refl _
  | list t ih | set t ih => exact Nat.succ_le_succ ih
  | map k v ihk ihv =>
    rw [proper, height, height]
    omega
  | tuple ts ih =>
    rw [proper, properEach_eq_map, height, height, heightEach_le, List.forall_mem_map]
    intro t ht
    exact Nat.lt_of_le_of_lt (ih t ht) (heightEach_le.mp (Nat.le_refl _) t ht)
  | udt keyspace name fields ih =>
    rw [proper, height, height, heightFields_eq, heightFields_eq, heightEach_le, List.forall_mem_map]
    refine forall_mem_ofList_properFields (P := fun t => t.height < _) fun f hf => ?_
    refine Nat.lt_of_le_of_lt (ih f hf) (heightEach_le.mp (Nat.le_refl _) f.2 ?_)
    exact List.mem_map_of_mem hf
  | frozen t ih => exact (height_freeze_le t.proper).trans (Nat.succ_le_succ ih)

/-- What the reader gives is the type that the bytes spell, as a builder gives it. -/
theorem eq_proper_of_ofBytes (h : ofBytes bytes = .ok t) (hu : u.toBytes = .ok bytes) :
    t = u.proper ∧ u.height ≤ nestingLimit := by
  rw [ofBytes_of_toBytes hu] at h
  split at h
  next hle => exact ⟨(Except.ok.inj h).symm, hle⟩
  next => cases h

theorem describable_of_ofBytes (h : ofBytes bytes = .ok t) : t.Describable ∧ t.height ≤ nestingLimit := by
  obtain ⟨u, hu⟩ := spellable_of_ofBytes h
  obtain ⟨rfl, hle⟩ := eq_proper_of_ofBytes h hu
  exact ⟨describable_proper (sized_of_toBytes hu).1, (height_proper_le u).trans hle⟩

/-- The reader gives types as the builders do, with no more than 64 types with parts within one
another, and their binary forms are read back as they are. That form is the one that was read, unless
this one spells something frozen twice over or a field twice, when it is longer. -/
theorem rereads (h : ofBytes bytes = .ok t) :
    t.FrozenOnce ∧ t.WellNamed ∧ t.height ≤ nestingLimit ∧ (t.Populated → t.depth ≤ nestingLimit) ∧
      ∃ again, t.toBytes = .ok again ∧ ofBytes again = .ok t ∧ Spellable bytes ∧
        ∀ u : DataType, u.toBytes = .ok bytes → u.proper = t ∧
          (u.FrozenOnce ∧ u.WellNamed → again = bytes) ∧
          (¬(u.FrozenOnce ∧ u.WellNamed) → again.length < bytes.length) := by
  obtain ⟨ht, hle⟩ := describable_of_ofBytes h
  obtain ⟨again, hagain⟩ := exists_toBytes ht.sized
  refine ⟨ht.frozenOnce, ht.wellNamed, hle, fun hp => height_eq_depth hp ▸ hle, again, hagain,
    (ofBytes_eq_ok_iff ht hagain).mpr hle, spellable_of_ofBytes h, fun u hu => ?_⟩
  obtain ⟨rfl, -⟩ := eq_proper_of_ofBytes h hu
  refine ⟨rfl, fun ⟨hf, hn⟩ => ?_, fun hnot => ?_⟩
  · rw [proper_eq_self hn hf, hu] at hagain
    exact (Except.ok.inj hagain).symm
  · obtain ⟨hspan, hproper⟩ := span_proper u
    rw [(sized_of_toBytes hagain).2, (sized_of_toBytes hu).2]
    exact Nat.lt_of_le_of_ne hspan fun heq => hnot (proper_eq_self_iff.mp (hproper heq)).symm

theorem rereads_twice_frozen :
    let t : DataType := .frozen (.udt "k" "p" [("x", .leaf .text)])
    let u : DataType := .frozen (.frozen (.udt "k" "p" [("x", .leaf .int), ("x", .leaf .text)]))
    let bytes : Bytes := [0x30, 0x30, 0x24, 0, 0, 0, 1, 0x6b, 0, 0, 0, 1, 0x70, 0, 0, 0, 2,
      0, 0, 0, 1, 0x78, 0x06, 0, 0, 0, 1, 0x78, 0x02]
    u.toBytes = .ok bytes ∧ ofBytes bytes = .ok t ∧ ¬(u.FrozenOnce ∧ u.WellNamed) ∧
      ∃ again, t.toBytes = .ok again ∧ ofBytes again = .ok t ∧ again.length < bytes.length := by
  intro t u bytes
  have hu : u.toBytes = .ok bytes := rfl
  have h : ofBytes bytes = .ok t := ofBytes_of_toBytes hu
  have hnot : ¬(u.FrozenOnce ∧ u.WellNamed) := fun h => (frozenOnce_frozen.mp h.1).1 _ rfl
  obtain ⟨-, -, -, -, again, hagain, hread, -, hspelled⟩ := rereads h
  exact ⟨hu, h, hnot, again, hagain, hread, (hspelled u hu).2.2 hnot⟩

/-- A tuple without positions is accepted inside 64 sets. -/
theorem rereads_beyond_limit :
    let t : DataType := set^[64] (.tuple [])
    let bytes : Bytes := List.replicate 64 setTag ++ [tupleTag, 0, 0, 0, 0]
    ofBytes bytes = .ok t ∧ nestingLimit < t.depth := by
  intro t bytes
  have h : t.toBytes = .ok bytes := rfl
  exact ⟨ofBytes_of_toBytes h, by decide⟩

end DataType

end CqlWire
