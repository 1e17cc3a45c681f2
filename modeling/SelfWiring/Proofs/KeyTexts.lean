import SelfWiring.Proofs.Keys
import SelfWiring.Proofs.Store.Patterns
import SelfWiring.Proofs.Store.Wildcards

/-!
# What the text of a key tells

A behaviour is read out of a text exactly if the text is that of its connections. The pattern of all
connections is matched against the stored keys, and what matches is read in the same way. In the
memory store this never fails. The table store matches a key only up to its first U+0000: what
stands behind it is not looked at, though it belongs to the key, so a key can match and hold no
behaviour.
-/

namespace SelfWiring

/-! ## Reading a behaviour -/

theorem Key.stripStart?_eq_some_iff {start text rest : List Char} :
    Key.stripStart? start text = some rest ↔ text = start ++ rest := by
  unfold Key.stripStart?
  constructor
  · intro h
    split at h
    · rename_i hstart
      obtain ⟨tail, rfl⟩ := List.isPrefixOf_iff_prefix.mp hstart
      rw [← Option.some.inj h, List.drop_left]
    · exact nomatch h
  · rintro rfl
    rw [if_pos (List.isPrefixOf_iff_prefix.mpr (List.prefix_append _ _)), List.drop_left]

theorem Key.stripEnd?_eq_some_iff {ending text rest : List Char} :
    Key.stripEnd? ending text = some rest ↔ text = rest ++ ending := by
  unfold Key.stripEnd?
  constructor
  · intro h
    split at h
    · rename_i hending
      obtain ⟨head, rfl⟩ := List.isSuffixOf_iff_suffix.mp hending
      rw [← Option.some.inj h, List.length_append, Nat.add_sub_cancel, List.take_left]
    · exact nomatch h
  · rintro rfl
    rw [if_pos (List.isSuffixOf_iff_suffix.mpr (List.suffix_append _ _)), List.length_append,
      Nat.add_sub_cancel, List.take_left]

theorem Key.behaviour?_eq_some_iff {text id : String} :
    Key.behaviour? text = some id ↔ text = (Key.connections id).render := by
  unfold Key.behaviour?
  simp only [Option.bind_eq_some_iff, Option.map_eq_some_iff, Key.stripStart?_eq_some_iff,
    Key.stripEnd?_eq_some_iff]
  constructor
  · rintro ⟨_, htext, name, rfl, rfl⟩
    apply String.toList_injective
    simp [Key.render_connections, htext]
  · rintro rfl
    exact ⟨id.toList ++ ":connections".toList, by simp [Key.render_connections], id.toList, rfl,
      String.ofList_toList⟩

theorem Key.exists_behaviour?_iff {text : String} :
    (∃ id, Key.behaviour? text = some id) ↔ ∃ id, text = "behaviour:" ++ id ++ ":connections" := by
  simp only [Key.behaviour?_eq_some_iff, Key.render_connections]

/-! ## Matching keys of the memory store -/

namespace Glob

/-- The head of a pattern stands at the head of every text that fits. -/
theorem Fits.exists_of_ordinary {a p t : List Char} (ha : ∀ c ∈ a, isOrdinary c = true)
    (h : Fits (a ++ p) t) : ∃ rest, t = a ++ rest ∧ Fits p rest := by
  induction a generalizing t with
  | nil => exact ⟨t, rfl, h⟩
  | cons d a ih =>
    have hd := ha d List.mem_cons_self
    rw [List.cons_append] at h
    cases h with
    | mark => exact absurd rfl (ne_of_isOrdinary hd rfl)
    | star => exact absurd rfl (ne_of_isOrdinary hd rfl)
    | plain _ _ htail =>
      obtain ⟨rest, rfl, hrest⟩ := ih (fun c hc => ha c (List.mem_cons_of_mem _ hc)) htail
      exact ⟨rest, rfl, hrest⟩

theorem Fits.exists_of_star {a b t : List Char} (ha : ∀ c ∈ a, isOrdinary c = true)
    (hb : ∀ c ∈ b, isOrdinary c = true) (h : Fits (a ++ '*' :: b) t) : ∃ x, t = a ++ x ++ b := by
  obtain ⟨rest, rfl, hrest⟩ := h.exists_of_ordinary ha
  cases hrest with
  | plain _ hstar => exact absurd rfl hstar
  | star filling hfits =>
    rw [← List.append_nil b] at hfits
    obtain ⟨last, rfl, hlast⟩ := hfits.exists_of_ordinary hb
    cases hlast
    exact ⟨filling, by simp⟩

end Glob

/-- What matches around a star has the start and the ending of the pattern. -/
theorem exists_of_globMatch_star {start ending text : String} (hstart : Glob.Ordinary start)
    (hending : Glob.Ordinary ending) (h : globMatch (start ++ "*" ++ ending) text = true) :
    ∃ x, text = start ++ x ++ ending := by
  rw [globMatch, Glob.toList_star, Glob.matchChars_iff] at h
  exact Glob.eq_append_iff.mpr (h.fits.exists_of_star hstart hending)

/-! ## Matching keys of the table store -/

namespace ClassGlob

/-- A text up to its first U+0000. -/
def shown (s : String) : String := String.ofList (s.toList.takeWhile (· != '\x00'))

theorem shown_eq_self {s : String} (h : '\x00' ∉ s.toList) : shown s = s := by
  have htake : s.toList.takeWhile (· != '\x00') = s.toList := by
    apply List.takeWhile_eq_self_iff.mpr
    intro c hc
    exact bne_iff_ne.mpr fun heq => h (heq ▸ hc)
  rw [shown, htake, String.ofList_toList]

theorem seen_eq_map (s : String) : seen s = (shown s).toList.map seenAs := by
  rw [seen, shown, String.toList_ofList]

/-- Only ordinary characters are read as ordinary ones. -/
theorem seenAs_eq_iff {c d : Char} (hd : Glob.isOrdinary d = true) : seenAs c = d ↔ c = d := by
  unfold seenAs
  split
  · rename_i hc
    constructor
    · intro h
      exact absurd h.symm (Glob.ne_of_isOrdinary hd (by decide))
    · rintro rfl
      rcases hc with rfl | rfl <;> exact absurd hd (by decide)
  · exact Iff.rfl

theorem map_seenAs_eq_iff {a t : List Char} (ha : ∀ c ∈ a, Glob.isOrdinary c = true) :
    t.map seenAs = a ↔ t = a := by
  induction a generalizing t with
  | nil => exact List.map_eq_nil_iff
  | cons d a ih =>
    have htail : ∀ c ∈ a, Glob.isOrdinary c = true := fun c hc => ha c (List.mem_cons_of_mem _ hc)
    cases t with
    | nil => simp
    | cons c t => simp [seenAs_eq_iff (ha d List.mem_cons_self), ih htail]

/-- The start and the ending of a text are read as they stand. -/
theorem exists_map_seenAs_iff {a b t : List Char} (ha : ∀ c ∈ a, Glob.isOrdinary c = true)
    (hb : ∀ c ∈ b, Glob.isOrdinary c = true) :
    (∃ x, t.map seenAs = a ++ x ++ b) ↔ ∃ x, t = a ++ x ++ b := by
  constructor
  · rintro ⟨x, h⟩
    obtain ⟨front, last, rfl, hfront, hlast⟩ := List.map_eq_append_iff.mp h
    obtain ⟨first, middle, rfl, hfirst, -⟩ := List.map_eq_append_iff.mp hfront
    rw [map_seenAs_eq_iff ha] at hfirst
    rw [map_seenAs_eq_iff hb] at hlast
    exact ⟨middle, by rw [hfirst, hlast]⟩
  · rintro ⟨x, rfl⟩
    refine ⟨x.map seenAs, ?_⟩
    rw [List.map_append, List.map_append, (map_seenAs_eq_iff ha).mpr rfl,
      (map_seenAs_eq_iff hb).mpr rfl]

end ClassGlob

/-- Whether a text matches around a star is decided by the part of it before the first U+0000. -/
theorem classGlobMatch_star_iff {start ending text : String} (hstart : Glob.Ordinary start)
    (hending : Glob.Ordinary ending) :
    classGlobMatch (start ++ "*" ++ ending) text = true ↔
      ∃ x, ClassGlob.shown text = start ++ x ++ ending := by
  have hpattern : ClassGlob.seen (start ++ "*" ++ ending) =
      start.toList ++ '*' :: ending.toList := by
    rw [← Glob.toList_star]
    apply ClassGlob.seen_eq
    intro c hc
    rw [Glob.toList_star, List.mem_append, List.mem_cons] at hc
    rcases hc with hc | rfl | hc
    · exact Or.inl (hstart c hc)
    · exact Or.inr rfl
    · exact Or.inl (hending c hc)
  have hmatch : ((ClassGlob.row (ClassGlob.elements (ClassGlob.seen (start ++ "*" ++ ending)).length
      (ClassGlob.seen (start ++ "*" ++ ending))) (ClassGlob.seen text)).headD false = true) ↔
      ∃ x, ClassGlob.shown text = start ++ x ++ ending := by
    have hadmits := ClassGlob.admits_star (a := start.toList) (b := ending.toList)
      (ClassGlob.seen text)
    rw [ClassGlob.admits] at hadmits
    rw [hpattern, ClassGlob.elements_star hstart hending, hadmits, ClassGlob.seen_eq_map,
      ClassGlob.exists_map_seenAs_iff hstart hending, Glob.eq_append_iff]
  rw [classGlobMatch, Bool.and_eq_true, hmatch]
  refine and_iff_right_of_imp ?_
  rintro ⟨x, hx⟩
  -- the head of the pattern is looked for in the whole text, which goes on behind the U+0000
  rw [ClassGlob.mayMatch, ClassGlob.head_star hstart, List.isPrefixOf_iff_prefix]
  have hshown : (ClassGlob.shown text).toList <+: text.toList := by
    rw [ClassGlob.shown, String.toList_ofList]
    exact List.takeWhile_prefix _
  rw [hx, String.toList_append, String.toList_append, List.append_assoc] at hshown
  exact (List.prefix_append _ _).trans hshown

/-! ## All keys -/

theorem Key.connections_star :
    (Key.connections "*").render = "behaviour:" ++ "*" ++ ":connections" := rfl

theorem Key.ordinary_connections :
    Glob.Ordinary "behaviour:" ∧ Glob.Ordinary ":connections" := by decide

/-- The text of a key tells the key, as long as the identifiers of records hold no colon. A text
tells a behaviour exactly if it is that of its connections. All keys of the memory store that match
the pattern of the connections tell one, and so does what the table store looks at of the keys that
match there, which is the whole key if U+0000 is not in it. -/
theorem key_texts_tell_keys :
    (∀ k k' : Key, k.Plain → k'.Plain → (k.render = k'.render ↔ k = k')) ∧
      (∀ text id, Key.behaviour? text = some id ↔ text = (Key.connections id).render) ∧
      (∀ text, globMatch (Key.connections "*").render text = true →
        ∃ id, Key.behaviour? text = some id) ∧
      (∀ text, classGlobMatch (Key.connections "*").render text = true ↔
        ∃ id, Key.behaviour? (ClassGlob.shown text) = some id) ∧
      ∀ text, '\x00' ∉ text.toList → classGlobMatch (Key.connections "*").render text = true →
        ∃ id, Key.behaviour? text = some id := by
  obtain ⟨hstart, hending⟩ := Key.ordinary_connections
  have htable : ∀ text, classGlobMatch (Key.connections "*").render text = true ↔
      ∃ id, Key.behaviour? (ClassGlob.shown text) = some id := by
    intro text
    rw [Key.connections_star, classGlobMatch_star_iff hstart hending, Key.exists_behaviour?_iff]
  refine ⟨fun k k' hk hk' => Key.render_eq_iff_of_plain hk hk',
    fun text id => Key.behaviour?_eq_some_iff, ?_, htable, ?_⟩
  · intro text h
    rw [Key.connections_star] at h
    exact Key.exists_behaviour?_iff.mpr (exists_of_globMatch_star hstart hending h)
  · intro text hzero h
    rw [htable, ClassGlob.shown_eq_self hzero] at h
    exact h

/-- A record, an entry behaviour of it for a cell with a colon in its name, and a behaviour with a
colon in it. -/
theorem key_texts_tell_keys_of_colons :
    (Key.information "i").Plain ∧ (Key.entry "i" "x:sequence").Plain ∧
      (Key.information "i").render ≠ (Key.entry "i" "x:sequence").render ∧
      globMatch (Key.connections "*").render "behaviour:a:b:connections" = true ∧
      (∃ id, Key.behaviour? "behaviour:a:b:connections" = some id) ∧
      '\x00' ∉ "behaviour:a:b:connections".toList ∧
      classGlobMatch (Key.connections "*").render "behaviour:a:b:connections" = true := by
  obtain ⟨htell, -, hmemory, htable, -⟩ := key_texts_tell_keys
  obtain ⟨hstart, hending⟩ := Key.ordinary_connections
  have hrecord : ':' ∉ "i".toList := by decide
  have htext : Glob.Ordinary "behaviour:a:b:connections" := by decide
  have hmatch : globMatch (Key.connections "*").render "behaviour:a:b:connections" = true :=
    (Glob.readsStar_globMatch.fills hstart hending htext).mpr ⟨"a:b", rfl⟩
  have hread := hmemory _ hmatch
  refine ⟨hrecord, hrecord, ?_, hmatch, hread, by decide, (htable _).mpr ?_⟩
  · intro h
    exact nomatch (htell (.information "i") (.entry "i" "x:sequence") hrecord hrecord).mp h
  · rwa [ClassGlob.shown_eq_self (by decide)]

/-- The table store finds this key among the connections, and there is no behaviour in it. -/
theorem no_behaviour_of_matching_key :
    classGlobMatch (Key.connections "*").render "behaviour:x:connections\x00y" = true ∧
      Key.behaviour? "behaviour:x:connections\x00y" = none := by
  obtain ⟨hstart, hending⟩ := Key.ordinary_connections
  constructor
  · exact (classGlobMatch_star_iff hstart hending).mpr ⟨"x", by decide⟩
  · decide

end SelfWiring
