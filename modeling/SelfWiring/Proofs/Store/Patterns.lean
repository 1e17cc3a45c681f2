import Mathlib.Data.List.TakeWhile
import SelfWiring.Store.ClassGlob
import SelfWiring.Store.Glob

/-!
# Patterns with one star

The patterns of the status command consist of a start, a star and an ending. Both matchers read them
alike where texts consist of letters, digits, colons and hyphens: a text matches if it is the start,
some text, and the ending. Of any other text both say at least that it has to begin with the start.
-/

namespace SelfWiring

/-- A letter, a digit, a colon or a hyphen, none of which means anything else in a pattern. -/
def Glob.isOrdinary (c : Char) : Bool := c.isAlphanum || c == ':' || c == '-'

/-- Texts of ordinary characters. -/
def Glob.Ordinary (s : String) : Prop := ∀ c ∈ s.toList, Glob.isOrdinary c = true

instance (s : String) : Decidable (Glob.Ordinary s) :=
  decidable_of_iff (s.toList.all Glob.isOrdinary = true) List.all_eq_true

namespace Glob

theorem Ordinary.append {s t : String} (hs : Ordinary s) (ht : Ordinary t) :
    Ordinary (s ++ t) := by
  intro c hc
  rw [String.toList_append, List.mem_append] at hc
  exact hc.elim (hs c) (ht c)

theorem ne_of_isOrdinary {c : Char} (h : isOrdinary c = true) {d : Char}
    (hd : isOrdinary d = false) : c ≠ d := by
  rintro rfl
  exact absurd (h.symm.trans hd) (by simp)

/-! ## The matcher of the memory store -/

/-- A pattern without wildcards matches itself. -/
theorem stretch_ordinary {p : List Char} (hp : ∀ c ∈ p, isOrdinary c = true) (t : List Char) :
    stretch p t =
      if t = p then .decided true else if t <+: p then .decided false else .stuck := by
  induction p generalizing t with
  | nil => cases t <;> simp [stretch]
  | cons d p ih =>
    have hquestion := ne_of_isOrdinary (hp d List.mem_cons_self) (d := '?') rfl
    have hstar := ne_of_isOrdinary (hp d List.mem_cons_self) (d := '*') rfl
    cases t with
    | nil => simp [stretch, hstar]
    | cons c t =>
      by_cases hd : d = c
      · subst hd
        simp [stretch, ih fun c hc => hp c (List.mem_cons_of_mem _ hc)]
      · simp [stretch, hquestion, hstar, hd, Ne.symm hd]

/-- What stands before a star is looked for at the head of the text. -/
theorem stretch_append {a : List Char} (ha : ∀ c ∈ a, isOrdinary c = true) (p t : List Char) :
    stretch (a ++ p) (a ++ t) = stretch p t := by
  induction a with
  | nil => rfl
  | cons c a ih => simp [stretch, ih fun c hc => ha c (List.mem_cons_of_mem _ hc)]

theorem prefix_of_stretch {a : List Char} (ha : ∀ c ∈ a, isOrdinary c = true) {p t : List Char}
    (h : stretch (a ++ p) t ≠ .decided false ∧ stretch (a ++ p) t ≠ .stuck) : a <+: t := by
  induction a generalizing t with
  | nil => exact List.nil_prefix
  | cons d a ih =>
    have hquestion := ne_of_isOrdinary (ha d List.mem_cons_self) (d := '?') rfl
    have hstar := ne_of_isOrdinary (ha d List.mem_cons_self) (d := '*') rfl
    cases t with
    | nil => simp [stretch, hstar] at h
    | cons c t =>
      by_cases hd : d = c
      · subst hd
        have htail := ih (t := t) (fun c hc => ha c (List.mem_cons_of_mem _ hc))
          (by simpa [stretch] using h)
        exact List.cons_prefix_cons.mpr ⟨rfl, htail⟩
      · simp [stretch, hquestion, hstar, hd] at h

theorem behindStar_of_decided {p t : List Char} {answer : Bool}
    (h : stretch p t = .decided answer) : behindStar p t = answer := by
  rw [behindStar]
  split <;> simp_all

theorem behindStar_of_stuck {p t : List Char} {c : Char} (h : stretch p (c :: t) = .stuck) :
    behindStar p (c :: t) = behindStar p t := by
  rw [behindStar]
  split <;> simp_all

/-- Behind a star the pattern is looked for at each suffix of the text. -/
theorem behindStar_ordinary {p : List Char} (hp : ∀ c ∈ p, isOrdinary c = true) (t : List Char) :
    behindStar p t = true ↔ p <:+ t := by
  induction t with
  | nil =>
    have hstretch := stretch_ordinary hp []
    rw [if_pos List.nil_prefix] at hstretch
    by_cases h : [] = p
    · rw [behindStar_of_decided (hstretch.trans (if_pos h))]
      simp [h]
    · rw [behindStar_of_decided (hstretch.trans (if_neg h))]
      simp [Ne.symm h]
  | cons c t ih =>
    have hstretch := stretch_ordinary hp (c :: t)
    by_cases hwhole : c :: t = p
    · rw [behindStar_of_decided (hstretch.trans (if_pos hwhole)), hwhole]
      simp
    rw [if_neg hwhole] at hstretch
    by_cases hpart : c :: t <+: p
    · -- the text has ended before the pattern, and so will all of its suffixes
      rw [behindStar_of_decided (hstretch.trans (if_pos hpart))]
      have hshorter : ¬ p <:+ c :: t := fun hsuffix =>
        hwhole (hpart.eq_of_length (Nat.le_antisymm hpart.length_le hsuffix.length_le))
      simp [hshorter]
    · rw [behindStar_of_stuck (hstretch.trans (if_neg hpart)), ih, List.suffix_cons_iff,
        or_iff_right (Ne.symm hwhole)]

/-- A star stands for any text that does not itself begin with a star. -/
theorem matchChars_star {a b t : List Char} (ha : ∀ c ∈ a, isOrdinary c = true)
    (hb : ∀ c ∈ b, isOrdinary c = true) (ht : t.head? ≠ some '*') :
    matchChars (a ++ '*' :: b) (a ++ t) = true ↔ b <:+ t := by
  rw [matchChars, stretch_append ha]
  cases t with
  | nil =>
    cases b with
    | nil => simp [stretch]
    | cons d b => simp [stretch, ne_of_isOrdinary (hb d List.mem_cons_self) (d := '*') rfl]
  | cons c t =>
    have hc : c ≠ '*' := by simpa using ht
    simp [stretch, hc.symm, behindStar_ordinary hb]

theorem prefix_of_matchChars {a p t : List Char} (ha : ∀ c ∈ a, isOrdinary c = true)
    (h : matchChars (a ++ p) t = true) : a <+: t := by
  refine prefix_of_stretch (p := p) ha ⟨fun hstretch => ?_, fun hstretch => ?_⟩ <;>
    simp [matchChars, hstretch] at h

end Glob

/-! ## The matcher of the table store -/

namespace ClassGlob

open Glob (Ordinary isOrdinary ne_of_isOrdinary)

theorem isLiteral_of_isOrdinary {c : Char} (h : isOrdinary c = true) : isLiteral c = true := by
  have hstar := ne_of_isOrdinary h (d := '*') rfl
  have hquestion := ne_of_isOrdinary h (d := '?') rfl
  have hbracket := ne_of_isOrdinary h (d := '[') rfl
  have hend := ne_of_isOrdinary h (d := '\x00') rfl
  simp [isLiteral, hstar, hquestion, hbracket, hend]

/-- Ordinary texts, and patterns of them, are read as they stand. -/
theorem seen_eq {s : String} (h : ∀ c ∈ s.toList, isOrdinary c = true ∨ c = '*') :
    seen s = s.toList := by
  have hread : ∀ c ∈ s.toList, c ≠ '\x00' ∧ seenAs c = c := by
    intro c hc
    rcases h c hc with hc | rfl
    · refine ⟨ne_of_isOrdinary hc rfl, if_neg ?_⟩
      exact not_or.mpr ⟨ne_of_isOrdinary hc (by decide), ne_of_isOrdinary hc (by decide)⟩
    · decide
  have htake : s.toList.takeWhile (· != '\x00') = s.toList :=
    List.takeWhile_eq_self_iff.mpr fun c hc => bne_iff_ne.mpr (hread c hc).1
  rw [seen, htake]
  exact (List.map_congr_left fun c hc => (hread c hc).2).trans (List.map_id _)

theorem elements_ordinary {p : List Char} (hp : ∀ c ∈ p, isOrdinary c = true) (fuel : Nat)
    (rest : List Char) :
    elements (p.length + fuel) (p ++ rest) = p.map .literal ++ elements fuel rest := by
  induction p with
  | nil => rw [List.length_nil, Nat.zero_add]; rfl
  | cons c p ih =>
    have hc := hp c List.mem_cons_self
    have hstar := ne_of_isOrdinary hc (d := '*') rfl
    have hquestion := ne_of_isOrdinary hc (d := '?') rfl
    have hbracket := ne_of_isOrdinary hc (d := '[') rfl
    have htail := ih fun c hc => hp c (List.mem_cons_of_mem _ hc)
    rw [List.length_cons, Nat.add_right_comm, List.cons_append, elements]
    · rw [htail]
      rfl
    all_goals assumption

/-! ### Rows -/

theorem length_orShorter (bs : List Bool) : (orShorter bs).length = bs.length := by
  induction bs with
  | nil => rfl
  | cons b bs ih => rw [orShorter, List.length_cons, List.length_cons, ih]

theorem row_of_ne_anyText {e : Element} (he : e ≠ .anyText) (es : List Element) (t : List Char) :
    row (e :: es) t =
      List.zipWith (fun c b => e.admitsChar c && b) t (row es t).tail ++ [false] := by
  rw [row]
  exact he

/-- A row has an entry for the text and for each of its proper suffixes. -/
theorem length_row (es : List Element) (t : List Char) : (row es t).length = t.length + 1 := by
  induction es with
  | nil => simp [row]
  | cons e es ih =>
    by_cases he : e = .anyText
    · rw [he, row, length_orShorter, ih]
    · simp [row_of_ne_anyText he, ih]

/-- Whether elements match a text. -/
def admits (es : List Element) (t : List Char) : Bool := (row es t).headD false

theorem row_eq (es : List Element) (t : List Char) : row es t = admits es t :: (row es t).tail := by
  have hne : row es t ≠ [] := by
    intro hnil
    have hlength := length_row es t
    simp [hnil] at hlength
  obtain ⟨b, bs, hrow⟩ := List.exists_cons_of_ne_nil hne
  rw [admits, hrow]
  rfl

theorem tail_row (es : List Element) (c : Char) (t : List Char) :
    (row es (c :: t)).tail = row es t := by
  induction es with
  | nil => rfl
  | cons e es ih =>
    have hrow : row es (c :: t) = admits es (c :: t) :: row es t := ih ▸ row_eq es (c :: t)
    by_cases he : e = .anyText
    · rw [he, row, hrow, orShorter, List.tail_cons, row]
    · rw [row_of_ne_anyText he, row_of_ne_anyText he, hrow, List.tail_cons, row_eq es t,
        List.zipWith_cons_cons, List.cons_append, List.tail_cons, List.tail_cons]

theorem admits_nil (t : List Char) : admits [] t = true ↔ t = [] := by
  cases t <;> simp [admits, row]

theorem admits_literal (d : Char) (es : List Element) (t : List Char) :
    admits (.literal d :: es) t = true ↔ ∃ rest, t = d :: rest ∧ admits es rest = true := by
  cases t with
  | nil => simp [admits, row]
  | cons c t =>
    have hhead : admits (.literal d :: es) (c :: t) = (c == d && admits es t) := by
      rw [admits, row_of_ne_anyText (by simp), tail_row, row_eq es t]
      rfl
    simp [hhead, and_assoc]

/-- A star stands for any text. -/
theorem admits_anyText (es : List Element) (t : List Char) :
    admits (.anyText :: es) t = true ↔ ∃ rest, rest <:+ t ∧ admits es rest = true := by
  induction t with
  | nil =>
    have htail : (row es []).tail = [] := by
      rw [← List.length_eq_zero_iff, List.length_tail, length_row]
      rfl
    have hhead : admits (.anyText :: es) [] = admits es [] := by
      rw [admits, row, row_eq es [], htail]
      exact Bool.or_false _
    simp [hhead]
  | cons c t ih =>
    have hhead : admits (.anyText :: es) (c :: t) =
        (admits es (c :: t) || admits (.anyText :: es) t) := by
      rw [admits, row, row_eq es (c :: t), tail_row, orShorter]
      rfl
    rw [hhead, Bool.or_eq_true, ih]
    simp only [List.suffix_cons_iff]
    constructor
    · rintro (hwhole | ⟨rest, hrest, hadmits⟩)
      · exact ⟨c :: t, Or.inl rfl, hwhole⟩
      · exact ⟨rest, Or.inr hrest, hadmits⟩
    · rintro ⟨rest, rfl | hrest, hadmits⟩
      · exact Or.inl hadmits
      · exact Or.inr ⟨rest, hrest, hadmits⟩

theorem admits_literals (p : List Char) (es : List Element) (t : List Char) :
    admits (p.map .literal ++ es) t = true ↔ ∃ rest, t = p ++ rest ∧ admits es rest = true := by
  induction p generalizing t with
  | nil => simp
  | cons d p ih =>
    rw [List.map_cons, List.cons_append, admits_literal]
    simp only [ih]
    constructor
    · rintro ⟨_, rfl, rest, rfl, hadmits⟩
      exact ⟨rest, rfl, hadmits⟩
    · rintro ⟨rest, rfl, hadmits⟩
      exact ⟨_, rfl, rest, rfl, hadmits⟩

theorem admits_star {a b : List Char} (t : List Char) :
    admits (a.map .literal ++ .anyText :: b.map .literal) t = true ↔
      ∃ x, t = a ++ x ++ b := by
  have hending : ∀ rest, admits (b.map .literal) rest = true ↔ rest = b := by
    intro rest
    have hliterals := admits_literals b [] rest
    simpa [admits_nil] using hliterals
  simp only [admits_literals, admits_anyText, hending]
  constructor
  · rintro ⟨_, rfl, _, ⟨x, rfl⟩, rfl⟩
    exact ⟨x, (List.append_assoc ..).symm⟩
  · rintro ⟨x, rfl⟩
    exact ⟨x ++ b, List.append_assoc .., b, ⟨x, rfl⟩, rfl⟩

/-! ### Patterns -/

theorem elements_star {a b : List Char} (ha : ∀ c ∈ a, isOrdinary c = true)
    (hb : ∀ c ∈ b, isOrdinary c = true) :
    elements (a ++ '*' :: b).length (a ++ '*' :: b) =
      a.map .literal ++ .anyText :: b.map .literal := by
  have hending := elements_ordinary hb 0 []
  rw [List.append_nil, Nat.add_zero] at hending
  rw [List.length_append, elements_ordinary ha, List.length_cons, elements, hending]
  simp [elements]

theorem head_star {start ending : String} (hstart : Ordinary start) :
    head (start ++ "*" ++ ending) = start.toList := by
  rw [head, String.toList_append, String.toList_append, List.append_assoc,
    List.takeWhile_append_of_pos fun c hc => isLiteral_of_isOrdinary (hstart c hc)]
  exact List.append_nil _

end ClassGlob

/-! ## Both matchers -/

namespace Glob

/-- How a matcher reads patterns with one star. -/
structure ReadsStar (matcher : String → String → Bool) : Prop where
  begins : ∀ {start ending text : String}, Ordinary start →
    matcher (start ++ "*" ++ ending) text = true → start.toList <+: text.toList
  fills : ∀ {start ending text : String}, Ordinary start → Ordinary ending → Ordinary text →
    (matcher (start ++ "*" ++ ending) text = true ↔ ∃ x, text = start ++ x ++ ending)

theorem eq_append_iff {start ending text : String} :
    (∃ x, text = start ++ x ++ ending) ↔
      ∃ x, text.toList = start.toList ++ x ++ ending.toList := by
  constructor
  · rintro ⟨x, rfl⟩
    exact ⟨x.toList, by rw [String.toList_append, String.toList_append]⟩
  · rintro ⟨x, hx⟩
    refine ⟨String.ofList x, String.toList_injective ?_⟩
    rw [String.toList_append, String.toList_append, String.toList_ofList, hx]

theorem toList_star (start ending : String) :
    (start ++ "*" ++ ending).toList = start.toList ++ '*' :: ending.toList := by
  rw [String.toList_append, String.toList_append, List.append_assoc]
  rfl

theorem readsStar_globMatch : ReadsStar globMatch where
  begins hstart h := by
    rw [globMatch, toList_star] at h
    exact prefix_of_matchChars hstart h
  fills {start ending text} hstart hending htext := by
    have hmatch : ∀ t, text.toList = start.toList ++ t →
        (globMatch (start ++ "*" ++ ending) text = true ↔ ending.toList <:+ t) := by
      intro t ht
      have hhead : t.head? ≠ some '*' := by
        intro hstar
        have hmem : '*' ∈ text.toList := ht ▸ List.mem_append_right _ (List.mem_of_head? hstar)
        exact absurd (htext '*' hmem) (by decide)
      rw [globMatch, toList_star, ht, matchChars_star hstart hending hhead]
    rw [eq_append_iff]
    constructor
    · intro h
      obtain ⟨t, ht⟩ := prefix_of_matchChars hstart (by rwa [globMatch, toList_star] at h)
      obtain ⟨x, rfl⟩ := (hmatch t ht.symm).mp h
      exact ⟨x, by rw [List.append_assoc, ht]⟩
    · rintro ⟨x, hx⟩
      rw [List.append_assoc] at hx
      exact (hmatch _ hx).mpr ⟨x, rfl⟩

theorem readsStar_classGlobMatch : ReadsStar classGlobMatch where
  begins hstart h := by
    have hhead := (Bool.and_eq_true_iff.mp h).1
    rw [ClassGlob.mayMatch, ClassGlob.head_star hstart] at hhead
    exact List.isPrefixOf_iff_prefix.mp hhead
  fills {start ending text} hstart hending htext := by
    have hpattern : ClassGlob.seen (start ++ "*" ++ ending) =
        start.toList ++ '*' :: ending.toList := by
      rw [← toList_star]
      refine ClassGlob.seen_eq fun c hc => ?_
      rw [toList_star, List.mem_append, List.mem_cons] at hc
      rcases hc with hc | rfl | hc
      · exact Or.inl (hstart c hc)
      · exact Or.inr rfl
      · exact Or.inl (hending c hc)
    have htexts := ClassGlob.seen_eq fun c hc => Or.inl (htext c hc)
    have hadmits := ClassGlob.admits_star (a := start.toList) (b := ending.toList) text.toList
    rw [ClassGlob.admits] at hadmits
    rw [classGlobMatch, hpattern, htexts, ClassGlob.elements_star hstart hending, Bool.and_eq_true,
      hadmits, ← eq_append_iff, ClassGlob.mayMatch, ClassGlob.head_star hstart,
      List.isPrefixOf_iff_prefix]
    refine and_iff_right_of_imp ?_
    rintro ⟨x, rfl⟩
    rw [String.toList_append, String.toList_append, List.append_assoc]
    exact List.prefix_append _ _

end Glob

end SelfWiring
