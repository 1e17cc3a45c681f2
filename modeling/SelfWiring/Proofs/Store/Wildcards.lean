import Mathlib.Data.List.Basic
import SelfWiring.Store.Glob

/-!
# What the matcher of the memory store accepts

A text fits a pattern if it can be made from it: some text, possibly none, in place of each star,
one character in place of each mark, and every other character as it stands. The matcher comes close
to that. It never accepts a text that does not fit, and it accepts every fitting text without a star
in it. A star of the text, though, is used up by a star of the pattern that meets it, as by any
other equal character, so such a pattern star stands for just this one character: `*a` does not
accept `*ba`, which fits it.

`Reads` is the relation that the matcher decides. Only the last star has to be tried again, because
no other choice for an earlier one leaves more of the text to what stands behind the last
(`Reads.behind_star`).
-/

namespace SelfWiring.Glob

/-- Texts made from a pattern by filling in its stars and marks. -/
inductive Fits : List Char → List Char → Prop
  | nil : Fits [] []
  | mark {pattern text : List Char} (c : Char) :
      Fits pattern text → Fits ('?' :: pattern) (c :: text)
  | star {pattern text : List Char} (filling : List Char) :
      Fits pattern text → Fits ('*' :: pattern) (filling ++ text)
  | plain {pattern text : List Char} {c : Char} :
      c ≠ '?' → c ≠ '*' → Fits pattern text → Fits (c :: pattern) (c :: text)

/-- Texts that the matcher accepts: what equals the head of the pattern is used up on it, a star
included, and a star stands for a stretch of text only where no star begins the text. -/
inductive Reads : List Char → List Char → Prop
  | nil : Reads [] []
  | mark {pattern text : List Char} (c : Char) :
      Reads pattern text → Reads ('?' :: pattern) (c :: text)
  | same {pattern text : List Char} (c : Char) :
      Reads pattern text → Reads (c :: pattern) (c :: text)
  | star {pattern text : List Char} (filling : List Char) :
      (filling ++ text).head? ≠ some '*' → Reads pattern text →
      Reads ('*' :: pattern) (filling ++ text)

theorem Reads.fits {p t : List Char} (h : Reads p t) : Fits p t := by
  induction h with
  | nil => exact .nil
  | mark c _ ih => exact .mark c ih
  | same c _ ih =>
    by_cases hmark : c = '?'
    · exact hmark ▸ .mark c ih
    by_cases hstar : c = '*'
    · exact hstar ▸ .star [c] ih
    · exact .plain hmark hstar ih
  | star filling _ _ ih => exact .star filling ih

/-- Without a star in the text the two relations agree. -/
theorem Fits.reads {p t : List Char} (h : Fits p t) (ht : '*' ∉ t) : Reads p t := by
  induction h with
  | nil => exact .nil
  | mark c _ ih => exact .mark c (ih (List.not_mem_of_not_mem_cons ht))
  | plain _ _ _ ih => exact .same _ (ih (List.not_mem_of_not_mem_cons ht))
  | star filling _ ih =>
    have hbegin : (filling ++ _).head? ≠ some '*' := fun h => ht (List.mem_of_mem_head? h)
    exact .star filling hbegin (ih fun hmem => ht (List.mem_append_right _ hmem))

theorem reads_nil_right {p : List Char} (h : p.all (· == '*') = true) : Reads p [] := by
  induction p with
  | nil => exact .nil
  | cons d p ih =>
    obtain ⟨rfl, hp⟩ : d = '*' ∧ p.all (· == '*') = true := by simpa using h
    exact .star [] (by simp) (ih hp)

theorem all_star_of_reads {p t : List Char} (h : Reads p t) (ht : t = []) :
    p.all (· == '*') = true := by
  induction h with
  | nil => rfl
  | mark => simp at ht
  | same => simp at ht
  | star filling _ _ ih =>
    rw [List.all_cons, ih (List.append_eq_nil_iff.mp ht).2]
    rfl

/-- Where the head of the pattern is used up on the head of the text, there is no other way. -/
theorem reads_cons_cons {p t : List Char} {d c : Char} (hd : d = '?' ∨ d = c) :
    Reads (d :: p) (c :: t) ↔ Reads p t := by
  refine ⟨fun h => ?_, fun h => ?_⟩
  · generalize htext : c :: t = text at h
    cases h with
    | mark => cases htext; assumption
    | same => cases htext; assumption
    | star filling hbegin =>
      rcases hd with hd | rfl
      · simp at hd
      · simp [← htext] at hbegin
  · rcases hd with rfl | rfl
    · exact .mark c h
    · exact .same d h

/-- What is read by a star and the pattern behind it ends in what that pattern reads. -/
theorem exists_suffix_of_reads_star {p t : List Char} (h : Reads ('*' :: p) t) :
    ∃ u, u <:+ t ∧ Reads p u := by
  cases h with
  | same _ h => exact ⟨_, List.suffix_cons _ _, h⟩
  | star filling _ h => exact ⟨_, List.suffix_append _ _, h⟩

/-! ### Up to a star -/

theorem reads_of_stretch {p t : List Char} (h : stretch p t = .decided true) : Reads p t := by
  fun_induction stretch p t with
  | case1 p => exact reads_nil_right (Stretch.decided.inj h)
  | case2 => simp at h
  | case3 _ _ _ _ hd ih => exact (reads_cons_cons hd).mpr (ih h)
  | case4 => simp at h
  | case5 => simp at h

theorem reads_of_stretch_star {p t q u v : List Char} (h : stretch p t = .star q u)
    (hv : v <:+ u) (hreads : Reads q v) : Reads p t := by
  fun_induction stretch p t with
  | case1 => simp at h
  | case2 => simp at h
  | case3 _ _ _ _ hd ih => exact (reads_cons_cons hd).mpr (ih h)
  | case4 _ c _ hd =>
    obtain ⟨rfl, rfl⟩ : _ = q ∧ _ = u := by simpa using h
    obtain ⟨filling, hfilling⟩ := hv
    have hbegin : (filling ++ v).head? ≠ some '*' := by
      rw [hfilling]
      simpa using fun hc : c = '*' => hd (.inr hc.symm)
    exact hfilling ▸ .star filling hbegin hreads
  | case5 => simp at h

theorem not_reads_of_stuck {p t : List Char} (h : stretch p t = .stuck) : ¬ Reads p t := by
  fun_induction stretch p t with
  | case1 => simp at h
  | case2 => exact fun h => by cases h
  | case3 _ _ _ _ hd ih => exact fun hreads => ih h ((reads_cons_cons hd).mp hreads)
  | case4 => simp at h
  | case5 _ _ c t hd hstar =>
    intro hreads
    generalize htext : c :: t = text at hreads
    cases hreads with
    | mark => exact hd (.inl rfl)
    | same => exact hd (.inr (List.cons.inj htext).1.symm)
    | star => exact hstar rfl

/-! ### The last star -/

/-- A step of `stretch` seen from a later suffix of the text: whatever way the head of the pattern
is read there, what remains to the rest of the pattern is a suffix of what remains here. -/
theorem exists_suffix_of_reads_cons {p t u : List Char} {d c : Char} (hd : d = '?' ∨ d = c)
    (hu : u <:+ c :: t) (h : Reads (d :: p) u) : ∃ v, v <:+ t ∧ Reads p v := by
  have htail {c' : Char} {u' : List Char} (h : c' :: u' <:+ c :: t) : u' <:+ t := by
    rcases List.suffix_cons_iff.mp h with h | h
    · exact (List.cons.inj h).2 ▸ List.suffix_refl _
    · exact (List.suffix_cons _ _).trans h
  cases h with
  | mark _ h => exact ⟨_, htail hu, h⟩
  | same _ h => exact ⟨_, htail hu, h⟩
  | star filling hbegin h =>
    -- the star is used up on a star here, and where it is not, the text is a proper suffix
    have hc : c = '*' := by simpa [eq_comm] using hd
    rcases List.suffix_cons_iff.mp hu with hwhole | hu
    · simp [hwhole, hc] at hbegin
    · exact ⟨_, (List.suffix_append _ _).trans hu, h⟩

/-- The choices for an earlier star that are passed over would leave nothing else to the pattern
behind the star at which the matcher has arrived. -/
theorem Reads.behind_star {p t q u s : List Char} (h : stretch p t = .star q u) (hs : s <:+ t)
    (hreads : Reads p s) : ∃ v, v <:+ u ∧ Reads q v := by
  fun_induction stretch p t generalizing s with
  | case1 => simp at h
  | case2 => simp at h
  | case3 _ _ _ _ hd ih =>
    obtain ⟨v, hv, hreads⟩ := exists_suffix_of_reads_cons hd hs hreads
    exact ih h hv hreads
  | case4 =>
    obtain ⟨rfl, rfl⟩ : _ = q ∧ _ = u := by simpa using h
    obtain ⟨v, hv, hreads⟩ := exists_suffix_of_reads_star hreads
    exact ⟨v, hv.trans hs, hreads⟩
  | case5 => simp at h

/-- Nor would they change an answer given at the end of the text. -/
theorem Reads.decided {p t s : List Char} {answer : Bool} (h : stretch p t = .decided answer)
    (hs : s <:+ t) (hreads : Reads p s) : answer = true := by
  fun_induction stretch p t generalizing s with
  | case1 =>
    rw [← Stretch.decided.inj h]
    exact all_star_of_reads hreads (List.suffix_nil.mp hs)
  | case2 => simp at h
  | case3 _ _ _ _ hd ih =>
    obtain ⟨v, hv, hreads⟩ := exists_suffix_of_reads_cons hd hs hreads
    exact ih h hv hreads
  | case4 => simp at h
  | case5 => simp at h

theorem behindStar_iff (p t : List Char) : behindStar p t = true ↔ ∃ u, u <:+ t ∧ Reads p u := by
  fun_induction behindStar p t with
  | case1 p t answer hstretch =>
    refine ⟨?_, fun ⟨u, hu, hreads⟩ => hreads.decided hstretch hu⟩
    rintro rfl
    exact ⟨t, List.suffix_refl t, reads_of_stretch hstretch⟩
  | case2 p t q u hstretch ih =>
    rw [ih]
    constructor
    · rintro ⟨v, hv, hreads⟩
      exact ⟨t, List.suffix_refl t, reads_of_stretch_star hstretch hv hreads⟩
    · rintro ⟨s, hs, hreads⟩
      exact hreads.behind_star hstretch hs
  | case3 p hstretch => cases p <;> simp [stretch] at hstretch
  | case4 p c t hstretch ih =>
    rw [ih]
    constructor
    · rintro ⟨u, hu, hreads⟩
      exact ⟨u, hu.trans (List.suffix_cons c t), hreads⟩
    · rintro ⟨u, hu, hreads⟩
      rcases List.suffix_cons_iff.mp hu with rfl | hu
      · exact absurd hreads (not_reads_of_stuck hstretch)
      · exact ⟨u, hu, hreads⟩

theorem matchChars_iff (p t : List Char) : matchChars p t = true ↔ Reads p t := by
  rw [matchChars]
  cases hstretch : stretch p t with
  | decided answer =>
    refine ⟨?_, fun hreads => hreads.decided hstretch (List.suffix_refl t)⟩
    rintro rfl
    exact reads_of_stretch hstretch
  | star q u =>
    change behindStar q u = true ↔ _
    rw [behindStar_iff]
    constructor
    · rintro ⟨v, hv, hreads⟩
      exact reads_of_stretch_star hstretch hv hreads
    · exact Reads.behind_star hstretch (List.suffix_refl t)
  | stuck => simpa using not_reads_of_stuck hstretch

end SelfWiring.Glob

namespace SelfWiring

open Glob

/-- The matcher accepts what it reads star for star. All of that fits the pattern, and of the texts
without a star it is all that fits. -/
theorem globMatch_exact (pattern text : String) :
    (globMatch pattern text = true ↔ Reads pattern.toList text.toList) ∧
      (globMatch pattern text = true → Fits pattern.toList text.toList) ∧
      ('*' ∉ text.toList →
        (globMatch pattern text = true ↔ Fits pattern.toList text.toList)) := by
  have hreads := matchChars_iff pattern.toList text.toList
  refine ⟨hreads, fun h => (hreads.mp h).fits, fun hstar => ⟨fun h => (hreads.mp h).fits, ?_⟩⟩
  exact fun h => hreads.mpr (h.reads hstar)

/-- The star of `*ba` uses up the star of `*a`, which could have stood for `*b`. -/
theorem not_globMatch_of_fits :
    Fits "*a".toList "*ba".toList ∧ globMatch "*a" "*ba" = false := by
  refine ⟨?_, by cbv⟩
  exact Fits.star ['*', 'b'] (.plain (by decide) (by decide) .nil)

end SelfWiring
