import Mathlib.Data.List.TakeWhile
import SelfWiring.Proofs.Operations

/-!
# Two integers around a separator

Two integers are written down with a separator between them and with blanks around them as one
likes, and the splitting cell gets them back, as long as nothing in the separator could belong to an
integer.

A separator may hold blanks. If it holds anything else, too, it stands in such a text just once, and
the text is cut into two pieces. If it consists of blanks, it can be found anywhere in the padding,
and what looks like one separator can be cut in the middle of another; but it is found at least once
between the integers, and all pieces apart from theirs are blank, and are left out.
-/

namespace SelfWiring

namespace Text

/-! ## Blanks -/

def Blank (s : List Char) : Prop := ∀ c ∈ s, isSpace c = true

instance (s : List Char) : Decidable (Blank s) :=
  decidable_of_iff (s.all isSpace = true) List.all_eq_true

theorem Blank.append {s t : List Char} (hs : Blank s) (ht : Blank t) : Blank (s ++ t) := by
  intro c hc
  rcases List.mem_append.mp hc with hc | hc
  · exact hs c hc
  · exact ht c hc

/-- A text that is not empty and has no blanks. -/
structure Solid (s : List Char) : Prop where
  ne_nil : s ≠ []
  blankless : ∀ c ∈ s, isSpace c = false

theorem Solid.reverse {s : List Char} (h : Solid s) : Solid s.reverse where
  ne_nil := fun heq => h.ne_nil (List.reverse_eq_nil_iff.mp heq)
  blankless c hc := h.blankless c (List.mem_reverse.mp hc)

theorem dropWhile_padded {w s : List Char} (hw : Blank w) (hs : Solid s) (rest : List Char) :
    (w ++ (s ++ rest)).dropWhile isSpace = s ++ rest := by
  rw [List.dropWhile_append_of_pos hw]
  obtain ⟨c, s, rfl⟩ := List.exists_cons_of_ne_nil hs.ne_nil
  exact List.dropWhile_cons_of_neg (by simp [hs.blankless c List.mem_cons_self])

theorem trim_padded {w w' s : List Char} (hw : Blank w) (hw' : Blank w') (hs : Solid s) :
    trim (w ++ (s ++ w')) = s := by
  have hreverse : Blank w'.reverse := fun c hc => hw' c (List.mem_reverse.mp hc)
  have hdrop := dropWhile_padded hreverse hs.reverse []
  rw [List.append_nil] at hdrop
  rw [trim, dropWhile_padded hw hs, List.reverse_append, hdrop, List.reverse_reverse]

theorem trim_of_blank {s : List Char} (h : Blank s) : trim s = [] := by
  rw [trim, List.dropWhile_eq_nil_iff.mpr h]
  rfl

/-! ## Cuts -/

variable {sep : List Char}

theorem extendFirst_ne_nil (c : Char) (ps : List (List Char)) : extendFirst c ps ≠ [] := by
  cases ps <;> simp [extendFirst]

theorem length_extendFirst (c : Char) {ps : List (List Char)} (h : ps ≠ []) :
    (extendFirst c ps).length = ps.length := by
  cases ps with
  | nil => exact absurd rfl h
  | cons p ps => rfl

/-- A separator that was found is passed over. -/
theorem cut_skip (sep u rest : List Char) : cut sep u.length (u ++ rest) = cut sep 0 rest := by
  induction u with
  | nil => rfl
  | cons c u ih => exact ih

theorem cut_cons_of_found {c : Char} {s : List Char} (h : sep <+: c :: s) :
    cut sep 0 (c :: s) = [] :: cut sep (sep.length - 1) s := by
  rw [cut, if_pos (List.isPrefixOf_iff_prefix.mpr h)]

theorem cut_cons_of_not_found {c : Char} {s : List Char} (h : ¬ sep <+: c :: s) :
    cut sep 0 (c :: s) = extendFirst c (cut sep 0 s) := by
  rw [cut, if_neg fun heq => h (List.isPrefixOf_iff_prefix.mp heq)]

theorem cut_separator (hsep : sep ≠ []) (rest : List Char) :
    cut sep 0 (sep ++ rest) = [] :: cut sep 0 rest := by
  obtain ⟨c, tail, rfl⟩ := List.exists_cons_of_ne_nil hsep
  have hbegins : c :: tail <+: c :: (tail ++ rest) := List.prefix_append (c :: tail) rest
  rw [List.cons_append, cut_cons_of_found hbegins, List.length_cons, Nat.add_sub_cancel, cut_skip]

/-- Where a separator stands, a text is cut. -/
theorem two_le_length_cut (hsep : sep ≠ []) (before after : List Char) :
    2 ≤ (cut sep 0 (before ++ (sep ++ after))).length := by
  induction before with
  | nil =>
    rw [List.nil_append, cut_separator hsep, List.length_cons]
    have hrest := List.length_pos_iff.mpr (cut_ne_nil sep 0 after)
    omega
  | cons c before ih =>
    rw [List.cons_append]
    by_cases h : sep <+: c :: (before ++ (sep ++ after))
    · rw [cut_cons_of_found h, List.length_cons]
      have hrest := List.length_pos_iff.mpr
        (cut_ne_nil sep (sep.length - 1) (before ++ (sep ++ after)))
      omega
    · rw [cut_cons_of_not_found h, length_extendFirst c (cut_ne_nil _ _ _)]
      exact ih

theorem cut_of_not_mem {c : Char} (hc : c ∈ sep) {s : List Char} (hs : c ∉ s) :
    cut sep 0 s = [s] := by
  induction s with
  | nil => rfl
  | cons d s ih =>
    have hno : ¬ sep <+: d :: s := fun h => hs (h.subset hc)
    rw [cut_cons_of_not_found hno, ih (List.not_mem_of_not_mem_cons hs)]
    rfl

/-- Nothing comes into the pieces that is not in the text. -/
theorem mem_of_mem_cut {skip : Nat} {s p : List Char} {c : Char} (hp : p ∈ cut sep skip s)
    (hc : c ∈ p) : c ∈ s := by
  fun_induction cut sep skip s generalizing p with
  | case1 =>
    rw [List.mem_singleton.mp hp] at hc
    exact absurd hc List.not_mem_nil
  | case2 _ _ _ ih => exact List.mem_cons_of_mem _ (ih hp hc)
  | case3 _ _ _ ih =>
    rcases List.mem_cons.mp hp with rfl | hp
    · exact absurd hc List.not_mem_nil
    · exact List.mem_cons_of_mem _ (ih hp hc)
  | case4 d rest _ ih =>
    obtain ⟨q, qs, hcut⟩ := List.exists_cons_of_ne_nil (cut_ne_nil sep 0 rest)
    rw [hcut, extendFirst] at hp
    rcases List.mem_cons.mp hp with rfl | hp
    · rcases List.mem_cons.mp hc with rfl | hc
      · exact List.mem_cons_self
      · exact List.mem_cons_of_mem _ (ih (hcut ▸ List.mem_cons_self) hc)
    · exact List.mem_cons_of_mem _ (ih (hcut ▸ List.mem_cons_of_mem _ hp) hc)

theorem Blank.cut {s : List Char} (h : Blank s) (sep : List Char) :
    ∀ p ∈ cut sep 0 s, Blank p := by
  intro p hp c hc
  exact h c (mem_of_mem_cut hp hc)

/-! ### Texts put together -/

/-- The pieces of a text and of the one that follows it, where nothing is cut in between: the last
piece of the one goes on with the first piece of the other. -/
def fuse : List (List Char) → List (List Char) → List (List Char)
  | [], qs => qs
  | [p], q :: qs => (p ++ q) :: qs
  | p :: ps, qs => p :: fuse ps qs

theorem fuse_cons (p : List Char) {ps : List (List Char)} (h : ps ≠ []) (qs : List (List Char)) :
    fuse (p :: ps) qs = p :: fuse ps qs := by
  cases ps with
  | nil => exact absurd rfl h
  | cons => rfl

theorem fuse_concat (ps : List (List Char)) (p q : List Char) (qs : List (List Char)) :
    fuse (ps ++ [p]) (q :: qs) = ps ++ (p ++ q) :: qs := by
  induction ps with
  | nil => rfl
  | cons r ps ih => rw [List.cons_append, fuse_cons r (by simp), ih, List.cons_append]

theorem fuse_extendFirst (c : Char) {ps qs : List (List Char)} (hps : ps ≠ []) (hqs : qs ≠ []) :
    fuse (extendFirst c ps) qs = extendFirst c (fuse ps qs) := by
  obtain ⟨p, ps, rfl⟩ := List.exists_cons_of_ne_nil hps
  obtain ⟨q, qs, rfl⟩ := List.exists_cons_of_ne_nil hqs
  cases ps <;> rfl

/-- A separator does not go beyond a character that is not in it. -/
theorem prefix_append_cons_iff {u : List Char} {c : Char} (hc : c ∉ sep) (rest : List Char) :
    sep <+: u ++ c :: rest ↔ sep <+: u := by
  constructor
  · intro h
    have hend : u ++ [c] <+: u ++ c :: rest := ⟨rest, by simp⟩
    rcases List.prefix_or_prefix_of_prefix h hend with h | h
    · rcases List.prefix_concat_iff.mp h with rfl | h
      · exact absurd (by simp) hc
      · exact h
    · exact absurd (h.subset (by simp)) hc
  · intro h
    exact h.trans (List.prefix_append _ _)

/-- A character that is in no separator parts what is cut before it from what is cut behind it. -/
theorem cut_append_cons (hsep : sep ≠ []) {c : Char} (hc : c ∉ sep) (rest : List Char) :
    ∀ {skip : Nat} {u : List Char}, skip ≤ u.length →
      cut sep skip (u ++ c :: rest) = fuse (cut sep skip u) (extendFirst c (cut sep 0 rest)) := by
  intro skip u
  induction u generalizing skip with
  | nil =>
    intro hskip
    obtain rfl : skip = 0 := Nat.le_zero.mp hskip
    have hno : ¬ sep <+: c :: rest := fun h =>
      hsep (List.prefix_nil.mp ((prefix_append_cons_iff (u := []) hc rest).mp h))
    rw [List.nil_append, cut_cons_of_not_found hno]
    cases cut sep 0 rest <;> rfl
  | cons d u ih =>
    intro hskip
    cases skip with
    | succ skip => exact ih (Nat.le_of_succ_le_succ hskip)
    | zero =>
      have hbegins := prefix_append_cons_iff (u := d :: u) hc rest
      rw [List.cons_append] at hbegins ⊢
      by_cases h : sep <+: d :: u
      · have hlength : sep.length - 1 ≤ u.length := by
          have hle := h.length_le
          rw [List.length_cons] at hle
          omega
        rw [cut_cons_of_found (hbegins.mpr h), cut_cons_of_found h, ih hlength,
          fuse_cons [] (cut_ne_nil _ _ _)]
      · rw [cut_cons_of_not_found (mt hbegins.mp h), cut_cons_of_not_found h, ih (Nat.zero_le _),
          fuse_extendFirst d (cut_ne_nil _ _ _) (extendFirst_ne_nil _ _)]

theorem cut_append_of_apart (hsep : sep ≠ []) {d : List Char} (hd : ∀ c ∈ d, c ∉ sep)
    (rest : List Char) : cut sep 0 (d ++ rest) = fuse [d] (cut sep 0 rest) := by
  obtain ⟨q, qs, hcut⟩ := List.exists_cons_of_ne_nil (cut_ne_nil sep 0 rest)
  induction d with
  | nil => rw [hcut, List.nil_append, hcut]; rfl
  | cons c d ih =>
    have hc := hd c List.mem_cons_self
    have hcons := cut_append_cons hsep hc (d ++ rest) (u := []) (Nat.zero_le 0)
    rw [List.nil_append] at hcons
    rw [List.cons_append, hcons, ih fun c hc => hd c (List.mem_cons_of_mem _ hc), hcut]
    rfl

/-- The same for more than one character, which stay together. -/
theorem cut_append (hsep : sep ≠ []) {d : List Char} (hne : d ≠ []) (hd : ∀ c ∈ d, c ∉ sep)
    (u rest : List Char) :
    cut sep 0 (u ++ (d ++ rest)) = fuse (cut sep 0 u) (fuse [d] (cut sep 0 rest)) := by
  obtain ⟨c, d, rfl⟩ := List.exists_cons_of_ne_nil hne
  have hc := hd c List.mem_cons_self
  have htail : ∀ c ∈ d, c ∉ sep := fun c hc => hd c (List.mem_cons_of_mem _ hc)
  obtain ⟨q, qs, hcut⟩ := List.exists_cons_of_ne_nil (cut_ne_nil sep 0 rest)
  rw [List.cons_append, cut_append_cons hsep hc _ (Nat.zero_le _), cut_append_of_apart hsep htail,
    hcut]
  rfl

/-! ### Separators with padding -/

/-- Where blanks stand before a separator that does not consist of them, it has not begun yet. -/
theorem not_prefix_of_padded {w : List Char} (hw : Blank w) (hne : w ≠ []) (hsep : ¬ Blank sep)
    (rest : List Char) : ¬ sep <+: w ++ (sep ++ rest) := by
  rintro ⟨tail, htail⟩
  have hstop : ∀ t, (sep ++ t).takeWhile isSpace = sep.takeWhile isSpace := by
    intro t
    rw [List.takeWhile_append, if_neg]
    intro hlength
    refine hsep (List.takeWhile_eq_self_iff.mp ?_)
    exact (List.takeWhile_prefix isSpace).eq_of_length hlength
  have hblanks := congrArg (fun s => (s.takeWhile isSpace).length) htail
  simp only [List.takeWhile_append_of_pos hw, hstop, List.length_append] at hblanks
  have hpos := List.length_pos_iff.mpr hne
  omega

/-- A separator with anything but blanks in it is found once between blanks. -/
theorem cut_padded {w w' : List Char} (hw : Blank w) (hw' : Blank w') (hsep : ¬ Blank sep) :
    cut sep 0 (w ++ (sep ++ w')) = [w, w'] := by
  have hne : sep ≠ [] := by
    rintro rfl
    exact hsep fun c hc => absurd hc List.not_mem_nil
  induction w with
  | nil =>
    obtain ⟨c, hc, hspace⟩ : ∃ c ∈ sep, ¬ isSpace c = true := by
      simpa [Blank] using hsep
    rw [List.nil_append, cut_separator hne, cut_of_not_mem hc fun hmem => hspace (hw' c hmem)]
  | cons d w ih =>
    have hno := not_prefix_of_padded hw (List.cons_ne_nil d w) hsep w'
    rw [List.cons_append] at hno ⊢
    rw [cut_cons_of_not_found hno, ih fun c hc => hw c (List.mem_cons_of_mem _ hc)]
    rfl

/-- Whichever separator it is, the padding around it is cut, and into blank pieces. -/
theorem exists_cut_padded {w w' : List Char} (hsep : sep ≠ []) (hw : Blank w) (hw' : Blank w') :
    ∃ p ps p', cut sep 0 (w ++ (sep ++ w')) = p :: (ps ++ [p']) ∧ Blank p ∧ (∀ q ∈ ps, Blank q) ∧
      Blank p' := by
  by_cases hblank : Blank sep
  · -- the cuts may be anywhere, but there is one at least, and nothing is left that is not blank
    have hpieces := (hw.append (hblank.append hw')).cut sep
    have hlength := two_le_length_cut hsep w w'
    obtain ⟨p, tail, hcut⟩ := List.exists_cons_of_ne_nil (cut_ne_nil sep 0 (w ++ (sep ++ w')))
    rw [hcut] at hpieces hlength
    have htail : tail ≠ [] := by
      rintro rfl
      simp at hlength
    rw [← List.dropLast_concat_getLast htail] at hcut hpieces
    refine ⟨p, _, _, hcut, hpieces p List.mem_cons_self, ?_, ?_⟩
    · intro q hq
      exact hpieces q (List.mem_cons_of_mem _ (List.mem_append_left _ hq))
    · exact hpieces _ (List.mem_cons_of_mem _ (List.mem_append_right _ List.mem_cons_self))
  · exact ⟨w, [], w', cut_padded hw hw' hblank, hw, by simp, hw'⟩

/-- A joined text is cut into its two parts, with blanks around them, and into blank pieces. -/
theorem exists_cut_joined {a b w₁ w₂ w₃ w₄ : List Char} (hsep : sep ≠ []) (ha : a ≠ [])
    (hb : b ≠ []) (haside : ∀ c ∈ a, c ∉ sep) (hbeside : ∀ c ∈ b, c ∉ sep) (h₁ : Blank w₁)
    (h₂ : Blank w₂) (h₃ : Blank w₃) (h₄ : Blank w₄) : ∃ ps p p' qs q q' rs,
    cut sep 0 (w₁ ++ (a ++ ((w₂ ++ (sep ++ w₃)) ++ (b ++ w₄)))) =
        ps ++ (p ++ (a ++ p')) :: (qs ++ (q ++ (b ++ q')) :: rs) ∧
      ∀ r ∈ ps ++ p :: p' :: (qs ++ q :: q' :: rs), Blank r := by
  obtain ⟨ps, p, hfirst⟩ : ∃ ps p, cut sep 0 w₁ = ps ++ [p] :=
    ⟨_, _, (List.dropLast_concat_getLast (cut_ne_nil sep 0 w₁)).symm⟩
  obtain ⟨p', qs, q, hmiddle, hp', hqs, hq⟩ := exists_cut_padded hsep h₂ h₃
  obtain ⟨q', rs, hlast⟩ := List.exists_cons_of_ne_nil (cut_ne_nil sep 0 w₄)
  have hbefore := h₁.cut sep
  have hafter := h₄.cut sep
  rw [hfirst] at hbefore
  rw [hlast] at hafter
  refine ⟨ps, p, p', qs, q, q', rs, ?_, ?_⟩
  · have hsecond : fuse [b] (q' :: rs) = (b ++ q') :: rs := rfl
    rw [cut_append hsep ha haside, cut_append hsep hb hbeside, hfirst, hmiddle, hlast, hsecond,
      ← List.cons_append, fuse_concat, List.cons_append]
    exact fuse_concat ps p (a ++ p') _
  · intro r hr
    simp only [List.mem_append, List.mem_cons] at hr hbefore hafter
    rcases hr with hr | rfl | rfl | hr | rfl | hr
    · exact hbefore r (Or.inl hr)
    · exact hbefore r (Or.inr (Or.inl rfl))
    · exact hp'
    · exact hqs r hr
    · exact hq
    · exact hafter r hr

/-! ## Decimal texts -/

namespace Integer

theorem isSpace_of_isDigit {c : Char} (h : c.isDigit = true) : isSpace c = false := by
  have hdigit : 48 ≤ c.toNat ∧ c.toNat ≤ 57 := by
    simp only [Char.isDigit, Bool.and_eq_true, decide_eq_true_eq] at h
    exact ⟨UInt32.le_iff_toNat_le.mp h.1, UInt32.le_iff_toNat_le.mp h.2⟩
  rw [Bool.eq_false_iff]
  intro hspace
  simp only [isSpace, Bool.or_eq_true, Bool.and_eq_true, decide_eq_true_eq, beq_iff_eq] at hspace
  omega

/-- An integer is written with digits and a sign. -/
theorem of_mem_render {n : Int} {c : Char} (h : c ∈ render n) : c.isDigit = true ∨ c = '-' := by
  unfold render at h
  split at h
  · rcases List.mem_cons.mp h with rfl | h
    · exact Or.inr rfl
    · exact Or.inl (isDigit_of_mem_toDigits h)
  · exact Or.inl (isDigit_of_mem_toDigits h)

theorem render_solid (n : Int) : Solid (render n) where
  ne_nil := by
    unfold render
    split
    · exact List.cons_ne_nil _ _
    · exact Nat.toDigits_ne_nil
  blankless c hc := by
    rcases of_mem_render hc with h | rfl
    · exact isSpace_of_isDigit h
    · rfl

end Integer

end Text

/-! ## Features -/

namespace Cell

open SelfWiring.Text

/-- The pieces that count. -/
def kept (ps : List (List Char)) : List (List Char) := (ps.map trim).filter (!·.isEmpty)

theorem kept_append (ps qs : List (List Char)) : kept (ps ++ qs) = kept ps ++ kept qs := by
  rw [kept, List.map_append, List.filter_append]
  rfl

theorem kept_of_blank {ps : List (List Char)} (h : ∀ p ∈ ps, Blank p) : kept ps = [] := by
  apply List.filter_eq_nil_iff.mpr
  intro p hp
  obtain ⟨q, hq, rfl⟩ := List.mem_map.mp hp
  simp [trim_of_blank (h q hq)]

theorem kept_cons_padded {w w' s : List Char} (hw : Blank w) (hw' : Blank w') (hs : Solid s)
    (ps : List (List Char)) : kept ((w ++ (s ++ w')) :: ps) = s :: kept ps := by
  rw [kept, List.map_cons, trim_padded hw hw' hs]
  exact List.filter_cons_of_pos (by simpa using hs.ne_nil)

/-- Two solid texts that share nothing with the separator are the features of their joining, however
they are padded. -/
theorem features_joined {sep a b w₁ w₂ w₃ w₄ : List Char} (hsep : sep ≠ []) (ha : Solid a)
    (hb : Solid b) (haside : ∀ c ∈ a, c ∉ sep) (hbeside : ∀ c ∈ b, c ∉ sep) (h₁ : Blank w₁)
    (h₂ : Blank w₂) (h₃ : Blank w₃) (h₄ : Blank w₄) :
    features sep (w₁ ++ (a ++ ((w₂ ++ (sep ++ w₃)) ++ (b ++ w₄)))) = [a, b] := by
  obtain ⟨ps, p, p', qs, q, q', rs, hcut, hblank⟩ :=
    exists_cut_joined hsep ha.ne_nil hb.ne_nil haside hbeside h₁ h₂ h₃ h₄
  simp only [List.mem_append, List.mem_cons] at hblank
  show kept (pieces sep _) = _
  rw [pieces, if_neg (by simpa using hsep), hcut, kept_append,
    kept_of_blank fun r hr => hblank r (by simp [hr]),
    kept_cons_padded (hblank p (by simp)) (hblank p' (by simp)) ha, kept_append,
    kept_of_blank fun r hr => hblank r (by simp [hr]),
    kept_cons_padded (hblank q (by simp)) (hblank q' (by simp)) hb,
    kept_of_blank fun r hr => hblank r (by simp [hr])]
  rfl

end Cell

/-! ## Joined integers -/

/-- A separator that is not empty and has nothing of an integer in it. -/
structure Parting (separator : String) : Prop where
  ne_empty : separator ≠ ""
  digitless : ∀ c ∈ separator.toList, c.isDigit = false
  signless : '-' ∉ separator.toList

instance (separator : String) : Decidable (Parting separator) :=
  decidable_of_iff (separator ≠ "" ∧ separator.toList.all (!·.isDigit) = true ∧
      '-' ∉ separator.toList)
    ⟨fun ⟨h, h', h''⟩ => ⟨h, by simpa using h', h''⟩,
      fun ⟨h, h', h''⟩ => ⟨h, by simpa using h', h''⟩⟩

namespace Parting

open SelfWiring.Text

variable {separator : String}

theorem toList_ne_nil (h : Parting separator) : separator.toList ≠ [] := fun heq =>
  h.ne_empty (String.toList_eq_nil_iff.mp heq)

theorem notMem_of_mem_render (h : Parting separator) {n : Int} {c : Char}
    (hc : c ∈ Integer.render n) : c ∉ separator.toList := by
  intro hmem
  rcases Integer.of_mem_render hc with hdigit | rfl
  · exact absurd (h.digitless c hmem) (by simp [hdigit])
  · exact h.signless hmem

end Parting

/-- Two integers around a separator, with padding. -/
def joined (separator w₁ w₂ w₃ w₄ : String) (a b : Int64) : String :=
  w₁ ++ decimal a.toInt ++ w₂ ++ separator ++ w₃ ++ decimal b.toInt ++ w₄

theorem Cell.readFeature_render (n : Int64) :
    readFeature (Text.Integer.render n.toInt) = .ok (.int n) := by
  rw [readFeature, Text.Integer.read_render]

/-- Two integers are split again. -/
theorem Cell.splitText_joined {separator w₁ w₂ w₃ w₄ : String} (hsep : Parting separator)
    (h₁ : Text.Blank w₁.toList) (h₂ : Text.Blank w₂.toList) (h₃ : Text.Blank w₃.toList)
    (h₄ : Text.Blank w₄.toList) (a b : Int64) :
    splitText separator (joined separator w₁ w₂ w₃ w₄ a b) = .ok [.int a, .int b] := by
  have htext : (joined separator w₁ w₂ w₃ w₄ a b).toList = w₁.toList ++
      (Text.Integer.render a.toInt ++ ((w₂.toList ++ (separator.toList ++ w₃.toList)) ++
        (Text.Integer.render b.toInt ++ w₄.toList))) := by
    simp [joined, decimal]
  have hfeatures := features_joined hsep.toList_ne_nil (Text.Integer.render_solid a.toInt)
    (Text.Integer.render_solid b.toInt) (fun _ => hsep.notMem_of_mem_render)
    (fun _ => hsep.notMem_of_mem_render) h₁ h₂ h₃ h₄
  unfold splitText
  rw [htext, hfeatures]
  simp only [readFeature_render]
  rfl

/-- The text of two integers. -/
def twoDecimals (a b : Int64) : String := decimal a.toInt ++ " " ++ decimal b.toInt

theorem Cell.splitText_twoDecimals (a b : Int64) :
    splitText " " (twoDecimals a b) = .ok [.int a, .int b] := by
  have hsplit : splitText " " (joined " " "" "" "" "" a b) = .ok [.int a, .int b] :=
    splitText_joined (by decide) (by decide) (by decide) (by decide) (by decide) a b
  simpa [joined, twoDecimals] using hsplit

/-! ## The splitting cell -/

/-- Splitting undoes joining: whatever separator is in effect, the stored one or the default of the
cell, if two integers are joined with it and padded with blanks, the cell gives the two integers. -/
theorem joined_integers_are_split {σ : Type} [Store σ] [FaultFree σ] (w : World σ)
    (default separator : String)
    (heffective : Cell.separatorFrom default (w.contents.text Key.separator.render) = separator)
    (hsep : Parting separator) (w₁ w₂ w₃ w₄ : String) (h₁ : Text.Blank w₁.toList)
    (h₂ : Text.Blank w₂.toList) (h₃ : Text.Blank w₃.toList) (h₄ : Text.Blank w₄.toList)
    (a b : Int64) (ctx : Context) (rest : List Value) :
    (w.run ((Cell.splitFeatures default).call ctx
      (.text (joined separator w₁ w₂ w₃ w₄ a b) :: rest)).run).1 = .ok [.int a, .int b] := by
  have hreads := Cell.splitFeatures_reads (σ := σ) default ctx
    (.text (joined separator w₁ w₂ w₃ w₄ a b) :: rest) w.net
  rw [w.net_text .separator trivial, heffective] at hreads
  have hresult : Cell.splitArgs separator (.text (joined separator w₁ w₂ w₃ w₄ a b) :: rest) =
      .ok [.int a, .int b] := by
    show (Cell.splitText separator _).mapError _ = _
    rw [Cell.splitText_joined hsep h₁ h₂ h₃ h₄]
    rfl
  rw [hresult] at hreads
  exact (hreads w rfl).1

/-- The stored separator consists of blanks, so some of the padding is cut in two. -/
theorem joined_integers_are_split_around_blanks : ∃ w : World Memory,
    w.contents.text "config:separator" = some "  " ∧
    (w.run ((Cell.splitFeatures ",").call { id := "c" }
      [.text " -9223372036854775808\t    9223372036854775807   "]).run).1 =
        .ok [.int Int64.minValue, .int Int64.maxValue] := by
  let w : World Memory :=
    { store := { texts := ⟨[("config:separator", "  ")]⟩ }, generator := .ofSeed 0 }
  have htext : joined "  " " " "\t  " "" "   " Int64.minValue Int64.maxValue =
      " -9223372036854775808\t    9223372036854775807   " := by decide
  refine ⟨w, rfl, ?_⟩
  rw [← htext]
  exact joined_integers_are_split w "," "  " rfl (by decide) " " "\t  " "" "   " (by decide)
    (by decide) (by decide) (by decide) _ _ _ []

end SelfWiring
