import Mathlib.Data.List.TakeWhile
import Mathlib.Tactic.SplitIfs
import SelfWiring.Toml.Text

/-!
# Written strings are read back

`render` picks one of four forms for a string. In each of them the reader gives back the string and
what stands behind its closing quotes, as long as no further quote follows there. Escapes are undone
one character at a time, and raw quotes inside tripled quotes are told from the closing ones by the
length of their run: a third quote is never written raw.
-/

namespace SelfWiring.Toml

variable {long : Bool} {quote c : Char} {s cs rest : List Char}

/-- A text that does not begin with a quote of the sort given. -/
def Parted (quote : Char) (rest : List Char) : Prop := ∀ cs, rest ≠ quote :: cs

/-! ## Escapes -/

theorem hexValue?_digitChar {n : Nat} (h : n < 16) :
    Json.hexValue? (Nat.digitChar n).toUpper = some n := by
  have table : ∀ d : Fin 16, Json.hexValue? (Nat.digitChar d).toUpper = some d.val := by decide
  exact table ⟨n, h⟩

/-- A character without an escape letter of its own comes back from its code. -/
theorem readEscaped_code (hc : c.toNat < 0x10000) (cs : List Char) :
    readEscaped long .plain ('\\' :: 'u' :: (fourDigits c.toNat ++ cs)) =
      consText c (readEscaped long .plain cs) := by
  have hvalue : ((0 * 16 + c.toNat / 4096 % 16) * 16 + c.toNat / 256 % 16) * 16 +
      c.toNat / 16 % 16 = c.toNat / 16 := by omega
  have hvalid : c.toNat.isValidChar := c.valid
  have hscalar : scalar? c.toNat = some c := by
    rw [scalar?, if_pos hvalid, Char.ofNat_toNat]
  simp only [fourDigits, List.map_cons, List.map_nil, List.cons_append, List.nil_append,
    readEscaped, Char.reduceEq, Char.reduceBEq, reduceCtorEq, false_and, if_false, if_true,
    Option.bind_some, hexValue?_digitChar (Nat.mod_lt _ (by decide))]
  rw [hvalue, show c.toNat / 16 * 16 + c.toNat % 16 = c.toNat by omega, hscalar]
  rfl

/-- A character with an escape letter comes back from its letter. -/
theorem readEscaped_letter {letter : Char} (h : escape? letter = some c) (cs : List Char) :
    readEscaped long .plain ('\\' :: letter :: cs) = consText c (readEscaped long .plain cs) := by
  have hne : ∀ d, escape? d = none → letter ≠ d := by
    rintro d hd rfl
    exact absurd (hd.symm.trans h) (by simp)
  have hblank : isBlank letter = false := by
    simp [isBlank, hne ' ' rfl, hne '\t' rfl]
  have hopen : readEscaped long .plain ('\\' :: letter :: cs) =
      readEscaped long .afterBackslash (letter :: cs) := by simp [readEscaped]
  rw [hopen, readEscaped, if_neg (hne 'u' rfl), if_neg (hne 'U' rfl), hblank, h]
  simp [hne '\n' rfl]

/-- A character that can stand for itself between double quotes. -/
theorem readEscaped_raw (hquote : c ≠ '"') (hslash : c ≠ '\\')
    (hplain : (isPlain c || long && c == '\n') = true) (cs : List Char) :
    readEscaped long .plain (c :: cs) = consText c (readEscaped long .plain cs) := by
  rw [readEscaped] <;> simp [hquote, hslash, hplain]

theorem readEscaped_escaped (long : Bool) (c : Char) (cs : List Char) :
    readEscaped long .plain (escaped long c ++ cs) = consText c (readEscaped long .plain cs) := by
  unfold escaped
  split_ifs with hb ht hn hlong hf hr hquote hslash hplain
  · exact readEscaped_letter (hb ▸ rfl) cs
  · exact readEscaped_letter (ht ▸ rfl) cs
  · subst hn
    exact readEscaped_raw (by decide) (by decide) (by rw [hlong]; decide) cs
  · exact readEscaped_letter (hn ▸ rfl) cs
  · exact readEscaped_letter (hf ▸ rfl) cs
  · exact readEscaped_letter (hr ▸ rfl) cs
  · subst hquote
    exact readEscaped_letter rfl cs
  · subst hslash
    exact readEscaped_letter rfl cs
  · exact readEscaped_raw hquote hslash (by rw [hplain]; rfl) cs
  · refine readEscaped_code ?_ cs
    simp only [isPlain, Bool.or_eq_true, Bool.and_eq_true, decide_eq_true_eq, bne_iff_ne] at hplain
    omega

theorem readEscaped_flatMap (s rest : List Char) :
    readEscaped false .plain (s.flatMap (escaped false) ++ '"' :: rest) = some (s, rest) := by
  induction s with
  | nil => simp [readEscaped]
  | cons c s ih =>
    rw [List.flatMap_cons, List.append_assoc, readEscaped_escaped, ih]
    rfl

/-! ## Raw characters -/

/-- A string that can stand between single quotes: no character of it needs an escape. -/
theorem isPlain_of_needsEscape (h : needsEscape c = false) : (isPlain c || c == '\n') = true := by
  rwa [needsEscape, Bool.not_eq_eq_eq_not, Bool.not_false] at h

theorem readLiteral_raw (hquote : c ≠ '\'') (hplain : (isPlain c || long && c == '\n') = true)
    (cs : List Char) : readLiteral long (c :: cs) = consText c (readLiteral long cs) := by
  rw [readLiteral, if_neg hquote, if_pos hplain]

theorem readLiteral_append (hraw : ∀ c ∈ s, c ≠ '\'' ∧ isPlain c = true) (rest : List Char) :
    readLiteral false (s ++ '\'' :: rest) = some (s, rest) := by
  induction s with
  | nil => simp [readLiteral]
  | cons c s ih =>
    obtain ⟨hquote, hplain⟩ := hraw c List.mem_cons_self
    rw [List.cons_append, readLiteral_raw hquote (by simp [hplain]),
      ih fun d hd => hraw d (List.mem_cons_of_mem _ hd)]
    rfl

/-! ## Closing quotes -/

theorem takeWhile_of_parted (h : Parted quote cs) : cs.takeWhile (· == quote) = [] := by
  cases cs with
  | nil => rfl
  | cons d cs =>
    refine List.takeWhile_cons_of_neg ?_
    rw [beq_iff_eq]
    rintro rfl
    exact h cs rfl

/-- The quotes that close a string, with one or two before them that belong to it. -/
theorem closeLong?_run (hrest : Parted quote rest) {k : Nat} (hk : k ≤ 2) :
    closeLong? quote (List.replicate (k + 2) quote ++ rest) =
      some (List.replicate k quote, rest) := by
  have hrun : (List.replicate (k + 2) quote ++ rest).takeWhile (· == quote) =
      List.replicate (k + 2) quote := by
    rw [List.takeWhile_append_of_pos (by simp), takeWhile_of_parted hrest, List.append_nil]
  simp only [closeLong?, hrun, List.length_replicate]
  rw [Nat.min_eq_left (by omega), if_neg (by omega), Nat.add_sub_cancel,
    List.drop_left' (List.length_replicate ..)]

/-- A quote behind which the string goes on does not close it. -/
theorem closeLong?_of_parted (h : Parted quote cs) : closeLong? quote cs = none := by
  simp [closeLong?, takeWhile_of_parted h]

/-- Nor do two. -/
theorem closeLong?_cons_of_parted (h : Parted quote cs) :
    closeLong? quote (quote :: cs) = none := by
  have hrun : (quote :: cs).takeWhile (· == quote) = [quote] := by
    rw [List.takeWhile_cons_of_pos (by simp), takeWhile_of_parted h]
  simp [closeLong?, hrun]

/-! ## Tripled double quotes -/

/-- No character is written with a quote in front, and with a line break only a line break is. -/
theorem exists_escaped (long : Bool) (c : Char) :
    ∃ d ds, escaped long c = d :: ds ∧ d ≠ '"' ∧ (d = '\n' → c = '\n') := by
  have hslash : '\\' = '\n' → c = '\n' := fun h => absurd h (by decide)
  unfold escaped
  split_ifs with _ _ hn _ _ _ hquote <;> try exact ⟨'\\', _, rfl, by decide, hslash⟩
  · exact ⟨'\n', _, rfl, by decide, fun _ => hn⟩
  · exact ⟨c, _, rfl, hquote, id⟩

theorem parted_escaped (long : Bool) (c : Char) (cs : List Char) :
    Parted '"' (escaped long c ++ cs) := by
  obtain ⟨d, ds, hescaped, hd, -⟩ := exists_escaped long c
  rw [hescaped]
  exact fun _ heq => hd (List.cons.inj heq).1

theorem parted_escapedLong {quotes : Nat} (h : c = '"' → 2 ≤ quotes) (s cs : List Char) :
    Parted '"' (escapedLong quotes (c :: s) ++ cs) := by
  unfold escapedLong
  split_ifs with hc hquotes
  · exact absurd (h hc) (by omega)
  · exact parted_escaped true '"' _
  · rw [List.append_assoc]
    exact parted_escaped true c _

theorem eq_break_of_escapedLong {quotes : Nat} {ds : List Char}
    (h : escapedLong quotes (c :: s) ++ cs = '\n' :: ds) : c = '\n' := by
  obtain ⟨d, ds, hescaped, -, hd⟩ := exists_escaped true c
  unfold escapedLong at h
  split_ifs at h with hc hquotes
  · exact absurd (List.cons.inj h).1 (by decide)
  · exact absurd (List.cons.inj h).1 (by decide)
  · rw [hescaped] at h
    exact hd (List.cons.inj h).1

/-- A raw quote closes the string only if nothing but quotes of the string follow. -/
theorem closeLong?_escapedLong (hrest : Parted '"' rest) (quotes : Nat) (s : List Char) :
    closeLong? '"' (escapedLong (quotes + 1) s ++ '"' :: '"' :: '"' :: rest) =
        some ('"' :: s, rest) ∨
      closeLong? '"' (escapedLong (quotes + 1) s ++ '"' :: '"' :: '"' :: rest) = none := by
  cases s with
  | nil => exact Or.inl (closeLong?_run hrest (k := 1) (by decide))
  | cons d s =>
    by_cases hd : d = '"' → 2 ≤ quotes + 1
    · exact Or.inr (closeLong?_of_parted (parted_escapedLong hd s _))
    · obtain ⟨rfl, hquotes⟩ := Classical.not_imp.mp hd
      rw [escapedLong, if_pos rfl, if_pos (by omega)]
      cases s with
      | nil => exact Or.inl (closeLong?_run hrest (k := 2) (by decide))
      | cons e s =>
        refine Or.inr (closeLong?_cons_of_parted (parted_escapedLong (fun _ => ?_) s _))
        omega

theorem readEscaped_of_closed {r : List Char × List Char} (h : closeLong? '"' cs = some r) :
    readEscaped true .plain ('"' :: cs) = some r := by
  simp [readEscaped, h]

theorem readEscaped_of_open (h : closeLong? '"' cs = none) :
    readEscaped true .plain ('"' :: cs) = consText '"' (readEscaped true .plain cs) := by
  simp [readEscaped, h]

theorem readEscaped_escapedLong (hrest : Parted '"' rest) (s : List Char) : ∀ quotes,
    readEscaped true .plain (escapedLong quotes s ++ '"' :: '"' :: '"' :: rest) =
      some (s, rest) := by
  induction s with
  | nil => exact fun _ => readEscaped_of_closed (closeLong?_run hrest (k := 0) (by decide))
  | cons c s ih =>
    intro quotes
    rw [escapedLong]
    split_ifs with hc hquotes
    · subst hc
      rw [List.cons_append]
      rcases closeLong?_escapedLong hrest quotes s with h | h
      · exact readEscaped_of_closed h
      · rw [readEscaped_of_open h, ih]
        rfl
    · subst hc
      rw [List.append_assoc, readEscaped_escaped, ih]
      rfl
    · rw [List.append_assoc, readEscaped_escaped, ih]
      rfl

/-! ## Tripled single quotes -/

theorem le_longestRun (s : List Char) : ∀ k, k ≤ longestRun c k s := by
  induction s with
  | nil => exact fun k => Nat.le_refl k
  | cons d s ih =>
    intro k
    rw [longestRun]
    split_ifs
    · exact Nat.le_trans (Nat.le_succ k) (ih (k + 1))
    · exact Nat.le_max_left ..

/-- A run that is longest by zero is of a character that does not occur. -/
theorem not_mem_of_longestRun {k : Nat} (h : longestRun c k s = 0) : c ∉ s := by
  induction s generalizing k with
  | nil => simp
  | cons d s ih =>
    rw [longestRun] at h
    split_ifs at h with hd
    · exact absurd (le_longestRun (c := c) s (k + 1)) (by omega)
    · rw [List.mem_cons, not_or]
      exact ⟨Ne.symm hd, ih (Nat.le_zero.mp (h ▸ Nat.le_max_right ..))⟩

theorem closeLong?_raw (hrest : Parted quote rest) {k : Nat}
    (h : longestRun quote (k + 1) s ≤ 2) :
    closeLong? quote (s ++ quote :: quote :: quote :: rest) = some (quote :: s, rest) ∨
      closeLong? quote (s ++ quote :: quote :: quote :: rest) = none := by
  cases s with
  | nil => exact Or.inl (closeLong?_run hrest (k := 1) (by decide))
  | cons d s =>
    by_cases hd : d = quote
    · subst hd
      rw [longestRun, if_pos rfl] at h
      cases s with
      | nil => exact Or.inl (closeLong?_run hrest (k := 2) (by decide))
      | cons e s =>
        refine Or.inr (closeLong?_cons_of_parted fun cs heq => ?_)
        obtain ⟨rfl, -⟩ := List.cons.inj heq
        rw [longestRun, if_pos rfl] at h
        have := le_longestRun (c := e) s (k + 1 + 1 + 1)
        omega
    · exact Or.inr (closeLong?_of_parted fun cs heq => hd (List.cons.inj heq).1)

theorem readLiteral_of_closed {r : List Char × List Char} (h : closeLong? '\'' cs = some r) :
    readLiteral true ('\'' :: cs) = some r := by
  simp [readLiteral, h]

theorem readLiteral_of_open (h : closeLong? '\'' cs = none) :
    readLiteral true ('\'' :: cs) = consText '\'' (readLiteral true cs) := by
  simp [readLiteral, h]

theorem readLiteral_long (hrest : Parted '\'' rest)
    (hplain : ∀ c ∈ s, (isPlain c || c == '\n') = true) : ∀ {k}, longestRun '\'' k s ≤ 2 →
      readLiteral true (s ++ '\'' :: '\'' :: '\'' :: rest) = some (s, rest) := by
  induction s with
  | nil => exact fun _ => readLiteral_of_closed (closeLong?_run hrest (k := 0) (by decide))
  | cons c s ih =>
    intro k hk
    have htail := @ih fun d hd => hplain d (List.mem_cons_of_mem _ hd)
    rw [longestRun] at hk
    split_ifs at hk with hc
    · subst hc
      rw [List.cons_append]
      rcases closeLong?_raw hrest hk with h | h
      · exact readLiteral_of_closed h
      · rw [readLiteral_of_open h, htail hk]
        rfl
    · rw [List.cons_append, readLiteral_raw hc (by simpa using hplain c List.mem_cons_self),
        htail (Nat.le_trans (Nat.le_max_right ..) hk)]
      rfl

/-! ## All forms -/

/-- The line break before a string of several lines is not part of it. -/
theorem dropBreak_opening {body : List Char} (h : ∀ cs, body = '\n' :: cs → '\n' ∈ s) :
    dropBreak (opening s ++ body) = body := by
  unfold opening
  split_ifs with hlines
  · rfl
  · rw [List.nil_append]
    unfold dropBreak
    split
    · exact absurd (h _ rfl) (by simpa using hlines)
    · rfl

theorem readString?_basic (hrest : Parted '"' rest) (s : List Char) :
    readString? (renderAs s .basic ++ rest) = some (s, rest) := by
  have hread : readShort? (renderAs s .basic ++ rest) = some (s, rest) := by
    show readEscaped false .plain (s.flatMap (escaped false) ++ ['"'] ++ rest) = some (s, rest)
    rw [List.append_assoc]
    exact readEscaped_flatMap s rest
  rw [← hread]
  unfold readString?
  split
  · -- two quotes begin a longer run only where the string is empty and a quote follows
    rename_i cs heq
    have htail : s.flatMap (escaped false) ++ ['"'] ++ rest = '"' :: '"' :: cs :=
      (List.cons.inj heq).2
    cases s with
    | nil => exact absurd (List.cons.inj htail).2 (hrest cs)
    | cons c s =>
      rw [List.flatMap_cons, List.append_assoc, List.append_assoc] at htail
      exact absurd htail (parted_escaped false c _ _)
  · rename_i heq
    exact absurd (List.cons.inj heq).1 (by decide)
  · rfl

theorem readString?_literal (hne : s ≠ []) (hraw : ∀ c ∈ s, c ≠ '\'' ∧ isPlain c = true)
    (rest : List Char) : readString? (renderAs s .literal ++ rest) = some (s, rest) := by
  have hread : readShort? (renderAs s .literal ++ rest) = some (s, rest) := by
    show readLiteral false (s ++ ['\''] ++ rest) = some (s, rest)
    rw [List.append_assoc]
    exact readLiteral_append hraw rest
  rw [← hread]
  unfold readString?
  split
  · rename_i heq
    exact absurd (List.cons.inj heq).1 (by decide)
  · rename_i heq
    cases s with
    | nil => exact absurd rfl hne
    | cons c s =>
      obtain ⟨hquote, -⟩ := hraw c List.mem_cons_self
      exact absurd (List.cons.inj (List.cons.inj heq).2).1 hquote
  · rfl

theorem readString?_longBasic (hrest : Parted '"' rest) (s : List Char) :
    readString? (renderAs s .longBasic ++ rest) = some (s, rest) := by
  have hopen : ∀ cs, readString? (['"', '"', '"'] ++ cs) = readEscaped true .plain (dropBreak cs) :=
    fun _ => rfl
  rw [renderAs, List.append_assoc, List.append_assoc, List.append_assoc, hopen,
    dropBreak_opening fun cs hcs => ?_]
  · exact readEscaped_escapedLong hrest s 0
  · cases s with
    | nil => exact absurd (List.cons.inj hcs).1 (by decide)
    | cons c s => exact List.mem_cons.mpr (Or.inl (eq_break_of_escapedLong hcs).symm)

theorem readString?_longLiteral (hrest : Parted '\'' rest)
    (hplain : ∀ c ∈ s, (isPlain c || c == '\n') = true) (hrun : longestRun '\'' 0 s ≤ 2) :
    readString? (renderAs s .longLiteral ++ rest) = some (s, rest) := by
  have hopen : ∀ cs, readString? (['\'', '\'', '\''] ++ cs) = readLiteral true (dropBreak cs) :=
    fun _ => rfl
  rw [renderAs, List.append_assoc, List.append_assoc, List.append_assoc, hopen,
    dropBreak_opening fun cs hcs => ?_]
  · exact readLiteral_long hrest hplain hrun
  · cases s with
    | nil => exact absurd (List.cons.inj hcs).1 (by decide)
    | cons c s => exact List.mem_cons.mpr (Or.inl (List.cons.inj hcs).1.symm)

/-- A string is read back in the form in which it is written. -/
theorem readString?_render (hdouble : Parted '"' rest) (hsingle : Parted '\'' rest)
    (s : List Char) : readString? (render s ++ rest) = some (s, rest) := by
  have hplain : s.any needsEscape = false → ∀ c ∈ s, (isPlain c || c == '\n') = true :=
    fun h c hc => isPlain_of_needsEscape (by simpa using List.any_eq_false.mp h c hc)
  unfold render formOf
  dsimp only
  split_ifs with hbasic hliteral hlongBasic hlongLiteral
  · exact readString?_basic hdouble s
  · simp only [Bool.and_eq_true, Bool.not_eq_true', beq_iff_eq] at hliteral
    obtain ⟨⟨hescapes, hrun⟩, hlines⟩ := hliteral
    refine readString?_literal ?_ (fun c hc => ⟨?_, ?_⟩) rest
    · rintro rfl
      exact hbasic rfl
    · rintro rfl
      exact not_mem_of_longestRun hrun hc
    · have hbreak : c ≠ '\n' := by
        rintro rfl
        exact absurd (List.contains_iff_mem.mpr hc) (by rw [hlines]; decide)
      simpa [hbreak] using hplain hescapes c hc
  · exact readString?_longBasic hdouble s
  · simp only [Bool.and_eq_true, Bool.not_eq_true', decide_eq_true_eq] at hlongLiteral
    exact readString?_longLiteral hsingle (hplain hlongLiteral.1) hlongLiteral.2
  · exact readString?_longBasic hdouble s
  · exact readString?_basic hdouble s

/-! ## Carriage returns -/

theorem not_mem_escaped (long : Bool) (c : Char) : '\r' ∉ escaped long c := by
  have hdigit : ∀ d < 16, '\r' ≠ (Nat.digitChar d).toUpper := by decide
  have hcode : ∀ n, '\r' ≠ (Nat.digitChar (n % 16)).toUpper :=
    fun n => hdigit _ (Nat.mod_lt _ (by decide))
  unfold escaped
  split_ifs with _ _ _ _ _ hr <;> try decide
  · simpa using Ne.symm hr
  · simp [fourDigits, hcode]

theorem not_mem_escapedLong (s : List Char) : ∀ quotes, '\r' ∉ escapedLong quotes s := by
  induction s with
  | nil => simp [escapedLong]
  | cons c s ih =>
    intro quotes
    rw [escapedLong]
    split_ifs <;> simp [ih, not_mem_escaped]

/-- A carriage return is only written as an escape, so no line break of the file is changed when it
is read. -/
theorem not_mem_render (s : List Char) : '\r' ∉ render s := by
  have hraw : s.any needsEscape = false → '\r' ∉ s := fun h hmem =>
    List.any_eq_false.mp h _ hmem (by decide)
  have hopening : '\r' ∉ opening s := by
    unfold opening
    split_ifs <;> decide
  unfold render formOf
  dsimp only
  split_ifs with hbasic hliteral hlongBasic hlongLiteral
  · simp [renderAs, not_mem_escaped]
  · simp only [Bool.and_eq_true, Bool.not_eq_true'] at hliteral
    simp [renderAs, hraw hliteral.1.1]
  · simp [renderAs, hopening, not_mem_escapedLong]
  · simp only [Bool.and_eq_true, Bool.not_eq_true'] at hlongLiteral
    simp [renderAs, hopening, hraw hlongLiteral.1]
  · simp [renderAs, hopening, not_mem_escapedLong]
  · simp [renderAs, not_mem_escaped]

end SelfWiring.Toml
