import SelfWiring.Proofs.Json.Tokens
import SelfWiring.Proofs.Toml.Strings
import SelfWiring.Toml.Reader

/-!
# Written documents are read back

A document with a line for each entry, all under different bare keys, is read as exactly these
entries in their order. What a value has to provide for this is that it is read back where a line
break follows; strings in any form and integers in the signed 64-bit range do.
-/

namespace SelfWiring.Toml

variable {v : Value} {cs rest : List Char} {name : String}

/-! ## Values -/

/-- A text that is read as a value where its line ends. -/
structure Written (v : Value) (cs : List Char) : Prop where
  read : ∀ rest, value? deepest (cs ++ '\n' :: rest) = some (v, '\n' :: rest)
  noBlank : ∀ rest, skipBlanks (cs ++ rest) = cs ++ rest

theorem skipBlanks_cons {c : Char} (h : isBlank c = false) (cs : List Char) :
    skipBlanks (c :: cs) = c :: cs := by
  rw [skipBlanks, List.dropWhile_cons_of_neg (by simp [h])]

theorem written_string {s : List Char} {quote : Char} (hquote : quote = '"' ∨ quote = '\'')
    (hrender : render s = quote :: cs) : Written (.text (String.ofList s)) (render s) where
  read rest := by
    have hread : readString? (render s ++ '\n' :: rest) = some (s, '\n' :: rest) :=
      readString?_render (by simp [Parted]) (by simp [Parted]) s
    have hvalue : ∀ cs, value? deepest (quote :: cs) = string? (quote :: cs) := by
      intro cs
      rcases hquote with rfl | rfl <;> simp [value?]
    rw [hrender, List.cons_append] at hread ⊢
    rw [hvalue, string?, hread]
    rfl
  noBlank rest := by
    rw [hrender]
    rcases hquote with rfl | rfl <;> exact skipBlanks_cons (by decide) _

theorem written_text (s : List Char) : Written (.text (String.ofList s)) (render s) := by
  have hquoted : ∃ quote cs, (quote = '"' ∨ quote = '\'') ∧ render s = quote :: cs := by
    unfold render
    cases formOf s
    · exact ⟨'"', _, Or.inl rfl, rfl⟩
    · exact ⟨'\'', _, Or.inr rfl, rfl⟩
    · exact ⟨'"', _, Or.inl rfl, rfl⟩
    · exact ⟨'\'', _, Or.inr rfl, rfl⟩
  obtain ⟨quote, cs, hquote, hrender⟩ := hquoted
  exact written_string hquote hrender

theorem grouped?_of_digits {ds : List Char} (hne : ds ≠ []) (h : ∀ c ∈ ds, c.isDigit = true) :
    grouped? Char.isDigit ds = some ds := by
  induction ds with
  | nil => exact absurd rfl hne
  | cons c ds ih =>
    have hc := h c List.mem_cons_self
    cases ds with
    | nil => simp [grouped?, hc]
    | cons d ds =>
      have hd : d ≠ '_' := by
        rintro rfl
        exact absurd (h '_' (by simp)) (by decide)
      have htail := ih (by simp) fun e he => h e (List.mem_cons_of_mem _ he)
      rw [grouped?, if_pos hc, htail]
      · rfl
      · simp
      · simp [hd]

theorem decimal?_toDigits (n : Nat) :
    decimal? (Nat.toDigits 10 n) = some (Nat.toDigits 10 n) := by
  rw [decimal?, grouped?_of_digits Nat.toDigits_ne_nil fun _ =>
    Text.Integer.isDigit_of_mem_toDigits, Option.filter_some, if_pos]
  cases hdigits : Nat.toDigits 10 n with
  | nil => exact absurd hdigits Nat.toDigits_ne_nil
  | cons c ds =>
    cases ds with
    | nil => simp
    | cons d ds =>
      have hc : c ≠ '0' := by
        rintro rfl
        exact toDigits_ne_zero_cons n d ds hdigits
      simp [hc]

theorem integer?_toDigits {n : Nat} (h : n < 2 ^ 63) :
    integer? (Nat.toDigits 10 n) = some (n : Int) := by
  obtain ⟨c, ds, hcons⟩ := List.exists_cons_of_ne_nil (Nat.toDigits_ne_nil (n := n) (b := 10))
  have hc : c.isDigit = true := Text.Integer.isDigit_of_mem_toDigits (hcons ▸ List.mem_cons_self)
  have hunsigned : splitSign (Nat.toDigits 10 n) = (false, Nat.toDigits 10 n) := by
    rw [hcons]
    unfold splitSign
    split <;> simp_all
  unfold integer?
  split
  · rename_i heq
    exact absurd heq (toDigits_ne_zero_cons n _ _)
  · rename_i heq
    exact absurd heq (toDigits_ne_zero_cons n _ _)
  · rename_i heq
    exact absurd heq (toDigits_ne_zero_cons n _ _)
  · rw [hunsigned]
    simp only [decimal?_toDigits, Option.map_some, Nat.ofDigitChars_ten_toDigits,
      Bool.false_eq_true, if_false]
    rw [Option.filter_some, if_pos]
    simp only [Bool.and_eq_true, decide_eq_true_eq]
    omega

theorem scalar_toDigits {n : Nat} (h : n < 2 ^ 63) :
    scalar (Nat.toDigits 10 n) = some (.integer n) := by
  have hword : ∀ c ∈ Nat.toDigits 10 n, c.isDigit = true :=
    fun _ => Text.Integer.isDigit_of_mem_toDigits
  have htrue : Nat.toDigits 10 n ≠ ['t', 'r', 'u', 'e'] := fun heq =>
    absurd (hword 't' (heq ▸ by simp)) (by decide)
  have hfalse : Nat.toDigits 10 n ≠ ['f', 'a', 'l', 's', 'e'] := fun heq =>
    absurd (hword 'f' (heq ▸ by simp)) (by decide)
  simp [scalar, htrue, hfalse, integer?_toDigits h]

theorem written_integer {n : Nat} (h : n < 2 ^ 63) :
    Written (.integer n) (Nat.toDigits 10 n) := by
  obtain ⟨c, ds, hcons⟩ := List.exists_cons_of_ne_nil (Nat.toDigits_ne_nil (n := n) (b := 10))
  have hword : ∀ c ∈ Nat.toDigits 10 n, c.isDigit = true :=
    fun _ => Text.Integer.isDigit_of_mem_toDigits
  have hc : c.isDigit = true := hword c (hcons ▸ List.mem_cons_self)
  have hne : ∀ d : Char, d.isDigit = false → c ≠ d := by
    rintro d hd rfl
    exact absurd hc (by rw [hd]; decide)
  constructor
  · intro rest
    have hvalue : ∀ cs, value? deepest (c :: cs) = readBare? (c :: cs) := fun cs => by
      simp [value?, hne '"' rfl, hne '\'' rfl, hne '[' rfl, hne '{' rfl]
    have hbare : ∀ d ∈ Nat.toDigits 10 n, isBare d = true := fun d hd => by
      simp [isBare, Char.isAlphanum, hword d hd]
    have htake : (Nat.toDigits 10 n ++ '\n' :: rest).takeWhile isBare = Nat.toDigits 10 n := by
      rw [List.takeWhile_append_of_pos hbare, List.takeWhile_cons_of_neg (by decide),
        List.append_nil]
    have hdrop : (Nat.toDigits 10 n ++ '\n' :: rest).dropWhile isBare = '\n' :: rest := by
      rw [List.dropWhile_append_of_pos hbare, List.dropWhile_cons_of_neg (by decide)]
    have hread : readBare? (Nat.toDigits 10 n ++ '\n' :: rest) =
        some (.integer n, '\n' :: rest) := by
      unfold readBare?
      simp only [htake, hdrop]
      split
      · rename_i heq
        exact absurd (List.cons.inj heq).1 (by decide)
      · rw [scalar_toDigits h]
        rfl
    rw [← hread, hcons, List.cons_append, hvalue]
  · intro rest
    rw [hcons]
    exact skipBlanks_cons (by simp [isBlank, hne ' ' rfl, hne '\t' rfl]) _

/-! ## Lines -/

/-- A key that needs no quotes. -/
def IsBareKey (name : String) : Prop :=
  name.toList ≠ [] ∧ ∀ c ∈ name.toList, isKeyChar c = true

instance : DecidablePred IsBareKey := fun _ => inferInstanceAs (Decidable (_ ∧ _))

/-- The line of an entry. -/
def entryLine (name : String) (cs : List Char) : List Char :=
  name.toList ++ [' ', '=', ' '] ++ cs ++ ['\n']

theorem IsBareKey.exists_cons (h : IsBareKey name) :
    ∃ c cs, name.toList = c :: cs ∧ isKeyChar c = true := by
  obtain ⟨c, cs, hcons⟩ := List.exists_cons_of_ne_nil h.1
  exact ⟨c, cs, hcons, h.2 c (hcons ▸ List.mem_cons_self)⟩

theorem ne_of_isKeyChar {c d : Char} (hc : isKeyChar c = true) (hd : isKeyChar d = false) :
    c ≠ d := by
  rintro rfl
  exact absurd hc (by rw [hd]; decide)

theorem key?_of_isBareKey (h : IsBareKey name) (rest : List Char) :
    key? deepest (name.toList ++ ' ' :: '=' :: rest) = some ([name], '=' :: rest) := by
  obtain ⟨c, cs, hcons, hc⟩ := h.exists_cons
  have hblank : skipBlanks (name.toList ++ ' ' :: '=' :: rest) =
      name.toList ++ ' ' :: '=' :: rest := by
    rw [hcons]
    exact skipBlanks_cons (by
      simp [isBlank, ne_of_isKeyChar hc (d := ' ') rfl, ne_of_isKeyChar hc (d := '\t') rfl]) _
  have htake : (name.toList ++ ' ' :: '=' :: rest).takeWhile isKeyChar = name.toList := by
    rw [List.takeWhile_append_of_pos h.2, List.takeWhile_cons_of_neg (by decide), List.append_nil]
  have hdrop : (name.toList ++ ' ' :: '=' :: rest).dropWhile isKeyChar = ' ' :: '=' :: rest := by
    rw [List.dropWhile_append_of_pos h.2, List.dropWhile_cons_of_neg (by decide)]
  have hpart : keyPart? (name.toList ++ ' ' :: '=' :: rest) = some (name, ' ' :: '=' :: rest) := by
    have hempty : name.toList.isEmpty = false := by rw [hcons]; rfl
    unfold keyPart?
    split
    · rename_i heq
      rw [hcons] at heq
      exact absurd (List.cons.inj heq).1 (ne_of_isKeyChar hc rfl)
    · rename_i heq
      rw [hcons] at heq
      exact absurd (List.cons.inj heq).1 (ne_of_isKeyChar hc rfl)
    · simp [htake, hdrop, hempty]
  rw [show deepest = 78 + 1 from rfl, key?, hblank, hpart]
  rfl

theorem pair?_entryLine (h : IsBareKey name) (hv : Written v cs) (rest : List Char) :
    pair? (value? deepest) (entryLine name cs ++ rest) = some (([name], v), '\n' :: rest) := by
  have hline : entryLine name cs ++ rest =
      name.toList ++ ' ' :: '=' :: ' ' :: (cs ++ '\n' :: rest) := by
    simp [entryLine]
  have hskip : skipBlanks (' ' :: (cs ++ '\n' :: rest)) = cs ++ '\n' :: rest :=
    hv.noBlank ('\n' :: rest)
  rw [hline, pair?, key?_of_isBareKey h]
  simp only [hskip, hv.read rest, Option.map_some]

/-! ## Entries -/

theorem alterKey_of_not_mem {change : Option Node → Option Node} {node : Node}
    (hchange : change none = some node) {es : Entries} (h : name ∉ es.map (·.1)) :
    alterKey name change es = some (es ++ [(name, node)]) := by
  induction es with
  | nil => simp [alterKey, hchange]
  | cons e es ih =>
    rw [List.map_cons, List.mem_cons, not_or] at h
    rw [alterKey, if_neg (Ne.symm h.1), ih h.2]
    rfl

/-- A value under a new key is added behind the others. -/
theorem add?_of_not_mem {d : Draft} (hpath : d.path = []) (h : name ∉ d.entries.map (·.1)) :
    d.add? [name] v = some { d with entries := d.entries ++ [(name, .value v)] } := by
  have hadd : addAt [name] v .header d.entries = some (d.entries ++ [(name, .value v)]) := by
    rw [addAt, List.getLast?_singleton]
    exact alterKey_of_not_mem rfl h
  rw [Draft.add?, hpath, alterTable, hadd]
  rfl

theorem line?_entryLine (hname : IsBareKey name) (hv : Written v cs) {d : Draft}
    (hpath : d.path = []) (h : name ∉ d.entries.map (·.1)) (rest : List Char) :
    line? d (entryLine name cs ++ rest) =
      some ({ d with entries := d.entries ++ [(name, .value v)] }, rest) := by
  have hpair := pair?_entryLine hname hv rest
  obtain ⟨c, ds, hcons, hc⟩ := hname.exists_cons
  obtain ⟨tail, htail⟩ : ∃ tail, entryLine name cs ++ rest = c :: tail := by
    simp [entryLine, hcons]
  rw [htail] at hpair ⊢
  have hblank : skipBlanks (c :: tail) = c :: tail := skipBlanks_cons (by
    simp [isBlank, ne_of_isKeyChar hc (d := ' ') rfl, ne_of_isKeyChar hc (d := '\t') rfl]) _
  have hcomment : skipComment (c :: tail) = c :: tail := by
    unfold skipComment
    split
    · rename_i heq
      exact absurd (List.cons.inj heq).1 (ne_of_isKeyChar hc rfl)
    · rfl
  have hopen : endLine? (c :: tail) = none := by
    unfold endLine?
    rw [hblank, hcomment]
    split
    · rename_i heq
      exact absurd heq (by simp)
    · rename_i heq
      exact absurd (List.cons.inj heq).1 (ne_of_isKeyChar hc rfl)
    · rfl
  unfold line?
  rw [hblank]
  split
  · rename_i heq
    exact absurd (List.cons.inj heq).1 (ne_of_isKeyChar hc rfl)
  · rw [hopen]
    simp only [hpair, add?_of_not_mem hpath h, Option.bind_some]
    rfl

/-! ## Documents -/

/-- The text of a document with a line for each entry: its key, its value and how that is
written. -/
def document (lines : List (String × Value × List Char)) : List Char :=
  lines.flatMap fun l => entryLine l.1 l.2.2

/-- The entries that the lines of a document stand for. -/
def entriesOf (lines : List (String × Value × List Char)) : Entries :=
  lines.map fun l => (l.1, .value l.2.1)

variable {lines : List (String × Value × List Char)}

theorem lines?_document (hnames : ∀ l ∈ lines, IsBareKey l.1)
    (hvalues : ∀ l ∈ lines, Written l.2.1 l.2.2) : ∀ {d : Draft} {fuel : Nat}, d.path = [] →
      (d.entries.map (·.1) ++ lines.map (·.1)).Nodup → lines.length ≤ fuel →
      lines? fuel d (document lines) = some { d with entries := d.entries ++ entriesOf lines } := by
  induction lines with
  | nil =>
    intro d fuel _ _ _
    simp [document, entriesOf, lines?]
  | cons l lines ih =>
    intro d fuel hpath hnodup hfuel
    obtain ⟨fuel, rfl⟩ : ∃ k, fuel = k + 1 := ⟨fuel - 1, by rw [List.length_cons] at hfuel; omega⟩
    have hnew : l.1 ∉ d.entries.map (·.1) := fun hmem =>
      (List.nodup_append.mp hnodup).2.2 _ hmem _ List.mem_cons_self rfl
    have hline := line?_entryLine (hnames l List.mem_cons_self) (hvalues l List.mem_cons_self)
      hpath hnew (document lines)
    have htail := ih (fun l' hl' => hnames l' (List.mem_cons_of_mem _ hl'))
      (fun l' hl' => hvalues l' (List.mem_cons_of_mem _ hl'))
      (d := { d with entries := d.entries ++ [(l.1, .value l.2.1)] }) hpath
      (by simpa using hnodup) (Nat.le_of_succ_le_succ hfuel)
    have hdocument : document (l :: lines) = entryLine l.1 l.2.2 ++ document lines := rfl
    obtain ⟨c, cs, hcons⟩ : ∃ c cs, document (l :: lines) = c :: cs := by
      obtain ⟨c, cs, hcons, -⟩ := (hnames l List.mem_cons_self).exists_cons
      simp [hdocument, entryLine, hcons]
    rw [hcons, lines?, ← hcons, hdocument, hline]
    · simp only [Option.bind_some, htail]
      simp [entriesOf]
    · exact List.cons_ne_nil c cs

theorem unifyBreaks_of_not_mem (h : '\r' ∉ cs) : unifyBreaks cs = cs := by
  induction cs with
  | nil => rfl
  | cons c cs ih =>
    rw [List.mem_cons, not_or] at h
    unfold unifyBreaks
    split
    · rename_i heq
      exact absurd heq (by simp)
    · rename_i heq
      exact absurd (List.cons.inj heq).1.symm h.1
    · rename_i heq
      obtain ⟨rfl, rfl⟩ := List.cons.inj heq
      rw [ih h.2]

theorem length_le_document (lines : List (String × Value × List Char)) :
    lines.length ≤ (document lines).length := by
  induction lines with
  | nil => exact Nat.le_refl 0
  | cons l lines ih =>
    have hdocument : document (l :: lines) = entryLine l.1 l.2.2 ++ document lines := rfl
    rw [hdocument, List.length_append, List.length_cons]
    simp only [entryLine, List.length_append, List.length_singleton]
    omega

/-- A document is read as its entries. -/
theorem read?_document (hnames : ∀ l ∈ lines, IsBareKey l.1)
    (hvalues : ∀ l ∈ lines, Written l.2.1 l.2.2) (hbreaks : ∀ l ∈ lines, '\r' ∉ l.2.2)
    (hnodup : (lines.map (·.1)).Nodup) :
    read? (String.ofList (document lines)) = some (entriesOf lines) := by
  have hmark : dropMark (document lines) = document lines := by
    cases lines with
    | nil => rfl
    | cons l lines =>
      obtain ⟨c, cs, hcons, hc⟩ := (hnames l List.mem_cons_self).exists_cons
      unfold dropMark
      split
      · rename_i heq
        simp only [document, entryLine, List.flatMap_cons, hcons, List.cons_append] at heq
        exact absurd (List.cons.inj heq).1 (ne_of_isKeyChar hc rfl)
      · rfl
  have hunified : unifyBreaks (document lines) = document lines := by
    refine unifyBreaks_of_not_mem fun hmem => ?_
    obtain ⟨l, hl, hline⟩ := List.mem_flatMap.mp hmem
    have hname : '\r' ∉ l.1.toList := fun hmem => absurd ((hnames l hl).2 _ hmem) (by decide)
    simp [entryLine, hname, hbreaks l hl] at hline
  unfold read?
  rw [String.toList_ofList, hmark, hunified]
  have hlines := lines?_document (d := {}) hnames hvalues rfl (by simpa using hnodup)
    (length_le_document lines)
  simp only [hlines]
  rfl

end SelfWiring.Toml
