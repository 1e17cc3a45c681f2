import Mathlib.Data.List.TakeWhile
import SelfWiring.Json.Printer
import SelfWiring.Json.Token
import SelfWiring.Proofs.Decimals

/-!
# The tokens of a printed document

Reading a printed document token by token gives exactly the tokens that its structure asks for:
strings come back from their escapes, and integers from their digits. The statements carry the text
that follows along, so that they can be put together; a number is only complete when no further
character of a number follows.

Documents with real numbers are left out, since nothing that is queued contains one.
-/

namespace SelfWiring

/-! ## Integers -/

theorem Numeral.splitDigits_of_digits {ds : List Char} (h : ∀ c ∈ ds, c.isDigit = true) :
    splitDigits ds = (ds, []) := by
  unfold splitDigits
  rw [List.takeWhile_eq_self_iff.mpr h, List.dropWhile_eq_nil_iff.mpr h]

theorem toDigits_ne_zero_cons (n : Nat) (c : Char) (ds : List Char) :
    Nat.toDigits 10 n ≠ '0' :: c :: ds := by
  intro h
  induction n using Nat.strongRecOn generalizing c ds with
  | ind n ih =>
    by_cases hsmall : n < 10
    · rw [Nat.toDigits_of_lt_base hsmall] at h
      simp at h
    · rw [Nat.toDigits_of_base_le (by omega) (by omega)] at h
      -- the leading digit of a long number is that of its tenth part, which is not zero
      cases hrest : Nat.toDigits 10 (n / 10) with
      | nil => exact Nat.toDigits_ne_nil hrest
      | cons d rest =>
        rw [hrest] at h
        obtain ⟨rfl, htail⟩ := List.cons.inj h
        cases rest with
        | nil =>
          have hvalue := congrArg (fun ds => Nat.ofDigitChars 10 ds 0) hrest
          simp [Nat.ofDigitChars_cons] at hvalue
          omega
        | cons e rest => exact ih (n / 10) (by omega) e rest hrest

theorem Numeral.unsigned?_toDigits (negative : Bool) (n : Nat) (h : negative = true → n ≠ 0) :
    unsigned? negative (Nat.toDigits 10 n) =
      some (integer (if negative then -(n : Int) else n)) := by
  have hsplit : splitDigits (Nat.toDigits 10 n) = (Nat.toDigits 10 n, []) :=
    splitDigits_of_digits fun _ => Text.Integer.isDigit_of_mem_toDigits
  unfold unsigned?
  rw [hsplit]
  split
  · rename_i heq
    exact absurd (congrArg Prod.fst heq) Nat.toDigits_ne_nil
  · rename_i heq
    exact absurd (congrArg Prod.fst heq) (toDigits_ne_zero_cons n _ _)
  · rename_i whole rest _ _ heq
    obtain ⟨rfl, rfl⟩ := Prod.mk.inj heq
    have hvalue : natOfDigits (Nat.toDigits 10 n) = n := by simp [natOfDigits]
    simp only [tail?, Option.map_some, assemble, hvalue]
    cases negative with
    | false => rfl
    | true =>
      have hn : (n == 0) = false := beq_eq_false_iff_ne.mpr (h rfl)
      simp [hn]

theorem Numeral.read?_render_integer (n : Int) :
    Numeral.read? (Text.Integer.render n) = some (.integer n) := by
  unfold Text.Integer.render
  by_cases hneg : n < 0
  · rw [if_pos hneg, read?, unsigned?_toDigits true _ (fun _ => by omega)]
    show some (Numeral.integer (-(n.natAbs : Int))) = _
    rw [show -(n.natAbs : Int) = n by omega]
  · obtain ⟨c, ds, hcons⟩ :=
      List.exists_cons_of_ne_nil (Nat.toDigits_ne_nil (n := n.natAbs) (b := 10))
    have hc : c.isDigit = true := Text.Integer.isDigit_of_mem_toDigits (hcons ▸ List.mem_cons_self)
    have hread : Numeral.read? (c :: ds) = unsigned? false (c :: ds) := by
      unfold read?
      split <;> simp_all
    rw [if_neg hneg, hcons, hread, ← hcons, unsigned?_toDigits false _ (by simp)]
    show some (Numeral.integer (n.natAbs : Int)) = _
    rw [show (n.natAbs : Int) = n by omega]

namespace Json

/-! ## Strings -/

theorem hexValue?_hexDigit {n : Nat} (h : n < 16) : hexValue? (hexDigit n) = some n := by
  have table : ∀ d : Fin 16, hexValue? (hexDigit d) = some d.val := by decide
  exact table ⟨n, h⟩

/-- A control character without an escape letter of its own comes back from its code. -/
theorem lexFrom_code {n : Nat} (h : n < 0x20) (units : List Unit16) (rest : List Char) :
    lexFrom (.inString units)
        (['\\', 'u', '0', '0', hexDigit (n / 16), hexDigit (n % 16)] ++ rest) =
      lexFrom (.inString (.char (Char.ofNat n) :: units)) rest := by
  have hunit : unitOfCode n = .char (Char.ofNat n) := if_neg (by omega)
  have hzero : hexValue? '0' = some 0 := by decide
  have hcode : ((0 * 16 + 0) * 16 + 0) * 16 + n / 16 = n / 16 := by omega
  simp only [List.cons_append, List.nil_append, lexFrom, ite_false, ite_true,
    Char.reduceEq, hzero, Option.bind_some, hexValue?_hexDigit (show n / 16 < 16 by omega),
    hexValue?_hexDigit (show n % 16 < 16 by omega)]
  rw [show ((0 * 16 + 0) * 16 + n / 16) * 16 + n % 16 = n by omega, hunit]

/-- A character with an escape letter comes back from its letter. -/
theorem lexFrom_letter {letter c : Char} (hu : letter ≠ 'u') (h : escape? letter = some c)
    (units : List Unit16) (rest : List Char) :
    lexFrom (.inString units) ('\\' :: letter :: rest) =
      lexFrom (.inString (.char c :: units)) rest := by
  simp [lexFrom, hu, h]

theorem lexFrom_escaped (c : Char) (units : List Unit16) (rest : List Char) :
    lexFrom (.inString units) (escaped c ++ rest) =
      lexFrom (.inString (.char c :: units)) rest := by
  unfold escaped
  split_ifs with hquote hslash hb hf hn hr ht hcontrol
  · subst hquote
    exact lexFrom_letter (by decide) rfl units rest
  · subst hslash
    exact lexFrom_letter (by decide) rfl units rest
  · subst hb
    exact lexFrom_letter (by decide) rfl units rest
  · subst hf
    exact lexFrom_letter (by decide) rfl units rest
  · subst hn
    exact lexFrom_letter (by decide) rfl units rest
  · subst hr
    exact lexFrom_letter (by decide) rfl units rest
  · subst ht
    exact lexFrom_letter (by decide) rfl units rest
  · rw [lexFrom_code hcontrol, Char.ofNat_toNat]
  · simp [lexFrom, hquote, hslash]
    exact fun h => absurd h hcontrol

theorem lexFrom_flatMap_escaped (cs : List Char) :
    ∀ (units : List Unit16) (rest : List Char),
      lexFrom (.inString units) (cs.flatMap escaped ++ rest) =
        lexFrom (.inString ((cs.map Unit16.char).reverse ++ units)) rest := by
  induction cs with
  | nil => intros; rfl
  | cons c cs ih =>
    intro units rest
    rw [List.flatMap_cons, List.append_assoc, lexFrom_escaped, ih]
    simp

theorem join?_map_char (cs : List Char) : join? (cs.map Unit16.char) = some cs := by
  induction cs with
  | nil => rfl
  | cons c cs ih => simp [join?, ih]

theorem lex_renderString_some (s : String) (rest : List Char) :
    lexFrom .between (renderString (some s) ++ rest) =
      (lexFrom .between rest).map (.string (some s) :: ·) := by
  have hopen : ∀ cs, lexFrom .between ('"' :: cs) = lexFrom (.inString []) cs := by
    intro cs
    simp [lexFrom, start?, isBlank]
  show lexFrom .between ('"' :: ((s.toList.flatMap escaped ++ ['"']) ++ rest)) = _
  rw [hopen, List.append_assoc, lexFrom_flatMap_escaped]
  simp [lexFrom, join?_map_char]

theorem lex_renderString (s : Option String) (rest : List Char) :
    lexFrom .between (renderString s ++ rest) =
      (lexFrom .between rest).map (.string s :: ·) := by
  cases s with
  | some s => exact lex_renderString_some s rest
  | none =>
    -- the lone half is spelled by a single code
    show lexFrom .between ("\"\\ud800\"".toList ++ rest) = _
    simp [lexFrom, start?, isBlank, hexValue?, unitOfCode, join?]
    rfl

/-! ## Numbers and literals -/

/-- A text before which a number or a literal ends. -/
def Delimited (rest : List Char) : Prop := ∀ c cs, rest = c :: cs → isBare c = false

theorem delimited_nil : Delimited [] := fun _ _ h => absurd h (List.cons_ne_nil _ _).symm

theorem delimited_cons {c : Char} (h : isBare c = false) (cs : List Char) :
    Delimited (c :: cs) := by
  intro d ds heq
  rw [← (List.cons.inj heq).1]
  exact h

theorem lexFrom_inBare (cs : List Char) (h : ∀ c ∈ cs, isBare c = true) :
    ∀ (run rest : List Char),
      lexFrom (.inBare run) (cs ++ rest) = lexFrom (.inBare (cs.reverse ++ run)) rest := by
  induction cs with
  | nil => intros; rfl
  | cons c cs ih =>
    intro run rest
    have hc : isBare c = true := h c List.mem_cons_self
    have hstep : lexFrom (.inBare run) (c :: (cs ++ rest)) =
        lexFrom (.inBare (c :: run)) (cs ++ rest) := by
      simp [lexFrom, hc]
    rw [List.cons_append, hstep, ih (fun d hd => h d (List.mem_cons_of_mem _ hd))]
    simp

theorem lexFrom_inBare_delimited {run rest : List Char} {t : Token} (hrest : Delimited rest)
    (ht : bareToken? run.reverse = some t) :
    lexFrom (.inBare run) rest = (lexFrom .between rest).map (t :: ·) := by
  cases rest with
  | nil => simp [lexFrom, ht]
  | cons c cs =>
    have hc := hrest c cs rfl
    simp only [lexFrom, hc, Bool.false_eq_true, ite_false, ht, Option.bind_some, Option.map_bind]
    cases start? c with
    | none => rfl
    | some r => simp [Function.comp_def]

theorem lex_bare {c : Char} {cs rest : List Char} {t : Token}
    (hbare : ∀ d ∈ c :: cs, isBare d = true) (ht : bareToken? (c :: cs) = some t)
    (hrest : Delimited rest) :
    lexFrom .between (c :: cs ++ rest) = (lexFrom .between rest).map (t :: ·) := by
  have hc : isBare c = true := hbare c List.mem_cons_self
  have hblank : isBlank c = false := by
    cases hb : isBlank c with
    | false => rfl
    | true =>
      simp only [isBlank, Bool.or_eq_true, beq_iff_eq] at hb
      rcases hb with ((rfl | rfl) | rfl) | rfl <;> exact absurd hc (by decide)
  have hquote : c ≠ '"' := by
    rintro rfl
    exact absurd hc (by decide)
  have hopen : lexFrom .between (c :: (cs ++ rest)) = lexFrom (.inBare [c]) (cs ++ rest) := by
    simp [lexFrom, start?, hblank, hquote, hc]
  rw [List.cons_append, hopen, lexFrom_inBare cs (fun d hd => hbare d (List.mem_cons_of_mem _ hd))]
  exact lexFrom_inBare_delimited hrest (by simpa using ht)

theorem digit_or_minus_of_mem_render {n : Int} {c : Char} (h : c ∈ Text.Integer.render n) :
    c.isDigit = true ∨ c = '-' := by
  unfold Text.Integer.render at h
  split at h
  · rcases List.mem_cons.mp h with rfl | h
    · exact Or.inr rfl
    · exact Or.inl (Text.Integer.isDigit_of_mem_toDigits h)
  · exact Or.inl (Text.Integer.isDigit_of_mem_toDigits h)

theorem bareToken?_render (n : Int) :
    bareToken? (Text.Integer.render n) = some (.number (.integer n)) := by
  -- no literal is made of digits and a sign
  have hletter : ∀ c cs, c.isDigit = false → c ≠ '-' → Text.Integer.render n ≠ c :: cs := by
    intro c cs hdigit hminus h
    rcases digit_or_minus_of_mem_render (h ▸ List.mem_cons_self) with hc | hc
    · rw [hdigit] at hc
      exact absurd hc (by decide)
    · exact hminus hc
  rw [bareToken?, if_neg (hletter _ _ (by decide) (by decide)),
    if_neg (hletter _ _ (by decide) (by decide)), if_neg (hletter _ _ (by decide) (by decide)),
    Numeral.read?_render_integer]
  rfl

theorem isBare_of_mem_render {n : Int} {c : Char} (h : c ∈ Text.Integer.render n) :
    isBare c = true := by
  rcases digit_or_minus_of_mem_render h with h | rfl
  · simp [isBare, Char.isAlphanum, h]
  · decide

theorem lex_integer (n : Int) {rest : List Char} (hrest : Delimited rest) :
    lexFrom .between (Text.Integer.render n ++ rest) =
      (lexFrom .between rest).map (.number (.integer n) :: ·) := by
  have htoken := bareToken?_render n
  have hbare : ∀ c ∈ Text.Integer.render n, isBare c = true := fun _ => isBare_of_mem_render
  cases h : Text.Integer.render n with
  | nil =>
    rw [h] at htoken
    simp [bareToken?, Numeral.read?, Numeral.unsigned?, Numeral.splitDigits] at htoken
  | cons c cs =>
    rw [h] at htoken hbare
    exact lex_bare hbare htoken hrest

/-! ## Documents -/

/-- Token lists with commas between them. -/
def joined : List (List Token) → List Token
  | [] => []
  | [ts] => ts
  | ts :: rest => ts ++ .comma :: joined rest

mutual
/-- The tokens that a document is written with. -/
def tokens : Json → List Token
  | .null => [.null]
  | .bool b => [.bool b]
  | .number n => [.number n]
  | .string s => [.string s]
  | .array items => .openBracket :: (joined (tokensOfItems items) ++ [.closeBracket])
  | .object members => .openBrace :: (joined (tokensOfMembers members) ++ [.closeBrace])
def tokensOfItems : List Json → List (List Token)
  | [] => []
  | j :: js => tokens j :: tokensOfItems js
def tokensOfMembers : List (Option String × Json) → List (List Token)
  | [] => []
  | (name, j) :: ms => (.string name :: .colon :: tokens j) :: tokensOfMembers ms
end

mutual
/-- A document without real numbers. -/
def Integral : Json → Prop
  | .number (.real _ _) => False
  | .array items => IntegralItems items
  | .object members => IntegralMembers members
  | _ => True
def IntegralItems : List Json → Prop
  | [] => True
  | j :: js => Integral j ∧ IntegralItems js
def IntegralMembers : List (Option String × Json) → Prop
  | [] => True
  | (_, j) :: ms => Integral j ∧ IntegralMembers ms
end

theorem lex_punctuation {c : Char} {t : Token} (h : start? c = some ([t], .between))
    (rest : List Char) : lexFrom .between (c :: rest) = (lexFrom .between rest).map (t :: ·) := by
  simp [lexFrom, h]

mutual
theorem lex_render : ∀ (j : Json) (_ : Integral j) {rest : List Char} (_ : Delimited rest),
    lexFrom .between (render j ++ rest) = (lexFrom .between rest).map (tokens j ++ ·)
  | .null, _, _, hrest => lex_bare (List.all_eq_true.mp rfl) (by decide) hrest
  | .bool true, _, _, hrest => lex_bare (List.all_eq_true.mp rfl) (by decide) hrest
  | .bool false, _, _, hrest => lex_bare (List.all_eq_true.mp rfl) (by decide) hrest
  | .number (.integer n), _, _, hrest => lex_integer n hrest
  | .string s, _, rest, _ => lex_renderString s rest
  | .array items, h, rest, _ => by
    have hitems := lex_renderItems items h rest
    rw [render, List.cons_append, List.append_assoc, lex_punctuation rfl, List.singleton_append,
      hitems, tokens]
    simp [Function.comp_def]
  | .object members, h, rest, _ => by
    have hmembers := lex_renderMembers members h rest
    rw [render, List.cons_append, List.append_assoc, lex_punctuation rfl, List.singleton_append,
      hmembers, tokens]
    simp [Function.comp_def]
theorem lex_renderItems : ∀ (js : List Json) (_ : IntegralItems js) (rest : List Char),
    lexFrom .between (separated (renderItems js) ++ ']' :: rest) =
      (lexFrom .between rest).map (joined (tokensOfItems js) ++ .closeBracket :: ·)
  | [], _, rest => by
    simp only [renderItems, separated, List.nil_append, tokensOfItems, joined]
    exact lex_punctuation rfl rest
  | [j], h, rest => by
    simp only [renderItems, separated, tokensOfItems, joined]
    rw [lex_render j h.1 (delimited_cons (by decide) rest), lex_punctuation rfl]
    simp [Function.comp_def]
  | j :: k :: js, h, rest => by
    have htail := lex_renderItems (k :: js) h.2 rest
    simp only [renderItems, separated, tokensOfItems, joined, List.append_assoc,
      List.cons_append] at htail ⊢
    rw [lex_render j h.1 (delimited_cons (by decide) _), lex_punctuation rfl, htail]
    simp [Function.comp_def]
theorem lex_renderMembers : ∀ (ms : List (Option String × Json)) (_ : IntegralMembers ms)
    (rest : List Char),
    lexFrom .between (separated (renderMembers ms) ++ '}' :: rest) =
      (lexFrom .between rest).map (joined (tokensOfMembers ms) ++ .closeBrace :: ·)
  | [], _, rest => by
    simp only [renderMembers, separated, List.nil_append, tokensOfMembers, joined]
    exact lex_punctuation rfl rest
  | [(name, j)], h, rest => by
    simp only [renderMembers, separated, tokensOfMembers, joined, List.append_assoc,
      List.cons_append]
    rw [lex_renderString, lex_punctuation rfl, lex_render j h.1 (delimited_cons (by decide) rest),
      lex_punctuation rfl]
    simp [Function.comp_def]
  | (name, j) :: m :: ms, h, rest => by
    have htail := lex_renderMembers (m :: ms) h.2 rest
    simp only [renderMembers, separated, tokensOfMembers, joined, List.append_assoc,
      List.cons_append] at htail ⊢
    rw [lex_renderString, lex_punctuation rfl, lex_render j h.1 (delimited_cons (by decide) _),
      lex_punctuation rfl, htail]
    simp [Function.comp_def]
end

end Json

end SelfWiring
