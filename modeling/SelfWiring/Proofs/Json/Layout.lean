import SelfWiring.Proofs.Json.Documents

/-!
# Documents as they can be written

A document is written as its tokens, one after another, each in one of its spellings, with blanks
between them as one likes. Only a number or a literal needs something after it that it cannot go on
with. A string has many spellings, since a character stands for itself, is escaped with a letter
where there is one, or is named by its code.

The reader takes exactly these texts, and from each of them it gets the document that is written
there. Both of its layers go from left to right, so what they are compared with is what they have
gone through: the lexer the text since the last token, the parser all tokens.
-/

namespace SelfWiring.Json

/-! ## Spellings -/

/-- The number that hexadecimal digits name, after others that name `value`. -/
def code? (value : Nat) : List Char → Option Nat
  | [] => some value
  | c :: cs => (hexValue? c).bind fun d => code? (value * 16 + d) cs

theorem code?_concat (digits : List Char) (c : Char) : ∀ value,
    code? value (digits ++ [c]) =
      (code? value digits).bind fun n => (hexValue? c).map (n * 16 + ·) := by
  induction digits with
  | nil =>
    intro value
    cases h : hexValue? c <;> simp [code?, h]
  | cons d digits ih =>
    intro value
    rw [List.cons_append, code?, code?, Option.bind_assoc]
    simp only [ih]

/-- How an element of a string is spelled. -/
inductive SpellsUnit : Unit16 → List Char → Prop
  | plain {c : Char} (hquote : c ≠ '"') (hslash : c ≠ '\\') (hcontrol : ¬ c.toNat < 0x20) :
    SpellsUnit (.char c) [c]
  | letter {l c : Char} (h : escape? l = some c) : SpellsUnit (.char c) ['\\', l]
  | code {digits : List Char} {n : Nat} (hlength : digits.length = 4)
    (h : code? 0 digits = some n) : SpellsUnit (unitOfCode n) ('\\' :: 'u' :: digits)

inductive SpellsUnits : List Unit16 → List Char → Prop
  | nil : SpellsUnits [] []
  | cons {u : Unit16} {us : List Unit16} {cs ds : List Char} (h : SpellsUnit u cs)
    (hs : SpellsUnits us ds) : SpellsUnits (u :: us) (cs ++ ds)

theorem SpellsUnits.concat {u : Unit16} {us : List Unit16} {cs ds : List Char}
    (hs : SpellsUnits us ds) (h : SpellsUnit u cs) : SpellsUnits (us ++ [u]) (ds ++ cs) := by
  induction hs with
  | nil =>
    have hone := SpellsUnits.cons h .nil
    rwa [List.append_nil] at hone
  | cons hu _ ih =>
    rw [List.append_assoc]
    exact .cons hu ih

/-- How a token is spelled. A string is what its elements make up together. -/
inductive Spells : Token → List Char → Prop
  | mark {c : Char} {t : Token} (h : punctuation? c = some t) : Spells t [c]
  | bare {run : List Char} {t : Token} (hbare : ∀ c ∈ run, isBare c = true)
    (h : bareToken? run = some t) : Spells t run
  | string {us : List Unit16} {cs : List Char} (h : SpellsUnits us cs) :
    Spells (.string ((join? us).map String.ofList)) ('"' :: (cs ++ ['"']))

/-- Numbers and literals. -/
def Token.isBare : Token → Bool
  | .null | .bool _ | .number _ => true
  | _ => false

/-- How tokens are laid out. -/
inductive Laid : List Token → List Char → Prop
  | nil : Laid [] []
  | blank {c : Char} {ts : List Token} {cs : List Char} (hc : isBlank c = true) (h : Laid ts cs) :
    Laid ts (c :: cs)
  | token {t : Token} {ts : List Token} {s cs : List Char} (ht : Spells t s)
    (hend : t.isBare = true → Delimited cs) (h : Laid ts cs) : Laid (t :: ts) (s ++ cs)

/-- A text that the document can be written as. -/
def Written (j : Json) (text : String) : Prop := Laid (tokens j) text.toList

/-! ## Reading what is laid out -/

theorem lexFrom_inCode (units : List Unit16) (rest : List Char) : ∀ {digits : List Char}
    {left value n : Nat}, digits.length = left + 1 → code? value digits = some n →
      lexFrom (.inCode units left value) (digits ++ rest) =
        lexFrom (.inString (unitOfCode n :: units)) rest := by
  intro digits
  induction digits with
  | nil =>
    intro left value n hlength
    exact absurd hlength (Nat.zero_ne_add_one left)
  | cons c digits ih =>
    intro left value n hlength hcode
    obtain ⟨d, hd, hcode⟩ := Option.bind_eq_some_iff.mp hcode
    rw [List.cons_append, lexFrom, hd, Option.bind_some]
    cases left with
    | zero =>
      obtain rfl : digits = [] := List.eq_nil_of_length_eq_zero (Nat.succ.inj hlength)
      obtain rfl := Option.some.inj hcode
      rfl
    | succ left => exact ih (Nat.succ.inj hlength) hcode

theorem lexFrom_unit {u : Unit16} {cs : List Char} (h : SpellsUnit u cs) (units : List Unit16)
    (rest : List Char) :
    lexFrom (.inString units) (cs ++ rest) = lexFrom (.inString (u :: units)) rest := by
  cases h with
  | plain hquote hslash hcontrol => simp [lexFrom, hquote, hslash, hcontrol]
  | letter h =>
    refine lexFrom_letter ?_ h units rest
    rintro rfl
    exact absurd h (Option.some_ne_none _).symm
  | code hlength h =>
    have hcode := lexFrom_inCode units rest hlength h
    rw [← hcode]
    simp [lexFrom]

theorem lexFrom_units {us : List Unit16} {cs : List Char} (h : SpellsUnits us cs) :
    ∀ (units : List Unit16) (rest : List Char),
      lexFrom (.inString units) (cs ++ rest) = lexFrom (.inString (us.reverse ++ units)) rest := by
  induction h with
  | nil => intros; rfl
  | cons hu _ ih =>
    intro units rest
    rw [List.append_assoc, lexFrom_unit hu, ih, List.reverse_cons, List.append_assoc]
    rfl

theorem start?_of_punctuation? {c : Char} {t : Token} (h : punctuation? c = some t) :
    start? c = some ([t], .between) := by
  unfold punctuation? at h
  split at h
  all_goals first
    | exact absurd h (Option.some_ne_none _).symm
    | (obtain rfl := Option.some.inj h; rfl)

theorem isBare_of_punctuation? {c : Char} {t : Token} (h : punctuation? c = some t) :
    t.isBare = false := by
  unfold punctuation? at h
  split at h
  all_goals first
    | exact absurd h (Option.some_ne_none _).symm
    | (obtain rfl := Option.some.inj h; rfl)

theorem isBare_of_bareToken? {run : List Char} {t : Token} (h : bareToken? run = some t) :
    t.isBare = true := by
  unfold bareToken? at h
  split_ifs at h
  · rw [← Option.some.inj h]
    rfl
  · rw [← Option.some.inj h]
    rfl
  · rw [← Option.some.inj h]
    rfl
  · obtain ⟨n, -, rfl⟩ := Option.map_eq_some_iff.mp h
    rfl

theorem lexFrom_spells {t : Token} {s rest : List Char} (h : Spells t s)
    (hend : t.isBare = true → Delimited rest) :
    lexFrom .between (s ++ rest) = (lexFrom .between rest).map (t :: ·) := by
  cases h with
  | mark h => exact lex_punctuation (start?_of_punctuation? h) rest
  | bare hbare h =>
    cases s with
    | nil =>
      simp [bareToken?, Numeral.read?, Numeral.unsigned?, Numeral.splitDigits] at h
    | cons c run => exact lex_bare hbare h (hend (isBare_of_bareToken? h))
  | @string us cs h =>
    have hopen : lexFrom .between ('"' :: (cs ++ ['"'] ++ rest)) =
        lexFrom (.inString []) (cs ++ ['"'] ++ rest) := by
      simp [lexFrom, start?, isBlank]
    rw [List.cons_append, hopen, List.append_assoc, lexFrom_units h]
    simp [lexFrom]

theorem lex_of_laid {ts : List Token} {cs : List Char} (h : Laid ts cs) :
    lexFrom .between cs = some ts := by
  induction h with
  | nil => rfl
  | blank hc _ ih => simp [lexFrom, start?, hc, ih]
  | token ht hend _ ih =>
    rw [lexFrom_spells ht hend, ih]
    rfl

/-! ## What was read is laid out -/

/-- The text that the lexer has gone through since the last token. -/
def Mode.Behind : Mode → List Char → Prop
  | .between, cs => cs = []
  | .inBare run, cs => cs = run.reverse ∧ ∀ c ∈ run, isBare c = true
  | .inString units, cs => ∃ body, cs = '"' :: body ∧ SpellsUnits units.reverse body
  | .afterBackslash units, cs =>
    ∃ body, cs = '"' :: (body ++ ['\\']) ∧ SpellsUnits units.reverse body
  | .inCode units left value, cs => ∃ body digits,
    cs = '"' :: (body ++ '\\' :: 'u' :: digits) ∧ SpellsUnits units.reverse body ∧
      digits.length + left = 3 ∧ code? 0 digits = some value

theorem Mode.behind_unit {units : List Unit16} {u : Unit16} {body cs : List Char}
    (hbody : SpellsUnits units.reverse body) (h : SpellsUnit u cs) :
    (Mode.inString (u :: units)).Behind ('"' :: (body ++ cs)) := by
  refine ⟨_, rfl, ?_⟩
  rw [List.reverse_cons]
  exact hbody.concat h

/-- Whatever tokens the lexer makes of the text that is left, together with the text behind it that
text is a layout of them. -/
def Covered (cs : List Char) : Prop := ∀ (m : Mode) (ts : List Token) (before : List Char),
  lexFrom m cs = some ts → m.Behind before → Laid ts (before ++ cs)

section Step

variable {c : Char} {cs : List Char} (h : Covered cs) {ts : List Token}

include h

/-- Where the next token may begin, the first character of the text is a blank, is a token or begins
one. -/
theorem Covered.between (hlex : lexFrom .between (c :: cs) = some ts) : Laid ts (c :: cs) := by
  rw [lexFrom] at hlex
  obtain ⟨⟨first, m⟩, hstart, htail⟩ := Option.bind_eq_some_iff.mp hlex
  obtain ⟨rest, hrest, rfl⟩ := Option.map_eq_some_iff.mp htail
  unfold start? at hstart
  split_ifs at hstart with hblank hquote hbare
  · obtain ⟨rfl, rfl⟩ := Prod.mk.inj (Option.some.inj hstart)
    exact .blank hblank (h _ _ _ hrest rfl)
  · obtain ⟨rfl, rfl⟩ := Prod.mk.inj (Option.some.inj hstart)
    subst hquote
    exact h _ _ _ hrest ⟨[], rfl, .nil⟩
  · obtain ⟨rfl, rfl⟩ := Prod.mk.inj (Option.some.inj hstart)
    have hrun : (Mode.inBare [c]).Behind [c] := ⟨rfl, by simpa using hbare⟩
    exact h _ _ _ hrest hrun
  · obtain ⟨t, ht, heq⟩ := Option.map_eq_some_iff.mp hstart
    obtain ⟨rfl, rfl⟩ := Prod.mk.inj heq
    have hend : t.isBare = true → Delimited cs := by
      intro hmark
      rw [isBare_of_punctuation? ht] at hmark
      exact absurd hmark Bool.false_ne_true
    exact .token (.mark ht) hend (h _ _ _ hrest rfl)

/-- A run goes on with a bare character, and ends before any other, which is then read as between
tokens. -/
theorem Covered.inBare {run : List Char} (hbare : ∀ c ∈ run, isBare c = true)
    (hlex : lexFrom (.inBare run) (c :: cs) = some ts) : Laid ts (run.reverse ++ c :: cs) := by
  by_cases hc : isBare c = true
  · rw [lexFrom, if_pos hc] at hlex
    have hrun : (Mode.inBare (c :: run)).Behind (run.reverse ++ [c]) :=
      ⟨List.reverse_cons.symm, by simpa [hc] using hbare⟩
    have hlaid := h _ _ _ hlex hrun
    rwa [List.append_assoc] at hlaid
  · have hend : Delimited (c :: cs) := delimited_cons (Bool.eq_false_iff.mpr hc) cs
    obtain ⟨t, ht⟩ : ∃ t, bareToken? run.reverse = some t := by
      rw [lexFrom, if_neg hc] at hlex
      obtain ⟨t, ht, -⟩ := Option.bind_eq_some_iff.mp hlex
      exact ⟨t, ht⟩
    rw [lexFrom_inBare_delimited hend ht] at hlex
    obtain ⟨rest, hrest, rfl⟩ := Option.map_eq_some_iff.mp hlex
    exact .token (.bare (fun c hc => hbare c (List.mem_reverse.mp hc)) ht) (fun _ => hend)
      (h.between hrest)

theorem Covered.inString {units : List Unit16} {body : List Char}
    (hbody : SpellsUnits units.reverse body)
    (hlex : lexFrom (.inString units) (c :: cs) = some ts) :
    Laid ts ('"' :: (body ++ c :: cs)) := by
  rw [lexFrom] at hlex
  split_ifs at hlex with hquote hslash hcontrol
  · subst hquote
    obtain ⟨rest, hrest, rfl⟩ := Option.map_eq_some_iff.mp hlex
    have hlaid := Laid.token (.string hbody) (fun hbare => absurd hbare Bool.false_ne_true)
      (h _ _ _ hrest rfl)
    simpa using hlaid
  · subst hslash
    have hlaid := h _ _ _ hlex ⟨body, rfl, hbody⟩
    simpa using hlaid
  · have hlaid := h _ _ _ hlex (Mode.behind_unit hbody (.plain hquote hslash hcontrol))
    simpa using hlaid

theorem Covered.afterBackslash {units : List Unit16} {body : List Char}
    (hbody : SpellsUnits units.reverse body)
    (hlex : lexFrom (.afterBackslash units) (c :: cs) = some ts) :
    Laid ts ('"' :: (body ++ '\\' :: c :: cs)) := by
  rw [lexFrom] at hlex
  split_ifs at hlex with hu
  · subst hu
    have hlaid := h _ _ _ hlex ⟨body, [], rfl, hbody, rfl, rfl⟩
    simpa using hlaid
  · obtain ⟨e, he, hrest⟩ := Option.bind_eq_some_iff.mp hlex
    have hlaid := h _ _ _ hrest (Mode.behind_unit hbody (.letter he))
    simpa using hlaid

theorem Covered.inCode {units : List Unit16} {left value : Nat} {body digits : List Char}
    (hbody : SpellsUnits units.reverse body) (hlength : digits.length + left = 3)
    (hcode : code? 0 digits = some value)
    (hlex : lexFrom (.inCode units left value) (c :: cs) = some ts) :
    Laid ts ('"' :: (body ++ '\\' :: 'u' :: (digits ++ c :: cs))) := by
  rw [lexFrom] at hlex
  obtain ⟨d, hd, hrest⟩ := Option.bind_eq_some_iff.mp hlex
  have hmore : code? 0 (digits ++ [c]) = some (value * 16 + d) := by
    rw [code?_concat, hcode, Option.bind_some, hd]
    rfl
  have hone : (digits ++ [c]).length = digits.length + 1 := by
    rw [List.length_append, List.length_singleton]
  cases left with
  | zero =>
    have hfour : (digits ++ [c]).length = 4 := by omega
    have hlaid := h _ _ _ hrest (Mode.behind_unit hbody (.code hfour hmore))
    simpa using hlaid
  | succ left =>
    have hthree : (digits ++ [c]).length + left = 3 := by omega
    have hlaid := h _ _ _ hrest ⟨body, digits ++ [c], rfl, hbody, hthree, hmore⟩
    simpa using hlaid

theorem Covered.cons : Covered (c :: cs) := by
  intro m ts before hlex hbefore
  cases m with
  | between =>
    obtain rfl : before = [] := hbefore
    exact h.between hlex
  | inBare run =>
    obtain ⟨rfl, hbare⟩ := hbefore
    exact h.inBare hbare hlex
  | inString units =>
    obtain ⟨body, rfl, hbody⟩ := hbefore
    exact h.inString hbody hlex
  | afterBackslash units =>
    obtain ⟨body, rfl, hbody⟩ := hbefore
    simpa using h.afterBackslash hbody hlex
  | inCode units left value =>
    obtain ⟨body, digits, rfl, hbody, hlength, hcode⟩ := hbefore
    simpa using h.inCode hbody hlength hcode hlex

end Step

/-- At the end of the text only a run is still open. -/
theorem covered_nil : Covered [] := by
  intro m ts before hlex hbefore
  cases m with
  | between =>
    obtain rfl : before = [] := hbefore
    rw [← Option.some.inj hlex]
    exact .nil
  | inBare run =>
    obtain ⟨rfl, hbare⟩ := hbefore
    obtain ⟨t, ht, rfl⟩ := Option.map_eq_some_iff.mp hlex
    exact .token (.bare (fun c hc => hbare c (List.mem_reverse.mp hc)) ht)
      (fun _ => delimited_nil) .nil
  | inString | afterBackslash | inCode => exact absurd hlex (Option.some_ne_none _).symm

theorem covered (cs : List Char) : Covered cs := by
  induction cs with
  | nil => exact covered_nil
  | cons c cs ih => exact ih.cons

theorem lex_eq_some_iff {cs : List Char} {ts : List Token} : lex cs = some ts ↔ Laid ts cs := by
  constructor
  · intro h
    exact covered cs .between ts [] h rfl
  · exact lex_of_laid

/-! ## What was parsed is made of its tokens -/

/-- Token lists with a comma after each. -/
def ended (groups : List (List Token)) : List Token := groups.flatMap (· ++ [.comma])

theorem joined_concat (groups : List (List Token)) (ts : List Token) :
    joined (groups ++ [ts]) = ended groups ++ ts := by
  induction groups with
  | nil => rfl
  | cons first groups ih =>
    have hcons : joined (first :: (groups ++ [ts])) =
        first ++ .comma :: joined (groups ++ [ts]) := by
      cases groups <;> rfl
    rw [List.cons_append, hcons, ih]
    simp [ended]

theorem tokensOfItems_concat (js : List Json) (j : Json) :
    tokensOfItems (js ++ [j]) = tokensOfItems js ++ [tokens j] := by
  induction js with
  | nil => rfl
  | cons k js ih => rw [List.cons_append, tokensOfItems, ih, tokensOfItems, List.cons_append]

theorem tokensOfMembers_concat (ms : List Member) (name : Option String) (j : Json) :
    tokensOfMembers (ms ++ [(name, j)]) =
      tokensOfMembers ms ++ [.string name :: .colon :: tokens j] := by
  induction ms with
  | nil => rfl
  | cons m ms ih =>
    obtain ⟨name', k⟩ := m
    rw [List.cons_append, tokensOfMembers, ih, tokensOfMembers, List.cons_append]

/-- The tokens of the arrays and objects that are still open, as far as they were read. -/
def behind : List Frame → List Token
  | [] => []
  | .array items :: stack => behind stack ++ .openBracket :: ended (tokensOfItems items.reverse)
  | .member ms name :: stack =>
    behind stack ++ .openBrace :: (ended (tokensOfMembers ms.reverse) ++ [.string name, .colon])

/-- The tokens that were read in addition to those. -/
def Expect.behind : Expect → List Token
  | .value | .firstItem => []
  | .firstMember => [.openBrace]
  | .name ms => .openBrace :: ended (tokensOfMembers ms.reverse)
  | .colon ms s => .openBrace :: (ended (tokensOfMembers ms.reverse) ++ [.string s])
  | .done j => tokens j

/-- A first item is awaited only in an array without items. -/
def Expect.Fits (e : Expect) (stack : List Frame) : Prop :=
  e = .firstItem → ∃ rest, stack = .array [] :: rest

theorem begin?_behind {stack stack' : List Frame} {t : Token} {e' : Expect}
    (h : begin? stack t = some (stack', e')) :
    behind stack' ++ e'.behind = behind stack ++ [t] ∧ e'.Fits stack' := by
  unfold begin? at h
  split at h
  all_goals first
    | exact absurd h (Option.some_ne_none _).symm
    | obtain ⟨rfl, rfl⟩ := Prod.mk.inj (Option.some.inj h)
  · exact ⟨rfl, nofun⟩
  · exact ⟨rfl, nofun⟩
  · exact ⟨rfl, nofun⟩
  · exact ⟨rfl, nofun⟩
  · exact ⟨by simp [behind, Expect.behind, ended, tokensOfItems], fun _ => ⟨_, rfl⟩⟩
  · exact ⟨rfl, nofun⟩

/-- One more token is behind the parser. -/
theorem advance?_behind {stack stack' : List Frame} {e e' : Expect} {t : Token}
    (h : advance? stack e t = some (stack', e')) (hfits : e.Fits stack) :
    behind stack' ++ e'.behind = behind stack ++ e.behind ++ [t] ∧ e'.Fits stack' := by
  unfold advance? at h
  split at h
  case h_1 =>
    rw [Expect.behind, List.append_nil]
    exact begin?_behind h
  case h_3 =>
    rw [Expect.behind, List.append_nil]
    exact begin?_behind h
  case h_2 =>
    -- an array that is closed where its first item may begin has no items
    obtain ⟨rest, hstack⟩ := hfits rfl
    obtain ⟨hitems, rfl⟩ := List.cons.inj hstack
    obtain rfl := Frame.array.inj hitems
    obtain ⟨rfl, rfl⟩ := Prod.mk.inj (Option.some.inj h)
    exact ⟨by simp [behind, Expect.behind, ended, tokens, tokensOfItems, joined], nofun⟩
  all_goals first
    | exact absurd h (Option.some_ne_none _).symm
    | obtain ⟨rfl, rfl⟩ := Prod.mk.inj (Option.some.inj h)
  all_goals
    refine ⟨?_, nofun⟩
    simp [behind, Expect.behind, tokens, joined_concat, tokensOfItems_concat,
      tokensOfMembers_concat, tokensOfMembers, joined, ended]

theorem tokens_of_readFrom (ts : List Token) : ∀ {stack : List Frame} {e : Expect} {j : Json},
    readFrom stack e ts = some j → e.Fits stack →
      behind stack ++ e.behind ++ ts = tokens j := by
  induction ts with
  | nil =>
    intro stack e j h hfits
    unfold readFrom at h
    split at h
    · rw [Option.some.inj h]
      simp_all [behind, Expect.behind]
    · exact absurd h (Option.some_ne_none _).symm
    · simp_all
  | cons t ts ih =>
    intro stack e j h hfits
    rw [readFrom] at h
    obtain ⟨⟨stack', e'⟩, hstep, h⟩ := Option.bind_eq_some_iff.mp h
    obtain ⟨hbehind, hfits'⟩ := advance?_behind hstep hfits
    have hrest := ih h hfits'
    rwa [hbehind, List.append_assoc] at hrest

theorem ofTokens?_eq_some_iff {ts : List Token} {j : Json} :
    ofTokens? ts = some j ↔ ts = tokens j := by
  constructor
  · intro h
    exact tokens_of_readFrom ts h nofun
  · rintro rfl
    have hread := readFrom_tokens j .value (Or.inl rfl) [] []
    rw [List.append_nil] at hread
    rw [ofTokens?, hread]
    rfl

/-- A document is read from the texts that it can be written as, and from no other text. -/
theorem read?_eq_some_iff {text : String} {j : Json} : read? text = some j ↔ j.Written text := by
  unfold read? Written
  rw [Option.bind_eq_some_iff]
  constructor
  · rintro ⟨ts, hlex, hparse⟩
    rw [← ofTokens?_eq_some_iff.mp hparse]
    exact lex_eq_some_iff.mp hlex
  · intro h
    exact ⟨tokens j, lex_eq_some_iff.mpr h, ofTokens?_eq_some_iff.mpr rfl⟩

end SelfWiring.Json
