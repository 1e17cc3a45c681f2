import SelfWiring.Json.Reader
import SelfWiring.Proofs.Json.Tokens

/-!
# Printed documents are read back

The reader takes the tokens of a document off its input and is left with that document complete, on
whatever stack it began. With the tokens of a printed text known, every document without real
numbers is read back from the text that it is printed to.
-/

namespace SelfWiring.Json

theorem readFrom_cons {stack stack' : List Frame} {e e' : Expect} {t : Token} {ts : List Token}
    (h : advance? stack e t = some (stack', e')) :
    readFrom stack e (t :: ts) = readFrom stack' e' ts := by
  simp [readFrom, h]

/-- A state in which a value may begin. -/
def Expect.Open (e : Expect) : Prop := e = .value ∨ e = .firstItem

theorem advance?_open {e : Expect} (he : e.Open) (stack : List Frame) {t : Token}
    (ht : t ≠ .closeBracket) : advance? stack e t = begin? stack t := by
  rcases he with rfl | rfl
  · rfl
  · unfold advance?
    split <;> simp_all

/-- A state in which the items `js` may follow those in `before`, up to the end of the array. -/
def Expect.OpenItems (e : Expect) (before js : List Json) : Prop :=
  (e = .value ∧ js ≠ []) ∨ (e = .firstItem ∧ before = [])

theorem Expect.OpenItems.toOpen {e : Expect} {before js : List Json} (h : e.OpenItems before js) :
    e.Open := h.imp And.left And.left

/-- A state in which the members `ms` may follow those in `before`, up to the end of the object. -/
def Expect.OpenMembers (e : Expect) (before ms : List Member) : Prop :=
  (e = .name before ∧ ms ≠ []) ∨ (e = .firstMember ∧ before = [])

theorem advance?_openMembers {e : Expect} {before ms : List Member} (he : e.OpenMembers before ms)
    (stack : List Frame) (s : Option String) :
    advance? stack e (.string s) = some (stack, .colon before s) := by
  rcases he with ⟨rfl, _⟩ | ⟨rfl, rfl⟩ <;> rfl

mutual
theorem readFrom_tokens : ∀ (j : Json) (e : Expect) (_ : e.Open) (stack : List Frame)
    (rest : List Token), readFrom stack e (tokens j ++ rest) = readFrom stack (.done j) rest
  | .null, _, he, stack, _ => readFrom_cons (advance?_open he stack (by simp))
  | .bool _, _, he, stack, _ => readFrom_cons (advance?_open he stack (by simp))
  | .number _, _, he, stack, _ => readFrom_cons (advance?_open he stack (by simp))
  | .string _, _, he, stack, _ => readFrom_cons (advance?_open he stack (by simp))
  | .array items, _, he, stack, rest => by
    have hitems := readFrom_items items .firstItem [] (Or.inr ⟨rfl, rfl⟩) stack rest
    rw [tokens, List.cons_append, List.append_assoc, List.singleton_append,
      readFrom_cons (advance?_open he stack (by simp)), hitems]
    rfl
  | .object members, _, he, stack, rest => by
    have hmembers := readFrom_members members .firstMember [] (Or.inr ⟨rfl, rfl⟩) stack rest
    rw [tokens, List.cons_append, List.append_assoc, List.singleton_append,
      readFrom_cons (advance?_open he stack (by simp)), hmembers]
    rfl
theorem readFrom_items : ∀ (js : List Json) (e : Expect) (before : List Json)
    (_ : e.OpenItems before js) (stack : List Frame) (rest : List Token),
    readFrom (.array before :: stack) e
        (joined (tokensOfItems js) ++ .closeBracket :: rest) =
      readFrom stack (.done (.array (before.reverse ++ js))) rest
  | [], e, before, he, stack, rest => by
    rcases he with ⟨_, hne⟩ | ⟨rfl, rfl⟩
    · exact absurd rfl hne
    · exact readFrom_cons rfl
  | [j], e, before, he, stack, rest => by
    simp only [tokensOfItems, joined]
    rw [readFrom_tokens j e he.toOpen, readFrom_cons rfl, List.reverse_cons]
  | j :: k :: js, e, before, he, stack, rest => by
    have htail := readFrom_items (k :: js) .value (j :: before)
      (Or.inl ⟨rfl, List.cons_ne_nil _ _⟩) stack rest
    simp only [tokensOfItems, joined, List.append_assoc] at htail ⊢
    rw [readFrom_tokens j e he.toOpen, List.cons_append, readFrom_cons rfl, htail]
    simp
theorem readFrom_members : ∀ (ms : List Member) (e : Expect) (before : List Member)
    (_ : e.OpenMembers before ms) (stack : List Frame) (rest : List Token),
    readFrom stack e (joined (tokensOfMembers ms) ++ .closeBrace :: rest) =
      readFrom stack (.done (.object (before.reverse ++ ms))) rest
  | [], e, before, he, stack, rest => by
    rcases he with ⟨_, hne⟩ | ⟨rfl, rfl⟩
    · exact absurd rfl hne
    · exact readFrom_cons rfl
  | [(name, j)], e, before, he, stack, rest => by
    simp only [tokensOfMembers, joined, List.cons_append]
    rw [readFrom_cons (advance?_openMembers he stack name), readFrom_cons rfl,
      readFrom_tokens j .value (Or.inl rfl), readFrom_cons rfl, List.reverse_cons]
  | (name, j) :: m :: ms, e, before, he, stack, rest => by
    have htail := readFrom_members (m :: ms) (.name ((name, j) :: before)) ((name, j) :: before)
      (Or.inl ⟨rfl, List.cons_ne_nil _ _⟩) stack rest
    simp only [tokensOfMembers, joined, List.append_assoc, List.cons_append] at htail ⊢
    rw [readFrom_cons (advance?_openMembers he stack name), readFrom_cons rfl,
      readFrom_tokens j .value (Or.inl rfl), readFrom_cons rfl, htail]
    simp
end

theorem lex_print {j : Json} (h : Integral j) : lex j.print.toList = some (tokens j) := by
  have hlex := lex_render j h delimited_nil
  rw [List.append_nil] at hlex
  rw [lex, print, String.toList_ofList, hlex]
  simp [lexFrom]

theorem read?_print {j : Json} (h : Integral j) : Json.read? j.print = some j := by
  have hread := readFrom_tokens j .value (Or.inl rfl) [] []
  rw [List.append_nil] at hread
  rw [read?, lex_print h, Option.bind_some, ofTokens?, hread]
  rfl

end SelfWiring.Json
