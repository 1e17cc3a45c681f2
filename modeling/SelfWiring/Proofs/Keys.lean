import SelfWiring.Cell.Delivery
import SelfWiring.Cell.Entry
import SelfWiring.Proofs.Decimals

/-!
# Keys do not collide

Two keys with the same text are the same key, save where a text could be read both as an information
record and as one of its entry behaviours, or as entry behaviours of two records. Where the
identifiers of records hold no colon, that cannot happen. As long as entry behaviours are kept for
the input and the output cell only, all keys are told apart by their texts, whatever texts and
identifiers they hold. Where in addition the identifier of a record holds no colon, its keys are
told apart from every other key.
-/

namespace SelfWiring

theorem Text.Integer.colon_not_mem_render (n : Int) : ':' ∉ render n := by
  have digits : ':' ∉ Nat.toDigits 10 n.natAbs := by
    intro h
    exact absurd (isDigit_of_mem_toDigits h) (by decide)
  unfold render
  split
  · rw [List.mem_cons]
    rintro (h | h)
    · exact absurd h (by decide)
    · exact digits h
  · exact digits

/-- A list is cut at the first occurrence of an element in one way only. -/
theorem append_cons_inj_of_not_mem {α : Type} {x : α} {a b s t : List α} (ha : x ∉ a) (hb : x ∉ b)
    (h : a ++ x :: s = b ++ x :: t) : a = b ∧ s = t := by
  induction a generalizing b with
  | nil =>
    cases b with
    | nil => exact ⟨rfl, (List.cons.inj h).2⟩
    | cons y b => exact absurd (List.cons.inj h).1 (fun e => hb (e ▸ List.mem_cons_self))
  | cons z a ih =>
    cases b with
    | nil => exact absurd (List.cons.inj h).1 (fun e => ha (e ▸ List.mem_cons_self))
    | cons y b =>
      obtain ⟨rfl, hrest⟩ := List.cons.inj h
      obtain ⟨rfl, rfl⟩ := ih (fun m => ha (List.mem_cons_of_mem _ m))
        (fun m => hb (List.mem_cons_of_mem _ m)) hrest
      exact ⟨rfl, rfl⟩

namespace Key

theorem render_inputQueue : inputQueue.render = "queue:inputs" := rfl
theorem render_eventQueue : eventQueue.render = "queue:events" := rfl
theorem render_separator : separator.render = "config:separator" := rfl
theorem render_connections (b : String) :
    (connections b).render = "behaviour:" ++ b ++ ":connections" := rfl
theorem render_binding (b : String) : (binding b).render = "behaviour:" ++ b ++ ":clg" := rfl
theorem render_firstBehaviour (t : String) :
    (firstBehaviour t).render = "tree:" ++ t ++ ":first-behaviour" := rfl
theorem render_retraversals (t : String) :
    (retraversals t).render = "tree:" ++ t ++ ":retraversals" := rfl
theorem render_misses (t : String) (p : Int64) : (misses t p).render =
    "tree:" ++ t ++ ":pass:" ++ String.ofList (Text.Integer.render p.toInt) ++ ":misses" := rfl
theorem render_done (t : String) : (done t).render = "tree:" ++ t ++ ":done" := rfl
theorem render_trace (t : String) : (trace t).render = "tree:" ++ t ++ ":trace" := rfl
theorem render_information (i : String) :
    (information i).render = "information:" ++ i ++ ":sequence" := rfl
theorem render_informationId (s : String) :
    (informationId s).render = "information-sequence:" ++ s ++ ":id" := rfl
theorem render_entry (i c : String) :
    (entry i c).render = "information:" ++ i ++ ":entry:" ++ c := rfl
theorem render_outputs (s : String) : (outputs s).render = "session:" ++ s ++ ":outputs" := rfl

/-- The letter that a key begins with. -/
def initial : Key → Char
  | inputQueue | eventQueue => 'q'
  | separator => 'c'
  | connections _ | binding _ => 'b'
  | firstBehaviour _ | retraversals _ | misses _ _ | done _ | trace _ => 't'
  | information _ | entry _ _ | informationId _ => 'i'
  | outputs _ => 's'

theorem head?_render (k : Key) : k.render.toList.head? = some k.initial := by
  cases k <;>
    simp [initial, render_inputQueue, render_eventQueue, render_separator, render_connections,
      render_binding, render_firstBehaviour, render_retraversals, render_misses, render_done,
      render_trace, render_information, render_informationId, render_entry, render_outputs]

/-- Keys that their texts alone do not tell apart. -/
def Confusable : Key → Key → Prop
  | information _, entry _ _ | entry _ _, information _ | entry _ _, entry _ _ => True
  | _, _ => False

theorem eq_or_confusable_of_render_eq {k k' : Key} (h : k.render = k'.render) :
    k = k' ∨ Confusable k k' := by
  have hinitial : k.initial = k'.initial := by
    apply Option.some.inj
    rw [← head?_render, ← head?_render, h]
  -- the families of one initial differ in their last letters
  have hreverse := congrArg (fun s => s.toList.reverse) h
  cases k <;> cases k' <;> simp only [initial, Char.reduceEq] at hinitial
  case inputQueue.inputQueue | eventQueue.eventQueue | separator.separator => exact Or.inl rfl
  case information.entry | entry.information | entry.entry => exact Or.inr trivial
  case informationId.entry | entry.informationId =>
    have hforward := congrArg String.toList h
    simp [render_informationId, render_entry] at hforward
  all_goals
    simp only [render_inputQueue, render_eventQueue, render_connections, render_binding,
      render_firstBehaviour, render_retraversals, render_misses, render_done, render_trace,
      render_information, render_informationId, render_outputs] at hreverse
    simp at hreverse
  case misses.misses =>
    obtain ⟨hp, ht⟩ := append_cons_inj_of_not_mem
      (by simpa using Text.Integer.colon_not_mem_render _)
      (by simpa using Text.Integer.colon_not_mem_render _) hreverse
    simp only [List.cons.injEq, true_and, List.append_cancel_right_eq, List.reverse_inj] at hp ht
    rw [String.toList_injective ht, Text.Integer.render_inj.mp hp]
    exact Or.inl rfl
  all_goals
    rw [String.toList_injective hreverse]
    exact Or.inl rfl

/-- Entry behaviours are kept for the two cells at which a submission can enter. -/
def Regular : Key → Prop
  | entry _ cell => cell = Cell.inputName ∨ cell = Cell.outputName
  | _ => True

theorem render_inj {k k' : Key} (hk : k.Regular) (hk' : k'.Regular) :
    k.render = k'.render ↔ k = k' := by
  constructor
  · intro h
    rcases eq_or_confusable_of_render_eq h with heq | hconfusable
    · exact heq
    have hreverse := congrArg (fun s => s.toList.reverse) h
    cases k <;> cases k' <;> try exact hconfusable.elim
    all_goals
      simp only [render_information, render_entry] at hreverse
    case information.entry =>
      rcases hk' with rfl | rfl <;> simp [Cell.inputName, Cell.outputName] at hreverse
    case entry.information =>
      rcases hk with rfl | rfl <;> simp [Cell.inputName, Cell.outputName] at hreverse
    case entry.entry =>
      rcases hk with rfl | rfl <;> rcases hk' with rfl | rfl <;>
        simp [Cell.inputName, Cell.outputName] at hreverse <;>
        rw [String.toList_injective hreverse]
  · exact congrArg render

/-- Keys in which the identifier of a record, if they hold one, is without a colon. -/
def Plain : Key → Prop
  | information i | entry i _ => ':' ∉ i.toList
  | _ => True

/-- A record ends at the first colon behind it, whatever text follows. -/
theorem render_eq_iff_of_plain {k k' : Key} (hk : k.Plain) (hk' : k'.Plain) :
    k.render = k'.render ↔ k = k' := by
  constructor
  · intro h
    rcases eq_or_confusable_of_render_eq h with heq | hconfusable
    · exact heq
    have htexts := congrArg String.toList h
    cases k <;> cases k' <;> try exact hconfusable.elim
    all_goals
      simp only [render_information, render_entry] at htexts
      simp at htexts
      obtain ⟨hrecord, hrest⟩ := append_cons_inj_of_not_mem hk hk' htexts
      simp at hrest
    case entry.entry =>
      rw [String.toList_injective hrecord, String.toList_injective hrest]
  · exact congrArg render

/-- Regular keys in which the identifier of a record holds no colon. -/
def Kept : Key → Prop
  | information i => ':' ∉ i.toList
  | entry i cell => ':' ∉ i.toList ∧ (cell = Cell.inputName ∨ cell = Cell.outputName)
  | _ => True

theorem Kept.regular {k : Key} (hk : k.Kept) : k.Regular := by
  cases k
  case entry => exact hk.2
  all_goals exact trivial

theorem Kept.plain {k : Key} (hk : k.Kept) : k.Plain := by
  cases k
  case entry => exact hk.1
  case information => exact hk
  all_goals exact trivial

/-- Both keys hold the same number of colons, so the identifier in the other holds none either. -/
theorem render_eq_iff_of_kept {k k' : Key} (hk : k.Kept) : k.render = k'.render ↔ k = k' := by
  constructor
  · intro h
    by_cases hk' : k'.Regular
    · exact (render_inj hk.regular hk').mp h
    rcases eq_or_confusable_of_render_eq h with heq | hconfusable
    · exact heq
    -- only entry behaviours can be irregular
    have hcolons := congrArg (fun s => s.toList.count ':') h
    cases k <;> cases k' <;> try exact hconfusable.elim
    case information.entry i i' c' =>
      have hi : i.toList.count ':' = 0 := List.count_eq_zero.mpr hk
      simp [render_information, render_entry, List.count_append, hi] at hcolons
      omega
    case entry.information => exact absurd trivial hk'
    case entry.entry i c i' c' =>
      have hi : i.toList.count ':' = 0 := List.count_eq_zero.mpr hk.1
      have hc : c.toList.count ':' = 0 := by
        rcases hk.2 with rfl | rfl <;> decide
      simp [render_entry, List.count_append, hi, hc] at hcolons
      have hplain : (entry i' c').Plain := List.count_eq_zero.mp (by omega)
      exact (render_eq_iff_of_plain hk.plain hplain).mp h
  · exact congrArg render

end Key

end SelfWiring
