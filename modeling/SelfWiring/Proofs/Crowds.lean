import Mathlib.Logic.Relation
import Mathlib.Tactic.Simps.Basic
import SelfWiring.Proofs.Flaky
import SelfWiring.Proofs.Routine

/-!
# Programs that run at the same time

A crowd is a number of programs at work on one world. In each step some program of it performs its
next effect, whichever it is, so the effects of the programs are interleaved in every order. All
that was done is written down, with the answers.

A program by itself knows what it has done and been answered. `Program.Abides rules p past post`
says that, as long as the answers are those that the rules let it count on, all that `p` does after
`past` is permitted, and that it ends as `post` says. Where what is permitted keeps an invariant of
the world, and the invariant makes good for the answers, programs that abide by the rules by
themselves do so in a crowd.
-/

namespace SelfWiring

/-- An effect that was performed, with its answer. -/
structure Act where
  effect : Effect
  answer : effect.Answer

namespace Act

/-- The list that was appended to, and the item. -/
def pushed? : Act → Option (String × String)
  | ⟨.store (.push list item), .ok _⟩ => some (list, item)
  | _ => none

/-- What one of several programs did. -/
def own (i : Nat) (acts : List (Nat × Act)) : List Act :=
  acts.filterMap fun a => if a.1 = i then some a.2 else none

variable {i j : Nat} {a : Act} {acts : List (Nat × Act)}

theorem own_append_self (i : Nat) (a : Act) (acts : List (Nat × Act)) :
    own i (acts ++ [(i, a)]) = own i acts ++ [a] := by
  simp [own]

theorem own_append_of_ne (h : j ≠ i) (a : Act) (acts : List (Nat × Act)) :
    own i (acts ++ [(j, a)]) = own i acts := by
  simp [own, h]

theorem mem_own : a ∈ own i acts ↔ (i, a) ∈ acts := by
  simp only [own, List.mem_filterMap, Option.ite_none_right_eq_some, Option.some.injEq]
  constructor
  · rintro ⟨⟨k, b⟩, hmem, rfl, rfl⟩
    exact hmem
  · intro hmem
    exact ⟨(i, a), hmem, rfl, rfl⟩

theorem mem_own_append {b : Act} :
    b ∈ own i (acts ++ [(j, a)]) ↔ b ∈ own i acts ∨ i = j ∧ b = a := by
  simp only [mem_own, List.mem_append, List.mem_singleton, Prod.mk.injEq]

/-- All that was appended to lists, the oldest first. -/
def pushes (acts : List Act) : List (String × String) := acts.filterMap pushed?

@[simp] theorem pushes_append (acts acts' : List Act) :
    pushes (acts ++ acts') = pushes acts ++ pushes acts' := List.filterMap_append

theorem pushes_singleton (a : Act) : pushes [a] = a.pushed?.toList := by
  cases h : a.pushed? <;> simp [pushes, h]

end Act

open Act (own)

/-! ## Crowds -/

structure Crowd (σ α : Type) where
  world : World σ
  /-- What each program has still to do. -/
  programs : List (Program α)
  /-- All that was done, with who did it, the oldest first. -/
  acts : List (Nat × Act)

namespace Crowd

variable {σ α : Type} [Store σ]

/-- Nothing was done yet. -/
def start (w : World σ) (programs : List (Program α)) : Crowd σ α := ⟨w, programs, []⟩

/-- The crowd after program `i` performed an effect, with `next` to do by the answer. -/
@[simps] def perform (c : Crowd σ α) (i : Nat) (e : Effect) (next : e.Answer → Program α) :
    Crowd σ α where
  world := (c.world.answer e).2
  programs := c.programs.set i (next (c.world.answer e).1)
  acts := c.acts ++ [(i, ⟨e, (c.world.answer e).1⟩)]

/-- Some program performs its next effect. -/
inductive Step : Crowd σ α → Crowd σ α → Prop
  | act {c : Crowd σ α} {i : Nat} {e : Effect} {next : e.Answer → Program α}
    (h : c.programs[i]? = some (.perform e next)) : Step c (c.perform i e next)

/-- Any number of steps, in any order. -/
def Reaches : Crowd σ α → Crowd σ α → Prop := Relation.ReflTransGen Step

/-- The crowd after program `i` took a turn, if anything is left for it to do. -/
def turn (c : Crowd σ α) (i : Nat) : Crowd σ α :=
  match c.programs[i]? with
  | some (.perform e next) => c.perform i e next
  | _ => c

theorem reaches_turns (order : List Nat) : ∀ c : Crowd σ α, c.Reaches (order.foldl turn c) := by
  induction order with
  | nil => exact fun c => .refl
  | cons i order ih =>
    intro c
    refine Relation.ReflTransGen.trans ?_ (ih (c.turn i))
    unfold turn
    split
    · rename_i e next h
      exact .single (.act h)
    · exact .refl

/-- All programs have come to their ends. -/
def Finished (c : Crowd σ α) : Prop := ∀ p ∈ c.programs, ∃ a, p = .done a

theorem exists_done {i : Nat} (p : Program α) : ∀ c : Crowd σ α, c.programs[i]? = some p →
    ∃ c' a, c.Reaches c' ∧ c'.programs = c.programs.set i (.done a) := by
  induction p with
  | done a =>
    intro c h
    refine ⟨c, a, .refl, ?_⟩
    obtain ⟨hlt, hget⟩ := List.getElem?_eq_some_iff.mp h
    rw [← hget, List.set_getElem_self]
  | perform e next ih =>
    intro c h
    have hlt := (List.getElem?_eq_some_iff.mp h).1
    obtain ⟨c', a, hreaches, hprograms⟩ := ih (c.world.answer e).1 (c.perform i e next)
      (List.getElem?_set_self hlt)
    refine ⟨c', a, .head (.act h) hreaches, ?_⟩
    rw [hprograms, perform_programs, List.set_set]

/-- Nobody waits for anybody: however far a crowd has come, it can finish. -/
theorem exists_finished (c : Crowd σ α) : ∃ c', c.Reaches c' ∧ c'.Finished := by
  have hrest : ∀ (rest before : List (Program α)) (c : Crowd σ α), c.programs = before ++ rest →
      (∀ p ∈ before, ∃ a, p = .done a) → ∃ c', c.Reaches c' ∧ c'.Finished := by
    intro rest
    induction rest with
    | nil =>
      intro before c hprograms hbefore
      refine ⟨c, .refl, ?_⟩
      intro p hp
      rw [hprograms, List.append_nil] at hp
      exact hbefore p hp
    | cons p rest ih =>
      intro before c hprograms hbefore
      have hp : c.programs[before.length]? = some p := by simp [hprograms]
      obtain ⟨c', a, hreaches, hdone⟩ := exists_done p c hp
      have hnext : c'.programs = (before ++ [.done a]) ++ rest := by simp [hdone, hprograms]
      obtain ⟨c'', hreaches', hfinished⟩ := ih (before ++ [.done a]) c' hnext fun q hq =>
        (List.mem_append.mp hq).elim (hbefore q) fun h => ⟨a, List.mem_singleton.mp h⟩
      exact ⟨c'', hreaches.trans hreaches', hfinished⟩
  exact hrest c.programs [] c rfl (by simp)

end Crowd

/-! ## What a program does by itself -/

/-- What may be done next and which answers may be counted on, by what was done so far. -/
structure Rules where
  permits : List Act → Effect → Prop
  credits : List Act → (e : Effect) → e.Answer → Prop

/-- Everything was permitted when it was done, and all answers could be counted on. -/
inductive Rules.Lawful (rules : Rules) : List Act → Prop
  | nil : Lawful rules []
  | snoc {past : List Act} {e : Effect} {answer : e.Answer} (hpast : Lawful rules past)
    (hpermitted : rules.permits past e) (hcredited : rules.credits past e answer) :
    Lawful rules (past ++ [⟨e, answer⟩])

def Program.Abides {α : Type} (rules : Rules) :
    Program α → List Act → (α → List Act → Prop) → Prop
  | .done a, past, post => post a past
  | .perform e next, past, post => rules.permits past e ∧ ∀ answer, rules.credits past e answer →
      (next answer).Abides rules (past ++ [⟨e, answer⟩]) post

def Action.Abides {ε α : Type} (rules : Rules) (a : Action ε α) (past : List Act)
    (post : Except ε α → List Act → Prop) : Prop := Program.Abides rules a.run past post

namespace Program

variable {α β : Type} {rules : Rules} {p : Program α} {past : List Act}

theorem abides_pure {post : α → List Act → Prop} {a : α} (h : post a past) :
    Abides rules (pure a) past post := h

theorem abides_effect {e : Effect} {post : e.Answer → List Act → Prop}
    (hpermitted : rules.permits past e)
    (h : ∀ answer, rules.credits past e answer → post answer (past ++ [⟨e, answer⟩])) :
    Abides rules (effect e) past post := ⟨hpermitted, h⟩

theorem Abides.imp {Q R : α → List Act → Prop} (h : Abides rules p past Q)
    (hQR : ∀ a past', Q a past' → R a past') : Abides rules p past R := by
  induction p generalizing past with
  | done a => exact hQR a past h
  | perform e next ih => exact ⟨h.1, fun answer hanswer => ih answer (h.2 answer hanswer)⟩

theorem Abides.bind {f : α → Program β} {Q : α → List Act → Prop} {R : β → List Act → Prop}
    (h : Abides rules p past Q) (hf : ∀ a past', Q a past' → Abides rules (f a) past' R) :
    Abides rules (p >>= f) past R := by
  induction p generalizing past with
  | done a => exact hf a past h
  | perform e next ih => exact ⟨h.1, fun answer hanswer => ih answer (h.2 answer hanswer)⟩

/-- What a program does that only performs permitted effects. -/
theorem Only.abides {E : Effect → Prop} (h : Only E p)
    (hE : ∀ past e, E e → rules.permits past e) (past : List Act) :
    Abides rules p past fun _ past' => ∃ acts, past' = past ++ acts ∧ ∀ a ∈ acts, E a.effect := by
  induction p generalizing past with
  | done a => exact ⟨[], (List.append_nil _).symm, by simp⟩
  | perform e next ih =>
    refine ⟨hE past e h.1, fun answer _ => (ih answer (h.2 answer) _).imp ?_⟩
    rintro _ _ ⟨acts, rfl, hacts⟩
    refine ⟨⟨e, answer⟩ :: acts, List.append_assoc .., fun a ha => ?_⟩
    rcases List.mem_cons.mp ha with rfl | ha
    · exact h.1
    · exact hacts a ha

end Program

namespace Action

variable {ε ε' α β : Type} {rules : Rules} {a : Action ε α} {past : List Act}

theorem abides_pure {post : Except ε α → List Act → Prop} {x : α} (h : post (.ok x) past) :
    Abides rules (pure x : Action ε α) past post := h

theorem abides_throw {post : Except ε α → List Act → Prop} {e : ε} (h : post (.error e) past) :
    Abides rules (throw e : Action ε α) past post := h

theorem Abides.imp {Q R : Except ε α → List Act → Prop} (h : Abides rules a past Q)
    (hQR : ∀ r past', Q r past' → R r past') : Abides rules a past R := Program.Abides.imp h hQR

/-- The rest of an action runs after a good result only. -/
theorem Abides.bind {f : α → Action ε β} {Q : Except ε α → List Act → Prop}
    {R : Except ε β → List Act → Prop} (h : Abides rules a past Q)
    (hok : ∀ x past', Q (.ok x) past' → Abides rules (f x) past' R)
    (herror : ∀ e past', Q (.error e) past' → R (.error e) past') :
    Abides rules (a >>= f) past R := by
  show Program.Abides rules (a.run >>= fun r => ExceptT.bindCont f r) past R
  refine Program.Abides.bind h ?_
  intro r past' hr
  cases r with
  | ok x => exact hok x past' hr
  | error e => exact herror e past' hr

/-- A program inside an action never fails. -/
theorem abides_lift {p : Program α} {post : Except ε α → List Act → Prop}
    (h : Program.Abides rules p past fun x past' => post (.ok x) past') :
    Abides rules (ExceptT.lift p : Action ε α) past post :=
  Program.Abides.bind h fun _ _ hx => hx

theorem abides_bind_lift {p : Program α} {f : α → Action ε β} {Q : α → List Act → Prop}
    {R : Except ε β → List Act → Prop} (h : Program.Abides rules p past Q)
    (hf : ∀ x past', Q x past' → Abides rules (f x) past' R) :
    Abides rules (ExceptT.lift p >>= f) past R := by
  have hlift : Abides rules (ExceptT.lift p : Action ε α) past fun r past' =>
      ∃ x, r = .ok x ∧ Q x past' := abides_lift (h.imp fun x _ hx => ⟨x, rfl, hx⟩)
  exact Program.Abides.bind hlift fun _ _ ⟨x, hr, hx⟩ => hr ▸ hf x _ hx

theorem abides_adapt {g : ε → ε'} {post : Except ε' α → List Act → Prop}
    (h : Abides rules a past fun r past' => post (r.mapError g) past') :
    Abides rules (ExceptT.adapt g a : Action ε' α) past post :=
  Program.Abides.bind h fun _ _ hr => hr

theorem Abides.bind_adapt {g : ε → ε'} {f : α → Action ε' β} {Q : Except ε α → List Act → Prop}
    {R : Except ε' β → List Act → Prop} (h : Abides rules a past Q)
    (hok : ∀ x past', Q (.ok x) past' → Abides rules (f x) past' R)
    (herror : ∀ e past', Q (.error e) past' → R (.error (g e)) past') :
    Abides rules (ExceptT.adapt g a >>= f) past R := by
  have hadapted : Abides rules (ExceptT.adapt g a : Action ε' α) past fun r past' =>
      ∃ r', r = r'.mapError g ∧ Q r' past' := abides_adapt (h.imp fun r _ hr => ⟨r, rfl, hr⟩)
  refine hadapted.bind ?_ ?_
  · rintro x past' ⟨r, hr, hQ⟩
    cases r with
    | ok y => exact Except.ok.inj hr ▸ hok y past' hQ
    | error e => exact nomatch hr
  · rintro e past' ⟨r, hr, hQ⟩
    cases r with
    | ok y => exact nomatch hr
    | error e' => exact Except.error.inj hr ▸ herror e' past' hQ

theorem abides_call {c : StoreCall} {post : Except StoreError c.Answer → List Act → Prop}
    (hpermitted : rules.permits past (.store c))
    (h : ∀ answer, rules.credits past (.store c) answer →
      post answer (past ++ [⟨.store c, answer⟩])) :
    Abides rules (call c) past post := Program.abides_effect hpermitted h

end Action

/-! ## What programs do in a crowd -/

section

variable {σ α : Type} {rules : Rules} {inv : World σ → List (Nat × Act) → Prop}
  {post : Nat → α → List Act → Prop}

/-- Whatever is permitted keeps the invariant, and is answered as the rules let one count on. -/
structure Rules.Govern [Store σ] (rules : Rules) (inv : World σ → List (Nat × Act) → Prop) :
    Prop where
  credits : ∀ {w : World σ} {acts : List (Nat × Act)} {i : Nat} {e : Effect}, inv w acts →
    (∀ j, rules.Lawful (own j acts)) → rules.permits (own i acts) e →
    rules.credits (own i acts) e (w.answer e).1
  keeps : ∀ {w : World σ} {acts : List (Nat × Act)} {i : Nat} {e : Effect}, inv w acts →
    (∀ j, rules.Lawful (own j acts)) → rules.permits (own i acts) e →
    inv (w.answer e).2 (acts ++ [(i, ⟨e, (w.answer e).1⟩)])

namespace Crowd

variable {c c' : Crowd σ α}

/-- Every program of the crowd has abided by the rules and will do so, each to an end of its own. -/
structure Orderly (rules : Rules) (inv : World σ → List (Nat × Act) → Prop)
    (post : Nat → α → List Act → Prop) (c : Crowd σ α) : Prop where
  inv : inv c.world c.acts
  lawful : ∀ i, rules.Lawful (own i c.acts)
  abides : ∀ (i : Nat) (p : Program α), c.programs[i]? = some p →
    p.Abides rules (own i c.acts) (post i)

theorem orderly_start {w : World σ} {programs : List (Program α)} (hinv : inv w [])
    (habides : ∀ (i : Nat) (p : Program α), programs[i]? = some p → p.Abides rules [] (post i)) :
    (start w programs).Orderly rules inv post :=
  ⟨hinv, fun _ => .nil, habides⟩

variable [Store σ]

theorem Orderly.perform (hrules : rules.Govern inv) (h : c.Orderly rules inv post) {i : Nat}
    {e : Effect} {next : e.Answer → Program α} (hi : c.programs[i]? = some (.perform e next)) :
    (c.perform i e next).Orderly rules inv post := by
  obtain ⟨hpermitted, hnext⟩ := h.abides i _ hi
  have hcredited := hrules.credits h.inv h.lawful hpermitted
  refine ⟨hrules.keeps h.inv h.lawful hpermitted, fun j => ?_, fun j p hp => ?_⟩
  · rw [perform_acts]
    by_cases hj : i = j
    · subst hj
      rw [Act.own_append_self]
      exact (h.lawful i).snoc hpermitted hcredited
    · rw [Act.own_append_of_ne hj]
      exact h.lawful j
  · rw [perform_programs, List.getElem?_set] at hp
    rw [perform_acts]
    by_cases hj : i = j
    · subst hj
      rw [if_pos rfl] at hp
      split at hp
      · obtain rfl := Option.some.inj hp
        rw [Act.own_append_self]
        exact hnext _ hcredited
      · exact nomatch hp
    · rw [if_neg hj] at hp
      rw [Act.own_append_of_ne hj]
      exact h.abides j p hp

theorem Reaches.orderly (hrules : rules.Govern inv) (hreaches : c.Reaches c')
    (h : c.Orderly rules inv post) : c'.Orderly rules inv post := by
  induction hreaches with
  | refl => exact h
  | tail _ hstep ih =>
    cases hstep with
    | act hi => exact ih.perform hrules hi

/-- What each permitted effect leaves as it is stays so. -/
theorem Reaches.keeps {P : World σ → Prop} (hrules : rules.Govern inv) (hreaches : c.Reaches c')
    (h : c.Orderly rules inv post)
    (hP : ∀ (w : World σ) (acts : List (Nat × Act)) (i : Nat) (e : Effect), inv w acts →
      (∀ j, rules.Lawful (own j acts)) → rules.permits (own i acts) e → P w → P (w.answer e).2)
    (hc : P c.world) : P c'.world := by
  induction hreaches with
  | refl => exact hc
  | tail hreaches hstep ih =>
    have horderly := Reaches.orderly hrules hreaches h
    cases hstep with
    | act hi => exact hP _ _ _ _ horderly.inv horderly.lawful (horderly.abides _ _ hi).1 ih

/-- No program comes or goes. -/
theorem Reaches.length_programs (hreaches : c.Reaches c') :
    c'.programs.length = c.programs.length := by
  induction hreaches with
  | refl => rfl
  | tail _ hstep ih =>
    cases hstep with
    | act hi => rw [perform_programs, List.length_set, ih]

/-- What was done stays on record. -/
theorem Reaches.prefix_acts (hreaches : c.Reaches c') : c.acts <+: c'.acts := by
  induction hreaches with
  | refl => exact List.prefix_refl _
  | tail _ hstep ih =>
    cases hstep with
    | act hi => exact ih.trans (List.prefix_append _ _)

/-- Whatever was done was done by one of the programs. -/
theorem Reaches.lt_of_mem (hreaches : c.Reaches c') (hc : ∀ a ∈ c.acts, a.1 < c.programs.length) :
    ∀ a ∈ c'.acts, a.1 < c.programs.length := by
  induction hreaches with
  | refl => exact hc
  | tail hreaches hstep ih =>
    cases hstep with
    | act hi =>
      intro a ha
      rcases List.mem_append.mp ha with ha | ha
      · exact ih a ha
      · obtain rfl := List.mem_singleton.mp ha
        rw [← Reaches.length_programs hreaches]
        exact (List.getElem?_eq_some_iff.mp hi).1

end Crowd

end

/-! ## Lists -/

/-- Effects that take nothing out of any list. -/
def Effect.Adds : Effect → Prop
  | .store (.get _) | .store (.set _ _) | .store (.incr _) | .store (.push _ _)
  | .store (.setInit _ _) | .store (.setMembers _) => True
  | .mint | .draw _ _ | .publish _ | .signal _ => True
  | _ => False

theorem World.minted_le_answer {σ : Type} [Store σ] (e : Effect) (w : World σ) :
    w.minted ≤ (w.answer e).2.minted := by
  cases e
  case mint => exact Nat.le_succ _
  all_goals exact Nat.le_refl _

/-- The items for one list, out of what was appended to lists. -/
def itemsOf (list : String) (pushes : List (String × String)) : List String :=
  pushes.filterMap fun push => if push.1 = list then some push.2 else none

/-- What is appended to a list is all that happens to it. -/
theorem StoreCall.ComesTo.list {c : StoreCall} {s after : Contents}
    {answer : Except StoreError c.Answer} (h : c.ComesTo s answer after)
    (hc : (Effect.store c).Adds) (list : String) :
    after.list list = s.list list ++ itemsOf list (Act.pushed? ⟨.store c, answer⟩).toList := by
  cases answer with
  | error failure =>
    have hnone : Act.pushed? ⟨.store c, .error failure⟩ = none := by cases c <;> rfl
    have hsettled : c.Settled := by cases c <;> first | exact trivial | exact hc.elim
    rw [h hsettled, hnone]
    exact (List.append_nil _).symm
  | ok x =>
    cases c
    case get | setMembers =>
      obtain ⟨_, rfl⟩ := h
      exact (List.append_nil _).symm
    case set key value =>
      obtain rfl : after = s.putText key value := h
      exact (List.append_nil _).symm
    case incr key =>
      obtain ⟨_, rfl⟩ := h
      exact (List.append_nil _).symm
    case setInit key members =>
      rcases h with ⟨_, _, rfl⟩ | ⟨_, _, rfl⟩ <;> exact (List.append_nil _).symm
    case push l item =>
      obtain rfl : after = s.putList l (s.list l ++ [item]) := h
      by_cases hl : l = list
      · simp [Contents.putList, Act.pushed?, itemsOf, hl]
      · simp [Contents.putList, Act.pushed?, itemsOf, hl, Function.update_of_ne (Ne.symm hl)]
    all_goals exact hc.elim

theorem itemsOf_append (list : String) (pushes pushes' : List (String × String)) :
    itemsOf list (pushes ++ pushes') = itemsOf list pushes ++ itemsOf list pushes' :=
  List.filterMap_append

section

variable {σ : Type} [Store σ] [FaultFree σ]

theorem World.answer_comesTo_of_store (c : StoreCall) (w : World σ) :
    c.ComesTo w.contents (w.answer (.store c)).1 (w.answer (.store c)).2.contents :=
  FaultFree.comesTo c w.store

theorem World.answer_list {e : Effect} (he : e.Adds) (w : World σ) (list : String) :
    (w.answer e).2.contents.list list =
      w.contents.list list ++ itemsOf list (Act.pushed? ⟨e, (w.answer e).1⟩).toList := by
  cases e
  case store c => exact (w.answer_comesTo_of_store c).list he list
  all_goals first | exact he.elim | exact (List.append_nil _).symm

/-- The lists hold what they held at first, and what was appended since. -/
def Appended (w₀ w : World σ) (acts : List (Nat × Act)) : Prop :=
  ∀ list, w.contents.list list =
    w₀.contents.list list ++ itemsOf list (Act.pushes (acts.map (·.2)))

theorem appended_refl (w : World σ) : Appended w w [] := fun _ => (List.append_nil _).symm

theorem Appended.answer {w₀ w : World σ} {acts : List (Nat × Act)} (h : Appended w₀ w acts)
    {e : Effect} (he : e.Adds) (i : Nat) :
    Appended w₀ (w.answer e).2 (acts ++ [(i, ⟨e, (w.answer e).1⟩)]) := by
  intro list
  rw [w.answer_list he, h list, List.map_append, Act.pushes_append, List.map_singleton,
    Act.pushes_singleton, itemsOf_append, List.append_assoc]

end

end SelfWiring
