import Mathlib.Data.List.Perm.Subperm
import SelfWiring.Cell.Delivery
import SelfWiring.Proofs.Crowds
import SelfWiring.Proofs.Json.Records
import SelfWiring.Proofs.Runs

/-!
# Results that race for a tree

Results of one tree may reach the output cell at the same time. Whether the tree was answered is
looked up by one call and claimed by another, so a result can find the tree unanswered and still
come too late. What keeps answers and restarts apart are the counters alone: a counter never answers
the same number twice, and only the result that is answered the first number may go on.
-/

namespace SelfWiring

open SelfWiring.Act (own pushes)

namespace Effect

/-- Effects that change nothing that is stored, apart from the supply of identifiers. -/
def Light : Effect → Prop
  | .store (.get _) | .mint | .publish _ | .signal _ => True
  | _ => False

end Effect

namespace Act

/-- The act appends an output. -/
def Delivers (a : Act) : Prop :=
  ∃ session output answer, a = ⟨.store (.push (Key.outputs session).render output), answer⟩

/-- The act queues a payload with which a tree begins the walk after `pass`. -/
def Restarts (tree : String) (pass : Int64) (a : Act) : Prop :=
  ∃ (p : Payload) (answer : Except StoreError Unit),
    a = ⟨.store (.push Key.eventQueue.render p.encode), answer⟩ ∧ p.context.tree = some tree ∧
      p.context.pass = pass + 1

end Act

/-! ## The rules -/

/-- The counts that were answered allow an append: an output, by the first claim of the answer of
the tree, or a restart, by the first miss of a walk. -/
def Earned (tree : String) (past : List Act) (list item : String) : Prop :=
  (∃ session, list = (Key.outputs session).render ∧
    (⟨.store (.incr (Key.done tree).render), .ok 1⟩ : Act) ∈ past) ∨
  ∃ (p : Payload) (pass count : Int64), list = Key.eventQueue.render ∧ item = p.encode ∧
    p.context.tree = some tree ∧ p.context.pass = pass + 1 ∧ ¬ 1 < count ∧
    (⟨.store (.incr (Key.misses tree pass).render), .ok count⟩ : Act) ∈ past

/-- No counter is counted twice, and at most one append is made, which must be earned. -/
def raceRules (tree : String) : Rules where
  permits past
    | .store (.incr key) => ∀ answer, (⟨.store (.incr key), answer⟩ : Act) ∉ past
    | .store (.push list item) =>
      (∀ list' item' answer, (⟨.store (.push list' item'), answer⟩ : Act) ∉ past) ∧
        Earned tree past list item
    | e => e.Light
  credits _ _ _ := True

variable {tree : String} {past : List Act}

theorem permits_of_light {e : Effect} (he : e.Light) : (raceRules tree).permits past e := by
  cases e with
  | store c => cases c <;> first | exact trivial | exact he.elim
  | _ => first | exact trivial | exact he.elim

/-- What was done is looking things up, and counting under some of the keys given. -/
def Counting (keys : List String) (past : List Act) : Prop :=
  ∀ a ∈ past, a.effect.Light ∨ ∃ key ∈ keys, a.effect = .store (.incr key)

namespace Counting

variable {keys : List String}

theorem nil : Counting [] [] := by
  intro a ha
  exact absurd ha List.not_mem_nil

theorem append (h : Counting keys past) {acts : List Act} (hacts : ∀ a ∈ acts, a.effect.Light) :
    Counting keys (past ++ acts) := by
  intro a ha
  exact (List.mem_append.mp ha).elim (h a) fun ha => Or.inl (hacts a ha)

theorem count (h : Counting keys past) (key : String) (answer : Except StoreError Int64) :
    Counting (key :: keys) (past ++ [⟨.store (.incr key), answer⟩]) := by
  intro a ha
  rcases List.mem_append.mp ha with ha | ha
  · exact (h a ha).imp_right fun ⟨k, hk, hincr⟩ => ⟨k, List.mem_cons_of_mem _ hk, hincr⟩
  · obtain rfl := List.mem_singleton.mp ha
    exact Or.inr ⟨key, List.mem_cons_self, rfl⟩

theorem not_incr (h : Counting keys past) {key : String} (hkey : key ∉ keys)
    (answer : Except StoreError Int64) : (⟨.store (.incr key), answer⟩ : Act) ∉ past := by
  intro ha
  rcases h _ ha with hlight | ⟨k, hk, hincr⟩
  · exact hlight.elim
  · obtain rfl : key = k := by simpa using hincr
    exact hkey hk

theorem not_push (h : Counting keys past) (list item : String) (answer : Except StoreError Unit) :
    (⟨.store (.push list item), answer⟩ : Act) ∉ past := by
  intro ha
  rcases h _ ha with hlight | ⟨k, hk, hincr⟩
  · exact hlight.elim
  · exact absurd hincr (by simp)

theorem pushes (h : Counting keys past) : Act.pushes past = [] := by
  apply List.filterMap_eq_nil_iff.mpr
  intro a ha
  obtain ⟨e, answer⟩ := a
  rcases h _ ha with hlight | ⟨k, hk, rfl⟩
  · cases e with
    | store c => cases c <;> first | rfl | exact hlight.elim
    | _ => rfl
  · rfl

end Counting

/-! ## One call -/

/-- The failure that announces a restart. -/
def CellError.IsMiss : CellError → Prop
  | .expectationNotMet _ _ => True
  | _ => False

namespace Cell

/-- How a call of the output cell ends, and what it has appended by then: nothing, the result to the
outputs of its session, or the payload that restarts its tree. -/
inductive Leaves (tree : String) (ctx : Context) (args : List Value) :
    Except CellError (List Value) → List (String × String) → Prop
  | nothing : Leaves tree ctx args (.ok []) []
  | failure {e : CellError} (h : ¬ e.IsMiss) :
    Leaves tree ctx args (.error e) []
  | output {v : Value} {vs : List Value} {session : String} (hargs : args = v :: vs)
    (hsession : ctx.session = some session)
    (hfits : ∀ expected, ctx.expectation = some expected → expected = v.display) :
    Leaves tree ctx args (.ok []) [((Key.outputs session).render, v.display)]
  | restart (v : Value) (vs : List Value) (expected id text first cell : String) (attempt : Int64)
    (hargs : args = v :: vs) (hmissed : ctx.expectation = some expected ∧ expected ≠ v.display) :
    Leaves tree ctx args (.error (.expectationNotMet tree attempt))
      [(Key.eventQueue.render, (restartPayload ctx id text first cell).encode)]

open SelfWiring.Action

variable {ctx : Context} {keys : List String}

theorem leaves_of_store {args : List Value} (h : Counting keys past) (e : StoreError) :
    Leaves tree ctx args (.error (.store e)) (pushes past) := by
  rw [h.pushes]
  exact .failure not_false

theorem incr_abides {key : String} (hkey : key ∉ keys) (h : Counting keys past) :
    Abides (raceRules tree) (Action.call (.incr key)) past fun r past' =>
      Counting (key :: keys) past' ∧ past' = past ++ [⟨.store (.incr key), r⟩] :=
  abides_call (fun answer => h.not_incr hkey answer) fun answer _ => ⟨h.count key answer, rfl⟩

theorem push_abides {list item : String} (h : Counting keys past)
    (hearned : Earned tree past list item) :
    Abides (raceRules tree) (Action.call (.push list item)) past fun r past' =>
      pushes past' = match r with
        | .ok _ => [(list, item)]
        | .error _ => [] := by
  refine abides_call ⟨h.not_push, hearned⟩ fun answer _ => ?_
  rw [Act.pushes_append, h.pushes, Act.pushes_singleton]
  cases answer <;> rfl

/-- What follows an append is light, and appends nothing. -/
theorem effect_abides_pushes {ε : Type} {e : Effect} (he : e.Light) (past : List Act) :
    Abides (raceRules tree) (ExceptT.lift (.effect e) : Action ε e.Answer) past fun r past' =>
      (∃ answer, r = .ok answer) ∧ pushes past' = pushes past := by
  refine abides_lift (Program.abides_effect (permits_of_light he) fun answer _ => ⟨⟨_, rfl⟩, ?_⟩)
  have hnone : Counting [] [⟨e, answer⟩] := fun a ha => Or.inl (List.mem_singleton.mp ha ▸ he)
  rw [Act.pushes_append, hnone.pushes, List.append_nil]

theorem claimAnswer_abides (hne : tree ≠ "") (h : Counting [] past) :
    Abides (raceRules tree) (claimAnswer tree) past fun r past' =>
      Counting [(Key.done tree).render] past' ∧
        (r = .ok true → (⟨.store (.incr (Key.done tree).render), .ok 1⟩ : Act) ∈ past') := by
  unfold claimAnswer
  rw [if_neg hne]
  refine (incr_abides List.not_mem_nil h).bind ?_ ?_
  · rintro count past' ⟨hcounting, rfl⟩
    refine abides_pure ⟨hcounting, fun hfirst => ?_⟩
    obtain rfl : count = 1 := by simpa using hfirst
    exact List.mem_append_right _ (List.mem_singleton_self _)
  · rintro e past' ⟨hcounting, -⟩
    exact ⟨hcounting, fun h => nomatch h⟩

variable {args : List Value} {v : Value} {vs : List Value}

theorem deliver_abides (htree : ctx.tree = some tree) (hne : tree ≠ "") (hargs : args = v :: vs)
    (hfits : ∀ expected, ctx.expectation = some expected → expected = v.display)
    (h : Counting [] past) :
    Abides (raceRules tree) (deliver ctx v.display) past fun r past' =>
      Leaves tree ctx args (r.map fun _ => []) (pushes past') := by
  unfold deliver
  cases hsession : ctx.session with
  | none =>
    apply abides_throw
    rw [h.pushes]
    exact .failure not_false
  | some session =>
    simp only [htree, Option.getD_some]
    refine (claimAnswer_abides hne h).bind_adapt ?_ ?_
    · rintro claimed past₁ ⟨hcounting, hclaimed⟩
      cases claimed with
      | false =>
        apply abides_pure
        rw [hcounting.pushes]
        exact .nothing
      | true =>
        have hearned : Earned tree past₁ (Key.outputs session).render v.display :=
          Or.inl ⟨session, rfl, hclaimed rfl⟩
        refine (push_abides hcounting hearned).bind_adapt ?_ ?_
        · intro _ past₂ hpushes
          refine (effect_abides_pushes (by exact trivial) past₂).imp ?_
          rintro _ past₃ ⟨⟨_, rfl⟩, hkept⟩
          rw [hkept, hpushes]
          exact .output hargs hsession hfits
        · intro e past₂ hpushes
          rw [hpushes]
          exact .failure not_false
    · rintro e past₁ ⟨hcounting, -⟩
      exact leaves_of_store hcounting e

/-- The first miss of a walk was counted, and nothing was appended since. -/
structure FirstMissed (tree : String) (pass : Int64) (keys : List String) (past : List Act) :
    Prop where
  counting : Counting keys past
  first : ∃ count : Int64, ¬ 1 < count ∧
    (⟨.store (.incr (Key.misses tree pass).render), .ok count⟩ : Act) ∈ past

theorem FirstMissed.light {pass : Int64} (h : FirstMissed tree pass keys past) {e : Effect}
    (he : e.Light) (answer : e.Answer) : FirstMissed tree pass keys (past ++ [⟨e, answer⟩]) := by
  constructor
  · exact h.counting.append fun a ha => List.mem_singleton.mp ha ▸ he
  · obtain ⟨count, hfirst, hmem⟩ := h.first
    exact ⟨count, hfirst, List.mem_append_left _ hmem⟩

theorem FirstMissed.count {pass : Int64} (h : FirstMissed tree pass keys past) (key : String)
    (answer : Except StoreError Int64) :
    FirstMissed tree pass (key :: keys) (past ++ [⟨.store (.incr key), answer⟩]) := by
  obtain ⟨count, hfirst, hmem⟩ := h.first
  exact ⟨h.counting.count key answer, count, hfirst, List.mem_append_left _ hmem⟩

theorem get_abides {pass : Int64} (h : FirstMissed tree pass keys past) (key : String) :
    Abides (raceRules tree) (Action.call (.get key)) past fun _ past' =>
      FirstMissed tree pass keys past' :=
  abides_call trivial fun answer _ => h.light (e := .store (.get key)) trivial answer

theorem mint_abides {pass : Int64} (h : FirstMissed tree pass keys past) :
    Abides (raceRules tree) (ExceptT.lift Program.mint : Action CellError String) past
      fun r past' => (∃ id, r = .ok id) ∧ FirstMissed tree pass keys past' :=
  abides_lift (Program.abides_effect trivial fun id _ =>
    ⟨⟨id, rfl⟩, h.light (e := .mint) trivial id⟩)

theorem queuePush_abides {list item : String} (h : Counting keys past)
    (hearned : Earned tree past list item) :
    Abides (raceRules tree) (Queue.push list item) past fun r past' =>
      pushes past' = match r with
        | .ok _ => [(list, item)]
        | .error _ => [] := by
  refine (push_abides h hearned).bind ?_ fun e past₁ hpushes => hpushes
  intro _ past₁ hpushes
  refine (effect_abides_pushes (e := .signal list) trivial past₁).imp ?_
  rintro _ past₂ ⟨⟨_, rfl⟩, hkept⟩
  exact hkept.trans hpushes

variable {expected : String} (htree : ctx.tree = some tree) (hargs : args = v :: vs)
  (hmissed : ctx.expectation = some expected ∧ expected ≠ v.display)
include htree hargs hmissed

theorem queueRestart_abides (h : FirstMissed tree ctx.pass keys past) (attempt : Int64) :
    Abides (raceRules tree) (queueRestart ctx tree) past fun r past' =>
      Leaves tree ctx args (r.bind fun _ => .error (.expectationNotMet tree attempt))
        (pushes past') := by
  unfold queueRestart
  cases ctx.information with
  | none =>
    apply abides_throw
    rw [h.counting.pushes]
    exact .failure not_false
  | some information =>
    refine (get_abides h _).bind_adapt (fun text past₁ h₁ => ?_) fun e _ h =>
      leaves_of_store h.counting e
    refine (get_abides h₁ _).bind_adapt (fun first past₂ h₂ => ?_) fun e _ h =>
      leaves_of_store h.counting e
    refine (get_abides h₂ _).bind_adapt (fun cell past₃ h₃ => ?_) fun e _ h =>
      leaves_of_store h.counting e
    refine (mint_abides h₃).bind ?_ fun e _ ⟨⟨_, he⟩, _⟩ => nomatch he
    rintro id past₄ ⟨-, h₄⟩
    obtain ⟨count, hfirst, hmem⟩ := h₄.first
    have hearned : Earned tree past₄ Key.eventQueue.render
        (restartPayload ctx id text first cell).encode :=
      Or.inr ⟨_, _, count, rfl, rfl, htree, rfl, hfirst, hmem⟩
    refine abides_adapt ((queuePush_abides h₄.counting hearned).imp ?_)
    rintro (e | _) past₅ hpushes
    · rw [hpushes]
      exact .failure not_false
    · rw [hpushes]
      exact .restart v vs expected id text first cell attempt hargs hmissed

theorem retraverse_abides (limit : UInt32) (h : Counting [] past) :
    Abides (raceRules tree) (retraverse limit ctx tree) past fun r past' =>
      Leaves tree ctx args
        (r.bind fun
          | some attempt => .error (.expectationNotMet tree attempt)
          | none => .ok [])
        (pushes past') := by
  unfold retraverse
  refine (incr_abides List.not_mem_nil h).bind_adapt ?_ fun e _ ⟨h, _⟩ => leaves_of_store h e
  rintro count past₁ ⟨hcounting, rfl⟩
  by_cases hfirst : 1 < count
  · simp only [if_pos hfirst]
    apply abides_pure
    rw [hcounting.pushes]
    exact .nothing
  · simp only [if_neg hfirst]
    have hmissedOnce : FirstMissed tree ctx.pass [(Key.misses tree ctx.pass).render] _ :=
      ⟨hcounting, count, hfirst, List.mem_append_right _ (List.mem_singleton_self _)⟩
    have hkey : (Key.retraversals tree).render ∉ [(Key.misses tree ctx.pass).render] := by
      rw [List.mem_singleton, Key.render_eq_iff_of_kept (k := .retraversals tree) trivial]
      exact fun h => nomatch h
    refine (incr_abides hkey hcounting).bind_adapt ?_ fun e _ ⟨h, _⟩ => leaves_of_store h e
    rintro attempt past₂ ⟨hcounting₂, rfl⟩
    have hmissed₂ := hmissedOnce.count (Key.retraversals tree).render (.ok attempt)
    by_cases hlimit : limit ≠ 0 ∧ Int64.ofNat limit.toNat < attempt
    · simp only [if_pos hlimit]
      apply abides_throw
      rw [hcounting₂.pushes]
      exact .failure not_false
    · simp only [if_neg hlimit]
      refine (queueRestart_abides htree hargs hmissed hmissed₂ attempt).bind ?_ ?_
      · exact fun _ past₃ h => abides_pure h
      · exact fun e past₃ h => h

omit htree hargs hmissed

theorem conclude_abides (limit : UInt32) (htree : ctx.tree = some tree) (hne : tree ≠ "")
    (hargs : args = v :: vs) (h : Counting [] past) :
    Abides (raceRules tree) (conclude limit ctx v.display) past fun r past' =>
      Leaves tree ctx args r (pushes past') := by
  unfold conclude
  split
  · rename_i hfits
    have hmet : ∀ expected, ctx.expectation = some expected → expected = v.display := by
      intro expected hexpected
      rw [hexpected] at hfits
      exact beq_iff_eq.mp hfits
    refine (deliver_abides htree hne hargs hmet h).bind ?_ ?_
    · exact fun _ past₁ h => abides_pure h
    · exact fun e past₁ h => h
  · rename_i hfits
    obtain ⟨expected, hmissed⟩ : ∃ expected, ctx.expectation = some expected ∧
        expected ≠ v.display := by
      cases hexpected : ctx.expectation with
      | none => exact absurd (by rw [hexpected]; rfl) hfits
      | some expected =>
        refine ⟨expected, rfl, fun heq => hfits ?_⟩
        rw [hexpected, heq]
        exact beq_self_eq_true _
    rw [htree]
    refine (retraverse_abides htree hargs hmissed limit h).bind ?_ fun e past₁ h => h
    rintro (_ | attempt) past₁ h
    · exact abides_pure h
    · exact abides_throw h

theorem isAnswered_light (ctx : Context) : Only Effect.Light (isAnswered ctx) := by
  unfold isAnswered
  split
  · exact only_pure false
  · exact (only_call (c := .get _) trivial).orAbsent.bind fun _ => only_pure _

/-- A call of the output cell for a result of a tree keeps to the rules, and what it has appended
when it ends fits how it ends. -/
theorem output_abides (limit : UInt32) (htree : ctx.tree = some tree) (hne : tree ≠ "")
    (args : List Value) :
    Abides (raceRules tree) ((output limit).call ctx args) [] fun r past' =>
      Leaves tree ctx args r (pushes past') := by
  cases args with
  | nil => exact abides_throw (.failure not_false)
  | cons v vs =>
    have hanswered : Abides (raceRules tree) (isAnswered ctx) [] fun _ past' =>
        Counting [] past' := by
      refine (Program.Only.abides (isAnswered_light ctx) (fun _ _ => permits_of_light) []).imp ?_
      rintro _ _ ⟨acts, rfl, hacts⟩
      exact Counting.nil.append hacts
    refine hanswered.bind_adapt ?_ fun e past₁ h => leaves_of_store h e
    rintro (_ | _) past₁ h
    · exact conclude_abides limit htree hne rfl h
    · apply abides_pure
      rw [h.pushes]
      exact .nothing

end Cell

/-! ## What the rules entail -/

theorem Earned.append {list item : String} (h : Earned tree past list item) (acts : List Act) :
    Earned tree (past ++ acts) list item := by
  refine h.imp ?_ ?_
  · exact fun ⟨session, hlist, hmem⟩ => ⟨session, hlist, List.mem_append_left _ hmem⟩
  · exact fun ⟨p, pass, count, hlist, hitem, htree, hpass, hfirst, hmem⟩ =>
      ⟨p, pass, count, hlist, hitem, htree, hpass, hfirst, List.mem_append_left _ hmem⟩

/-- The act is an append. -/
def Act.IsPush (a : Act) : Prop := ∃ list item answer, a = ⟨.store (.push list item), answer⟩

theorem Act.Delivers.isPush {a : Act} (h : a.Delivers) : a.IsPush := by
  obtain ⟨session, output, answer, rfl⟩ := h
  exact ⟨_, _, _, rfl⟩

theorem Act.Restarts.isPush {a : Act} {pass : Int64} (h : a.Restarts tree pass) : a.IsPush := by
  obtain ⟨p, answer, rfl, _⟩ := h
  exact ⟨_, _, _, rfl⟩

namespace Rules.Lawful

theorem earned (h : (raceRules tree).Lawful past) {list item : String}
    {answer : Except StoreError Unit}
    (hmem : (⟨.store (.push list item), answer⟩ : Act) ∈ past) : Earned tree past list item := by
  induction h with
  | nil => exact absurd hmem List.not_mem_nil
  | snoc hpast hpermitted _ ih =>
    rcases List.mem_append.mp hmem with hmem | hmem
    · exact (ih hmem).append _
    · obtain ⟨rfl, -⟩ := Act.mk.inj (List.mem_singleton.mp hmem)
      exact hpermitted.2.append _

/-- A call appends once at most. -/
theorem pairwise_push (h : (raceRules tree).Lawful past) :
    past.Pairwise fun a b => ¬ (a.IsPush ∧ b.IsPush) := by
  induction h with
  | nil => exact .nil
  | snoc hpast hpermitted _ ih =>
    refine List.pairwise_append.mpr ⟨ih, List.pairwise_singleton _ _, ?_⟩
    rintro a ha b hb ⟨⟨list, item, answer, rfl⟩, list', item', answer', rfl⟩
    obtain ⟨rfl, -⟩ := Act.mk.inj (List.mem_singleton.mp hb)
    exact hpermitted.1 list item answer ha

end Rules.Lawful

/-! ## Counters -/

namespace Act

/-- The number that a count under a key was answered. -/
def counted? (key : String) : Act → Option Int64
  | ⟨.store (.incr k), .ok n⟩ => if k = key then some n else none
  | _ => none

/-- The counts under a key, with who counted and what the answer was. -/
def tally (key : String) (acts : List (Nat × Act)) : List (Nat × Int64) :=
  acts.filterMap fun a => (a.2.counted? key).map fun n => (a.1, n)

variable {key : String} {acts : List (Nat × Act)} {i j : Nat} {n : Int64}

theorem counted?_eq_some {a : Act} :
    a.counted? key = some n ↔ a = ⟨.store (.incr key), .ok n⟩ := by
  constructor
  · intro h
    unfold counted? at h
    split at h
    · split at h
      · rename_i hkey
        subst hkey
        rw [Option.some.inj h]
      · exact nomatch h
    · exact nomatch h
  · rintro rfl
    exact if_pos rfl

theorem mem_tally : (i, n) ∈ tally key acts ↔ (⟨.store (.incr key), .ok n⟩ : Act) ∈ own i acts := by
  rw [mem_own, tally, List.mem_filterMap]
  constructor
  · rintro ⟨⟨k, a⟩, hmem, ha⟩
    obtain ⟨m, hm, heq⟩ := Option.map_eq_some_iff.mp ha
    obtain ⟨rfl, rfl⟩ := Prod.mk.inj heq
    rwa [← counted?_eq_some.mp hm]
  · intro hmem
    exact ⟨_, hmem, by rw [counted?_eq_some.mpr rfl]; rfl⟩

theorem tally_append (a : Act) : tally key (acts ++ [(i, a)]) =
    tally key acts ++ ((a.counted? key).map fun n => (i, n)).toList := by
  rw [tally, List.filterMap_append]
  cases h : a.counted? key <;> simp [tally, h]

end Act

open SelfWiring.Act (tally)

/-- Counts of which each was answered the number that follows, and no two of which were made by the
same call. -/
structure Tallied (text : Option String) (counts : List (Nat × Int64)) : Prop where
  text : text = counted counts.length
  answers : counts.map (·.2) = (List.range counts.length).map fun k => Int64.ofNat (k + 1)
  once : (counts.map (·.1)).Nodup

namespace Tallied

variable {text : Option String} {counts : List (Nat × Int64)}

theorem nil : Tallied none [] := ⟨rfl, rfl, List.nodup_nil⟩

theorem count (h : Tallied text counts) {i : Nat} (hi : i ∉ counts.map (·.1)) :
    Tallied (some (countText (nextCount text))) (counts ++ [(i, nextCount text)]) := by
  have hnext : nextCount text = Int64.ofNat (counts.length + 1) := by
    rw [h.text, nextCount_counted]
  rw [hnext]
  constructor
  · rw [List.length_append, counted, if_neg (by simp)]
    rfl
  · rw [List.map_append, h.answers, List.length_append, List.length_singleton, List.range_succ,
      List.map_append]
    rfl
  · rw [List.map_append, List.map_singleton]
    refine List.nodup_append.mpr ⟨h.once, by simp, ?_⟩
    rintro a ha _ hb rfl
    rw [List.mem_singleton.mp hb] at ha
    exact hi ha

/-- There are no more counts than calls. -/
theorem length_le (h : Tallied text counts) {calls : Nat} (hcalls : ∀ x ∈ counts, x.1 < calls) :
    counts.length ≤ calls := by
  have hsubset : counts.map (·.1) ⊆ List.range calls := by
    intro i hi
    obtain ⟨x, hx, rfl⟩ := List.mem_map.mp hi
    exact List.mem_range.mpr (hcalls x hx)
  simpa using (List.Nodup.subperm h.once hsubset).length_le

/-- Only the first count of all is answered a number up to one. -/
theorem getElem?_zero (h : Tallied text counts) (hlength : counts.length < 2 ^ 63) {i : Nat}
    {n : Int64} (hn : ¬ 1 < n) (hi : (i, n) ∈ counts) : counts[0]? = some (i, n) := by
  obtain ⟨k, hk⟩ := List.mem_iff_getElem?.mp hi
  have hlt := (List.getElem?_eq_some_iff.mp hk).1
  have hanswer : (counts.map (·.2))[k]? = some n := by
    rw [List.getElem?_map, hk]
    rfl
  rw [h.answers, List.getElem?_map, List.getElem?_range hlt] at hanswer
  obtain rfl := Option.some.inj hanswer
  have hone : ¬ Int64.ofNat 1 < Int64.ofNat (k + 1) := hn
  rw [ofNat_lt_ofNat (by decide) (by omega)] at hone
  obtain rfl : k = 0 := by omega
  exact hk

/-- A number up to one is answered to one call only. -/
theorem eq_of_first (h : Tallied text counts) (hlength : counts.length < 2 ^ 63) {i j : Nat}
    {m n : Int64} (hm : ¬ 1 < m) (hn : ¬ 1 < n) (hi : (i, m) ∈ counts) (hj : (j, n) ∈ counts) :
    i = j := by
  have heq := (h.getElem?_zero hlength hm hi).symm.trans (h.getElem?_zero hlength hn hj)
  exact (Prod.mk.inj (Option.some.inj heq)).1

end Tallied

/-- Of the effects that are permitted, only a count under the key itself changes its text. -/
theorem StoreCall.ComesTo.count {c : StoreCall} {s after : Contents}
    {answer : Except StoreError c.Answer} (h : c.ComesTo s answer after)
    (hc : (raceRules tree).permits past (.store c)) (key : String) :
    (Act.counted? key ⟨.store c, answer⟩ = none ∧ after.text key = s.text key) ∨
      Act.counted? key ⟨.store c, answer⟩ = some (nextCount (s.text key)) ∧
        after.text key = some (countText (nextCount (s.text key))) := by
  cases c
  case get k =>
    cases answer with
    | error failure => exact Or.inl ⟨rfl, by rw [h trivial]⟩
    | ok x => exact Or.inl ⟨rfl, by rw [h.2]⟩
  case push list item =>
    cases answer with
    | error failure => exact Or.inl ⟨rfl, by rw [h trivial]⟩
    | ok x =>
      obtain rfl : after = s.putList list (s.list list ++ [item]) := h
      exact Or.inl ⟨rfl, rfl⟩
  case incr k =>
    cases answer with
    | error failure => exact Or.inl ⟨rfl, by rw [h trivial]⟩
    | ok n =>
      obtain ⟨rfl, rfl⟩ := h
      by_cases hk : k = key
      · subst hk
        exact Or.inr ⟨if_pos rfl, Function.update_self ..⟩
      · exact Or.inl ⟨if_neg hk, Function.update_of_ne (Ne.symm hk) _ _⟩
  all_goals exact hc.elim

variable {σ : Type} [Store σ] [FaultFree σ]

/-- What holds while results race: appends are all that happens to lists, and counters that were
absent at first count the calls that have counted. -/
structure Race (w₀ w : World σ) (acts : List (Nat × Act)) : Prop where
  lists : Appended w₀ w acts
  counters : ∀ key, w₀.contents.text key = none → Tallied (w.contents.text key) (tally key acts)

theorem race_governed (tree : String) (w₀ : World σ) : (raceRules tree).Govern (Race w₀) where
  credits _ _ _ := trivial
  keeps {w acts i e} h _ hpermitted := by
    constructor
    · apply h.lists.answer
      cases e with
      | store c => cases c <;> first | exact trivial | exact hpermitted.elim
      | _ => first | exact trivial | exact hpermitted.elim
    · intro key hkey
      have hcounts := h.counters key hkey
      rw [Act.tally_append]
      cases e with
      | store c =>
        rcases (w.answer_comesTo_of_store c).count hpermitted key with
          ⟨hnone, htext⟩ | ⟨hsome, htext⟩
        · rw [hnone, htext]
          simpa using hcounts
        · rw [hsome, htext]
          refine hcounts.count fun hi => ?_
          -- the same call would have counted before
          obtain ⟨⟨j, n⟩, hmem, rfl⟩ := List.mem_map.mp hi
          obtain ⟨hincr, -⟩ := Act.mk.inj (Act.counted?_eq_some.mp hsome)
          obtain rfl := Effect.store.inj hincr
          exact hpermitted _ (Act.mem_tally.mp hmem)
      | mint | publish _ | signal _ =>
        show Tallied (w.contents.text key) (tally key acts ++ [])
        rw [List.append_nil]
        exact hcounts
      | _ => exact hpermitted.elim

/-! ## Races -/

variable {calls : List (Context × List Value)} {limit : UInt32} {w : World σ}
  {c : Crowd σ (Except CellError (List Value))}

/-- The calls of the output cell for some results, none of which has done anything yet. -/
def Crowd.atOutput (limit : UInt32) (calls : List (Context × List Value)) (w : World σ) :
    Crowd σ (Except CellError (List Value)) :=
  .start w (calls.map fun call => ((Cell.output limit).call call.1 call.2).run)

theorem orderly_race (hne : tree ≠ "") (htree : ∀ call ∈ calls, call.1.tree = some tree)
    (hreaches : (Crowd.atOutput limit calls w).Reaches c) :
    c.Orderly (raceRules tree) (Race w) fun i r past =>
      ∃ call, calls[i]? = some call ∧ Cell.Leaves tree call.1 call.2 r (pushes past) := by
  refine hreaches.orderly (race_governed tree w) (Crowd.orderly_start ?_ ?_)
  · exact ⟨appended_refl w, fun key hkey => hkey ▸ .nil⟩
  · intro i p hp
    rw [List.getElem?_map] at hp
    obtain ⟨call, hcall, rfl⟩ := Option.map_eq_some_iff.mp hp
    have houtput := Cell.output_abides limit (htree call (List.mem_of_getElem? hcall)) hne call.2
    exact Program.Abides.imp houtput fun r past h => ⟨call, hcall, h⟩

/-- Of acts that are appends, no two of which can be those of different calls, there is one at
most. -/
theorem pairwise_of_lawful {acts : List (Nat × Act)} {P : Act → Prop}
    (hlawful : ∀ i, (raceRules tree).Lawful (own i acts)) (hpush : ∀ a, P a → a.IsPush)
    (hsame : ∀ i j a b, a ∈ own i acts → b ∈ own j acts → P a → P b → i = j) :
    acts.Pairwise fun a b => ¬ (P a.2 ∧ P b.2) := by
  rw [List.pairwise_iff_forall_sublist]
  rintro ⟨i, a⟩ ⟨j, b⟩ hsublist ⟨ha, hb⟩
  have hmem := hsublist.subset
  obtain rfl := hsame i j a b (Act.mem_own.mpr (hmem (by simp))) (Act.mem_own.mpr (hmem (by simp)))
    ha hb
  have hown : [a, b].Sublist (own i acts) := by
    have hfilter := hsublist.filterMap fun x : Nat × Act => if x.1 = i then some x.2 else none
    simpa [own] using hfilter
  have hpair := ((hlawful i).pairwise_push).sublist hown
  exact (List.pairwise_pair.mp hpair) ⟨hpush a ha, hpush b hb⟩

theorem Act.Delivers.claimed {a : Act} (hlawful : (raceRules tree).Lawful past) (ha : a ∈ past)
    (h : a.Delivers) : (⟨.store (.incr (Key.done tree).render), .ok 1⟩ : Act) ∈ past := by
  obtain ⟨session, output, answer, rfl⟩ := h
  rcases hlawful.earned ha with ⟨_, _, hclaimed⟩ | ⟨_, _, _, hlist, _⟩
  · exact hclaimed
  · exact nomatch (Key.render_eq_iff_of_kept (k := .outputs session) trivial).mp hlist

theorem Act.Restarts.missed {a : Act} {pass : Int64} (hlawful : (raceRules tree).Lawful past)
    (ha : a ∈ past) (h : a.Restarts tree pass) : ∃ count : Int64, ¬ 1 < count ∧
      (⟨.store (.incr (Key.misses tree pass).render), .ok count⟩ : Act) ∈ past := by
  obtain ⟨p, answer, rfl, -, hpass⟩ := h
  rcases hlawful.earned ha with ⟨_, hlist, _⟩ | ⟨q, pass', count, _, hitem, _, hpass', hfirst, hmem⟩
  · exact nomatch (Key.render_eq_iff_of_kept (k := .eventQueue) trivial).mp hlist
  · obtain rfl := Payload.encode_inj.mp hitem
    obtain rfl : pass = pass' := (Int64.add_left_inj 1).mp (hpass.symm.trans hpass')
    exact ⟨count, hfirst, hmem⟩

/-- Whether a call restarts its tree can be read off its failure. -/
theorem Cell.Leaves.isMiss_iff {ctx : Context} {args : List Value}
    {r : Except CellError (List Value)} {appended : List (String × String)}
    (h : Cell.Leaves tree ctx args r appended) :
    (∃ attempt, r = .error (.expectationNotMet tree attempt)) ↔
      ∃ item, (Key.eventQueue.render, item) ∈ appended := by
  have hne : ∀ session, Key.eventQueue.render ≠ (Key.outputs session).render := fun _ h =>
    nomatch (Key.render_eq_iff_of_kept (k := .eventQueue) trivial).mp h
  cases h with
  | nothing => simp
  | failure h =>
    simp only [Except.error.injEq, List.not_mem_nil, exists_false, iff_false]
    rintro ⟨attempt, rfl⟩
    exact h trivial
  | output => simp [hne]
  | restart => simp

/-- Whatever results of a tree reach the output cell at the same time, and in whatever order their
calls are interleaved: before a counter can come round, at most one output is appended, and at most
one payload with which the walk after `pass` begins. Every append is one of these, the lists hold
what was appended, and a call that has ended has appended what its end says: a restart if its
expectation was announced as not met, and else its own output or nothing. -/
theorem racing_results_stay_exclusive {limit : UInt32} {tree : String} (hne : tree ≠ "")
    {calls : List (Context × List Value)} (htree : ∀ call ∈ calls, call.1.tree = some tree)
    {w : World σ} (hdone : w.text (.done tree) = none)
    (hmisses : ∀ pass, w.text (.misses tree pass) = none)
    {c : Crowd σ (Except CellError (List Value))}
    (hreaches : (Crowd.atOutput limit calls w).Reaches c) :
    (calls.length < 2 ^ 63 →
      c.acts.Pairwise (fun a b => ¬ (a.2.Delivers ∧ b.2.Delivers)) ∧
      ∀ pass, c.acts.Pairwise fun a b => ¬ (a.2.Restarts tree pass ∧ b.2.Restarts tree pass)) ∧
    (∀ a ∈ c.acts, a.2.IsPush → a.2.Delivers ∨ ∃ pass, a.2.Restarts tree pass) ∧
    Appended w c.world c.acts ∧
    ∀ (i : Nat) (call : Context × List Value) (r : Except CellError (List Value)),
      calls[i]? = some call → c.programs[i]? = some (.done r) →
        Cell.Leaves tree call.1 call.2 r (pushes (own i c.acts)) ∧
        ((∃ attempt, r = .error (.expectationNotMet tree attempt)) ↔
          ∃ item, (Key.eventQueue.render, item) ∈ pushes (own i c.acts)) := by
  have horderly := orderly_race hne htree hreaches
  have hlawful := horderly.lawful
  -- no more counts than calls, so that no counter has come round
  have hcounter : calls.length < 2 ^ 63 → ∀ {key : String}, w.contents.text key = none →
      ∀ {i j : Nat} {m n : Int64}, ¬ 1 < m → ¬ 1 < n →
        (⟨.store (.incr key), .ok m⟩ : Act) ∈ own i c.acts →
          (⟨.store (.incr key), .ok n⟩ : Act) ∈ own j c.acts → i = j := by
    intro hcalls key hkey i j m n hm hn hi hj
    have htallied := horderly.inv.counters key hkey
    have hlength : (tally key c.acts).length ≤ calls.length := by
      apply htallied.length_le
      rintro ⟨k, n⟩ hx
      have hlt := hreaches.lt_of_mem (by simp [Crowd.atOutput, Crowd.start]) _
        (Act.mem_own.mp (Act.mem_tally.mp hx))
      simpa [Crowd.atOutput, Crowd.start] using hlt
    exact htallied.eq_of_first (Nat.lt_of_le_of_lt hlength hcalls) hm hn (Act.mem_tally.mpr hi)
      (Act.mem_tally.mpr hj)
  refine ⟨fun hcalls => ⟨?_, ?_⟩, ?_, horderly.inv.lists, ?_⟩
  · refine pairwise_of_lawful hlawful (fun _ => Act.Delivers.isPush) ?_
    intro i j a b ha hb hdelivers hdelivers'
    have hone : ¬ (1 : Int64) < 1 := by decide
    exact hcounter hcalls hdone hone hone (hdelivers.claimed (hlawful i) ha)
      (hdelivers'.claimed (hlawful j) hb)
  · intro pass
    refine pairwise_of_lawful hlawful (fun _ => Act.Restarts.isPush) ?_
    intro i j a b ha hb hrestarts hrestarts'
    obtain ⟨m, hm, hi⟩ := hrestarts.missed (hlawful i) ha
    obtain ⟨n, hn, hj⟩ := hrestarts'.missed (hlawful j) hb
    exact hcounter hcalls (hmisses pass) hm hn hi hj
  · rintro ⟨i, a⟩ ha ⟨list, item, answer, rfl⟩
    rcases (hlawful i).earned (Act.mem_own.mpr ha) with
      ⟨session, rfl, -⟩ | ⟨p, pass, -, rfl, rfl, htree, hpass, -, -⟩
    · exact Or.inl ⟨session, item, answer, rfl⟩
    · exact Or.inr ⟨pass, p, answer, rfl, htree, hpass⟩
  · intro i call r hcall hr
    obtain ⟨call', hcall', hleaves⟩ := horderly.abides i _ hr
    obtain rfl := Option.some.inj (hcall.symm.trans hcall')
    exact ⟨hleaves, hleaves.isMiss_iff⟩

/-- A store in which the tree `t` has begun. -/
def begun : World Memory where
  store := { texts := ((({} : Dict String).insert (Key.firstBehaviour "t").render "b").insert
    (Key.binding "b").render "output").insert (Key.information "i").render "4" }
  generator := .ofSeed 0

/-- Two results that are wanted, and one that is not. -/
def rivals : List (Context × List Value) :=
  [({ id := "x", tree := some "t", session := some "a" }, [.int 4]),
    ({ id := "y", tree := some "t", session := some "a", expectation := some "5" }, [.int 5]),
    ({ id := "z", tree := some "t", session := some "a", information := some "i",
       expectation := some "5" }, [.int 4])]

/-- All three find the tree unanswered. The second one claims the answer, the first one comes too
late, and the third one restarts the tree. -/
theorem racing_results_stay_exclusive_of_three :
    ∃ c : Crowd Memory (Except CellError (List Value)),
      (Crowd.atOutput 0 rivals begun).Reaches c ∧
      c.programs = [.done (.ok []), .done (.ok []), .done (.error (.expectationNotMet "t" 1))] ∧
      pushes (own 0 c.acts) = [] ∧ pushes (own 1 c.acts) = [("session:a:outputs", "5")] ∧
      (∃ item, (Key.eventQueue.render, item) ∈ pushes (own 2 c.acts)) ∧
      c.acts.Pairwise (fun a b => ¬ (a.2.Delivers ∧ b.2.Delivers)) := by
  have hreaches := Crowd.reaches_turns [0, 1, 2, 1, 0, 1, 1, 2, 2, 2, 2, 2, 2, 2, 2]
    (Crowd.atOutput 0 rivals begun)
  have hmisses : ∀ pass, begun.text (.misses "t" pass) = none := by
    intro pass
    have hkey : ∀ k, (Key.misses "t" pass).render = k.render ↔ Key.misses "t" pass = k :=
      fun k => Key.render_eq_iff_of_kept trivial
    show begun.store.texts.get? (Key.misses "t" pass).render = none
    simp [begun, Dict.get?_insert, hkey]
  obtain ⟨hexclusive, -, -, hcalls⟩ := racing_results_stay_exclusive (show "t" ≠ "" by decide)
    (by simp [rivals]) (by rfl) hmisses hreaches
  refine ⟨_, hreaches, by rfl, by rfl, by rfl, ?_, (hexclusive (by decide)).1⟩
  exact (hcalls 2 _ _ rfl rfl).2.mp ⟨1, rfl⟩

end SelfWiring
