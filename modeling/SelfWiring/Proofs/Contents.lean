import Mathlib.Logic.Function.Basic
import SelfWiring.Retry
import SelfWiring.Store.Memory
import SelfWiring.World

/-!
# Stores without faults

A store is without faults when every call is answered from what is held: its answer and its effect
are those on plain functions from keys to texts, lists and sets. What a store holds as sorted sets
is left out, since no cell and no engine ever reads it back; writing a score leaves all else as it
is.

No call on such a store is worth a second attempt, so retries change nothing there.
-/

namespace SelfWiring

/-- What a store holds as texts, lists and sets. -/
@[ext] structure Contents where
  text : String → Option String
  list : String → List String
  set : String → Option (List String)

namespace Contents

/-- Nothing is held. -/
def empty : Contents := ⟨fun _ => none, fun _ => [], fun _ => none⟩

def putText (s : Contents) (key value : String) : Contents :=
  { s with text := Function.update s.text key (some value) }

def putList (s : Contents) (key : String) (values : List String) : Contents :=
  { s with list := Function.update s.list key values }

def putSet (s : Contents) (key : String) (members : List String) : Contents :=
  { s with set := Function.update s.set key (some members) }

end Contents

theorem answerFor_eq_ok {α : Type} {key : String} {found : Option α} {a : α} :
    answerFor key found = .ok a ↔ found = some a := by
  cases found <;> simp [answerFor]

/-- Nothing is left out of members that are different from each other. -/
theorem addMembers_of_nodup {members : List String} :
    ∀ {present : List String}, (present ++ members).Nodup →
      addMembers present members = present ++ members := by
  induction members with
  | nil => exact fun _ => (List.append_nil _).symm
  | cons m members ih =>
    intro present h
    have hnext : present ++ m :: members = (present ++ [m]) ++ members := List.append_cons ..
    have hm : m ∉ present := by
      intro hm
      exact (List.nodup_append.mp h).2.2 m hm m List.mem_cons_self rfl
    show addMembers (if present.contains m then present else present ++ [m]) members = _
    rw [if_neg (by simpa using hm), hnext]
    rw [hnext] at h
    exact ih h

/-- A call answers as given and leaves a store that holds what is given. -/
def Performs {σ : Type} [Store σ] (contents : σ → Contents) (c : StoreCall) (s : σ)
    (answer : Except StoreError c.Answer) (after : Contents) : Prop :=
  (Store.perform c s).1 = answer ∧ contents (Store.perform c s).2 = after

/-- A store without faults, seen through what it holds. -/
class FaultFree (σ : Type) [Store σ] where
  contents : σ → Contents
  steady : ∀ c (s : σ) reason, (Store.perform c s).1 ≠ .error (.transient reason)
  get : ∀ key s, Performs contents (.get key) s (answerFor key ((contents s).text key)) (contents s)
  set : ∀ key value s,
    Performs contents (.set key value) s (.ok ()) ((contents s).putText key value)
  incr : ∀ key s,
    Performs contents (.incr key) s (.ok (nextCount ((contents s).text key)))
      ((contents s).putText key (countText (nextCount ((contents s).text key))))
  push : ∀ list value s,
    Performs contents (.push list value) s (.ok ())
      ((contents s).putList list ((contents s).list list ++ [value]))
  pop_nil : ∀ list s, (contents s).list list = [] →
    Performs contents (.pop list) s (.ok none) (contents s)
  pop_cons : ∀ list s head rest, (contents s).list list = head :: rest →
    Performs contents (.pop list) s (.ok (some head)) ((contents s).putList list rest)
  setInit_none : ∀ key members s, (contents s).set key = none →
    Performs contents (.setInit key members) s (.ok true)
      ((contents s).putSet key (addMembers [] members))
  setInit_some : ∀ key members s present, (contents s).set key = some present →
    Performs contents (.setInit key members) s (.ok false) (contents s)
  setMembers : ∀ key s,
    Performs contents (.setMembers key) s (answerFor key ((contents s).set key)) (contents s)
  /-- A score may be refused. -/
  zadd : ∀ key member score s, contents (Store.perform (.zadd key member score) s).2 = contents s

/-! ## The memory store -/

namespace Memory

def contents (m : Memory) : Contents where
  text := m.texts.get?
  list key := (m.lists.get? key).getD []
  set := m.sets.get?

theorem answerFor_ne_transient {α : Type} (key reason : String) (found : Option α) :
    answerFor key found ≠ .error (.transient reason) := by
  cases found <;> simp [answerFor]

theorem perform_ne_transient (c : StoreCall) (m : Memory) (reason : String) :
    (perform c m).1 ≠ .error (.transient reason) := by
  cases c
  case get | setMembers | randomKey => exact answerFor_ne_transient _ _ _
  case pop list =>
    simp only [perform]
    split <;> simp
  case setInit key members =>
    simp only [perform]
    split <;> simp
  all_goals simp [perform]

theorem get?_insert_eq_update {α : Type} (d : Dict α) (key : String) (value : α) :
    (d.insert key value).get? = Function.update d.get? key (some value) := by
  funext k
  rw [Dict.get?_insert, Function.update_apply]

theorem getD_insert_eq_update (d : Dict (List String)) (key : String) (values : List String) :
    (fun k => ((d.insert key values).get? k).getD []) =
      Function.update (fun k => (d.get? k).getD []) key values := by
  funext k
  rw [Dict.get?_insert, Function.update_apply]
  split <;> rfl

end Memory

instance : FaultFree Memory where
  contents := Memory.contents
  steady := Memory.perform_ne_transient
  get _ _ := ⟨rfl, rfl⟩
  set key value m := by
    refine ⟨rfl, ?_⟩
    ext1
    · exact Memory.get?_insert_eq_update m.texts key value
    · rfl
    · rfl
  incr key m := by
    refine ⟨rfl, ?_⟩
    ext1
    · exact Memory.get?_insert_eq_update m.texts key _
    · rfl
    · rfl
  push list value m := by
    refine ⟨rfl, ?_⟩
    ext1
    · rfl
    · exact Memory.getD_insert_eq_update m.lists list _
    · rfl
  pop_nil list m h := by
    have hperform : Memory.perform (.pop list) m = (.ok none, m) := by
      rcases hlist : m.lists.get? list with _ | (_ | ⟨head, rest⟩)
      · simp [Memory.perform, hlist]
      · simp [Memory.perform, hlist]
      · simp [Memory.contents, hlist] at h
    exact ⟨congrArg Prod.fst hperform, congrArg (fun r => Memory.contents r.2) hperform⟩
  pop_cons list m head rest h := by
    have hlist : m.lists.get? list = some (head :: rest) := by
      rcases hlist : m.lists.get? list with _ | values
      · simp [Memory.contents, hlist] at h
      · simp only [Memory.contents, hlist, Option.getD_some] at h
        rw [h]
    have hperform : Memory.perform (.pop list) m =
        (.ok (some head), { m with lists := m.lists.insert list rest }) := by
      simp [Memory.perform, hlist]
    refine ⟨congrArg Prod.fst hperform, ?_⟩
    show Memory.contents (Memory.perform (.pop list) m).2 = _
    rw [hperform]
    ext1
    · rfl
    · exact Memory.getD_insert_eq_update m.lists list rest
    · rfl
  setInit_none key members m h := by
    have hperform : Memory.perform (.setInit key members) m =
        (.ok true, { m with sets := m.sets.insert key (addMembers [] members) }) := by
      have hsets : m.sets.get? key = none := h
      simp [Memory.perform, Dict.contains, hsets]
    refine ⟨congrArg Prod.fst hperform, ?_⟩
    show Memory.contents (Memory.perform (.setInit key members) m).2 = _
    rw [hperform]
    ext1
    · rfl
    · rfl
    · exact Memory.get?_insert_eq_update m.sets key _
  setInit_some key members m present h := by
    have hperform : Memory.perform (.setInit key members) m = (.ok false, m) := by
      have hsets : m.sets.get? key = some present := h
      simp [Memory.perform, Dict.contains, hsets]
    exact ⟨congrArg Prod.fst hperform, congrArg (fun r => Memory.contents r.2) hperform⟩
  setMembers _ _ := ⟨rfl, rfl⟩
  zadd _ _ _ _ := rfl

/-! ## Retries -/

/-- Where the first attempt does not fail for a transient reason, it is the last. -/
theorem RetryPolicy.run_loop_of_steady {τ : Type} [Store τ] (policy : RetryPolicy) {c : StoreCall}
    {w : World τ} (hsteady : ∀ reason, (w.answer (.store c)).1 ≠ .error (.transient reason))
    (left : Nat) (attempt : UInt32) :
    w.run (policy.loop (Program.effect (.store c)) (fun ms => Program.sleep ms.toNat)
      left attempt) = w.answer (.store c) := by
  cases left with
  | zero => rfl
  | succ left =>
    show w.run (Program.bind (Program.effect (.store c)) _) = _
    rw [World.run_bind, show w.run (Program.effect (.store c)) = w.answer (.store c) from rfl]
    generalize w.answer (.store c) = result at hsteady ⊢
    rcases result with ⟨failure | a, w'⟩
    · cases failure with
      | transient reason => exact absurd rfl (hsteady reason)
      | notFound _ | backend _ | codec _ => rfl
    · rfl

theorem World.run_withRetries {σ : Type} [Store σ] [FaultFree σ] {α : Type} (policy : RetryPolicy)
    (p : Program α) : ∀ w : World σ, w.run (p.withRetries policy) = w.run p := by
  induction p with
  | done a => intro w; rfl
  | perform e next ih =>
    intro w
    cases e
    case store c =>
      -- no failure of a store without faults is transient
      have hsteady : ∀ reason, (w.answer (.store c)).1 ≠ .error (.transient reason) :=
        FaultFree.steady c w.store
      rw [Program.withRetries, World.run_bind, RetryPolicy.run,
        RetryPolicy.run_loop_of_steady policy hsteady]
      exact ih _ _
    all_goals exact ih _ _

end SelfWiring
