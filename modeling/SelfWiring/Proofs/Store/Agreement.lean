import SelfWiring.Proofs.Store.Rows
import SelfWiring.Store.Backend

/-!
# The two stores agree

Both makes of stores realize the ideal one, so the same calls get the same answers from an empty
store in memory and from an empty database.
-/

namespace SelfWiring

namespace Memory

/-- The entries of a sorted set in the order in which their members came. -/
def entriesOf (m : Memory) (key : String) : List (String × Score) :=
  ((m.sorted.get? key).getD {}).entries

/-- The dictionaries hold what the ideal store does. -/
structure Realizes (m : Memory) (i : Ideal) : Prop where
  contents : m.contents = i.toContents
  sorted : ∀ key, (m.entriesOf key).Perm (i.sorted key).entries

/-- A call that leaves the sorted sets alone. -/
theorem Realizes.matches {m : Memory} {sorted : String → SortedSet} {c : StoreCall}
    {answer : Except StoreError c.Answer} {after : Contents}
    (h : m.Realizes ⟨m.contents, sorted⟩) (hperforms : Performs Memory.contents c m answer after)
    (hsorted : (Memory.perform c m).2.sorted = m.sorted) :
    Matches Memory.Realizes c m (answer, ⟨after, sorted⟩) := by
  refine ⟨hperforms.1, hperforms.2, fun key => ?_⟩
  show ((((Memory.perform c m).2.sorted).get? key).getD {}).entries.Perm _
  rw [hsorted]
  exact h.sorted key

theorem matches_pop {m : Memory} {sorted : String → SortedSet}
    (hm : m.Realizes ⟨m.contents, sorted⟩) (list : String) :
    Matches Memory.Realizes (.pop list) m (.ok (m.contents.list list).head?,
      ⟨m.contents.putList list (m.contents.list list).tail, sorted⟩) := by
  have hsorted : (Memory.perform (.pop list) m).2.sorted = m.sorted := by
    unfold Memory.perform
    dsimp only
    split <;> rfl
  rcases hlist : m.contents.list list with _ | ⟨head, rest⟩
  · have hsame : m.contents.putList list [] = m.contents := by
      rw [Contents.putList, ← hlist, Function.update_eq_self]
    rw [List.head?_nil, List.tail_nil, hsame]
    exact hm.matches (FaultFree.pop_nil list m hlist) hsorted
  · exact hm.matches (FaultFree.pop_cons list m head rest hlist) hsorted

theorem matches_setInit {m : Memory} {sorted : String → SortedSet}
    (hm : m.Realizes ⟨m.contents, sorted⟩) (key : String) (members : List String) :
    Matches Memory.Realizes (.setInit key members) m
      (Ideal.perform ⟨m.contents, sorted⟩ (.setInit key members) trivial) := by
  have hsorted : (Memory.perform (.setInit key members) m).2.sorted = m.sorted := by
    unfold Memory.perform
    dsimp only
    split <;> rfl
  rcases hset : m.contents.set key with _ | present
  · simp only [Ideal.perform, hset, ← addMembers_nil]
    exact hm.matches (FaultFree.setInit_none key members m hset) hsorted
  · simp only [Ideal.perform, hset]
    exact hm.matches (FaultFree.setInit_some key members m present hset) hsorted

theorem matches_zadd {m : Memory} {sorted : String → SortedSet}
    (hm : m.Realizes ⟨m.contents, sorted⟩) (key member : String) {score : Score}
    (hscore : score.Plain) :
    Matches Memory.Realizes (.zadd key member score) m (.ok (),
      ⟨m.contents, Function.update sorted key ((sorted key).put (member, score) hscore)⟩) := by
  refine ⟨rfl, rfl, fun k => ?_⟩
  show List.Perm _ (Function.update sorted key _ k).entries
  by_cases hk : k = key
  · subst hk
    have hnodup : ((m.entriesOf k).map (·.1)).Nodup :=
      ((hm.sorted k).map (·.1)).nodup_iff.mpr (sorted k).unrepeated
    have hothers : ((m.entriesOf k).filter (·.1 ≠ member)).Perm ((sorted k).others member) :=
      (hm.sorted k).filter _
    have hentries : (Memory.perform (.zadd k member score) m).2.entriesOf k =
        Dict.put member score (m.entriesOf k) := by
      rw [entriesOf, Memory.perform, Dict.get?_insert_self]
      rfl
    rw [Function.update_self]
    show ((Memory.perform (.zadd k member score) m).2.entriesOf k).Perm _
    rw [hentries]
    exact (Dict.put_perm member score hnodup).trans
      ((hothers.cons _).trans ((sorted k).entriesWith_perm (member, score)).symm)
  · have hentries : (Memory.perform (.zadd key member score) m).2.entriesOf k = m.entriesOf k := by
      rw [entriesOf, Memory.perform, Dict.get?_insert_of_ne _ _ hk]
      rfl
    rw [Function.update_of_ne hk]
    exact hentries.symm ▸ hm.sorted k

/-- The dictionaries answer like the ideal store. -/
theorem realization : Realization Memory.Realizes := by
  rintro m ⟨contents, sorted⟩ c hc hm
  obtain rfl : m.contents = contents := hm.contents
  cases c with
  | get key => exact ⟨rfl, hm⟩
  | set key value => exact hm.matches (FaultFree.set key value m) rfl
  | incr key =>
    simp only [Ideal.perform, ← nextCount_eq, ← countText_nextCount hc]
    exact hm.matches (FaultFree.incr key m) rfl
  | push list value => exact hm.matches (FaultFree.push list value m) rfl
  | pop list => exact matches_pop hm list
  | len list => exact ⟨rfl, hm⟩
  | setInit key members => exact matches_setInit hm key members
  | setAdd key members =>
    refine hm.matches ⟨rfl, ?_⟩ rfl
    refine Contents.ext rfl rfl ?_
    rw [← addMembers_eq]
    exact get?_insert_eq_update m.sets key _
  | setMembers key => exact ⟨rfl, hm⟩
  | zadd key member score => exact matches_zadd hm key member hc
  | zrange key =>
    have hsorted := Score.mergeSort_leads_eq (hm.sorted key) (sorted key).ordered (sorted key).plain
    exact ⟨congrArg Except.ok hsorted, hm⟩
  | randomKey _ => exact hc.elim
  | countKeys _ => exact hc.elim

end Memory

/-! ## Backends -/

/-- A database that nobody else writes to, and that may be written, is as good as its tables. -/
structure Database.Realizes (d : Database) (i : Ideal) : Prop where
  unlocked : d.locked = false
  writable : d.readOnly = false
  tables : d.tables.Realizes i

theorem Database.realization : Realization Database.Realizes := by
  intro d i c hc hd
  obtain ⟨hanswer, hafter⟩ := Tables.realization c hc hd.tables
  have hperform : Database.perform c d =
      ((Tables.perform c d.tables).1, { d with tables := (Tables.perform c d.tables).2 }) := by
    simp only [Database.perform, hd.unlocked, hd.writable, Bool.false_and, Bool.false_eq_true,
      if_false]
  show (Database.perform c d).1 = _ ∧ (Database.perform c d).2.Realizes _
  rw [hperform]
  exact ⟨hanswer, hd.unlocked, hd.writable, hafter⟩

/-- From an empty start, the store in memory and the database give the same answers, those of the
ideal store, to all calls that the ideal store answers. -/
theorem stores_agree (calls : List StoreCall) (h : Ideal.empty.AnswersAll calls) :
    transcript calls ({} : Memory) = Ideal.empty.transcript calls h ∧
      transcript calls Database.fresh = Ideal.empty.transcript calls h := by
  have hmemory : ({} : Memory).Realizes .empty := ⟨rfl, fun _ => .nil⟩
  have hdatabase : Database.fresh.Realizes .empty := ⟨rfl, rfl, Tables.realizes_empty⟩
  exact ⟨Memory.realization.transcript_eq h hmemory,
    Database.realization.transcript_eq h hdatabase⟩

/-- One key of each kind, a counter, and a key that nothing is under. -/
theorem stores_agree_on_mixed_calls :
    let calls : List StoreCall :=
      [.push "queue" "a", .incr "queue", .push "other" "b", .pop "queue",
        .setInit "nodes" ["n", "n"], .setAdd "nodes" ["m", "n"], .setMembers "nodes",
        .zadd "trace" "x" (.ofMillis 5), .zadd "trace" "w" (.ofMillis 5),
        .zadd "trace" "x" (.ofMillis 3), .zrange "trace", .get "missing"]
    Ideal.empty.AnswersAll calls ∧
      transcript calls ({} : Memory) = transcript calls Database.fresh := by
  intro calls
  have h : Ideal.empty.AnswersAll calls :=
    ⟨trivial, by decide, trivial, trivial, trivial, trivial, trivial, by decide, by decide,
      by decide, trivial, trivial, trivial⟩
  have hagree := stores_agree calls h
  exact ⟨h, hagree.1.trans hagree.2.symm⟩

end SelfWiring
