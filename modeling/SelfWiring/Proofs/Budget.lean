import Mathlib.Data.List.Nodup
import SelfWiring.Proofs.Safety

/-!
# The budget of restarts

Two counters bound the restarts of a tree: one counts the misses of each walk, the other the
restarts of the tree. Walks are numbered from zero. The walks that missed are exactly those below
the number of restarts that were counted, so that the first miss of a walk is the first miss of the
last walk there is. Counters are 64-bit numbers: what is said here is said of runs that they can
count.
-/

namespace SelfWiring

/-! ## Numbers of restarts -/

/-- The numbers of the restarts of a tree that was asked `k` times to restart. -/
def restartNumbers (limit : UInt32) (k : Nat) : List Int64 :=
  (List.range (if limit = 0 then k else min k limit.toNat)).map fun i => Int64.ofNat (i + 1)

theorem restartNumbers_succ {limit : UInt32} {k : Nat} (h : limit = 0 ∨ k + 1 ≤ limit.toNat) :
    restartNumbers limit (k + 1) = restartNumbers limit k ++ [Int64.ofNat (k + 1)] := by
  have hbound : ∀ j, j ≤ k + 1 → (if limit = 0 then j else min j limit.toNat) = j := by
    intro j hj
    split
    · rfl
    · exact Nat.min_eq_left (Nat.le_trans hj (h.resolve_left (by assumption)))
  unfold restartNumbers
  rw [hbound (k + 1) (Nat.le_refl _), hbound k (Nat.le_succ k), List.range_succ, List.map_append]
  rfl

theorem restartNumbers_exhausted {limit : UInt32} (h : limit ≠ 0) :
    restartNumbers limit (limit.toNat + 1) = restartNumbers limit limit.toNat := by
  unfold restartNumbers
  rw [if_neg h, if_neg h, Nat.min_eq_right (Nat.le_succ _), Nat.min_self]

theorem nodup_restartNumbers {limit : UInt32} {k : Nat} (hk : k < 2 ^ 63) :
    (restartNumbers limit k).Nodup := by
  refine List.Nodup.map_on ?_ List.nodup_range
  intro i hi j hj heq
  have hbound : (if limit = 0 then k else min k limit.toNat) ≤ k := by
    split
    · exact Nat.le_refl k
    · exact Nat.min_le_left k _
  rw [List.mem_range] at hi hj
  have hint := congrArg Int64.toInt heq
  rw [Int64.toInt_ofNat_of_lt (by omega), Int64.toInt_ofNat_of_lt (by omega)] at hint
  omega

theorem mem_restartNumbers {limit : UInt32} {k : Nat} (hk : k < 2 ^ 63) {pass : Int64} :
    pass ∈ restartNumbers limit k ↔
      1 ≤ pass.toInt ∧ pass.toInt ≤ k ∧ (limit ≠ 0 → pass.toInt ≤ limit.toNat) := by
  unfold restartNumbers
  rw [List.mem_map]
  constructor
  · rintro ⟨i, hi, rfl⟩
    rw [List.mem_range] at hi
    have hik : i < k ∧ (limit ≠ 0 → i < limit.toNat) := by
      split at hi
      · exact ⟨hi, fun hne => absurd ‹limit = 0› hne⟩
      · exact ⟨by omega, fun _ => by omega⟩
    rw [Int64.toInt_ofNat_of_lt (by omega)]
    exact ⟨by omega, by omega, fun hne => by have := hik.2 hne; omega⟩
  · rintro ⟨hlow, hhigh, hwithin⟩
    refine ⟨pass.toInt.toNat - 1, ?_, ?_⟩
    · rw [List.mem_range]
      split
      · omega
      · have := hwithin ‹_›
        omega
    · symm
      apply eq_ofNat_of_toInt
      · omega
      · omega

theorem zero_notMem_restartNumbers {limit : UInt32} {k : Nat} (hk : k < 2 ^ 63) :
    (0 : Int64) ∉ restartNumbers limit k := by
  rw [mem_restartNumbers hk]
  exact fun h => absurd h.1 (by decide)

/-! ## Results that reach the output cell -/

/-- A payload of a tree that reaches the output cell in one of its walks. -/
def Label.isLeaf (tree : String) (pass : Int64) : Label → Bool
  | .accepted _ _ => false
  | .processed p _ _ =>
    p.context.tree = some tree ∧ p.context.pass = pass ∧ p.context.cell = some Cell.outputName

/-- How many payloads of one walk of a tree reached the output cell. -/
def leaves (tree : String) (pass : Int64) (ds : List Label) : Nat :=
  ds.countP (Label.isLeaf tree pass)

theorem leaves_append (tree : String) (pass : Int64) (ds : List Label) (d : Label) :
    leaves tree pass (ds ++ [d]) = leaves tree pass ds + if d.isLeaf tree pass then 1 else 0 := by
  unfold leaves
  rw [List.countP_append, List.countP_singleton]

theorem leaves_le_append (tree : String) (pass : Int64) (ds : List Label) (d : Label) :
    leaves tree pass ds ≤ leaves tree pass (ds ++ [d]) := by
  rw [leaves_append]
  exact Nat.le_add_right _ _

theorem leaves_le_length (tree : String) (pass : Int64) (ds : List Label) :
    leaves tree pass ds ≤ ds.length := List.countP_le_length

/-! ## Counters -/

/-- The counters of a tree that was asked `k` times to restart, after the steps `ds`. A walk has no
more misses than results that reached the output cell. -/
structure Net.Counts (n : Net) (tree : String) (ds : List Label) (k : Nat) : Prop where
  le : k ≤ ds.length
  retraversals : n.text (.retraversals tree) =
    if k = 0 then none else some (countText (Int64.ofNat k))
  misses : ∀ pass, (n.text (.misses tree pass)).isSome = true ↔ 0 ≤ pass.toInt ∧ pass.toInt < k
  counted : ∀ pass t, n.text (.misses tree pass) = some t →
    ∃ j, 0 < j ∧ j ≤ leaves tree pass ds ∧ t = countText (Int64.ofNat j)

namespace Net.Counts

variable {n m : Net} {tree : String} {ds : List Label} {d : Label} {k : Nat}

theorem empty {n : Net} (hretraversals : n.text (.retraversals tree) = none)
    (hmisses : ∀ pass, n.text (.misses tree pass) = none) : n.Counts tree [] 0 := by
  refine ⟨Nat.le_refl 0, by simp [hretraversals], fun pass => ?_, fun pass t ht => ?_⟩
  · rw [hmisses]
    simp
  · rw [hmisses] at ht
    exact absurd ht (by simp)

theorem of_text (h : n.Counts tree ds k) (htext : m.text = n.text) : m.Counts tree ds k := by
  refine ⟨h.le, ?_, ?_, ?_⟩ <;> rw [htext]
  · exact h.retraversals
  · exact h.misses
  · exact h.counted

theorem le_append (h : n.Counts tree ds k) (d : Label) : k ≤ (ds ++ [d]).length := by
  rw [List.length_append]
  exact Nat.le_succ_of_le h.le

/-- A miss that was counted before another step. -/
theorem counted_append (h : n.Counts tree ds k) (d : Label) {pass : Int64} {t : String}
    (ht : n.text (.misses tree pass) = some t) :
    ∃ j, 0 < j ∧ j ≤ leaves tree pass (ds ++ [d]) ∧ t = countText (Int64.ofNat j) := by
  obtain ⟨j, hpos, hj, rfl⟩ := h.counted pass t ht
  exact ⟨j, hpos, Nat.le_trans hj (leaves_le_append tree pass ds d), rfl⟩

theorem congr (h : n.Counts tree ds k) (d : Label)
    (hretraversals : m.text (.retraversals tree) = n.text (.retraversals tree))
    (hmisses : ∀ pass, m.text (.misses tree pass) = n.text (.misses tree pass)) :
    m.Counts tree (ds ++ [d]) k := by
  refine ⟨h.le_append d, hretraversals.trans h.retraversals, fun pass => ?_, fun pass t ht => ?_⟩
  · rw [hmisses]
    exact h.misses pass
  · rw [hmisses] at ht
    exact h.counted_append d ht

theorem next (h : n.Counts tree ds k) :
    nextCount (n.text (.retraversals tree)) = Int64.ofNat (k + 1) := by
  rw [h.retraversals]
  split
  · subst k
    rfl
  · exact nextCount_ofNat k

/-- A miss that counts as the first of its walk is the first, and its walk is the last there is. -/
theorem first_miss (h : n.Counts tree ds k) {pass : Int64}
    (hleaves : leaves tree pass ds + 1 < 2 ^ 63) (hlow : 0 ≤ pass.toInt) (hhigh : pass.toInt ≤ k)
    (hfirst : ¬ 1 < nextCount (n.text (.misses tree pass))) :
    n.text (.misses tree pass) = none ∧ pass.toInt = k := by
  -- a count that is there is one at least, and within 64 bits the next is greater than one
  have hnone : n.text (.misses tree pass) = none := by
    rw [Option.eq_none_iff_forall_ne_some]
    intro t ht
    obtain ⟨j, hpos, hj, rfl⟩ := h.counted pass t ht
    refine hfirst ?_
    rw [ht, nextCount_ofNat, Int64.lt_iff_toInt_lt, Int64.toInt_ofNat_of_lt (by omega),
      Int64.toInt_one]
    omega
  refine ⟨hnone, ?_⟩
  have hmissing := h.misses pass
  rw [hnone] at hmissing
  have hnot : ¬ (0 ≤ pass.toInt ∧ pass.toInt < k) := fun hlt => absurd (hmissing.mpr hlt) (by simp)
  omega

/-- A later miss of a walk that has missed before. -/
theorem again (h : n.Counts tree ds k) {pass : Int64}
    (hlater : 1 < nextCount (n.text (.misses tree pass))) (hleaf : d.isLeaf tree pass = true) :
    (n.count (.misses tree pass)).Counts tree (ds ++ [d]) k := by
  obtain ⟨t, ht⟩ : ∃ t, n.text (.misses tree pass) = some t := by
    rw [← Option.ne_none_iff_exists']
    intro hnone
    rw [hnone, nextCount_none] at hlater
    exact absurd hlater (by decide)
  refine ⟨h.le_append d, (count_text_of_ne (by simp)).trans h.retraversals, fun pass' => ?_,
    fun pass' t' ht' => ?_⟩
  · by_cases hpass : pass' = pass
    · subst hpass
      rw [← h.misses, ht, Net.count, Net.write_text, Function.update_self]
      rfl
    · have hne : Key.misses tree pass' ≠ Key.misses tree pass := by simpa using hpass
      rw [count_text_of_ne hne]
      exact h.misses pass'
  · by_cases hpass : pass' = pass
    · subst hpass
      obtain ⟨j, _, hj, rfl⟩ := h.counted pass' t ht
      rw [Net.count, Net.write_text, Function.update_self, ht, nextCount_ofNat] at ht'
      refine ⟨j + 1, Nat.succ_pos j, ?_, (Option.some.inj ht').symm⟩
      rw [leaves_append, if_pos hleaf]
      exact Nat.succ_le_succ hj
    · have hne : Key.misses tree pass' ≠ Key.misses tree pass := by simpa using hpass
      rw [count_text_of_ne hne] at ht'
      exact h.counted_append d ht'

theorem missed_text {pass : Int64} (hnone : n.text (.misses tree pass) = none) :
    ((n.count (.misses tree pass)).count (.retraversals tree)).text (.misses tree pass) =
      some (countText 1) := by
  rw [count_text_of_ne (by simp), Net.count, Net.write_text, Function.update_self, hnone,
    nextCount_none]

/-- The first miss of the last walk, and the request to restart that it makes. -/
theorem miss (h : n.Counts tree ds k) {pass : Int64} (hnone : n.text (.misses tree pass) = none)
    (hpass : pass.toInt = k) (hleaf : d.isLeaf tree pass = true) :
    ((n.count (.misses tree pass)).count (.retraversals tree)).Counts tree (ds ++ [d]) (k + 1) := by
  have hkept : (n.count (.misses tree pass)).text (.retraversals tree) =
      n.text (.retraversals tree) := count_text_of_ne (by simp)
  have hmissed := missed_text hnone
  have hother : ∀ pass', pass' ≠ pass →
      ((n.count (.misses tree pass)).count (.retraversals tree)).text (.misses tree pass') =
        n.text (.misses tree pass') := by
    intro pass' hpass'
    have hne : Key.misses tree pass' ≠ Key.misses tree pass := by simpa using hpass'
    rw [count_text_of_ne (by simp), count_text_of_ne hne]
  refine ⟨?_, ?_, fun pass' => ?_, fun pass' t ht => ?_⟩
  · rw [List.length_append]
    exact Nat.succ_le_succ h.le
  · rw [Net.count, Net.write_text, Function.update_self, hkept, h.next, if_neg (Nat.succ_ne_zero k)]
  · by_cases hpass' : pass' = pass
    · subst hpass'
      have hlast : (0 : Int) ≤ k ∧ (k : Int) < (k + 1 : Nat) := by omega
      rw [hmissed, hpass]
      exact iff_of_true rfl hlast
    · rw [hother pass' hpass', h.misses]
      have hne : pass'.toInt ≠ k := by
        intro heq
        exact hpass' (Int64.toInt_inj.mp (heq.trans hpass.symm))
      omega
  · by_cases hpass' : pass' = pass
    · subst hpass'
      rw [hmissed] at ht
      refine ⟨1, Nat.one_pos, ?_, (Option.some.inj ht).symm⟩
      rw [leaves_append, if_pos hleaf]
      exact Nat.le_add_left 1 _
    · rw [hother pass' hpass'] at ht
      exact h.counted_append d ht

end Net.Counts

/-! ## What was announced and what was queued -/

/-- The number of the restart that an event announces for a tree. -/
def Event.attempt? (tree : String) : Event → Option Int64
  | .expectationNotMet t attempt => if t = tree then some attempt else none
  | _ => none

/-- The number of restarts that an event announces to be used up for a tree. -/
def Event.exhaustion? (tree : String) : Event → Option Int64
  | .budgetExhausted t attempts => if t = tree then some attempts else none
  | _ => none

/-- The walk that a queued payload belongs to. -/
def Payload.passOf? (item : String) : Option Int64 := (Payload.decode? item).map (·.context.pass)

theorem passOf?_encode (q : Payload) : Payload.passOf? q.encode = some q.context.pass := by
  rw [Payload.passOf?, Payload.decode?_encode]
  rfl

theorem verdictOn_of_attempt? {tree : String} (e : Event)
    (he : (e.attempt? tree).isSome = true) : e.verdictOn tree = true := by
  cases e <;> simp_all [Event.attempt?, Event.verdictOn]

theorem verdictOn_of_exhaustion? {tree : String} (e : Event)
    (he : (e.exhaustion? tree).isSome = true) : e.verdictOn tree = true := by
  cases e <;> simp_all [Event.exhaustion?, Event.verdictOn]

theorem filterMap_verdicts {α : Type} {f : Event → Option α} {tree : String}
    (hf : ∀ e, (f e).isSome = true → e.verdictOn tree = true) (es : List Event) :
    (es.filter (Event.verdictOn tree)).filterMap f = es.filterMap f := by
  rw [List.filterMap_filter]
  refine List.filterMap_congr fun e _ => ?_
  split
  · rfl
  · rename_i hverdict
    exact (Option.not_isSome_iff_eq_none.mp fun h => hverdict (hf e h)).symm

/-- The verdicts on a tree are all that its attempts and exhaustions are read from. -/
theorem filterMap_of_verdicts {α : Type} {f : Event → Option α} {tree : String}
    (hf : ∀ e, (f e).isSome = true → e.verdictOn tree = true) {es es' : List Event}
    (h : es'.filter (Event.verdictOn tree) = es.filter (Event.verdictOn tree)) :
    es'.filterMap f = es.filterMap f := by
  rw [← filterMap_verdicts hf es', h, filterMap_verdicts hf es]

/-! ## The budget -/

/-- The budget of a tree that was asked `k` times to restart, after the steps `ds`. -/
structure Net.Budget (limit : UInt32) (ds : List Label) (n : Net) (tree : String)
    (k : Nat) : Prop where
  counts : n.Counts tree ds k
  queued : ∀ q : Payload, q.encode ∈ n.queue → q.context.tree = some tree →
    0 ≤ q.context.pass.toInt ∧ q.context.pass.toInt ≤ k ∧
      (limit ≠ 0 → q.context.pass.toInt ≤ limit.toNat)
  within : limit ≠ 0 → k ≤ limit.toNat + 1
  attempts : n.events.filterMap (Event.attempt? tree) = restartNumbers limit k
  restarts : (ds.flatMap (Label.restarts tree)).map Payload.passOf? =
    (restartNumbers limit k).map some
  exhaustions : n.events.filterMap (Event.exhaustion? tree) =
    if limit ≠ 0 ∧ k = limit.toNat + 1 then [Int64.ofNat limit.toNat] else []

/-- A step that restarts a tree: a result misses as the first of its walk, the restart is announced
under the number of the walk that follows, and one payload is queued, which begins that walk. -/
structure Net.FirstMiss (n : Net) (d : Label) (m : Net) (tree : String) (p q : Payload) : Prop where
  label : d = .processed p (.error (.cell (.expectationNotMet tree q.context.pass))) [q.encode]
  missed : p.context.tree = some tree
  restarted : q.context.tree = some tree
  pass : q.context.pass = p.context.pass + 1
  before : n.text (.misses tree p.context.pass) = none
  after : m.text (.misses tree p.context.pass) = some (countText 1)
  attempts : m.events.filterMap (Event.attempt? tree) =
    n.events.filterMap (Event.attempt? tree) ++ [q.context.pass]

theorem Net.firstMiss {n m : Net} {tree : String} {p q : Payload}
    (hnone : n.text (.misses tree p.context.pass) = none) (htree : p.context.tree = some tree)
    (hfork : q.context.tree = p.context.tree) (hpass : q.context.pass = p.context.pass + 1)
    (htext : m.text = ((n.count (.misses tree p.context.pass)).count (.retraversals tree)).text)
    (hevents : m.events = n.events ++ [.expectationNotMet tree q.context.pass]) :
    n.FirstMiss (.processed p (.error (.cell (.expectationNotMet tree q.context.pass)))
      [q.encode]) m tree p q where
  label := rfl
  missed := htree
  restarted := hfork.trans htree
  pass := hpass
  before := hnone
  after := by
    rw [htext]
    exact Counts.missed_text hnone
  attempts := by
    rw [hevents, List.filterMap_append]
    simp [Event.attempt?]

/-- A step that restarts nothing. -/
structure Net.NoMiss (n : Net) (d : Label) (m : Net) (tree : String) : Prop where
  attempts : m.events.filterMap (Event.attempt? tree) = n.events.filterMap (Event.attempt? tree)
  restarts : d.restarts tree = []

namespace Net.Budget

variable {limit : UInt32} {ds : List Label} {n m : Net} {tree : String} {k : Nat} {d : Label}

theorem length_restarts_le (h : n.Budget limit ds tree k) (hlimit : limit ≠ 0) :
    (ds.flatMap (Label.restarts tree)).length ≤ limit.toNat := by
  have hcount := congrArg List.length h.restarts
  rw [List.length_map, List.length_map, restartNumbers, List.length_map, List.length_range,
    if_neg hlimit] at hcount
  rw [hcount]
  exact Nat.min_le_right k _

/-- No restart is asked for. -/
theorem keep (h : n.Budget limit ds tree k) (hcounts : m.Counts tree (ds ++ [d]) k)
    (hqueue : ∀ q : Payload, q.encode ∈ m.queue → q.context.tree = some tree → q.context.pass = 0 ∨
      ∃ q' : Payload, q'.encode ∈ n.queue ∧ q'.context.tree = some tree ∧
        q'.context.pass = q.context.pass)
    (hmiss : n.NoMiss d m tree)
    (hexhaustions : m.events.filterMap (Event.exhaustion? tree) =
      n.events.filterMap (Event.exhaustion? tree)) : m.Budget limit (ds ++ [d]) tree k where
  counts := hcounts
  queued q hq htree := by
    rcases hqueue q hq htree with hpass | ⟨q', hq', htree', hpass⟩
    · rw [hpass]
      exact ⟨Int.le_refl 0, Int.natCast_nonneg k, fun _ => Int.natCast_nonneg _⟩
    · rw [← hpass]
      exact h.queued q' hq' htree'
  within := h.within
  attempts := hmiss.attempts.trans h.attempts
  restarts := by
    rw [List.flatMap_append, List.flatMap_singleton, hmiss.restarts, List.append_nil]
    exact h.restarts
  exhaustions := hexhaustions.trans h.exhaustions

/-- A restart is asked for when the budget is used up. -/
theorem exhaust (h : n.Budget limit ds tree limit.toNat) (hlimit : limit ≠ 0)
    (hcounts : m.Counts tree (ds ++ [d]) (limit.toNat + 1))
    (hqueue : ∀ item ∈ m.queue, item ∈ n.queue)
    (hevents : m.events = n.events ++ [.budgetExhausted tree (Int64.ofNat limit.toNat)])
    (hrestarts : d.restarts tree = []) : m.Budget limit (ds ++ [d]) tree (limit.toNat + 1) where
  counts := hcounts
  queued q hq htree := by
    obtain ⟨hlow, hhigh, hbound⟩ := h.queued q (hqueue _ hq) htree
    exact ⟨hlow, by omega, hbound⟩
  within _ := Nat.le_refl _
  attempts := by
    rw [hevents, List.filterMap_append, h.attempts, restartNumbers_exhausted hlimit]
    exact List.append_nil _
  restarts := by
    rw [List.flatMap_append, List.flatMap_singleton, hrestarts, List.append_nil, h.restarts,
      restartNumbers_exhausted hlimit]
  exhaustions := by
    rw [hevents, List.filterMap_append, h.exhaustions]
    simp [hlimit, Event.exhaustion?]

/-- A restart is asked for and queued. -/
theorem restart (h : n.Budget limit ds tree k) (hlimit : limit = 0 ∨ k + 1 ≤ limit.toNat)
    (hsteps : k + 1 < 2 ^ 63) {p q : Payload} (hmiss : n.FirstMiss d m tree p q)
    (hcell : p.context.cell = some Cell.outputName) (hpass : q.context.pass = Int64.ofNat (k + 1))
    (hcounts : m.Counts tree (ds ++ [d]) (k + 1)) {queue : List String}
    (hqueue : ∀ item ∈ queue, item ∈ n.queue) (hqueued : m.queue = queue ++ [q.encode])
    (hexhaustions : m.events.filterMap (Event.exhaustion? tree) =
      n.events.filterMap (Event.exhaustion? tree)) : m.Budget limit (ds ++ [d]) tree (k + 1) where
  counts := hcounts
  queued q' hq' htree := by
    rw [hqueued] at hq'
    rcases List.mem_append.mp hq' with hq' | hq'
    · obtain ⟨hlow, hhigh, hbound⟩ := h.queued q' (hqueue _ hq') htree
      exact ⟨hlow, by omega, hbound⟩
    · obtain rfl := Payload.encode_inj.mp (List.mem_singleton.mp hq')
      rw [hpass, Int64.toInt_ofNat_of_lt hsteps]
      refine ⟨Int.natCast_nonneg _, Int.le_refl _, fun hne => ?_⟩
      exact Int.ofNat_le.mpr (hlimit.resolve_left hne)
  within hne := Nat.le_succ_of_le (hlimit.resolve_left hne)
  attempts := by
    rw [hmiss.attempts, h.attempts, hpass, restartNumbers_succ hlimit]
  restarts := by
    have hrestarts : d.restarts tree = [q.encode] := by
      rw [hmiss.label]
      exact if_pos ⟨hcell, hmiss.missed⟩
    rw [List.flatMap_append, List.flatMap_singleton, hrestarts, List.map_append, h.restarts,
      restartNumbers_succ hlimit, List.map_append, List.map_singleton, List.map_singleton,
      passOf?_encode, hpass]
  exhaustions := by
    have hbefore : ¬ (limit ≠ 0 ∧ k = limit.toNat + 1) := by
      rintro ⟨hne, rfl⟩
      have := hlimit.resolve_left hne
      omega
    have hafter : ¬ (limit ≠ 0 ∧ k + 1 = limit.toNat + 1) := by
      rintro ⟨hne, heq⟩
      have := hlimit.resolve_left hne
      omega
    rw [hexhaustions, h.exhaustions, if_neg hbefore, if_neg hafter]

/-- The walk that follows the last one is begun. -/
theorem restarted (h : n.Budget limit ds tree k) (hsteps : k + 1 < 2 ^ 63)
    {before after : List String} {p : Payload} (hqueue : n.queue = before ++ p.encode :: after)
    (htree : p.context.tree = some tree) (hcell : p.context.cell = some Cell.outputName)
    (hnone : n.text (.misses tree p.context.pass) = none) (hpass : p.context.pass.toInt = k)
    (hlimit : limit = 0 ∨ k + 1 ≤ limit.toNat) {q : Payload}
    (hfork : q.context.tree = p.context.tree) (hnext : q.context.pass = p.context.pass + 1)
    (htext : m.text = ((n.count (.misses tree p.context.pass)).count (.retraversals tree)).text)
    (hqueued : m.queue = before ++ after ++ [q.encode])
    (hevents : m.events = n.events ++ [.expectationNotMet tree (Int64.ofNat (k + 1))])
    (hd : d = .processed p (.error (.cell (.expectationNotMet tree (Int64.ofNat (k + 1)))))
      (m.queue.drop (before ++ after).length)) :
    (∃ k', m.Budget limit (ds ++ [d]) tree k') ∧ ∃ p q, n.FirstMiss d m tree p q := by
  have hleaf : d.isLeaf tree p.context.pass = true := by
    rw [hd]
    exact decide_eq_true ⟨htree, rfl, hcell⟩
  have hnumber : q.context.pass = Int64.ofNat (k + 1) := by
    rw [hnext, Int64.ofNat_add, ← eq_ofNat_of_toInt (Nat.lt_of_succ_lt hsteps) hpass]
    rfl
  have hexhaustions : m.events.filterMap (Event.exhaustion? tree) =
      n.events.filterMap (Event.exhaustion? tree) := by
    rw [hevents, List.filterMap_append]
    exact List.append_nil _
  have hmiss : n.FirstMiss d m tree p q := by
    rw [← hnumber] at hd hevents
    rw [hqueued, List.drop_left] at hd
    rw [hd]
    exact firstMiss hnone htree hfork hnext htext hevents
  have hcounts := (h.counts.miss hnone hpass hleaf).of_text htext
  have hleft : ∀ item ∈ before ++ after, item ∈ n.queue := fun item => mem_of_requeued hqueue
  exact ⟨⟨k + 1, h.restart hlimit hsteps hmiss hcell hnumber hcounts hleft hqueued hexhaustions⟩,
    p, q, hmiss⟩

end Net.Budget

variable {σ : Type} [Store σ] [FaultFree σ] {e : Engine}

/-- A step keeps the books of every tree, as long as no counter of the tree wraps. -/
theorem TurnOn.budget {born : String → Submission → Prop} {n m : Net} {tree : String} {d : Label}
    (hturn : TurnOn e born n tree d m) {ds : List Label} {k : Nat}
    (h : n.Budget e.config.maxRetraversals ds tree k) (hnext : k + 1 < 2 ^ 63)
    (hleaves : ∀ pass, leaves tree pass ds + 1 < 2 ^ 63) :
    (∃ k', m.Budget e.config.maxRetraversals (ds ++ [d]) tree k') ∧
      (n.NoMiss d m tree ∨ ∃ p q, n.FirstMiss d m tree p q) := by
  cases hturn with
  | spared hspares hrestarts =>
    have hmiss : n.NoMiss d m tree :=
      ⟨filterMap_of_verdicts verdictOn_of_attempt? hspares.verdicts, hrestarts⟩
    have hcounts := h.counts.congr d hspares.retraversals hspares.misses
    have hexhaustions := filterMap_of_verdicts verdictOn_of_exhaustion? hspares.verdicts
    exact ⟨⟨k, h.keep hcounts hspares.passes hmiss hexhaustions⟩, Or.inl hmiss⟩
  | @concluded before after p s output r m hqueue hborn htree hcell hdone hconcluded =>
    obtain ⟨hlow, hhigh, hbound⟩ := h.queued p (by rw [hqueue]; simp) htree
    have hrequeued : (n.requeue (before ++ after)).Counts tree ds k := h.counts.of_text rfl
    have hleaf : ∀ result queued, Label.isLeaf tree p.context.pass (.processed p result queued) =
        true := fun result queued => decide_eq_true ⟨htree, rfl, hcell⟩
    have hleft : ∀ item ∈ before ++ after, item ∈ n.queue := fun item => mem_of_requeued hqueue
    have hsmall : e.config.maxRetraversals.toNat < 2 ^ 63 :=
      Nat.lt_trans (UInt32.toNat_lt _) (by decide)
    have hkept : ∀ q : Payload, q.encode ∈ before ++ after → q.context.tree = some tree →
        q.context.pass = 0 ∨ ∃ q' : Payload, q'.encode ∈ n.queue ∧ q'.context.tree = some tree ∧
          q'.context.pass = q.context.pass :=
      fun q hq hq' => Or.inr ⟨q, hleft _ hq, hq', rfl⟩
    have hnothing : ∀ result, Label.restarts tree
        (.processed p result ((before ++ after).drop (before ++ after).length)) = [] := by
      intro result
      rw [List.drop_length, Label.restarts, ite_self]
    cases hconcluded with
    | answered hanswered =>
      rw [Net.requeue_text, hdone] at hanswered
      exact absurd hanswered (by simp)
    | delivered =>
      have hcounts := fun d =>
        hrequeued.congr (m := (n.requeue (before ++ after)).count (.done tree)) d
          (count_text_of_ne (by simp)) fun _ => count_text_of_ne (by simp)
      refine ⟨⟨k, h.keep ?_ hkept ?delivered ?_⟩, Or.inl ?delivered⟩
      · exact (hcounts _).of_text rfl
      · exact ⟨List.filterMap_append.trans (List.append_nil _), hnothing _⟩
      · exact List.filterMap_append.trans (List.append_nil _)
    | passedOver _ _ hmisses =>
      refine ⟨⟨k, h.keep ?_ hkept ?passed rfl⟩, Or.inl ?passed⟩
      · exact hrequeued.again hmisses (hleaf _ _)
      · exact ⟨rfl, hnothing _⟩
    | exhausted _ _ hmisses hlimit =>
      obtain ⟨hnone, hpass⟩ := hrequeued.first_miss (hleaves _) hlow hhigh hmisses
      rw [hrequeued.next] at hlimit ⊢
      rw [ofNat_lt_ofNat hsmall hnext] at hlimit
      -- no walk goes beyond the budget, so the walk that missed is the last one allowed
      have hk : k = e.config.maxRetraversals.toNat := by
        have := hbound hlimit.1
        omega
      subst hk
      refine ⟨⟨_, h.exhaust hlimit.1 ?_ hleft ?_ (hnothing _)⟩, Or.inl ⟨?_, hnothing _⟩⟩
      · exact (hrequeued.miss hnone hpass (hleaf _ _)).of_text rfl
      · rw [ofNat_succ_sub_one]
        rfl
      · exact List.filterMap_append.trans (List.append_nil _)
    | @restarted _ _ hmisses hlimit information text first cell =>
      obtain ⟨hnone, hpass⟩ := hrequeued.first_miss (hleaves _) hlow hhigh hmisses
      rw [hrequeued.next] at hlimit ⊢
      rw [ofNat_lt_ofNat hsmall hnext] at hlimit
      have hbudget : e.config.maxRetraversals = 0 ∨ k + 1 ≤ e.config.maxRetraversals.toNat := by
        by_cases hzero : e.config.maxRetraversals = 0
        · exact Or.inl hzero
        · exact Or.inr (Nat.not_lt.mp fun hlt => hlimit ⟨hzero, hlt⟩)
      refine And.imp_right Or.inr (h.restarted hnext hqueue htree hcell hnone hpass hbudget
        (q := Cell.restartPayload p.context (n.requeue (before ++ after)).fresh text first cell)
        ?_ ?_ ?_ ?_ ?_ ?_)
      all_goals rfl

theorem World.Empty.budget {w : World σ} (h : w.Empty) (limit : UInt32) (tree : String) :
    w.net.Budget limit [] tree 0 := by
  have hevents : w.net.events = [] := h.events
  have hcounts : w.net.Counts tree [] 0 := .empty (h.net_text _) fun _ => h.net_text _
  refine ⟨hcounts, fun q hq => ?_, fun _ => Nat.zero_le _, ?_, ?_, ?_⟩
  · rw [h.net_queue] at hq
    exact absurd hq (by simp)
  · simp [hevents, restartNumbers]
  · simp [restartNumbers]
  · simp [hevents]

/-- A step that is counted keeps the books of a tree. -/
theorem TurnOn.budget_of_length {born : String → Submission → Prop} {n m : Net} {tree : String}
    {d : Label} (hturn : TurnOn e born n tree d m) {ds : List Label} {k : Nat}
    (h : n.Budget e.config.maxRetraversals ds tree k) (hlength : ds.length + 1 < 2 ^ 63) :
    (∃ k', m.Budget e.config.maxRetraversals (ds ++ [d]) tree k') ∧
      (n.NoMiss d m tree ∨ ∃ p q, n.FirstMiss d m tree p q) := by
  apply hturn.budget h
  · exact Nat.lt_of_le_of_lt (Nat.succ_le_succ h.counts.le) hlength
  · intro pass
    exact Nat.lt_of_le_of_lt (Nat.succ_le_succ (leaves_le_length tree pass ds)) hlength

theorem Run.budget (hs : e.Serves σ fun n m => m = n) {w₀ w : World σ} {ds : List Label}
    (h₀ : w₀.Empty) (hrun : Run e w₀ ds w) (hlength : ds.length < 2 ^ 63) (tree : String) :
    ∃ k, w.net.Budget e.config.maxRetraversals ds tree k := by
  refine (hrun.induct hs (P := fun ds n => ds.length < 2 ^ 63 →
    ∃ k, n.Budget e.config.maxRetraversals ds tree k) (Inv.empty h₀ e.registry) ?_ ?_).2 hlength
  · intro _
    exact ⟨0, h₀.budget _ tree⟩
  · intro ds n d m _ ih hmoves hlength
    rw [List.length_append] at hlength
    obtain ⟨k, hbudget⟩ := ih (Nat.lt_of_succ_lt hlength)
    exact ((hmoves.turn.on tree).budget_of_length hbudget hlength).1

/-- How often a tree was asked to restart. -/
def World.retraversals (w : World σ) (tree : String) : Int64 :=
  ((w.text (.retraversals tree)).bind Text.Integer.read?).getD 0

/-- The number that is read from the graph. -/
theorem World.run_retraversals (w : World σ) (tree : String) :
    (w.run (Graph.retraversals tree).run).1 = .ok (w.retraversals tree) := by
  have hregular : (Key.retraversals tree).Regular := trivial
  have hread : Action.Reaches σ (Graph.retraversals tree) w.net
      (.ok (((w.net.text (.retraversals tree)).bind Text.Integer.read?).getD 0)) w.net := by
    unfold Graph.retraversals
    cases htext : w.net.text (.retraversals tree) with
    | some t =>
      have hget := Action.reaches_get_some (σ := σ) (.retraversals tree) hregular htext
      exact (Action.reaches_orAbsent_ok hget).andThen (Action.reaches_pure _ _)
    | none =>
      have hget := Action.reaches_get_none (σ := σ) (.retraversals tree) hregular htext
      exact (Action.reaches_orAbsent_notFound hget).andThen (Action.reaches_pure _ _)
  rw [World.net_text w _ hregular] at hread
  exact (hread w rfl).1

theorem Net.Counts.retraversals_eq {w : World σ} {tree : String} {ds : List Label} {k : Nat}
    (h : w.net.Counts tree ds k) : w.retraversals tree = Int64.ofNat k := by
  have hretraversals := h.retraversals
  rw [World.net_text w (.retraversals tree) trivial] at hretraversals
  rw [World.retraversals, World.text, hretraversals]
  split
  · subst k
    rfl
  · simp

/-- The books of a tree, whatever was accepted and processed in whatever order, as long as no 64-bit
counter can have wrapped. The walks that missed are those below the number of restarts asked for,
and every queued payload belongs to one of them or to the next. A step that announces a restart is
the first miss of its walk and queues the one payload that begins the walk announced; no walk is
begun twice. Within a budget, no more than that many walks are begun, and the end of the budget is
announced at most once. -/
theorem retraversal_budget {config : Config}
    (he : Engine.assemble { config, cells := some (Cell.standard config) } = .ok e) {w₀ w : World σ}
    {ds : List Label} (h₀ : w₀.Empty) (hrun : Run e w₀ ds w) (hlength : ds.length + 1 < 2 ^ 63)
    (tree : String) :
    (∀ pass, (w.text (.misses tree pass)).isSome = true ↔ 0 ≤ pass ∧ pass < w.retraversals tree) ∧
    (∀ item ∈ w.queue, ∀ p, Payload.decode? item = some p → p.context.tree = some tree →
      0 ≤ p.context.pass ∧ p.context.pass ≤ w.retraversals tree) ∧
    (∀ d w', Step e w d w' →
      w.net.NoMiss d w'.net tree ∨ ∃ p q, w.net.FirstMiss d w'.net tree p q) ∧
    (ds.flatMap (Label.restarts tree)).map Payload.passOf? =
      (w.events.filterMap (Event.attempt? tree)).map some ∧
    (w.events.filterMap (Event.attempt? tree)).Nodup ∧
    (config.maxRetraversals ≠ 0 →
      w.retraversals tree ≤ Int64.ofNat config.maxRetraversals.toNat + 1 ∧
      (ds.flatMap (Label.restarts tree)).length ≤ config.maxRetraversals.toNat ∧
      (w.events.filterMap (Event.exhaustion? tree)).length ≤ 1 ∧
      ∀ attempts ∈ w.events.filterMap (Event.exhaustion? tree),
        attempts = Int64.ofNat config.maxRetraversals.toNat) := by
  have hs := Engine.serves_of_standard (σ := σ) he
  have hinv := run_inv hs h₀ hrun
  obtain ⟨k, hbudget⟩ := hrun.budget hs h₀ (Nat.lt_of_succ_lt hlength) tree
  have hstepped := fun d w' (hstep : Step e w d w') =>
    (((step_moves hs hinv hstep).turn).on tree).budget_of_length hbudget hlength
  rw [(Engine.assemble_eq_ok he).1] at hbudget
  have hk : k + 1 < 2 ^ 63 := Nat.lt_of_le_of_lt (Nat.succ_le_succ hbudget.counts.le) hlength
  have hsmall : config.maxRetraversals.toNat + 1 < 2 ^ 63 :=
    Nat.lt_trans (Nat.succ_lt_succ (UInt32.toNat_lt _)) (by decide)
  have hattempts : w.events.filterMap (Event.attempt? tree) = _ := hbudget.attempts
  have hexhaustions : w.events.filterMap (Event.exhaustion? tree) = _ := hbudget.exhaustions
  rw [hbudget.counts.retraversals_eq, hattempts, hexhaustions]
  refine ⟨fun pass => ?_, fun item hitem p hread htree => ?_, fun d w' hstep =>
    (hstepped d w' hstep).2, hbudget.restarts, nodup_restartNumbers (Nat.lt_of_succ_lt hk),
    fun hne => ⟨?_, ?_, ?_, fun attempts hmem => ?_⟩⟩
  · have hmisses := hbudget.counts.misses pass
    rw [World.net_text w (.misses tree pass) trivial] at hmisses
    rw [World.text, hmisses, Int64.le_iff_toInt_le, Int64.lt_iff_toInt_lt,
      Int64.toInt_ofNat_of_lt (Nat.lt_of_succ_lt hk), Int64.toInt_zero]
  · obtain ⟨q, _, _, rfl, _, _⟩ := hinv.queued item hitem
    obtain rfl := Option.mem_unique (Payload.decode?_encode q) hread
    obtain ⟨hlow, hhigh, _⟩ := hbudget.queued q hitem htree
    rw [Int64.le_iff_toInt_le, Int64.le_iff_toInt_le,
      Int64.toInt_ofNat_of_lt (Nat.lt_of_succ_lt hk), Int64.toInt_zero]
    exact ⟨hlow, hhigh⟩
  · have hwithin := hbudget.within hne
    rw [show (1 : Int64) = Int64.ofNat 1 from rfl, ← Int64.ofNat_add, Int64.le_iff_toInt_le,
      Int64.toInt_ofNat_of_lt (Nat.lt_of_succ_lt hk), Int64.toInt_ofNat_of_lt hsmall]
    exact Int.ofNat_le.mpr hwithin
  · exact hbudget.length_restarts_le hne
  · split <;> simp
  · split at hmem
    · exact List.mem_singleton.mp hmem
    · exact absurd hmem (by simp)

/-- A run in which a tree is restarted, within a budget of one restart. -/
theorem retraversal_budget_of_restart : ∃ (config : Config) (e : Engine) (ds : List Label)
    (w : World Memory) (tree : String), config.maxRetraversals = 1 ∧
    Engine.assemble { config, cells := some (Cell.standard config) } = .ok e ∧
    Run e (.inMemory 0) ds w ∧ ds.length = 2 ∧ w.events.filterMap (Event.attempt? tree) = [1] ∧
    (ds.flatMap (Label.restarts tree)).map Payload.passOf? = [some 1] ∧ w.retraversals tree ≤ 2 ∧
    ∀ pass, (w.text (.misses tree pass)).isSome = true ↔ 0 ≤ pass ∧ pass < w.retraversals tree := by
  obtain ⟨e, he⟩ := Engine.exists_standard { maxRetraversals := 1 } rfl
  have h₀ := World.empty_inMemory 0
  obtain ⟨p, q, w, hrun, hevents, _⟩ := exists_run_restarted (Engine.serves_of_standard he) h₀
    (s := { input := "4", echo := true, session := "a", expectation := some "5" }) rfl rfl
    (by decide)
  have hlength : 2 + 1 < 2 ^ 63 := by decide
  obtain ⟨hmisses, _, _, hrestarts, _, hwithin⟩ :=
    retraversal_budget he h₀ hrun hlength (World.inMemory 0).net.fresh
  have hattempts : w.events.filterMap (Event.attempt? (World.inMemory 0).net.fresh) = [1] := by
    rw [hevents]
    simp [List.filterMap_cons, Event.attempt?]
  rw [hattempts] at hrestarts
  exact ⟨_, e, _, w, _, rfl, he, hrun, rfl, hattempts, hrestarts, (hwithin (by decide)).1, hmisses⟩

end SelfWiring
