import SelfWiring.Proofs.Budget
import SelfWiring.Proofs.Walks

/-!
# The walks that restarts begin

A tree begins one walk when it is accepted and one more at each restart, and no two walks under the
same number. So there is a bound on the hops of a walk that does not depend on how often the tree
was restarted. It bounds the misses that are counted for a walk, too: where a budget is limited and
the counters can count one walk, the books of a tree are right however long the run is.
-/

namespace SelfWiring

/-- The most hops that one walk can make. -/
def Config.walkBound (config : Config) : Nat :=
  1 + config.maxSignals.toNat + config.maxSignals.toNat ^ 2 + config.maxSignals.toNat ^ 3

/-- A hop to the output cell. -/
def Hop.IsLeaf (h : Hop) : Prop := h.cell = some Cell.outputName

instance : DecidablePred Hop.IsLeaf := fun h =>
  inferInstanceAs (Decidable (h.cell = some Cell.outputName))

/-- One walk of a tree. -/
def oneWalk (pass : Int64) : Int64 → Bool := fun k => k == pass

theorem countP_hopsOf (tree : String) (pass : Int64) (ds : List Label) :
    (hopsOf tree (oneWalk pass) ds).countP Hop.IsLeaf = leaves tree pass ds := by
  unfold hopsOf leaves
  rw [Multiset.coe_countP, List.countP_filterMap]
  apply List.countP_congr
  intro d _
  cases d with
  | accepted s result => simp [Label.hopOn?, Label.isLeaf]
  | processed p result queued =>
    by_cases hon : p.context.tree = some tree ∧ p.context.pass = pass
    · simp only [Label.hopOn?, Payload.hopOn?, Label.isLeaf, oneWalk, Payload.hop, hon,
        beq_self_eq_true, and_self, if_true, decide_eq_true_eq, true_and]
      exact decide_eq_true_iff
    · have hnone : (Label.processed p result queued).hopOn? tree (oneWalk pass) = none := by
        refine if_neg fun h => hon ⟨h.1, ?_⟩
        simpa [oneWalk] using h.2
      have hleaf : (Label.processed p result queued).isLeaf tree pass = false :=
        decide_eq_false fun h => hon ⟨h.1, h.2.1⟩
      rw [hnone, hleaf]
      rfl

theorem Net.begun_eq_zero (n : Net) (tree : String) (ds : List Label) {pass : Int64}
    (hpass : pass ≠ 0) : n.begun tree (oneWalk pass) ds = 0 :=
  if_neg fun h => hpass (beq_iff_eq.mp h).symm

variable {σ : Type} [Store σ] [FaultFree σ] {e : Engine}

/-- The hops of a tree are bounded by the number of its walks. -/
theorem Run.card_hopsOf_le_roots (he : e.Orderly σ) {w₀ w : World σ} {ds : List Label}
    (h₀ : w₀.Empty) (hrun : Run e w₀ ds w) (tree : String) (walk : Int64 → Bool) :
    (hopsOf tree walk ds).card ≤ (w.net.roots tree walk ds).card * e.config.walkBound := by
  have hflow := hrun.flow he h₀
  exact Net.card_le_of_balance he (run_inv he.serves h₀ hrun)
    (fun h hmem => hflow.placed_of_mem hmem) (hflow.balance tree walk) hflow.card_onward_le

/-! ## Where walks begin -/

/-- Queued payloads of a tree and the walks that they belong to. -/
theorem hopsIn_of_passes {tree : String} (pass : Int64) {P : Hop → Prop} (items : List String) :
    ∀ passes : List Int64,
      (∀ item ∈ items, ∃ q : Payload, item = q.encode ∧ q.context.tree = some tree ∧ P q.hop) →
      items.map Payload.passOf? = passes.map some →
      (hopsIn tree (oneWalk pass) items).card = passes.count pass ∧
        ∀ h ∈ hopsIn tree (oneWalk pass) items, P h := by
  induction items with
  | nil =>
    intro passes _ hpasses
    obtain rfl : passes = [] := List.map_eq_nil_iff.mp hpasses.symm
    exact ⟨rfl, fun h hmem => absurd hmem (Multiset.notMem_zero h)⟩
  | cons item items ih =>
    intro passes hitems hpasses
    cases passes with
    | nil => exact absurd hpasses (by simp)
    | cons k passes =>
      obtain ⟨hk, hrest⟩ := List.cons.inj hpasses
      obtain ⟨q, rfl, htree, hP⟩ := hitems item List.mem_cons_self
      obtain ⟨hcard, hall⟩ := ih passes (fun item hitem => hitems item
        (List.mem_cons_of_mem _ hitem)) hrest
      obtain rfl : q.context.pass = k := Option.some.inj ((passOf?_encode q).symm.trans hk)
      rw [← List.singleton_append, hopsIn_append, hopsIn_encode, Multiset.card_add, hcard,
        List.count_cons]
      by_cases hpass : q.context.pass = pass
      · have hon : q.hopOn? tree (oneWalk pass) = some q.hop :=
          if_pos ⟨htree, beq_iff_eq.mpr hpass⟩
        rw [hon, if_pos (beq_iff_eq.mpr hpass)]
        refine ⟨Nat.add_comm _ _, fun h hmem => ?_⟩
        rcases Multiset.mem_add.mp hmem with hmem | hmem
        · rw [Multiset.mem_singleton.mp hmem]
          exact hP
        · exact hall h hmem
      · have hoff : q.hopOn? tree (oneWalk pass) = none :=
          if_neg fun hon => hpass (beq_iff_eq.mp hon.2)
        rw [hoff, if_neg fun hon => hpass (beq_iff_eq.mp hon)]
        refine ⟨Nat.add_comm _ _, fun h hmem => ?_⟩
        rcases Multiset.mem_add.mp hmem with hmem | hmem
        · exact absurd hmem (Multiset.notMem_zero h)
        · exact hall h hmem

section

variable (he : e.Orderly σ) {w₀ w : World σ} {ds : List Label} (h₀ : w₀.Empty)
  (hrun : Run e w₀ ds w) {tree : String} {s : Submission} (hborn : Born ds tree s) {k : Nat}
  (hbudget : w.net.Budget e.config.maxRetraversals ds tree k) (hk : k < 2 ^ 63)

include he h₀ hrun hborn hbudget hk

/-- Each restart begins a walk of its own, at the first behaviour of the tree. -/
theorem Run.hopsIn_restarts (pass : Int64) :
    (hopsIn tree (oneWalk pass) (ds.flatMap (Label.restarts tree))).card =
        (if pass ∈ restartNumbers e.config.maxRetraversals k then 1 else 0) ∧
      ∀ h ∈ hopsIn tree (oneWalk pass) (ds.flatMap (Label.restarts tree)),
        ∃ source, h = w.net.rootHop tree s [source] := by
  have hrestarted : ∀ item ∈ ds.flatMap (Label.restarts tree), ∃ q : Payload, item = q.encode ∧
      q.context.tree = some tree ∧ ∃ source, q.hop = w.net.rootHop tree s [source] := by
    intro item hitem
    obtain ⟨q, s', source, hencode, hborn', htree, hhop⟩ :=
      (hrun.flow he h₀).restarted tree item hitem
    obtain rfl := born_unique he.serves h₀ hrun hborn hborn'
    exact ⟨q, hencode, htree, source, hhop⟩
  have hwalks := hopsIn_of_passes pass
    (P := fun h => ∃ source, h = w.net.rootHop tree s [source]) _ _ hrestarted hbudget.restarts
  rw [List.Nodup.count (nodup_restartNumbers hk)] at hwalks
  exact hwalks

/-- No walk begins twice. -/
theorem Run.card_roots_le (pass : Int64) : (w.net.roots tree (oneWalk pass) ds).card ≤ 1 := by
  unfold Net.roots
  rw [Multiset.card_add, (hrun.hopsIn_restarts he h₀ hborn hbudget hk pass).1]
  by_cases hpass : pass = 0
  · subst hpass
    rw [hrun.begun_eq he.serves h₀ hborn rfl, if_neg (zero_notMem_restartNumbers hk)]
    exact Nat.le_refl 1
  · rw [Net.begun_eq_zero _ _ _ hpass, Multiset.card_zero, Nat.zero_add]
    split
    · exact Nat.le_refl 1
    · exact Nat.zero_le 1

/-- Each walk that began has one hop with which it began. -/
theorem Run.roots_eq {pass : Int64} (hlow : 0 ≤ pass.toInt) (hhigh : pass.toInt ≤ k)
    (hwithin : e.config.maxRetraversals ≠ 0 → pass.toInt ≤ e.config.maxRetraversals.toNat) :
    ∃ sources, (pass = 0 → sources = []) ∧
      w.net.roots tree (oneWalk pass) ds = {w.net.rootHop tree s sources} := by
  obtain ⟨hcard, hall⟩ := hrun.hopsIn_restarts he h₀ hborn hbudget hk pass
  unfold Net.roots
  by_cases hpass : pass = 0
  · subst hpass
    rw [if_neg (zero_notMem_restartNumbers hk), Multiset.card_eq_zero] at hcard
    rw [hrun.begun_eq he.serves h₀ hborn rfl, hcard, add_zero]
    exact ⟨[], fun _ => rfl, rfl⟩
  · have hpos : pass.toInt ≠ 0 := fun h =>
      hpass (Int64.toInt_inj.mp (h.trans Int64.toInt_zero.symm))
    have hmem : pass ∈ restartNumbers e.config.maxRetraversals k :=
      (mem_restartNumbers hk).mpr ⟨by omega, hhigh, hwithin⟩
    rw [if_pos hmem] at hcard
    obtain ⟨h, hsingle⟩ := Multiset.card_eq_one.mp hcard
    obtain ⟨source, rfl⟩ := hall h (by rw [hsingle]; exact Multiset.mem_singleton_self h)
    rw [Net.begun_eq_zero _ _ _ hpass, hsingle, zero_add]
    exact ⟨[source], fun hzero => absurd hzero hpass, rfl⟩

end

/-! ## The budget where one walk can be counted -/

/-- Nothing is processed of a tree that was never accepted. -/
theorem Run.leaves_eq_zero (hs : e.Serves σ fun n m => m = n) {w₀ w : World σ} {ds : List Label}
    (h₀ : w₀.Empty) (hrun : Run e w₀ ds w) {tree : String} (hunborn : ∀ s, ¬ Born ds tree s)
    (pass : Int64) : leaves tree pass ds = 0 := by
  unfold leaves
  rw [List.countP_eq_zero]
  intro d hd hleaf
  cases d with
  | accepted s result => exact absurd hleaf Bool.false_ne_true
  | processed p result queued =>
    obtain ⟨tree', s, htree', hborn⟩ := hrun.born_of_processed hs h₀ hd
    obtain rfl := Option.mem_unique (of_decide_eq_true hleaf).1 htree'
    exact hunborn s hborn

/-- No more results of a walk reach the output cell than the walk can make hops. -/
theorem Run.leaves_le (he : e.Orderly σ) {w₀ w : World σ} {ds : List Label} (h₀ : w₀.Empty)
    (hrun : Run e w₀ ds w) {tree : String} {k : Nat}
    (hbudget : w.net.Budget e.config.maxRetraversals ds tree k) (hk : k < 2 ^ 63)
    (pass : Int64) : leaves tree pass ds ≤ e.config.walkBound := by
  rcases Classical.em (∃ s, Born ds tree s) with ⟨s, hborn⟩ | hunborn
  · calc leaves tree pass ds = (hopsOf tree (oneWalk pass) ds).countP Hop.IsLeaf :=
          (countP_hopsOf tree pass ds).symm
      _ ≤ (hopsOf tree (oneWalk pass) ds).card := Multiset.countP_le_card _ _
      _ ≤ (w.net.roots tree (oneWalk pass) ds).card * e.config.walkBound :=
          hrun.card_hopsOf_le_roots he h₀ tree (oneWalk pass)
      _ ≤ 1 * e.config.walkBound :=
          Nat.mul_le_mul_right _ (hrun.card_roots_le he h₀ hborn hbudget hk pass)
      _ = e.config.walkBound := Nat.one_mul _
  · rw [hrun.leaves_eq_zero he.serves h₀ (not_exists.mp hunborn)]
    exact Nat.zero_le _

/-- The books of a tree are right after any number of steps, where restarts are limited and one walk
can be counted. -/
theorem Run.budget_of_walkBound (he : e.Orderly σ) {w₀ w : World σ} {ds : List Label}
    (h₀ : w₀.Empty) (hrun : Run e w₀ ds w) (hlimit : e.config.maxRetraversals ≠ 0)
    (hwalk : e.config.walkBound + 1 < 2 ^ 63) (tree : String) :
    ∃ k, w.net.Budget e.config.maxRetraversals ds tree k := by
  induction hrun with
  | nil => exact ⟨0, h₀.budget _ tree⟩
  | @snoc w₁ w₂ ds d hrun hstep ih =>
    obtain ⟨k, hbudget⟩ := ih
    -- neither counter goes far: restarts are limited, and so are the results of each walk so far
    have hwithin := hbudget.within hlimit
    have hsmall := e.config.maxRetraversals.toNat_lt
    have hk : k + 1 < 2 ^ 63 := by omega
    have hleaves : ∀ pass, leaves tree pass ds + 1 < 2 ^ 63 := by
      intro pass
      apply Nat.lt_of_le_of_lt _ hwalk
      apply Nat.succ_le_succ
      exact hrun.leaves_le he h₀ hbudget (Nat.lt_of_succ_lt hk) pass
    have hmoves := step_moves he.serves (run_inv he.serves h₀ hrun) hstep
    exact ((hmoves.turn.on tree).budget hbudget hk hleaves).1

end SelfWiring
