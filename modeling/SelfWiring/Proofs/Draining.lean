import SelfWiring.Proofs.Restarts

/-!
# Engines drain

A walk of an orderly engine makes no more than four hops one after the other, and each leads to no
more hops than an exploration may make connections. A tree walks once, and once more for each
restart that its budget allows. So what is accepted bounds what can be processed, whatever was
explored, and processing comes to an end with an empty queue.
-/

namespace SelfWiring

/-- How often a tree can walk. -/
def Submission.quota (limit : UInt32) (s : Submission) : Nat :=
  if s.expectation.isSome then limit.toNat + 1 else 1

def Label.quota (limit : UInt32) : Label → Nat
  | .accepted s _ => s.quota limit
  | .processed _ _ _ => 0

def Label.isProcessed : Label → Bool
  | .accepted _ _ => false
  | .processed _ _ _ => true

/-- How many submissions were accepted. -/
def accepts (ds : List Label) : Nat := ds.countP fun d => !d.isProcessed

/-- The most payloads that can be processed for what was accepted. -/
def workBound (config : Config) (ds : List Label) : Nat :=
  (ds.map (Label.quota config.maxRetraversals)).sum * config.walkBound

/-- Submissions that expect nothing. -/
def Unexpecting (ds : List Label) : Prop :=
  ∀ s result, .accepted s result ∈ ds → s.expectation = none

/-- Either no submission expects anything, or restarts are limited and a 64-bit counter can count
the given number of steps. -/
def Bounded (config : Config) (ds : List Label) (steps : Nat) : Prop :=
  Unexpecting ds ∨ (config.maxRetraversals ≠ 0 ∧ steps < 2 ^ 63)

variable {σ : Type} [Store σ] [FaultFree σ] {e : Engine}

/-! ## The hops of a tree -/

/-- All walks of a tree. -/
def everyWalk : Int64 → Bool := fun _ => true

theorem card_hopsIn_le (tree : String) (walk : Int64 → Bool) (items : List String) :
    (hopsIn tree walk items).card ≤ items.length := by
  unfold hopsIn
  rw [Multiset.coe_card]
  exact List.length_filterMap_le _ _

/-- A tree that expects nothing is never restarted. -/
theorem Run.restarts_of_unexpecting (hs : e.Serves σ fun n m => m = n) {w₀ w : World σ}
    {ds : List Label} (h₀ : w₀.Empty) (hrun : Run e w₀ ds w) {tree : String}
    (hnone : ∀ s, Born ds tree s → s.expectation = none) :
    ds.flatMap (Label.restarts tree) = [] := by
  have hinduct := hrun.induct hs (P := fun ds _ => (∀ s, Born ds tree s → s.expectation = none) →
    ds.flatMap (Label.restarts tree) = []) (Inv.empty h₀ e.registry) (by simp)
  refine (hinduct ?_).2 hnone
  intro ds n d m _ ih hmoves hnone
  rw [List.flatMap_append, List.flatMap_singleton,
    ih fun s hborn => hnone s (List.mem_append_left _ hborn), List.nil_append]
  cases hmoves.turn with
  | began => rfl
  | carried _ _ _ _ _ _ hother => exact if_neg fun hout => hother hout.1
  | @concluded before after p t s v vs r m₀ _ hborn hsound _ _ hconcluded =>
    by_cases htree : p.context.tree = some tree
    · obtain rfl := Option.mem_unique hsound.tree htree
      have hexpectation := hsound.expectation.trans (hnone s (List.mem_append_left _ hborn))
      have hmet : ¬ ∃ x, p.context.expectation = some x ∧ v.display ≠ x := by
        rintro ⟨x, hx, _⟩
        exact absurd (hexpectation.symm.trans hx) (by simp)
      cases hconcluded with
      | answered | delivered => simp [Label.restarts, Net.count]
      | passedOver _ hmissed | exhausted _ hmissed | restarted _ hmissed =>
        exact absurd hmissed hmet
    · exact if_neg fun hout => htree hout.2

/-- The books of a tree are right where restarts are limited, as long as the run is short or one
walk can be counted. -/
theorem Run.budget_of_bounded (he : e.Orderly σ) {w₀ w : World σ} {ds : List Label}
    (h₀ : w₀.Empty) (hrun : Run e w₀ ds w) (hlimit : e.config.maxRetraversals ≠ 0)
    (hsteps : min ds.length (e.config.walkBound + 1) < 2 ^ 63) (tree : String) :
    ∃ k, w.net.Budget e.config.maxRetraversals ds tree k := by
  rcases Nat.le_total ds.length (e.config.walkBound + 1) with hle | hle
  · rw [Nat.min_eq_left hle] at hsteps
    exact hrun.budget he.serves h₀ hsteps tree
  · rw [Nat.min_eq_right hle] at hsteps
    exact hrun.budget_of_walkBound he h₀ hlimit hsteps tree

/-- The hops of a tree are bounded by the number of walks that it can make. -/
theorem Run.card_hopsOf_le (he : e.Orderly σ) {w₀ w : World σ} {ds : List Label} (h₀ : w₀.Empty)
    (hrun : Run e w₀ ds w)
    (hbounded : Bounded e.config ds (min ds.length (e.config.walkBound + 1))) {tree : String}
    {s : Submission} (hborn : Born ds tree s) : (hopsOf tree everyWalk ds).card ≤
      s.quota e.config.maxRetraversals * e.config.walkBound := by
  refine Nat.le_trans (hrun.card_hopsOf_le_roots he h₀ tree everyWalk) (Nat.mul_le_mul_right _ ?_)
  unfold Net.roots
  rw [hrun.begun_eq he.serves h₀ hborn rfl, Multiset.card_add, Multiset.card_singleton]
  have hrestarts := card_hopsIn_le tree everyWalk (ds.flatMap (Label.restarts tree))
  have hunexpecting : s.expectation = none → ds.flatMap (Label.restarts tree) = [] := by
    intro hnone
    apply hrun.restarts_of_unexpecting he.serves h₀
    intro s' hborn'
    rw [born_unique he.serves h₀ hrun hborn' hborn]
    exact hnone
  unfold Submission.quota
  cases hexpectation : s.expectation with
  | none =>
    rw [hunexpecting hexpectation]
    exact Nat.le_refl 1
  | some x =>
    rcases hbounded with hnone | ⟨hlimit, hsteps⟩
    · exact absurd (hexpectation.symm.trans (hnone s _ hborn)) (by simp)
    · obtain ⟨k, hbudget⟩ := hrun.budget_of_bounded he h₀ hlimit hsteps tree
      have hlimited := hbudget.length_restarts_le hlimit
      rw [Option.isSome_some, if_pos rfl]
      omega

/-! ## All trees together -/

/-- How many hops the tree made that a step accepted. -/
def Label.walked (ds : List Label) : Label → Nat
  | .accepted _ (.ok tree) => (hopsOf tree everyWalk ds).card
  | _ => 0

theorem walked_cons (d : Label) (ds : List Label) (a : Label) :
    Label.walked (d :: ds) a = Label.walked [d] a + Label.walked ds a := by
  rcases a with ⟨s, _ | tree⟩ | _
  · rfl
  · show (hopsOf tree everyWalk ([d] ++ ds)).card = _
    rw [hopsOf_append, Multiset.card_add]
    rfl
  · rfl

/-- Everything processed is a hop of some tree accepted. -/
theorem countP_isProcessed_le (accepted : List Label) {ds : List Label} (hborn : ∀ p result queued,
    .processed p result queued ∈ ds → ∃ tree s, p.context.tree = some tree ∧
      Born accepted tree s) :
    ds.countP Label.isProcessed ≤ (accepted.map (Label.walked ds)).sum := by
  induction ds with
  | nil => exact Nat.zero_le _
  | cons d ds ih =>
    have hrest := ih fun p result queued hmem =>
      hborn p result queued (List.mem_cons_of_mem _ hmem)
    have hmore : ∀ a ∈ accepted, Label.walked ds a ≤ Label.walked (d :: ds) a := by
      intro a _
      rw [walked_cons]
      exact Nat.le_add_left _ _
    cases d with
    | accepted s result =>
      rw [List.countP_cons_of_neg (by simp [Label.isProcessed])]
      exact Nat.le_trans hrest (List.sum_le_sum hmore)
    | processed p result queued =>
      rw [List.countP_cons_of_pos rfl]
      obtain ⟨tree, s, htree, haccepted⟩ := hborn p result queued List.mem_cons_self
      have hone : Label.walked ds (.accepted s (.ok tree)) <
          Label.walked (.processed p result queued :: ds) (.accepted s (.ok tree)) := by
        rw [walked_cons]
        show _ < (hopsOf tree everyWalk [.processed p result queued]).card + _
        rw [hopsOf_processed, Payload.hopOn?, if_pos ⟨htree, rfl⟩]
        exact Nat.lt_add_of_pos_left Nat.one_pos
      exact Nat.lt_of_le_of_lt hrest (List.sum_lt_sum _ _ hmore ⟨_, haccepted, hone⟩)

theorem Run.countP_isProcessed_le (he : e.Orderly σ) {w₀ w : World σ} {ds : List Label}
    (h₀ : w₀.Empty) (hrun : Run e w₀ ds w)
    (hbounded : Bounded e.config ds (min ds.length (e.config.walkBound + 1))) :
    ds.countP Label.isProcessed ≤ workBound e.config ds := by
  refine Nat.le_trans (SelfWiring.countP_isProcessed_le ds ?_) ?_
  · intro p result queued hmem
    exact hrun.born_of_processed he.serves h₀ hmem
  · unfold workBound
    rw [← List.sum_map_mul_right]
    apply List.sum_le_sum
    intro d hd
    rcases d with ⟨s, _ | tree⟩ | _
    · exact Nat.zero_le _
    · exact hrun.card_hopsOf_le he h₀ hbounded hd
    · exact Nat.zero_le _

/-! ## Coming to an end -/

theorem Run.append {w w' w'' : World σ} {ds ds' : List Label} (hrun : Run e w ds w')
    (hrun' : Run e w' ds' w'') : Run e w (ds ++ ds') w'' := by
  induction hrun' with
  | nil =>
    rw [List.append_nil]
    exact hrun
  | snoc _ hstep ih =>
    rw [← List.append_assoc]
    exact ih.snoc hstep

theorem workBound_append {config : Config} {ds ds' : List Label}
    (hprocessed : ∀ d ∈ ds', d.isProcessed = true) :
    workBound config (ds ++ ds') = workBound config ds := by
  have hzero : ds'.map (Label.quota config.maxRetraversals) = ds'.map fun _ => 0 := by
    apply List.map_congr_left
    intro d hd
    cases d with
    | accepted s result => exact absurd (hprocessed _ hd) (by simp [Label.isProcessed])
    | processed p result queued => rfl
  unfold workBound
  rw [List.map_append, List.sum_append, hzero]
  simp

theorem accepts_append {ds ds' : List Label} (hprocessed : ∀ d ∈ ds', d.isProcessed = true) :
    accepts (ds ++ ds') = accepts ds := by
  have hzero : ds'.countP (fun d => !d.isProcessed) = 0 := by
    rw [List.countP_eq_zero]
    intro d hd
    simp [hprocessed d hd]
  unfold accepts
  rw [List.countP_append, hzero, Nat.add_zero]

theorem Bounded.mono {config : Config} {ds ds' : List Label} {steps steps' : Nat}
    (h : Bounded config ds steps) (hds : ∀ d ∈ ds', d ∈ ds ∨ d.isProcessed = true)
    (hsteps : steps' ≤ steps) : Bounded config ds' steps' := by
  rcases h with hnone | ⟨hlimit, hlength⟩
  · left
    intro s result hmem
    rcases hds _ hmem with hmem | hprocessed
    · exact hnone s result hmem
    · exact absurd hprocessed (by simp [Label.isProcessed])
  · exact Or.inr ⟨hlimit, Nat.lt_of_le_of_lt hsteps hlength⟩

theorem length_eq_accepts_add (ds : List Label) :
    ds.length = accepts ds + ds.countP Label.isProcessed := by
  unfold accepts
  rw [List.length_eq_countP_add_countP Label.isProcessed, Nat.add_comm]
  simp

/-- Whatever waits can be processed. -/
theorem Run.exists_step (hs : e.Serves σ fun n m => m = n) {w₀ w : World σ} {ds : List Label}
    (h₀ : w₀.Empty) (hrun : Run e w₀ ds w) (hqueue : w.queue ≠ []) :
    ∃ d w', Step e w d w' ∧ d.isProcessed = true := by
  obtain ⟨item, after, hqueue⟩ := List.exists_cons_of_ne_nil hqueue
  have hitem : item ∈ w.net.queue := by
    show item ∈ w.queue
    rw [hqueue]
    exact List.mem_cons_self
  obtain ⟨p, _, _, rfl, _, _⟩ := (run_inv hs h₀ hrun).queued item hitem
  obtain ⟨result, queued, w', hstep⟩ := Step.exists_processed e hqueue
  exact ⟨_, w', hstep, rfl⟩

/-- Processing that is bounded comes to an empty queue. -/
theorem Run.exists_drained (hs : e.Serves σ fun n m => m = n) {w₀ w : World σ} {ds : List Label}
    (h₀ : w₀.Empty) (hrun : Run e w₀ ds w) (bound : Nat)
    (hbound : ∀ ds' w', Run e w ds' w' → (∀ d ∈ ds', d.isProcessed = true) → ds'.length ≤ bound)
    (left : Nat) : ∀ {ds₁ : List Label} {w₁ : World σ}, Run e w ds₁ w₁ →
      (∀ d ∈ ds₁, d.isProcessed = true) → bound ≤ ds₁.length + left →
      ∃ ds₂ w₂, Run e w₁ ds₂ w₂ ∧ (∀ d ∈ ds₂, d.isProcessed = true) ∧ w₂.queue = [] := by
  induction left with
  | zero =>
    intro ds₁ w₁ hrun₁ hprocessed hleft
    by_cases hqueue : w₁.queue = []
    · exact ⟨[], w₁, .nil w₁, by simp, hqueue⟩
    · -- one more step would be one too many
      obtain ⟨d, w₂, hstep, hd⟩ := (hrun.append hrun₁).exists_step hs h₀ hqueue
      have hmore := hbound _ _ (hrun₁.snoc hstep)
        (List.forall_mem_append.mpr ⟨hprocessed, by simpa using hd⟩)
      rw [List.length_append, List.length_singleton] at hmore
      omega
  | succ left ih =>
    intro ds₁ w₁ hrun₁ hprocessed hleft
    by_cases hqueue : w₁.queue = []
    · exact ⟨[], w₁, .nil w₁, by simp, hqueue⟩
    · obtain ⟨d, w₂, hstep, hd⟩ := (hrun.append hrun₁).exists_step hs h₀ hqueue
      obtain ⟨ds₃, w₃, hrun₃, hprocessed₃, hdrained⟩ := ih (hrun₁.snoc hstep)
        (List.forall_mem_append.mpr ⟨hprocessed, by simpa using hd⟩)
        (by rw [List.length_append, List.length_singleton]; omega)
      refine ⟨d :: ds₃, w₃, ?_, ?_, hdrained⟩
      · exact (Run.snoc (.nil w₁) hstep).append hrun₃
      · exact List.forall_mem_cons.mpr ⟨hd, hprocessed₃⟩

theorem quota_le (limit : UInt32) (s : Submission) : s.quota limit ≤ limit.toNat + 1 := by
  unfold Submission.quota
  split
  · exact Nat.le_refl _
  · exact Nat.succ_le_succ (Nat.zero_le _)

/-- The bound, for any number of submissions. -/
theorem workBound_le (config : Config) (ds : List Label) :
    workBound config ds ≤ accepts ds * (config.maxRetraversals.toNat + 1) * config.walkBound := by
  apply Nat.mul_le_mul_right
  unfold accepts
  induction ds with
  | nil => exact Nat.zero_le _
  | cons d ds ih =>
    rw [List.map_cons, List.sum_cons]
    cases d with
    | accepted s result =>
      rw [List.countP_cons_of_pos rfl, Nat.succ_mul, Nat.add_comm]
      exact Nat.add_le_add ih (quota_le config.maxRetraversals s)
    | processed p result queued =>
      rw [List.countP_cons_of_neg (by simp [Label.isProcessed])]
      exact (Nat.zero_add _).trans_le ih

/-- Processing that goes on stays within the bound of what was accepted. -/
theorem Run.countP_add_length_le (he : e.Orderly σ) {w₀ w w' : World σ} {ds ds' : List Label}
    (h₀ : w₀.Empty) (hrun : Run e w₀ ds w)
    (hbounded : Bounded e.config ds (e.config.walkBound + 1)) (hrun' : Run e w ds' w')
    (hprocessed : ∀ d ∈ ds', d.isProcessed = true) :
    ds.countP Label.isProcessed + ds'.length ≤ workBound e.config ds := by
  have hall := (hrun.append hrun').countP_isProcessed_le he h₀
  rw [workBound_append hprocessed, List.countP_append, List.countP_eq_length.mpr hprocessed] at hall
  apply hall
  refine hbounded.mono ?_ (Nat.min_le_right _ _)
  intro d hd
  rcases List.mem_append.mp hd with hd | hd
  · exact Or.inl hd
  · exact Or.inr (hprocessed d hd)

/-- Processing that goes on comes to an empty queue. -/
theorem Run.drains (he : e.Orderly σ) {w₀ w : World σ} {ds : List Label} (h₀ : w₀.Empty)
    (hrun : Run e w₀ ds w) (hbounded : Bounded e.config ds (e.config.walkBound + 1)) :
    ∃ ds' w', Run e w ds' w' ∧ (∀ d ∈ ds', d.isProcessed = true) ∧ w'.queue = [] := by
  refine hrun.exists_drained he.serves h₀ (workBound e.config ds) ?_ (workBound e.config ds)
    (.nil w) (by simp) (Nat.le_add_left _ _)
  intro ds' w' hrun' hprocessed
  exact Nat.le_trans (Nat.le_add_left _ _)
    (hrun.countP_add_length_le he h₀ hbounded hrun' hprocessed)

/-- What was accepted bounds what is processed: each tree walks once, and once more for each restart
that its budget allows if it expects anything, and a walk makes no more hops than `walkBound`. It is
enough that the counters can count the steps of the run, or the hops of one walk and one more; and
if they can count a walk, processing that goes on is bounded as well, can go on while anything
waits, and so comes to an empty queue, for any budget and any number of submissions. -/
theorem engine_drains {config : Config}
    (he : Engine.assemble { config, cells := some (Cell.standard config) } = .ok e) {w₀ w : World σ}
    {ds : List Label} (h₀ : w₀.Empty) (hrun : Run e w₀ ds w)
    (hbounded : Bounded config ds (min ds.length (config.walkBound + 1))) :
    ds.countP Label.isProcessed ≤ workBound config ds ∧
    workBound config ds ≤ accepts ds * (config.maxRetraversals.toNat + 1) * config.walkBound ∧
    (Bounded config ds (config.walkBound + 1) →
      (∀ ds' w', Run e w ds' w' → (∀ d ∈ ds', d.isProcessed = true) →
        ds.countP Label.isProcessed + ds'.length ≤ workBound config ds ∧
        (w'.queue ≠ [] → ∃ d w'', Step e w' d w'' ∧ d.isProcessed = true)) ∧
      ∃ ds' w', Run e w ds' w' ∧ (∀ d ∈ ds', d.isProcessed = true) ∧ w'.queue = []) := by
  have horderly := Engine.orderly_of_standard (σ := σ) he
  rw [← (Engine.assemble_eq_ok he).1] at hbounded ⊢
  refine ⟨hrun.countP_isProcessed_le horderly h₀ hbounded, workBound_le _ _,
    fun hwalk => ⟨?_, hrun.drains horderly h₀ hwalk⟩⟩
  intro ds' w' hrun' hprocessed
  refine ⟨hrun.countP_add_length_le horderly h₀ hwalk hrun' hprocessed, fun hqueue => ?_⟩
  exact (hrun.append hrun').exists_step horderly.serves h₀ hqueue

/-- A run that restarts a tree and leaves a payload in the queue, and drains. -/
theorem engine_drains_of_restart : ∃ (config : Config) (e : Engine) (ds ds' : List Label)
    (w w' : World Memory), config.maxRetraversals = 1 ∧
    Engine.assemble { config, cells := some (Cell.standard config) } = .ok e ∧
    Run e (.inMemory 0) ds w ∧ ds.countP Label.isProcessed = 1 ∧ w.queue ≠ [] ∧
    workBound config ds = 2 * 156 ∧ ds.countP Label.isProcessed ≤ workBound config ds ∧
    Run e w ds' w' ∧ (∀ d ∈ ds', d.isProcessed = true) ∧ w'.queue = [] := by
  obtain ⟨e, he⟩ := Engine.exists_standard { maxRetraversals := 1 } rfl
  have h₀ := World.empty_inMemory 0
  obtain ⟨p, q, w, hrun, _, hqueue⟩ := exists_run_restarted (Engine.serves_of_standard he) h₀
    (s := { input := "4", echo := true, session := "a", expectation := some "5" }) rfl rfl
    (by decide)
  have hlength : 2 < 2 ^ 63 := by decide
  have hwalk : 156 + 1 < 2 ^ 63 := by decide
  obtain ⟨hbound, _, hdrains⟩ := engine_drains he h₀ hrun (Or.inr ⟨by decide, hlength⟩)
  obtain ⟨_, ds', w', hrun', hprocessed, hdrained⟩ := hdrains (Or.inr ⟨by decide, hwalk⟩)
  have hwaiting : w.queue ≠ [] := by
    rw [hqueue]
    exact List.cons_ne_nil _ _
  exact ⟨_, e, _, ds', w, w', rfl, he, hrun, rfl, hwaiting, rfl, hbound, hrun', hprocessed,
    hdrained⟩

end SelfWiring
