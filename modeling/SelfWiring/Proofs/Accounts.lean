import SelfWiring.Proofs.Answers
import SelfWiring.Proofs.Draining

/-!
# The accounts of an unmet expectation

All walks of a tree begin alike, so they make the same hops but for where the first came from, and
as many results of each walk reach the output cell. As long as none of them is delivered, each is
counted as a miss of its walk. So where the queue is drained, a tree that was never answered either
brought forth no result at all, or has used up its budget with the same misses in every walk.
-/

namespace SelfWiring

variable {σ : Type} [Store σ] [FaultFree σ] {e : Engine}

/-! ## Misses are counted -/

theorem count_text_counted {n : Net} {k : Key} {j : Nat} (h : n.text k = counted j) :
    (n.count k).text k = counted (j + 1) := by
  rw [Net.count, Net.write_text, Function.update_self, h, nextCount_counted]
  rfl

/-- As long as a tree is not answered, each of its results is counted as a miss. -/
def Net.Tallied (tree : String) (ds : List Label) (n : Net) : Prop :=
  n.text (.done tree) = none →
    ∀ pass, n.text (.misses tree pass) = counted (leaves tree pass ds)

theorem Net.Tallied.of_text {tree : String} {ds : List Label} {n m : Net} (h : n.Tallied tree ds)
    (htext : m.text = n.text) : m.Tallied tree ds := by
  unfold Net.Tallied
  rw [htext]
  exact h

theorem Net.Tallied.keep {tree : String} {ds : List Label} {n m : Net} {d : Label}
    (h : n.Tallied tree ds) (hdone : m.text (.done tree) = n.text (.done tree))
    (hmisses : ∀ pass, m.text (.misses tree pass) = n.text (.misses tree pass))
    (hleaf : ∀ pass, d.isLeaf tree pass = false) : m.Tallied tree (ds ++ [d]) := by
  intro hnone pass
  rw [hmisses, leaves_append, hleaf, if_neg (by simp), Nat.add_zero]
  exact h (hdone.symm.trans hnone) pass

theorem Net.Tallied.miss {tree : String} {ds : List Label} {n m : Net} {d : Label} {pass : Int64}
    (h : n.Tallied tree ds) (hdone : n.text (.done tree) = none)
    (hmisses : ∀ pass', m.text (.misses tree pass') = (n.count (.misses tree pass)).text
      (.misses tree pass')) (hleaf : ∀ pass', d.isLeaf tree pass' = true ↔ pass' = pass) :
    m.Tallied tree (ds ++ [d]) := by
  intro _ pass'
  rw [hmisses, leaves_append]
  by_cases hpass : pass' = pass
  · subst hpass
    rw [if_pos ((hleaf _).mpr rfl)]
    exact count_text_counted (h hdone pass')
  · have hne : Key.misses tree pass' ≠ Key.misses tree pass := by simpa using hpass
    rw [if_neg (fun hd => hpass ((hleaf _).mp hd)), count_text_of_ne hne, Nat.add_zero]
    exact h hdone pass'

theorem Turn.tallied {born : String → Submission → Prop} {n m : Net} {d : Label} {tree : String}
    {ds : List Label} (hturn : Turn σ e born n d m) (h : n.Tallied tree ds) :
    m.Tallied tree (ds ++ [d]) := by
  cases hturn with
  | began s hneutral =>
    exact h.keep (hneutral.counters _ trivial) (fun _ => hneutral.counters _ trivial) fun _ => rfl
  | carried _ _ _ hneutral _ _ hother =>
    refine h.keep (hneutral.counters _ trivial) (fun _ => hneutral.counters _ trivial) ?_
    intro pass
    exact decide_eq_false fun hleaf => hother hleaf.2.2
  | @concluded before after p t s v vs r m₀ _ _ hsound hbinding _ hconcluded =>
    have hout : p.context.cell = some Cell.outputName := by
      obtain ⟨name, hname, hbinding'⟩ := hsound.cell
      obtain rfl := Option.mem_unique hbinding hbinding'
      exact hname
    by_cases htree : tree = t
    · subst htree
      have hleaf : ∀ pass', Label.isLeaf tree pass' (.processed p
          ((r.mapError EngineError.cell).map fun _ => .terminated)
          (m₀.queue.drop (before ++ after).length)) = true ↔ pass' = p.context.pass := by
        intro pass'
        unfold Label.isLeaf
        rw [decide_eq_true_iff]
        exact ⟨fun hleaf => hleaf.2.1.symm, fun hpass => ⟨hsound.tree, hpass.symm, hout⟩⟩
      refine Net.Tallied.of_text ?_ (Net.report_text _ _ _)
      have hrequeued : (n.requeue (before ++ after)).Tallied tree ds := h.of_text rfl
      intro hnone
      cases hconcluded with
      | answered hdone =>
        rw [hnone] at hdone
        exact absurd hdone (by simp)
      | delivered => exact absurd hnone (by simp [Net.count])
      | passedOver hdone => exact hrequeued.miss hdone (fun _ => rfl) hleaf hnone
      | exhausted hdone | restarted hdone =>
        have hmisses : ∀ pass', Key.misses tree pass' ≠ Key.retraversals tree := by simp
        have hmissed := hrequeued.miss hdone (fun pass' => count_text_of_ne (hmisses pass')) hleaf
        exact hmissed.of_text rfl hnone
    · have hkeep := fun k hk => concluded_of_ne hconcluded htree (k := k) hk
      refine h.keep ?_ (fun pass => ?_) fun pass => ?_
      · rw [Net.report_text]
        exact (hkeep _ (Or.inl rfl)).1
      · rw [Net.report_text]
        exact (hkeep _ (Or.inr (Or.inr ⟨pass, rfl⟩))).1
      · refine decide_eq_false fun hleaf => htree ?_
        exact Option.mem_unique hleaf.1 hsound.tree

theorem Run.tallied (hs : e.Serves σ fun n m => m = n) {w₀ w : World σ} {ds : List Label}
    (h₀ : w₀.Empty) (hrun : Run e w₀ ds w) (tree : String) : w.net.Tallied tree ds := by
  refine (hrun.induct hs (P := fun ds n => n.Tallied tree ds) (Inv.empty h₀ e.registry) ?_ ?_).2
  · intro _ pass
    exact h₀.net_text _
  · intro ds n d m _ h hmoves
    exact hmoves.turn.tallied h

/-! ## Walks begin alike -/

/-- How many hops to the output cell there are among a hop and all that follow it. -/
noncomputable def Net.leavesBelow (σ : Type) [Store σ] [FaultFree σ] (e : Engine) (n : Net)
    (h : Hop) : Nat :=
  (∑ i ∈ Finset.range 4, generation (n.onward σ e) i {h}).countP Hop.IsLeaf

theorem Net.leavesBelow_eq (n : Net) (h : Hop) : n.leavesBelow σ e h =
    (∑ i ∈ Finset.range 3, generation (n.onward σ e) i (n.onward σ e h)).countP Hop.IsLeaf +
      if h.IsLeaf then 1 else 0 := by
  unfold leavesBelow
  rw [Finset.sum_range_succ', Multiset.countP_add]
  simp only [generation, Multiset.singleton_bind]
  congr 1
  rw [← Multiset.cons_zero, Multiset.countP_cons, Multiset.countP_zero, Nat.zero_add]

/-- Where a walk came from does not change how many of its results reach the output cell. -/
theorem Net.leavesBelow_rootHop (n : Net) (tree : String) (s : Submission)
    (sources : List String) : n.leavesBelow σ e (n.rootHop tree s sources) =
      n.leavesBelow σ e (n.rootHop tree s []) := by
  have hsame : n.onward σ e (n.rootHop tree s sources) = n.onward σ e (n.rootHop tree s []) :=
    onward_congr_hop rfl rfl rfl
  rw [leavesBelow_eq, leavesBelow_eq, hsame]
  rfl

/-- Where nothing waits, every hop was the first of a walk or followed another. -/
theorem Run.balance_of_drained (he : e.Orderly σ) {w₀ w : World σ} {ds : List Label}
    (h₀ : w₀.Empty) (hrun : Run e w₀ ds w) (hdrained : w.queue = []) (tree : String)
    (walk : Int64 → Bool) : hopsOf tree walk ds =
      w.net.roots tree walk ds + (hopsOf tree walk ds).bind (w.net.onward σ e) := by
  have hempty : hopsIn tree walk w.net.queue = 0 := by
    rw [show w.net.queue = [] from hdrained]
    rfl
  have hbalance := (hrun.flow he h₀).balance tree walk
  rw [hempty, add_zero] at hbalance
  exact hbalance

/-- Where nothing waits, the hops of a walk are those that follow the hop with which it began. -/
theorem Run.hopsOf_eq (he : e.Orderly σ) {w₀ w : World σ} {ds : List Label} (h₀ : w₀.Empty)
    (hrun : Run e w₀ ds w) (hdrained : w.queue = []) {tree : String} {pass : Int64} {h : Hop}
    (hroot : w.net.roots tree (oneWalk pass) ds = {h}) :
    hopsOf tree (oneWalk pass) ds =
      ∑ i ∈ Finset.range 4, generation (w.net.onward σ e) i {h} := by
  have hbalance := hrun.balance_of_drained he h₀ hdrained tree (oneWalk pass)
  rw [hroot] at hbalance
  exact Net.eq_sum_generation he (run_inv he.serves h₀ hrun)
    (fun h hmem => (hrun.flow he h₀).placed_of_mem hmem) hbalance

/-- Where nothing waits, the results of a walk that reach the output cell are those below the hop
with which it began. -/
theorem Run.leaves_eq (he : e.Orderly σ) {w₀ w : World σ} {ds : List Label} (h₀ : w₀.Empty)
    (hrun : Run e w₀ ds w) (hdrained : w.queue = []) {tree : String} {pass : Int64} {h : Hop}
    (hroot : w.net.roots tree (oneWalk pass) ds = {h}) :
    leaves tree pass ds = w.net.leavesBelow σ e h := by
  rw [← countP_hopsOf, hrun.hopsOf_eq he h₀ hdrained hroot]
  rfl

/-- Where nothing waits, as many results reach the output cell in each walk that began. -/
theorem Run.leaves_alike (he : e.Orderly σ) {w₀ w : World σ} {ds : List Label} (h₀ : w₀.Empty)
    (hrun : Run e w₀ ds w) (hdrained : w.queue = []) {tree : String} {s : Submission}
    (hborn : Born ds tree s) {k : Nat}
    (hbudget : w.net.Budget e.config.maxRetraversals ds tree k) (hk : k < 2 ^ 63) {pass : Int64}
    (hlow : 0 ≤ pass.toInt) (hhigh : pass.toInt ≤ k)
    (hwithin : e.config.maxRetraversals ≠ 0 → pass.toInt ≤ e.config.maxRetraversals.toNat) :
    leaves tree pass ds = w.net.leavesBelow σ e (w.net.rootHop tree s []) := by
  obtain ⟨sources, _, hroots⟩ := hrun.roots_eq he h₀ hborn hbudget hk hlow hhigh hwithin
  rw [hrun.leaves_eq he h₀ hdrained hroots, Net.leavesBelow_rootHop]

/-! ## What is announced stays, and what is delivered was announced -/

/-- A step that is about a tree: it begins the tree, or processes a payload of it. -/
def Label.Concerns (tree : String) : Label → Prop
  | .accepted _ result => result = .ok tree
  | .processed p _ _ => p.context.tree = some tree

theorem Net.mem_report_events {n : Net} {event : Event} (h : event ∈ n.events) (p : Payload)
    (r : Except EngineError Outcome) : event ∈ (n.report p r).events := by
  unfold report
  split
  · exact h
  all_goals exact List.mem_append_left _ h

theorem Turn.mem_events {born : String → Submission → Prop} {n m : Net} {d : Label}
    (hturn : Turn σ e born n d m) {event : Event} (hmem : event ∈ n.events) :
    event ∈ m.events := by
  cases hturn with
  | began _ hneutral | carried _ _ _ hneutral =>
    obtain ⟨es, hes, _⟩ := hneutral.events
    rw [hes]
    exact List.mem_append_left _ hmem
  | concluded _ _ _ _ _ hconcluded =>
    apply Net.mem_report_events
    cases hconcluded with
    | answered | passedOver | exhausted | restarted => exact hmem
    | delivered => exact List.mem_append_left _ hmem

theorem Run.mem_events (hs : e.Serves σ fun n m => m = n) {w w' : World σ} {ds₀ ds : List Label}
    (h : Inv σ e.registry (Born ds₀) w.net) (hrun : Run e w ds w') {event : Event}
    (hmem : event ∈ w.net.events) : event ∈ w'.net.events := by
  refine (hrun.induct hs (P := fun _ n => event ∈ n.events) h hmem ?_).2
  intro ds n d m _ ih hmoves
  exact hmoves.turn.mem_events ih

/-- A step about a tree that is not answered leaves all outputs as they are. -/
theorem Turn.outputs_eq {born : String → Submission → Prop} {n m : Net} {d : Label}
    (hturn : Turn σ e born n d m) {tree : String} (hconcerns : d.Concerns tree)
    (hunanswered : ∀ session output, .emitted session tree output ∉ m.events) :
    m.outputs = n.outputs := by
  cases hturn with
  | began _ hneutral | carried _ _ _ hneutral => exact hneutral.outputs
  | @concluded before after p t s v vs r m₀ _ _ hsound _ _ hconcluded =>
    obtain rfl := Option.mem_unique hsound.tree hconcerns
    rw [Net.report_outputs]
    cases hconcluded with
    | answered | passedOver | exhausted | restarted => rfl
    | delivered =>
      refine absurd ?_ (hunanswered s.session v.display)
      exact Net.mem_report_events (List.mem_append_right _ List.mem_cons_self) p _

/-! ## The accounts -/

/-- A tree that was never answered was asked to restart as often as it can be, or never. -/
theorem Run.asked_eq (he : e.Orderly σ) {w₀ w : World σ} {ds : List Label} (h₀ : w₀.Empty)
    (hrun : Run e w₀ ds w) (hlength : ds.length < 2 ^ 63) (hlimit : e.config.maxRetraversals ≠ 0)
    (hdrained : w.queue = []) {tree : String} {s : Submission} (hborn : Born ds tree s) {k : Nat}
    (hbudget : w.net.Budget e.config.maxRetraversals ds tree k)
    (hundone : w.net.text (.done tree) = none) :
    (leaves tree 0 ds = 0 → k = 0) ∧
      (1 ≤ leaves tree 0 ds → k = e.config.maxRetraversals.toNat + 1 ∧
        ∀ pass : Int64, 0 ≤ pass.toInt → pass.toInt < k →
          leaves tree pass ds = leaves tree 0 ds) := by
  have hk : k < 2 ^ 63 := Nat.lt_of_le_of_lt hbudget.counts.le hlength
  have halike : ∀ pass : Int64, 0 ≤ pass.toInt →
      pass.toInt ≤ (min k e.config.maxRetraversals.toNat : Nat) →
      leaves tree pass ds = w.net.leavesBelow σ e (w.net.rootHop tree s []) :=
    fun pass hlow hhigh => hrun.leaves_alike he h₀ hdrained hborn hbudget hk hlow
      (by omega) fun _ => by omega
  have hmissed : ∀ pass : Int64, leaves tree pass ds ≠ 0 ↔ 0 ≤ pass.toInt ∧ pass.toInt < k := by
    intro pass
    rw [← hbudget.counts.misses, hrun.tallied he.serves h₀ tree hundone, counted]
    split <;> simp_all
  have hfirst := halike 0 (Int.le_refl 0) (Int.natCast_nonneg _)
  constructor
  · intro hnone
    have hnot : ¬ (0 ≤ (0 : Int64).toInt ∧ (0 : Int64).toInt < k) := fun h =>
      (hmissed 0).mpr h hnone
    rw [Int64.toInt_zero] at hnot
    omega
  · intro hsome
    have hwithin := hbudget.within hlimit
    have hlast : k = e.config.maxRetraversals.toNat + 1 := by
      by_contra hless
      -- the walk that the last restart began has as many results, and so missed as well
      have hpass : (Int64.ofNat k).toInt = k := Int64.toInt_ofNat_of_lt hk
      have hagain := halike (Int64.ofNat k) (by omega) (by omega)
      have hcounted := (hmissed (Int64.ofNat k)).mp (by omega)
      omega
    refine ⟨hlast, fun pass hlow hhigh => ?_⟩
    rw [hfirst]
    exact halike pass hlow (by omega)

/-- The accounts of a tree that was never answered, where nothing waits. If no result of its first
walk reached the output cell, nothing was announced about it and it was never restarted. Otherwise
all restarts of the budget were announced, in order, and that it is used up; one restart more was
counted than the budget allows, and each walk has as many misses as results of the first walk
reached the output cell. No step about the tree added to the outputs of a session. -/
theorem unmet_expectation_accounts {config : Config}
    (he : Engine.assemble { config, cells := some (Cell.standard config) } = .ok e)
    (hlimit : config.maxRetraversals ≠ 0) {w₀ w : World σ} {ds : List Label} (h₀ : w₀.Empty)
    (hrun : Run e w₀ ds w) (hlength : ds.length < 2 ^ 63) (hdrained : w.queue = []) {tree : String}
    {s : Submission} (hborn : Born ds tree s)
    (hunanswered : ∀ session output, .emitted session tree output ∉ w.events) :
    (leaves tree 0 ds = 0 → ds.flatMap (Label.restarts tree) = [] ∧
      w.events.filterMap (Event.attempt? tree) = [] ∧
      w.events.filterMap (Event.exhaustion? tree) = []) ∧
    (1 ≤ leaves tree 0 ds →
      w.events.filterMap (Event.attempt? tree) =
        (List.range config.maxRetraversals.toNat).map (fun i => Int64.ofNat (i + 1)) ∧
      w.events.filterMap (Event.exhaustion? tree) = [Int64.ofNat config.maxRetraversals.toNat] ∧
      w.retraversals tree = Int64.ofNat (config.maxRetraversals.toNat + 1) ∧
      ∀ pass, w.text (.misses tree pass) =
        if 0 ≤ pass ∧ pass ≤ Int64.ofNat config.maxRetraversals.toNat then
          some (countText (Int64.ofNat (leaves tree 0 ds)))
        else none) ∧
    ∀ ds₁ d ds₂ w₁ w₂, ds = ds₁ ++ d :: ds₂ → Run e w₀ ds₁ w₁ → Step e w₁ d w₂ →
      Run e w₂ ds₂ w → d.Concerns tree → ∀ session, w₂.outputs session = w₁.outputs session := by
  have horderly := Engine.orderly_of_standard (σ := σ) he
  have hs := horderly.serves
  have hconfig := (Engine.assemble_eq_ok he).1
  obtain ⟨k, hbudget⟩ := hrun.budget hs h₀ hlength tree
  have hundone : w.net.text (.done tree) = none := by
    rw [← Option.not_isSome_iff_eq_none, (hrun.answered hs h₀).done_iff]
    rintro ⟨session, output, hemitted⟩
    exact hunanswered session output hemitted
  have htallied := hrun.tallied hs h₀ tree hundone
  obtain ⟨hnever, halways⟩ := hrun.asked_eq horderly h₀ hlength (hconfig ▸ hlimit) hdrained hborn
    hbudget hundone
  rw [hconfig] at hbudget halways
  refine ⟨fun hnone => ?_, fun hsome => ?_, ?_⟩
  · obtain rfl := hnever hnone
    have hrestarts := hbudget.restarts
    have hattempts : w.events.filterMap (Event.attempt? tree) = _ := hbudget.attempts
    have hexhaustions : w.events.filterMap (Event.exhaustion? tree) = _ := hbudget.exhaustions
    rw [hattempts, hexhaustions]
    refine ⟨?_, by simp [restartNumbers], if_neg fun h => absurd h.2 (by omega)⟩
    simpa [restartNumbers] using hrestarts
  · obtain ⟨rfl, hleaves⟩ := halways hsome
    have hattempts : w.events.filterMap (Event.attempt? tree) = _ := hbudget.attempts
    have hexhaustions : w.events.filterMap (Event.exhaustion? tree) = _ := hbudget.exhaustions
    rw [hattempts, hexhaustions, restartNumbers_exhausted hlimit]
    refine ⟨?_, if_pos ⟨hlimit, rfl⟩, hbudget.counts.retraversals_eq, fun pass => ?_⟩
    · unfold restartNumbers
      rw [if_neg hlimit, Nat.min_self]
    · have hsmall : config.maxRetraversals.toNat < 2 ^ 63 :=
        Nat.lt_trans (UInt32.toNat_lt _) (by decide)
      have hcounted := hbudget.counts.misses pass
      rw [World.text, ← World.net_text w (.misses tree pass) trivial]
      by_cases hwalked : 0 ≤ pass.toInt ∧ pass.toInt < (config.maxRetraversals.toNat + 1 : Nat)
      · rw [hrun.tallied hs h₀ tree hundone, hleaves pass hwalked.1 hwalked.2, counted,
          if_neg (by omega), if_pos]
        rw [Int64.le_iff_toInt_le, Int64.le_iff_toInt_le, Int64.toInt_ofNat_of_lt hsmall,
          Int64.toInt_zero]
        omega
      · rw [Option.not_isSome_iff_eq_none.mp (fun h => hwalked (hcounted.mp h)), if_neg]
        rw [Int64.le_iff_toInt_le, Int64.le_iff_toInt_le, Int64.toInt_ofNat_of_lt hsmall,
          Int64.toInt_zero]
        omega
  · intro ds₁ d ds₂ w₁ w₂ _ hrun₁ hstep hrun₂ hconcerns session
    have hinv := run_inv hs h₀ hrun₁
    have hturn := (step_moves hs hinv hstep).turn
    have hinv₂ := run_inv hs h₀ (hrun₁.snoc hstep)
    refine congrFun (hturn.outputs_eq hconcerns ?_) session
    intro session output hemitted
    exact hunanswered session output (hrun₂.mem_events hs hinv₂ hemitted)

/-- The only answer that a tree of an echo can get is its text. -/
theorem Run.output_of_echo (hs : e.Serves σ fun n m => m = n) {w₀ w : World σ} {ds : List Label}
    (h₀ : w₀.Empty) (hrun : Run e w₀ ds w) {tree : String} {s : Submission}
    (hborn : Born ds tree s) (hecho : s.echo = true) {session output : String}
    (hemitted : .emitted session tree output ∈ w.events) :
    output = s.input ∧ ∀ x, s.expectation = some x → output = x := by
  have hinv := run_inv hs h₀ hrun
  obtain ⟨s', hborn', _, hexpectation, hdelivered⟩ := delivered_of_emitted hs h₀ hrun hemitted
  obtain rfl := born_unique hs h₀ hrun hborn hborn'
  obtain ⟨b, v, vs, hroute, _, rfl⟩ := hdelivered.path
  refine ⟨?_, hexpectation⟩
  -- the first behaviour is bound to the output cell, from which no path goes on
  have hfirst : ∀ {b : String} {args : List Value},
      Route (Cell.Yields σ) e.registry w.net tree s b args →
        w.net.text (.firstBehaviour tree) = some b ∧ args = [.text s.input] := by
    intro b args hroute
    induction hroute with
    | first hfirst => exact ⟨hfirst, rfl⟩
    | hop _ _ _ _ hnext _ ih =>
      obtain ⟨_, _, b, hfirst, hbinding⟩ := hinv.planted tree s hborn
      obtain rfl := Option.mem_unique ih.1 hfirst
      obtain ⟨name, cell, hbinding', hcell, hterminal, _⟩ := hinv.wired _ _ hnext
      obtain rfl := Option.mem_unique hbinding hbinding'
      rw [Engine.entryCell, if_pos hecho] at hcell
      obtain rfl := Option.mem_unique hs.output hcell
      exact absurd hterminal (by simp [Cell.output])
  obtain ⟨rfl, rfl⟩ := List.cons.inj (hfirst hroute).2
  rfl

/-- A run that restarts a tree and drains, in which the tree is never answered. -/
theorem unmet_expectation_accounts_of_echo : ∃ (config : Config) (e : Engine) (ds : List Label)
    (w : World Memory) (tree : String), config.maxRetraversals = 1 ∧
    Engine.assemble { config, cells := some (Cell.standard config) } = .ok e ∧
    Run e (.inMemory 0) ds w ∧ w.queue = [] ∧ w.events.filterMap (Event.attempt? tree) = [1] ∧
    w.events.filterMap (Event.exhaustion? tree) = [1] ∧ w.retraversals tree = 2 := by
  obtain ⟨e, he⟩ := Engine.exists_standard { maxRetraversals := 1 } rfl
  have h₀ := World.empty_inMemory 0
  have horderly := Engine.orderly_of_standard (σ := Memory) he
  have hs := horderly.serves
  have hconfig := (Engine.assemble_eq_ok he).1
  obtain ⟨p, q, w, hrun, hevents, _⟩ := exists_run_restarted hs h₀
    (s := { input := "4", echo := true, session := "a", expectation := some "5" }) rfl rfl
    (by decide)
  generalize hds : [Label.accepted _ _, _] = ds at hrun
  have hwork : workBound e.config ds = 2 * 156 := by rw [hconfig, ← hds]; rfl
  have hbounded : Bounded e.config ds (e.config.walkBound + 1) := by
    rw [hconfig]
    exact Or.inr ⟨by decide, by decide⟩
  obtain ⟨ds', w', hrun', hprocessed, hdrained⟩ := hrun.drains horderly h₀ hbounded
  have hlength := hrun.countP_add_length_le horderly h₀ hbounded hrun' hprocessed
  have hborn : Born (ds ++ ds') (World.inMemory 0).net.fresh
      { input := "4", echo := true, session := "a", expectation := some "5" } := by
    rw [← hds]
    exact List.mem_cons_self
  have hunanswered : ∀ session output,
      .emitted session (World.inMemory 0).net.fresh output ∉ w'.events := by
    intro session output hemitted
    obtain ⟨rfl, hmet⟩ := (hrun.append hrun').output_of_echo hs h₀ hborn rfl hemitted
    exact absurd (hmet "5" rfl) (by decide)
  have hshort : (ds ++ ds').length < 2 ^ 63 := by
    rw [List.length_append, ← hds]
    simp only [List.length_cons, List.length_nil]
    omega
  obtain ⟨hnone, hsome, _⟩ := unmet_expectation_accounts he (by decide) h₀ (hrun.append hrun')
    hshort hdrained hborn hunanswered
  -- the miss was announced, so some result of the first walk reached the output cell
  have hannounced : .expectationNotMet (World.inMemory 0).net.fresh 1 ∈ w'.net.events := by
    apply hrun'.mem_events hs (run_inv hs h₀ hrun)
    show _ ∈ w.events
    rw [hevents]
    simp
  have hleaves : 1 ≤ leaves (World.inMemory 0).net.fresh 0 (ds ++ ds') := by
    by_contra hfew
    obtain ⟨_, hattempts, _⟩ := hnone (by omega)
    rw [List.filterMap_eq_nil_iff] at hattempts
    exact absurd (hattempts _ hannounced) (by simp [Event.attempt?])
  obtain ⟨hattempts, hexhaustions, hretraversals, _⟩ := hsome hleaves
  exact ⟨_, e, _, w', _, rfl, he, hrun.append hrun', hdrained, hattempts, hexhaustions,
    hretraversals⟩

end SelfWiring
