import SelfWiring.Proofs.Accounts
import SelfWiring.Proofs.Drawless

/-!
# Learned routes

Where nothing waits, every behaviour that a walk came to with results has been explored. A text that
is handed in once more enters at the behaviour at which it entered before. From there on its walk
finds all connections stored: it learns nothing, draws nothing and makes the same hops.
-/

namespace SelfWiring

/-! ## Networks with the same graph -/

/-- Networks with the same connections and the same cells. -/
structure Net.SameGraph (n m : Net) : Prop where
  next : m.next = n.next
  binding : ∀ b, m.text (.binding b) = n.text (.binding b)

namespace Net

variable {n m k : Net}

theorem SameGraph.refl (n : Net) : n.SameGraph n := ⟨rfl, fun _ => rfl⟩

theorem SameGraph.trans (h : n.SameGraph m) (h' : m.SameGraph k) : n.SameGraph k :=
  ⟨h'.next.trans h.next, fun b => (h'.binding b).trans (h.binding b)⟩

theorem Alike.sameGraph (h : n.Alike m) : n.SameGraph m :=
  ⟨h.next, fun b => h.lasting (.binding b) trivial⟩

theorem sameGraph_queueAll (p : Payload) (producer : String) (behaviours : List String) (n : Net) :
    n.SameGraph (n.queueAll p producer behaviours) := by
  obtain ⟨htext, hnext, -⟩ := n.queueAll_payloads p producer behaviours
  exact ⟨hnext, fun b => congrFun htext (.binding b)⟩

end Net

/-- Concluding a result leaves the graph as it is. -/
theorem concluded_sameGraph {limit : UInt32} {n m : Net} {ctx : Context}
    {tree session output : String} {r : Except CellError (List Value)}
    (h : Cell.Concluded limit n ctx tree session output r m) : n.SameGraph m := by
  have hcount : ∀ {k : Net} (key : Key), (∀ b, Key.binding b ≠ key) → k.SameGraph (k.count key) :=
    fun key hkey => ⟨rfl, fun b => count_text_of_ne (hkey b)⟩
  have hrestart : n.SameGraph ((n.count (.misses tree ctx.pass)).count (.retraversals tree)) :=
    (hcount _ (by simp)).trans (hcount _ (by simp))
  cases h with
  | answered => exact .refl n
  | delivered =>
    have hdone := hcount (k := n) (.done tree) (by simp)
    exact ⟨hdone.next, hdone.binding⟩
  | passedOver => exact hcount _ (by simp)
  | exhausted => exact hrestart
  | restarted => exact ⟨hrestart.next, hrestart.binding⟩

variable {σ : Type} [Store σ] [FaultFree σ] {e : Engine} {born : String → Submission → Prop}
  {n m : Net}

theorem Net.SameGraph.onward (h : n.SameGraph m) : m.onward σ e = n.onward σ e := by
  funext hop
  unfold Net.onward
  simp only [h.next, h.binding]

/-- What is processed was in the queue. -/
theorem Moves.mem_queue {heard : Net → Net → Prop} {p : Payload}
    {result : Except EngineError Outcome} {queued : List String}
    (h : Moves σ e heard born n (.processed p result queued) m) : p.encode ∈ n.queue := by
  cases h with
  | process hqueue =>
    rw [hqueue]
    exact List.mem_append_right _ List.mem_cons_self

/-- A payload whose behaviour was explored leaves the graph as it is. -/
theorem Moves.sameGraph (he : e.Orderly σ) {p : Payload} {result : Except EngineError Outcome}
    {queued : List String}
    (h : Moves σ e (fun n m => m = n) born n (.processed p result queued) m)
    (hexplored : n.Explored σ e p.hop) : n.SameGraph m := by
  cases h with
  | @process before after _ tree name s cell _ m hqueue hborn hsound hbinding hcell hprocessed =>
    have hrequeued := (Net.alike_requeue hqueue).sameGraph
    refine Net.SameGraph.trans ?_ (m.alike_report p result).sameGraph
    refine hrequeued.trans ?_
    cases hprocessed with
    | objected _ hm | ended _ hm => exact hm ▸ .refl _
    | @passedOn _ m' results behaviours hother hm hterminal hyields hconnected =>
      subst hm
      have hpasses : e.passes? σ p.hop = some results := by
        obtain ⟨name', hname, hbinding'⟩ := hsound.cell
        obtain rfl := Option.mem_unique hbinding hbinding'
        rw [passes?_eq hname hcell, if_neg (by simp [hterminal])]
        have hsteady := he.steady name cell hcell (Registry.name_of_get? hcell ▸ hother)
        exact hsteady.results?_of_yields hyields
      have hnext := hexplored (by rw [hpasses]; rfl)
      cases hconnected with
      | known =>
        have hqueued := Net.sameGraph_queueAll { p with args := results } p.destination
          behaviours (n.requeue (before ++ after))
        exact hqueued.trans (Net.alike_close _ p.destination behaviours).sameGraph
      | explored hnone =>
        rw [show n.next p.hop.destination = none from hnone] at hnext
        exact absurd hnext (by simp)
    | concluded _ _ hconcluded => exact concluded_sameGraph hconcluded

/-- A payload whose behaviour was explored is processed without a draw. -/
theorem process_drawless_of_sound {config : Config}
    (he : Engine.assemble { config, cells := some (Cell.standard config) } = .ok e)
    (h : Inv σ e.registry born n) {p : Payload} {tree : String} {s : Submission}
    (hborn : born tree s) (hsound : Sound σ e.registry n tree s p)
    (hexplored : n.Explored σ e p.hop) : Action.Drawless σ (e.process p) n := by
  have horderly := Engine.orderly_of_standard (σ := σ) he
  have hs := horderly.serves
  obtain ⟨name, hname, hbinding⟩ := hsound.cell
  obtain ⟨cell, hcell⟩ := Option.isSome_iff_exists.mp (h.bound _ _ hbinding)
  have hfound := hsound.cellFor hbinding hcell
  have hserved := hsound.served hs h hborn hbinding hcell
  have hstandard : cell ∈ Cell.standard config :=
    ((Engine.assemble_eq_ok he).2 cell).mp (Registry.mem_of_get? hcell)
  have hcall := fun n => Cell.standard_drawless (σ := σ) p.context p.args n hstandard
  by_cases hother : name = Cell.outputName
  · -- nothing is passed on from the output cell
    subst hother
    obtain rfl := Option.mem_unique hcell hs.output
    refine Engine.process_drawless (R := fun _ _ => True) hfound hcall hserved.accepted
      (fun _ _ => trivial) ?_
    exact fun results m _ => Action.drawless_pure _ m
  · refine Engine.process_drawless hfound hcall hserved.accepted
      (Engine.calculate_ensures (hs.computing name cell hcell hother) hserved) ?_
    rintro results m ⟨rfl, ⟨_, _, hfailed, _⟩ | ⟨vs, hresults, hyields⟩⟩
    · exact absurd hfailed (by simp)
    · obtain rfl := Except.ok.inj hresults
      refine Engine.passOn_drawless { p with args := vs } hsound.behaviour ?_ p.destination
      intro hterminal
      have hpasses : e.passes? σ p.hop = some vs := by
        rw [passes?_eq hname hcell, if_neg (by simp [hterminal])]
        exact (horderly.steady name cell hcell hother).results?_of_yields hyields
      exact hexplored (by rw [hpasses]; rfl)

/-- A step draws nothing unless it processes a payload whose behaviour is still to be explored. -/
theorem Step.generator_eq {config : Config}
    (he : Engine.assemble { config, cells := some (Cell.standard config) } = .ok e)
    {w w' : World σ} {d : Label} (h : Inv σ e.registry born w.net) (hstep : Step e w d w')
    (hexplored : ∀ p result queued, d = .processed p result queued → w.net.Explored σ e p.hop) :
    w'.generator = w.generator := by
  cases hstep with
  | accept s =>
    exact (Engine.accept_drawless s w.net).withRetries e.config.retryPolicy w rfl
  | @process _ store before after item p hqueue hstore hread =>
    obtain ⟨rfl, tree, s, hborn, hsound⟩ := h.exists_sound hqueue hread
    have halike : w.net.Alike (w.net.requeue (before ++ after)) := Net.alike_requeue hqueue
    have hprocess := process_drawless_of_sound he (h.alike halike) hborn
      (hsound.mono halike.grows) (hexplored p _ _ rfl)
    exact (Engine.handle_drawless hprocess) { w with store } (World.net_of_requeued hstore)

/-! ## ExploredOnward routes -/

/-- Every hop that can follow a hop has left its behaviour connected, and so has the hop itself. -/
def Net.ExploredOnward (σ : Type) [Store σ] [FaultFree σ] (e : Engine) (n : Net) (h : Hop) : Prop :=
  ∀ h', Relation.ReflTransGen (fun a b => b ∈ n.onward σ e a) h h' → n.Explored σ e h'

namespace Net

variable {h h' : Hop}

theorem ExploredOnward.explored (ht : n.ExploredOnward σ e h) : n.Explored σ e h := ht h .refl

theorem ExploredOnward.of_mem_onward (ht : n.ExploredOnward σ e h) (hmem : h' ∈ n.onward σ e h) :
    n.ExploredOnward σ e h' := fun h'' hreach => ht h'' (.head hmem hreach)

/-- Where a hop came from does not matter to what follows it. -/
theorem ExploredOnward.of_sources (ht : n.ExploredOnward σ e h)
    (hdestination : h'.destination = h.destination) (hcell : h'.cell = h.cell)
    (hargs : h'.args = h.args) : n.ExploredOnward σ e h' := by
  have honward : n.onward σ e h' = n.onward σ e h := onward_congr_hop hdestination hcell hargs
  intro h'' hreach
  rcases hreach.cases_head with rfl | ⟨first, hfirst, hrest⟩
  · intro hpasses
    rw [hdestination]
    apply ht.explored
    unfold Engine.passes? at hpasses ⊢
    rw [← hcell, ← hargs]
    exact hpasses
  · exact ht h'' (.head (honward ▸ hfirst) hrest)

theorem SameGraph.exploredOnward (hsame : n.SameGraph m) (ht : n.ExploredOnward σ e h) :
    m.ExploredOnward σ e h := by
  intro h' hreach hpasses
  rw [hsame.next]
  rw [hsame.onward] at hreach
  exact ht h' hreach hpasses

end Net

/-- Where nothing waits, every hop of a tree is explored, and all that follow it. -/
theorem Run.exploredOnward (he : e.Orderly σ) {w₀ w : World σ} {ds : List Label} (h₀ : w₀.Empty)
    (hrun : Run e w₀ ds w) (hdrained : w.queue = []) {tree : String} {h : Hop}
    (hmem : h ∈ hopsOf tree everyWalk ds) : w.net.ExploredOnward σ e h := by
  -- what follows a hop processed was processed too
  have hclosed : ∀ h', Relation.ReflTransGen (fun a b => b ∈ w.net.onward σ e a) h h' →
      h' ∈ hopsOf tree everyWalk ds := by
    intro h' hreach
    induction hreach with
    | refl => exact hmem
    | tail _ hstep ih =>
      rw [hrun.balance_of_drained he h₀ hdrained]
      exact Multiset.mem_add.mpr (Or.inr (Multiset.mem_bind.mpr ⟨_, ih, hstep⟩))
  exact fun h' hreach => (hrun.flow he h₀).explored_of_mem (hclosed h' hreach)

/-! ## Entries -/

/-- A tree begins at the behaviour at which its text enters. -/
def Net.Rooted (n : Net) (tree : String) (s : Submission) : Prop :=
  ∃ i b, n.text (.informationId s.input) = some i ∧
    n.text (.entry i (Engine.entryCell s)) = some b ∧ n.text (.firstBehaviour tree) = some b

namespace Net

theorem Rooted.mono (hgrows : n.Grows m) {tree : String} {s : Submission} (h : n.Rooted tree s) :
    m.Rooted tree s := by
  obtain ⟨i, b, hi, hb, hfirst⟩ := h
  exact ⟨i, b, hgrows.text (.informationId s.input) trivial i hi,
    hgrows.text (.entry i (Engine.entryCell s)) trivial b hb, hgrows.firstBehaviour hfirst⟩

theorem record_informationId (n : Net) (t : String) :
    (n.record t).2.text (.informationId t) = some (n.record t).1 := by
  unfold record
  cases h : n.text (.informationId t) with
  | some i => exact h
  | none => exact Function.update_self _ _ _

theorem enter_entry (n : Net) (i c : String) :
    (n.enter i c).2.text (.entry i c) = some (n.enter i c).1 := by
  unfold enter
  cases h : n.text (.entry i c) with
  | some b => exact h
  | none => exact Function.update_self _ _ _

/-- The payload that accepting queues is for the behaviour at which the text enters. -/
theorem accept_enters (n : Net) (s : Submission) : ∃ id i b,
    (n.accept s).queue = n.queue ++ [(Engine.firstPayload s id n.fresh i b).encode] ∧
    (n.accept s).text (.informationId s.input) = some i ∧
    (n.accept s).text (.entry i (Engine.entryCell s)) = some b ∧
    (n.accept s).text (.firstBehaviour n.fresh) = some b := by
  have hqueue := ((n.onlyLearns_mint.trans (onlyLearns_record n.mint s.input)).trans
    (onlyLearns_enter _ (n.mint.record s.input).1 (Engine.entryCell s))).queue
  have hrecord := record_informationId n.mint s.input
  have hentry := enter_entry (n.mint.record s.input).2 (n.mint.record s.input).1
    (Engine.entryCell s)
  have hkept := enter_text (n.mint.record s.input).2 (n.mint.record s.input).1
    (Engine.entryCell s) (k := .informationId s.input) (by simp) (by simp)
  unfold accept
  dsimp only
  generalize n.mint.record s.input = information at *
  generalize information.2.enter information.1 (Engine.entryCell s) = entry at *
  refine ⟨_, information.1, entry.1, congrArg (· ++ _) hqueue, ?_, ?_, ?_⟩
  · simpa using hkept.trans hrecord
  · simpa using hentry
  · simp

theorem accept_rooted (n : Net) (s : Submission) : (n.accept s).Rooted n.fresh s := by
  obtain ⟨_, i, b, -, hi, hb, hfirst⟩ := n.accept_enters s
  exact ⟨i, b, hi, hb, hfirst⟩

/-- A text that entered before enters at the same behaviour, and leaves the graph as it is. -/
theorem accept_of_rooted {tree : String} {s₁ s : Submission} (h : n.Rooted tree s₁)
    (hinput : s.input = s₁.input) (hecho : s.echo = s₁.echo) :
    n.SameGraph (n.accept s) ∧
      ∀ sources, (n.accept s).rootHop n.fresh s sources = n.rootHop tree s₁ sources := by
  obtain ⟨i, b, hi, hb, hfirst⟩ := h
  have hentry : Engine.entryCell s = Engine.entryCell s₁ := by
    unfold Engine.entryCell
    rw [hecho]
  have hrecord : n.mint.record s.input = (i, n.mint) := by
    unfold record
    rw [mint_text, hinput, hi]
  have henter : n.mint.enter i (Engine.entryCell s) = (b, n.mint) := by
    unfold enter
    rw [mint_text, hentry, hb]
  unfold accept
  dsimp only
  rw [hrecord]
  dsimp only
  rw [henter]
  refine ⟨⟨rfl, fun b' => ?_⟩, fun sources => ?_⟩
  · simp
  · unfold rootHop
    rw [hentry, hinput, hfirst]
    simp

end Net

theorem Run.rooted (hs : e.Serves σ fun n m => m = n) {w₀ w : World σ} {ds : List Label}
    (h₀ : w₀.Empty) (hrun : Run e w₀ ds w) {tree : String} {s : Submission}
    (hborn : Born ds tree s) : w.net.Rooted tree s := by
  have hinduct := hrun.induct hs (P := fun ds n => ∀ tree s, Born ds tree s → n.Rooted tree s)
    (Inv.empty h₀ e.registry)
  refine (hinduct ?_ ?_).2 tree s hborn
  · intro tree s hborn
    exact absurd hborn (by simp [Born])
  · intro ds n d m hinv ih hmoves tree s hborn
    have hgrows := (hinv.moves hs hmoves).2
    cases hmoves with
    | accept s₀ =>
      rcases (born_accepted tree s).mp hborn with hborn | ⟨rfl, rfl⟩
      · exact (ih tree s hborn).mono hgrows
      · exact n.accept_rooted s
    | process => exact (ih tree s ((born_processed tree s).mp hborn)).mono hgrows

/-! ## The walk of a learned route -/

/-- What waits belongs to one tree, which begins with the hop given, and was explored, with all that
follows it, in a network with the same graph. -/
structure Net.Replays (σ : Type) [Store σ] [FaultFree σ] (e : Engine) (n₀ : Net) (first : Hop)
    (tree : String) (s : Submission) (n : Net) : Prop where
  graph : n₀.SameGraph n
  root : n.rootHop tree s [] = first
  queued : ∀ q : Payload, q.encode ∈ n.queue → q.context.tree = some tree ∧
    n₀.ExploredOnward σ e q.hop

theorem Net.Replays.step (he : e.Orderly σ) {n₀ : Net} {first : Hop}
    (hfirst : n₀.ExploredOnward σ e first) {tree : String} {s : Submission} {p : Payload}
    {result : Except EngineError Outcome} {queued : List String}
    (hinv : Inv σ e.registry born n) (hgrows : n.Grows m) (hborn : born tree s)
    (honce : ∀ s', born tree s' → s' = s) (h : Net.Replays σ e n₀ first tree s n)
    (hmoves : Moves σ e (fun n m => m = n) born n (.processed p result queued) m) :
    Net.Replays σ e n₀ first tree s m := by
  have hadvance := hmoves.advance he hinv
  cases hadvance with
  | @took before after _ tree' s' _ qs _ hqueue hborn' htree _ _ hqueued hfollows =>
    obtain ⟨hmine, hbelow⟩ := h.queued p hmoves.mem_queue
    obtain rfl := Option.mem_unique htree hmine
    obtain rfl := honce s' hborn'
    have hsame := hmoves.sameGraph he (h.graph.exploredOnward hbelow).explored
    have hroot : m.rootHop tree' s' [] = first :=
      (Net.rootHop_mono hinv hgrows hborn []).trans h.root
    refine ⟨h.graph.trans hsame, hroot, fun q hq => ?_⟩
    rw [hqueued, List.mem_append] at hq
    rcases hq with hq | hq
    · exact h.queued q (mem_of_requeued hqueue hq)
    · have hq := encode_mem_map.mp hq
      cases hfollows with
      | onward _ _ hqs hhops =>
        refine ⟨(hqs q hq).1.trans htree, hbelow.of_mem_onward ?_⟩
        rw [← (h.graph.trans hsame).onward, ← hhops]
        exact Multiset.mem_coe.mpr (List.mem_map_of_mem hq)
      | anew _ hqs =>
        refine ⟨(hqs q hq).1.trans htree, ?_⟩
        rw [(hqs q hq).2]
        exact (hroot ▸ hfirst).of_sources rfl rfl rfl

/-- Processing what was queued for a learned route leaves graph and generator as they are. -/
theorem Run.replays {config : Config}
    (he : Engine.assemble { config, cells := some (Cell.standard config) } = .ok e) {n₀ : Net}
    {first : Hop} (hfirst : n₀.ExploredOnward σ e first) {w₀ w w' : World σ} {ds ds' : List Label}
    (h₀ : w₀.Empty) (hrun : Run e w₀ ds w) {tree : String} {s : Submission}
    (hborn : Born ds tree s) (h : Net.Replays σ e n₀ first tree s w.net) (hrun' : Run e w ds' w')
    (hprocessed : ∀ d ∈ ds', d.isProcessed = true) :
    Net.Replays σ e n₀ first tree s w'.net ∧ w'.generator = w.generator := by
  have horderly := Engine.orderly_of_standard (σ := σ) he
  have hs := horderly.serves
  induction hrun' with
  | nil => exact ⟨h, rfl⟩
  | @snoc w₁ w₂ ds₁ d hrun₁ hstep ih =>
    obtain ⟨hbefore, hlast⟩ := List.forall_mem_append.mp hprocessed
    obtain ⟨hreplays, hgenerator⟩ := ih hbefore
    have hinv := run_inv hs h₀ (hrun.append hrun₁)
    have hmoves := step_moves hs hinv hstep
    cases d with
    | accepted s result => exact absurd (hlast _ List.mem_cons_self) (by simp [Label.isProcessed])
    | processed p result queued =>
      have hborn₁ : Born (ds ++ ds₁) tree s := List.mem_append_left _ hborn
      have hnext := hreplays.step horderly hfirst hinv (hinv.moves hs hmoves).2 hborn₁
        (fun s' hs' => born_unique hs h₀ (hrun.append hrun₁) hs' hborn₁) hmoves
      refine ⟨hnext, (hstep.generator_eq he hinv ?_).trans hgenerator⟩
      intro p' result' queued' hd
      obtain ⟨rfl, _⟩ := Label.processed.inj hd
      have hbelow := (hreplays.queued p hmoves.mem_queue).2
      exact (hreplays.graph.exploredOnward hbelow).explored

/-- The hops of the first walk of a tree, where nothing waits. -/
theorem Run.hopsOf_first_walk (he : e.Orderly σ) {w₀ w : World σ} {ds : List Label} (h₀ : w₀.Empty)
    (hrun : Run e w₀ ds w) (hlength : ds.length < 2 ^ 63) (hdrained : w.queue = [])
    {tree : String} {s : Submission} (hborn : Born ds tree s) :
    hopsOf tree (oneWalk 0) ds =
      ∑ i ∈ Finset.range 4, generation (w.net.onward σ e) i {w.net.rootHop tree s []} := by
  obtain ⟨k, hbudget⟩ := hrun.budget he.serves h₀ hlength tree
  have hk := Nat.lt_of_le_of_lt hbudget.counts.le hlength
  obtain ⟨sources, hfirst, hroots⟩ := hrun.roots_eq he h₀ hborn hbudget hk
    (show 0 ≤ (0 : Int64).toInt by decide) (by simp) (by simp)
  rw [hfirst rfl] at hroots
  exact hrun.hopsOf_eq he h₀ hdrained hroots

/-- Where nothing waits, the hop with which a tree began was processed. -/
theorem Run.rootHop_mem (he : e.Orderly σ) {w₀ w : World σ} {ds : List Label} (h₀ : w₀.Empty)
    (hrun : Run e w₀ ds w) (hdrained : w.queue = []) {tree : String} {s : Submission}
    (hborn : Born ds tree s) : w.net.rootHop tree s [] ∈ hopsOf tree everyWalk ds := by
  rw [hrun.balance_of_drained he h₀ hdrained, Net.roots, hrun.begun_eq he.serves h₀ hborn rfl]
  exact Multiset.mem_add.mpr (Or.inl (Multiset.mem_add.mpr
    (Or.inl (Multiset.mem_singleton_self _))))

/-- A text that was accepted before, at the same entry, and is accepted again where nothing waits
walks the routes that were learned: processing its tree stores no connections, binds no behaviours
and draws nothing, and once nothing waits again, the hops of its first walk are those of the first
walk of the tree before. -/
theorem learned_routes_replay {config : Config}
    (he : Engine.assemble { config, cells := some (Cell.standard config) } = .ok e) {w₀ w : World σ}
    {ds : List Label} (h₀ : w₀.Empty) (hrun : Run e w₀ ds w) (hdrained : w.queue = [])
    {tree₁ : String} {s₁ s : Submission} (hborn : Born ds tree₁ s₁) (hinput : s.input = s₁.input)
    (hecho : s.echo = s₁.echo) {result : Except EngineError String} {w₁ w' : World σ}
    (haccept : Step e w (.accepted s result) w₁) {ds' : List Label} (hrun' : Run e w₁ ds' w')
    (hprocessed : ∀ d ∈ ds', d.isProcessed = true) :
    (∀ b, w'.contents.set (Key.connections b).render = w.contents.set (Key.connections b).render) ∧
    (∀ b, w'.text (.binding b) = w.text (.binding b)) ∧ w'.generator = w.generator ∧
    ∃ tree, result = .ok tree ∧ (w'.queue = [] → ds.length + 1 + ds'.length < 2 ^ 63 →
      hopsOf tree (oneWalk 0) ds' = hopsOf tree₁ (oneWalk 0) ds) := by
  have horderly := Engine.orderly_of_standard (σ := σ) he
  have hs := horderly.serves
  have hinv := run_inv hs h₀ hrun
  have hrun₁ := hrun.snoc haccept
  obtain ⟨rfl, hnet⟩ := (step_moves hs hinv haccept).of_accepted
  obtain ⟨hgraph, hroot⟩ := Net.accept_of_rooted (hrun.rooted hs h₀ hborn) hinput hecho
  obtain ⟨_, q, hqueue, htree, _, hhop⟩ := w.net.accept_hops s
  rw [show w.net.queue = [] from hdrained, List.nil_append] at hqueue
  have hborn₁ : Born (ds ++ [.accepted s (.ok w.net.fresh)]) w.net.fresh s :=
    List.mem_append_right _ List.mem_cons_self
  have hbelow := hrun.exploredOnward horderly h₀ hdrained
    (hrun.rootHop_mem horderly h₀ hdrained hborn)
  have hstart : Net.Replays σ e w.net (w.net.rootHop tree₁ s₁ []) w.net.fresh s w₁.net := by
    rw [hnet]
    refine ⟨hgraph, hroot [], fun p hp => ?_⟩
    rw [hqueue, List.mem_singleton] at hp
    obtain rfl := Payload.encode_inj.mp hp
    rw [hhop, hroot]
    exact ⟨htree, hbelow⟩
  obtain ⟨hreplays, hgenerator⟩ := hrun₁.replays he hbelow h₀ hborn₁ hstart hrun' hprocessed
  refine ⟨congrFun hreplays.graph.next, fun b => ?_, ?_, w.net.fresh, rfl, fun hend hlength => ?_⟩
  · have hbinding := hreplays.graph.binding b
    rw [World.net_text w (.binding b) trivial, World.net_text w' (.binding b) trivial] at hbinding
    exact hbinding
  · exact hgenerator.trans (haccept.generator_eq he hinv (by simp))
  · have hsteps : ds.length < 2 ^ 63 := by omega
    have hsteps' : (ds ++ [Label.accepted s (.ok w.net.fresh)] ++ ds').length < 2 ^ 63 := by
      rw [List.length_append, List.length_append, List.length_singleton]
      exact hlength
    have hold := hrun.hopsOf_first_walk horderly h₀ hsteps hdrained hborn
    have hnew := (hrun₁.append hrun').hopsOf_first_walk horderly h₀ hsteps' hend
      (List.mem_append_left _ hborn₁)
    -- before it was accepted, the tree made no hops
    have hnone : hopsOf w.net.fresh (oneWalk 0) ds = 0 := by
      apply Multiset.eq_zero_of_forall_notMem
      intro hop hmem
      obtain ⟨p, result, queued, hd, hon⟩ := mem_hopsOf.mp hmem
      obtain ⟨tree, s', htree', hborn'⟩ := hrun.born_of_processed hs h₀ hd
      obtain rfl := Option.mem_unique (Payload.hop_of_hopOn? hon).1 htree'
      exact (hinv.unused w.net.minted (Nat.le_refl _)).born s' hborn'
    rw [hopsOf_append, hopsOf_append, hnone, hopsOf_accepted, zero_add, zero_add,
      hreplays.graph.onward, hreplays.root, ← hold] at hnew
    exact hnew

/-- What is accepted without an expectation can be processed until nothing waits, and takes few
steps. -/
theorem exists_run_accepted (he : e.Orderly σ) {w₀ w : World σ} {ds : List Label} (h₀ : w₀.Empty)
    (hrun : Run e w₀ ds w) (hnone : Unexpecting ds) {s : Submission}
    (hexpectation : s.expectation = none) :
    ∃ w₁ ds' w', Step e w (.accepted s (.ok w.net.fresh)) w₁ ∧ Run e w₁ ds' w' ∧
      (∀ d ∈ ds', d.isProcessed = true) ∧ w'.queue = [] ∧
      ∃ ds₁, Run e w₀ ds₁ w' ∧ Born ds₁ w.net.fresh s ∧ Unexpecting ds₁ ∧
        accepts ds₁ = accepts ds + 1 ∧ ds₁.length = ds.length + 1 + ds'.length := by
  obtain ⟨w₁, hstep, -⟩ := Step.exists_accepted e w s
  have hunexpecting : Unexpecting (ds ++ [.accepted s (.ok w.net.fresh)]) := by
    intro s' result hmem
    rcases List.mem_append.mp hmem with hmem | hmem
    · exact hnone s' result hmem
    · rw [List.mem_singleton, Label.accepted.injEq] at hmem
      exact hmem.1 ▸ hexpectation
  obtain ⟨ds', w', hrun', hprocessed, hdrained⟩ :=
    (hrun.snoc hstep).drains he h₀ (Or.inl hunexpecting)
  refine ⟨w₁, ds', w', hstep, hrun', hprocessed, hdrained, _, (hrun.snoc hstep).append hrun',
    List.mem_append_left _ (List.mem_append_right _ List.mem_cons_self), ?_, ?_, ?_⟩
  · intro s' result hmem
    rcases List.mem_append.mp hmem with hmem | hmem
    · exact hunexpecting s' result hmem
    · exact absurd (hprocessed _ hmem) (by simp [Label.isProcessed])
  · rw [accepts_append hprocessed, accepts, List.countP_append]
    rfl
  · rw [List.length_append, List.length_append, List.length_singleton]

/-- A text that is accepted and explored, and accepted again. -/
theorem learned_routes_replay_of_text : ∃ (e : Engine) (ds ds' : List Label)
    (w w₁ w' : World Memory) (tree tree' : String),
    Engine.assemble { cells := some (Cell.standard {}) } = .ok e ∧ Run e (.inMemory 0) ds w ∧
    w.queue = [] ∧ Born ds tree { input := "4 5", session := "a" } ∧
    Step e w (.accepted { input := "4 5", session := "b" } (.ok tree')) w₁ ∧ Run e w₁ ds' w' ∧
    w'.queue = [] ∧ w'.generator = w.generator ∧
    hopsOf tree' (oneWalk 0) ds' = hopsOf tree (oneWalk 0) ds := by
  obtain ⟨e, he⟩ := Engine.exists_standard {} rfl
  have h₀ := World.empty_inMemory 0
  have horderly := Engine.orderly_of_standard (σ := Memory) he
  obtain ⟨_, _, w, _, _, _, hdrained, ds, hrun, hborn, hnone, haccepts, _⟩ :=
    exists_run_accepted horderly h₀ (.nil _) (s := { input := "4 5", session := "a" })
      (by simp [Unexpecting]) rfl
  obtain ⟨w₁, ds', w', hstep, hrun', hprocessed, hdrained', ds₁, hrun₁, _, hnone₁, haccepts₁,
    hlength⟩ := exists_run_accepted horderly h₀ hrun (s := { input := "4 5", session := "b" })
      hnone rfl
  obtain ⟨_, _, hgenerator, tree, htree, hhops⟩ := learned_routes_replay he h₀ hrun hdrained hborn
    rfl rfl (s := { input := "4 5", session := "b" }) hstep hrun' hprocessed
  obtain rfl := Except.ok.inj htree
  -- both texts together make few steps
  have hwork := (hrun₁.countP_isProcessed_le horderly h₀ (Or.inl hnone₁)).trans
    (workBound_le e.config ds₁)
  rw [haccepts₁, haccepts, (Engine.assemble_eq_ok he).1] at hwork
  have hfew : ds.length + 1 + ds'.length ≤ 2 + 2 * 156 := by
    rw [← hlength, length_eq_accepts_add, haccepts₁, haccepts]
    exact Nat.add_le_add_left hwork 2
  exact ⟨e, ds, ds', w, w₁, w', _, _, he, hrun, hdrained, hborn, hstep, hrun', hdrained',
    hgenerator, hhops hdrained' (Nat.lt_of_le_of_lt hfew (by decide))⟩

end SelfWiring
