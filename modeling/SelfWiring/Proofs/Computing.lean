import SelfWiring.Proofs.Seeded

/-!
# What a submission comes to on a route that was connected beforehand

A submission of two integers goes along its route once, or once for each restart that the budget
allows and one more time. The walks are numbered, and the number of a walk is how often the tree was
restarted before; this is the invariant of the loop that the output cell closes.
-/

namespace SelfWiring

open SelfWiring.Action

variable {σ : Type} [Store σ] [FaultFree σ] {e : Engine}

namespace Net

/-! ## Where walks end -/

/-- Results of a session and events are added. Nothing is bound, and nothing is connected. -/
structure Adds (n m : Net) (session : String) (outputs : List String) (events : List Event) :
    Prop where
  bindings : ∀ b, m.text (.binding b) = n.text (.binding b)
  next : m.next = n.next
  outputs : ∀ other, m.outputs other = n.outputs other ++ if other = session then outputs else []
  events : m.events = n.events ++ events

/-- What the only way on comes to. -/
def Ends (σ : Type) [Store σ] [FaultFree σ] (e : Engine) (n : Net) (session : String)
    (fs : List EngineError) (outputs : List String) (events : List Event) : Prop :=
  ∃ m, Settles σ e n fs m ∧ n.Adds m session outputs events

/-- A tree without an answer, in the walk that `k` restarts have led to. -/
structure Underway (n : Net) (c : Chain) (tree : String) (k : Nat) : Prop where
  named : tree ≠ ""
  anchored : n.text (.firstBehaviour tree) = some c.entry
  unanswered : n.text (.done tree) = none
  unmissed : ∀ j, k ≤ j → j < 2 ^ 63 → n.text (.misses tree (Int64.ofNat j)) = none
  restarts : n.text (.retraversals tree) = counted k

variable {n m : Net} {c : Chain} {s : Submission} {tree : String} {k : Nat} {sources : List String}
  {op : Operation} {x y : Int64} {session : String} {fs : List EngineError} {outputs : List String}
  {events : List Event} {default text cell : String} {v : Value}

theorem Onward.ends (h : Onward σ e n m) (hm : m.Ends σ e session fs outputs events) :
    n.Ends σ e session fs outputs events := by
  obtain ⟨l, hsettles, hadds⟩ := hm
  refine ⟨l, h.settles hsettles, ⟨fun b => ?_, ?_, fun other => ?_, ?_⟩⟩
  · rw [hadds.bindings, h.same.text]
  · rw [hadds.next, h.same.next]
  · rw [hadds.outputs, h.same.outputs]
  · rw [hadds.events, h.same.events]

theorem Underway.congr (h : n.Underway c tree k) (htext : m.text = n.text) :
    m.Underway c tree k where
  named := h.named
  anchored := (congrFun htext _).trans h.anchored
  unanswered := (congrFun htext _).trans h.unanswered
  unmissed j hj hsmall := (congrFun htext _).trans (h.unmissed j hj hsmall)
  restarts := (congrFun htext _).trans h.restarts

/-- Where the operation has no result, its cell objects and nothing is left to do. -/
theorem Holds.refused {pass : Int64}
    (h : n.Holds c s tree pass c.operation op.cell.name [.int x, .int y] sources)
    (he : e.Carries op) (hresult : op.result? x.toInt y.toInt = none) :
    n.Ends σ e session [.cell (.domain op.cell.name (op.objection y.toInt))] []
      [.dropped c.operation op.cell.name
        (EngineError.cell (.domain op.cell.name (op.objection y.toInt))).message] := by
  obtain ⟨id, hqueue⟩ := h
  have hrefused : Reaches σ
      (e.process (c.payload s tree pass id c.operation op.cell.name [.int x, .int y] sources))
      (n.requeue []) (.error (.cell (.domain op.cell.name (op.objection y.toInt))))
      (n.requeue []) :=
    Engine.process_refused he.operation (op.accepts x y)
      (fun ctx => Operation.cell_of_none hresult ctx _)
  refine ⟨_, .failed hqueue hrefused (.drained rfl), ⟨fun _ => rfl, rfl, fun other => ?_, rfl⟩⟩
  rw [ite_self, List.append_nil]
  rfl

/-! ## The output cell -/

/-- What the output cell concludes, once the result has arrived. -/
theorem Seeded.concluded {pass : Int64} {id : String} (hseeded : n.Seeded default text cell c)
    (he : e.Carries op) (hunderway : n.Underway c tree k) (v : Value) : Ensures σ
      (e.process (c.payload s tree pass id c.out Cell.outputName [v] sources)) (n.requeue [])
        fun r m => ∃ r', r = (r'.mapError EngineError.cell).map (fun _ => .terminated) ∧
          Cell.Concluded e.config.maxRetraversals (n.requeue [])
            (c.payload s tree pass id c.out Cell.outputName [v] sources).context tree s.session
              v.display r' m :=
  Engine.process_concluded he.output hunderway.named rfl
    ⟨⟨c.record, text, rfl, hseeded.recorded⟩, c.entry, Cell.inputName, hunderway.anchored,
      hseeded.entry⟩

/-- A result that meets the expectation is delivered, and nothing is left to do. -/
theorem Holds.delivered {pass : Int64}
    (h : n.Holds c s tree pass c.out Cell.outputName [v] sources) (he : e.Carries op)
    (hseeded : n.Seeded default text cell c) (hunderway : n.Underway c tree k)
    (hmet : ∀ t, s.expectation = some t → t = v.display) :
    n.Ends σ e s.session [] [v.display] [.emitted s.session tree v.display] := by
  obtain ⟨id, hqueue⟩ := h
  have hprocess : Reaches σ (e.process (c.payload s tree pass id c.out Cell.outputName [v] sources))
      (n.requeue []) (.ok .terminated) ((((n.requeue []).count (.done tree)).deliver s.session
        v.display).announce (.emitted s.session tree v.display)) := by
    refine (hseeded.concluded he hunderway v).imp ?_
    rintro _ _ ⟨r', rfl, hconcluded⟩
    cases hconcluded with
    | answered hdone => exact absurd hdone (by simp [hunderway.unanswered])
    | delivered => exact ⟨rfl, rfl⟩
    | passedOver _ hmissed | exhausted _ hmissed | restarted _ hmissed =>
      obtain ⟨t, ht, hne⟩ := hmissed
      exact absurd (hmet t ht).symm hne
  refine ⟨_, .passed hqueue hprocess (.drained rfl), ⟨fun b => ?_, rfl, fun other => ?_, rfl⟩⟩
  · simp [count]
  · simp only [announce_outputs, deliver_outputs, Function.update_apply]
    split
    · subst other
      rfl
    · rw [List.append_nil]
      rfl

/-- A miss is counted for its walk and for its tree. -/
def countMiss (n : Net) (tree : String) (pass : Int64) : Net :=
  (n.count (.misses tree pass)).count (.retraversals tree)

/-- Nothing but counters is written for a miss. -/
theorem countMiss_text {key : Key} (hkey : ¬ key.Counter) (n : Net) (tree : String) (pass : Int64) :
    (n.countMiss tree pass).text key = n.text key := by
  have hmisses : key ≠ .misses tree pass := fun heq => hkey (heq ▸ trivial)
  have hrestarts : key ≠ .retraversals tree := fun heq => hkey (heq ▸ trivial)
  simp [countMiss, count, hmisses, hrestarts]

theorem Underway.next_restart (h : n.Underway c tree k) :
    nextCount (n.text (.retraversals tree)) = Int64.ofNat (k + 1) := by
  rw [h.restarts, nextCount_counted]

/-- Each walk counts its misses under a key of its own. -/
theorem Underway.countMiss (h : n.Underway c tree k) (hk : k < 2 ^ 63) :
    (n.countMiss tree (Int64.ofNat k)).Underway c tree (k + 1) where
  named := h.named
  anchored := (countMiss_text id n tree _).trans h.anchored
  unanswered := by simp [Net.countMiss, count, h.unanswered]
  unmissed j hj hsmall := by
    have hne : Int64.ofNat j ≠ Int64.ofNat k := by
      intro heq
      have hlt := (ofNat_lt_ofNat hk hsmall).mpr hj
      rw [heq] at hlt
      exact Int64.lt_irrefl hlt
    simp [Net.countMiss, count, hne, h.unmissed j (by omega) hsmall]
  restarts := by
    simp only [Net.countMiss, count, write_text, Function.update_self, ne_eq, reduceCtorEq,
      not_false_eq_true, Function.update_of_ne, h.next_restart]
    rfl

/-- A result that misses the expectation either uses up the budget or begins the next walk. -/
theorem Seeded.missed {id : String} (hseeded : n.Seeded default text cell c) (he : e.Carries op)
    (hunderway : n.Underway c tree k) (hmissed : ∃ t, s.expectation = some t ∧ t ≠ v.display)
    (hk : k + 1 < 2 ^ 63) : Ensures σ
      (e.process (c.payload s tree (Int64.ofNat k) id c.out Cell.outputName [v] sources))
      (n.requeue []) fun r m =>
        let counted := (n.requeue []).countMiss tree (Int64.ofNat k)
        if e.config.maxRetraversals ≠ 0 ∧ e.config.maxRetraversals.toNat ≤ k then
          r = .error (.cell (.budgetExhausted tree (Int64.ofNat k))) ∧ m = counted
        else
          r = .error (.cell (.expectationNotMet tree (Int64.ofNat (k + 1)))) ∧
            m = counted.mint.enqueue (c.payload s tree (Int64.ofNat (k + 1)) counted.fresh c.entry
              Cell.inputName [.text text] [c.out]) := by
  have hsmall : e.config.maxRetraversals.toNat < 2 ^ 32 := e.config.maxRetraversals.toNat_lt
  have hbudget : (e.config.maxRetraversals ≠ 0 ∧ Int64.ofNat e.config.maxRetraversals.toNat <
      nextCount ((n.requeue []).text (.retraversals tree))) ↔
        e.config.maxRetraversals ≠ 0 ∧ e.config.maxRetraversals.toNat ≤ k := by
    rw [requeue_text, hunderway.next_restart, ofNat_lt_ofNat (by omega) hk, Nat.lt_succ_iff]
  refine (hseeded.concluded he hunderway v).imp ?_
  rintro _ _ ⟨r', rfl, hconcluded⟩
  cases hconcluded with
  | answered hdone => exact absurd hdone (by simp [hunderway.unanswered])
  | delivered _ hmet =>
    obtain ⟨t, ht, hne⟩ := hmissed
    exact absurd (hmet t ht).symm hne
  | passedOver _ _ hmisses =>
    have hfirst : 1 < nextCount (n.text (.misses tree (Int64.ofNat k))) := hmisses
    rw [hunderway.unmissed k le_rfl (by omega)] at hfirst
    exact absurd hfirst (by decide)
  | exhausted _ _ _ hlimit =>
    dsimp only
    rw [if_pos (hbudget.mp hlimit), requeue_text, hunderway.next_restart, ofNat_succ_sub_one]
    exact ⟨rfl, rfl⟩
  | restarted _ _ _ hlimit hinformation htext hfirst hcell =>
    dsimp only
    rw [if_neg (hbudget.not.mp hlimit), requeue_text, hunderway.next_restart]
    -- the tree begins anew with the text of its record
    obtain rfl := Option.some.inj hinformation
    obtain rfl := Option.some.inj (hseeded.recorded.symm.trans htext)
    obtain rfl := Option.some.inj (hunderway.anchored.symm.trans hfirst)
    obtain rfl := Option.some.inj (hseeded.entry.symm.trans hcell)
    refine ⟨rfl, ?_⟩
    rw [Int64.ofNat_add]
    rfl

/-- The budget is used up by a miss of the last walk. -/
theorem Holds.exhausted
    (h : n.Holds c s tree (Int64.ofNat k) c.out Cell.outputName [v] sources) (he : e.Carries op)
    (hseeded : n.Seeded default text cell c) (hunderway : n.Underway c tree k)
    (hmissed : ∃ t, s.expectation = some t ∧ t ≠ v.display)
    (hlimit : e.config.maxRetraversals ≠ 0) (hk : k = e.config.maxRetraversals.toNat) :
    n.Ends σ e s.session [.cell (.budgetExhausted tree (Int64.ofNat k))] []
      [.budgetExhausted tree (Int64.ofNat k)] := by
  obtain ⟨i, hqueue⟩ := h
  have hsmall : k < 2 ^ 32 := hk ▸ e.config.maxRetraversals.toNat_lt
  have hprocess : Reaches σ (e.process
      (c.payload s tree (Int64.ofNat k) i c.out Cell.outputName [v] sources)) (n.requeue [])
      (.error (.cell (.budgetExhausted tree (Int64.ofNat k))))
      ((n.requeue []).countMiss tree (Int64.ofNat k)) := by
    refine (hseeded.missed he hunderway hmissed (by omega)).imp ?_
    intro r m hmiss
    rw [if_pos ⟨hlimit, hk.ge⟩] at hmiss
    exact hmiss
  refine ⟨_, .failed hqueue hprocess (.drained rfl), ⟨fun b => ?_, rfl, fun other => ?_, rfl⟩⟩
  · have hbinding : ¬ (Key.binding b).Counter := id
    exact countMiss_text hbinding (n.requeue []) tree (Int64.ofNat k)
  · rw [ite_self, List.append_nil]
    rfl

/-- The next walk begins as long as the budget allows it. -/
theorem Holds.restarted
    (h : n.Holds c s tree (Int64.ofNat k) c.out Cell.outputName [v] sources) (he : e.Carries op)
    (hseeded : n.Seeded default text cell c) (hunderway : n.Underway c tree k)
    (hmissed : ∃ t, s.expectation = some t ∧ t ≠ v.display)
    (hk : k < e.config.maxRetraversals.toNat) :
    ∃ m : Net, m.Seeded default text cell c ∧ m.Underway c tree (k + 1) ∧
      m.Holds c s tree (Int64.ofNat (k + 1)) c.entry Cell.inputName [.text text] [c.out] ∧
      ∀ {fs outputs events}, m.Ends σ e session fs outputs events →
        n.Ends σ e session
          (.cell (.expectationNotMet tree (Int64.ofNat (k + 1))) :: fs) outputs
          (.expectationNotMet tree (Int64.ofNat (k + 1)) :: events) := by
  obtain ⟨i, hqueue⟩ := h
  have hsmall : e.config.maxRetraversals.toNat < 2 ^ 32 := e.config.maxRetraversals.toNat_lt
  let counted := (n.requeue []).countMiss tree (Int64.ofNat k)
  let q := c.payload s tree (Int64.ofNat (k + 1)) counted.fresh c.entry Cell.inputName [.text text]
    [c.out]
  have hprocess : Reaches σ (e.process
      (c.payload s tree (Int64.ofNat k) i c.out Cell.outputName [v] sources)) (n.requeue [])
      (.error (.cell (.expectationNotMet tree (Int64.ofNat (k + 1)))))
      (counted.mint.enqueue q) := by
    refine (hseeded.missed he hunderway hmissed (by omega)).imp ?_
    intro r m hmiss
    rw [if_neg (by omega)] at hmiss
    exact hmiss
  let next := (counted.mint.enqueue q).announce (.expectationNotMet tree (Int64.ofNat (k + 1)))
  have htext : ∀ key, ¬ key.Counter → next.text key = n.text key := fun key hkey =>
    countMiss_text hkey (n.requeue []) tree _
  have hqueueless : (n.requeue []).Underway c tree k := hunderway.congr rfl
  have hcounted : counted.Underway c tree (k + 1) := hqueueless.countMiss (by omega)
  refine ⟨next, hseeded.congr (fun key hkey _ => htext key hkey) rfl, hcounted.congr rfl,
    ⟨_, rfl⟩, ?_⟩
  rintro fs outputs events ⟨l, hsettles, hadds⟩
  refine ⟨l, .failed hqueue hprocess hsettles, ⟨fun b => ?_, ?_, fun other => ?_, ?_⟩⟩
  · rw [hadds.bindings, htext _ id]
  · exact hadds.next
  · exact hadds.outputs other
  · rw [hadds.events]
    exact List.append_assoc n.events [_] events

/-! ## Whole walks -/

/-- One walk of a result that fits, from the input cell to the output cell. -/
theorem Holds.walks {pass : Int64}
    (h : n.Holds c s tree pass c.entry Cell.inputName [.text (twoDecimals x y)] sources)
    (he : e.Carries op) (hseeded : n.Seeded e.config.separator (twoDecimals x y) op.cell.name c)
    (hunderway : n.Underway c tree k) {r : Exact}
    (hresult : op.result? x.toInt y.toInt = some r) :
    ∃ m : Net, Onward σ e n m ∧ m.Seeded e.config.separator (twoDecimals x y) op.cell.name c ∧
      m.Underway c tree k ∧
      m.Holds c s tree pass c.out Cell.outputName [r.value] [c.operation] := by
  obtain ⟨m₁, honward₁, hholds₁⟩ := h.arrives (σ := σ) he hseeded
  obtain ⟨m₂, honward₂, hholds₂⟩ := hholds₁.computes (σ := σ) he (honward₁.same.seeded hseeded)
    hresult
  have honward := honward₁.trans honward₂
  exact ⟨m₂, honward, honward.same.seeded hseeded, hunderway.congr honward.same.text, hholds₂⟩

/-- Without a result there is one walk, and it does not get past the operation. -/
theorem Holds.ends_of_none {pass : Int64}
    (h : n.Holds c s tree pass c.entry Cell.inputName [.text (twoDecimals x y)] sources)
    (he : e.Carries op) (hseeded : n.Seeded e.config.separator (twoDecimals x y) op.cell.name c)
    (hresult : op.result? x.toInt y.toInt = none) :
    n.Ends σ e session [.cell (.domain op.cell.name (op.objection y.toInt))] []
      [.dropped c.operation op.cell.name
        (EngineError.cell (.domain op.cell.name (op.objection y.toInt))).message] := by
  obtain ⟨m, honward, hholds⟩ := h.arrives (σ := σ) he hseeded
  exact honward.ends (hholds.refused he hresult)

/-- A result that meets the expectation is delivered at the end of the first walk. -/
theorem Holds.ends_of_met {pass : Int64}
    (h : n.Holds c s tree pass c.entry Cell.inputName [.text (twoDecimals x y)] sources)
    (he : e.Carries op) (hseeded : n.Seeded e.config.separator (twoDecimals x y) op.cell.name c)
    (hunderway : n.Underway c tree k) {r : Exact} (hresult : op.result? x.toInt y.toInt = some r)
    (hmet : ∀ t, s.expectation = some t → t = r.text) :
    n.Ends σ e s.session [] [r.text] [.emitted s.session tree r.text] := by
  have hdisplay := Operation.display_of_result hresult
  obtain ⟨m, honward, hseeded', hunderway', hholds⟩ := h.walks (σ := σ) he hseeded hunderway hresult
  rw [← hdisplay]
  exact honward.ends (hholds.delivered he hseeded' hunderway' (hdisplay ▸ hmet))

/-- Where all walks miss the expectation there is one for each restart, and a last one. The
induction is on the restarts that are left. -/
theorem Holds.ends_of_missed (he : e.Carries op) {r : Exact}
    (hresult : op.result? x.toInt y.toInt = some r)
    (hmissed : ∃ t, s.expectation = some t ∧ t ≠ r.text)
    (hlimit : e.config.maxRetraversals ≠ 0) (left : Nat) :
    ∀ {n : Net} {k : Nat} {sources : List String}, k + left = e.config.maxRetraversals.toNat →
      n.Seeded e.config.separator (twoDecimals x y) op.cell.name c → n.Underway c tree k →
      n.Holds c s tree (Int64.ofNat k) c.entry Cell.inputName [.text (twoDecimals x y)] sources →
      n.Ends σ e s.session
        ((List.range' (k + 1) left).map
          (fun i => .cell (.expectationNotMet tree (Int64.ofNat i))) ++
          [.cell (.budgetExhausted tree (Int64.ofNat e.config.maxRetraversals.toNat))]) []
        ((List.range' (k + 1) left).map (fun i => .expectationNotMet tree (Int64.ofNat i)) ++
          [.budgetExhausted tree (Int64.ofNat e.config.maxRetraversals.toNat)]) := by
  rw [← Operation.display_of_result hresult] at hmissed
  induction left with
  | zero =>
    intro n k sources hk hseeded hunderway hholds
    obtain ⟨m, honward, hseeded', hunderway', hholds'⟩ := hholds.walks (σ := σ) he hseeded hunderway
      hresult
    have hends := hholds'.exhausted (σ := σ) he hseeded' hunderway' hmissed hlimit hk
    rw [← hk]
    exact honward.ends hends
  | succ left ih =>
    intro n k sources hk hseeded hunderway hholds
    obtain ⟨m, honward, hseeded', hunderway', hholds'⟩ := hholds.walks (σ := σ) he hseeded hunderway
      hresult
    obtain ⟨m', hseeded'', hunderway'', hholds'', hends⟩ := hholds'.restarted (σ := σ) he hseeded'
      hunderway' hmissed (by omega)
    exact honward.ends (hends (ih (by omega) hseeded'' hunderway'' hholds''))

/-! ## Submissions -/

/-- A submission of the text enters the chain. -/
theorem Seeded.accept (hseeded : n.Seeded default s.input cell c) (hecho : s.echo = false)
    (hqueue : n.queue = []) (hcounters : ∀ key, key.Counter → n.text key = none) :
    (n.accept s).Seeded default s.input cell c ∧ (n.accept s).Underway c n.fresh 0 ∧
      (n.accept s).Holds c s n.fresh (Int64.ofNat 0) c.entry Cell.inputName [.text s.input] [] ∧
      n.Adds (n.accept s) s.session [] [.accepted s.session n.fresh] := by
  have hcell : Engine.entryCell s = Cell.inputName := by
    unfold Engine.entryCell
    rw [hecho]
    rfl
  have hrecord : n.mint.record s.input = (c.record, n.mint) := by
    unfold record
    rw [mint_text, hseeded.identified]
  have henter : n.mint.enter c.record Cell.inputName = (c.entry, n.mint) := by
    unfold enter
    rw [mint_text, hseeded.entered]
  let anchored := n.mint.write (.firstBehaviour n.fresh) c.entry
  let first := c.payload s n.fresh (Int64.ofNat 0) anchored.fresh c.entry Cell.inputName
    [.text s.input] []
  have haccept : n.accept s =
      (anchored.mint.enqueue first).announce (.accepted s.session n.fresh) := by
    unfold Net.accept
    simp only [hrecord, hcell, henter, Engine.firstPayload]
    rfl
  have htext : ∀ key, (∀ t, key ≠ .firstBehaviour t) → (n.accept s).text key = n.text key := by
    intro key hkey
    rw [haccept]
    exact Function.update_of_ne (hkey n.fresh) _ _
  have hfresh : (n.accept s).Underway c n.fresh 0 := by
    refine ⟨Identifier.render_ne_empty _, ?_, ?_, fun j _ _ => ?_, ?_⟩
    · rw [haccept]
      exact Function.update_self _ _ _
    all_goals
      rw [htext _ (by simp)]
      exact hcounters _ trivial
  refine ⟨hseeded.congr (fun key _ hkey => htext key hkey) (by rw [haccept]; rfl), hfresh,
    ⟨anchored.fresh, ?_⟩, ⟨fun b => htext _ (by simp), ?_, fun other => ?_, ?_⟩⟩
  · rw [haccept]
    exact congrArg (· ++ [first.encode]) hqueue
  · rw [haccept]
    rfl
  · rw [haccept, ite_self, List.append_nil]
    rfl
  · rw [haccept]
    rfl

end Net

/-! ## From an empty store -/

/-- Nothing is held. Features are separated by a space, as the configuration says or as the store
does, which then holds that and nothing else. -/
def World.Spaced (config : Config) (w : World σ) : Prop :=
  (w.contents = .empty ∧ config.separator = " ") ∨
    w.contents = Contents.empty.putText Key.separator.render " "

namespace World.Spaced

variable {config : Config} {w : World σ}

theorem net_bare (h : w.Spaced config) : w.net.Bare := by
  have hempty : ∀ k, (Net.ofContents .empty w.minted w.events).text k = none :=
    fun k => ite_self none
  unfold World.net
  rcases h with ⟨hcontents, -⟩ | hcontents
  · rw [hcontents]
    exact ⟨fun k _ => hempty k, fun _ => rfl, rfl, fun _ => rfl⟩
  · rw [hcontents, Net.ofContents_putText (show Key.Regular .separator from trivial)]
    exact ⟨fun k hk => (Function.update_of_ne hk _ _).trans (hempty k), fun _ => rfl, rfl,
      fun _ => rfl⟩

theorem net_spaced (h : w.Spaced config) : (w.net.text .separator = none ∧ config.separator = " ") ∨
    w.net.text .separator = some " " := by
  have htext : w.net.text .separator = w.contents.text Key.separator.render :=
    w.net_text .separator trivial
  rw [htext]
  rcases h with ⟨hcontents, hconfig⟩ | hcontents
  · refine Or.inl ⟨?_, hconfig⟩
    rw [hcontents]
    rfl
  · refine Or.inr ?_
    simp [hcontents, Contents.putText]

end World.Spaced

theorem Engine.carries_of_standard {config : Config}
    (he : assemble { config, cells := some (Cell.standard config) } = .ok e) (op : Operation) :
    e.Carries op := by
  have hinput : Cell.input ∈ Cell.standard config := by simp [Cell.standard]
  have hsplit : Cell.splitFeatures config.separator ∈ Cell.standard config := by
    simp [Cell.standard]
  have hoperation : op.cell ∈ Cell.standard config := by
    simp [Cell.standard, op.cell_mem_arithmetic]
  have houtput : Cell.output config.maxRetraversals ∈ Cell.standard config := by
    simp [Cell.standard]
  have hget {c : Cell} (hc : c ∈ Cell.standard config) : e.registry.get? c.name = some c :=
    get?_of_assembled he hc
  refine ⟨hget hinput, ?_, hget hoperation, ?_⟩ <;> rw [(assemble_eq_ok he).1]
  · exact hget hsplit
  · exact hget houtput

/-- A route for the text of two integers is connected. -/
theorem World.Spaced.seeded {config : Config} {w₀ w : World σ} (h₀ : w₀.Spaced config)
    {text cell split operation out : String}
    (hdistinct : [Identifier.render (w₀.minted + 1), split, operation, out].Nodup)
    (hseeding : (w₀.run (Graph.connectRoute text cell split operation out).run).2 = w) :
    ∃ c : Chain, c.operation = operation ∧ w.net.Seeded config.separator text cell c ∧
      w.net.queue = [] ∧ (∀ session, w.net.outputs session = []) ∧
      ∀ k, k.Counter → w.net.text k = none := by
  have hbare := h₀.net_bare
  have hroute : w.net = w₀.net.route text cell split operation out := by
    rw [← hseeding]
    exact (hbare.connectRoute_reaches hdistinct cell w₀ rfl).2
  rw [hroute]
  exact ⟨_, rfl, hbare.seeded hdistinct cell h₀.net_spaced, hbare.idle_route cell⟩

namespace Net

variable {n m k : Net} {session : String} {fs : List EngineError} {outputs : List String}
  {events events' : List Event}

theorem Adds.trans (h : n.Adds m session [] events) (h' : m.Adds k session outputs events') :
    n.Adds k session outputs (events ++ events') where
  bindings b := (h'.bindings b).trans (h.bindings b)
  next := h'.next.trans h.next
  outputs other := by
    rw [h'.outputs, h.outputs, ite_self, List.append_nil]
  events := by
    rw [h'.events, h.events, List.append_assoc]

/-- The way on can be gone in a world, and every run that processes until nothing waits has gone
it. -/
theorem Ends.runs {w : World σ} (h : w.net.Ends σ e session fs outputs events) :
    (∃ ds w', Run e w ds w' ∧ (∀ d ∈ ds, d.isProcessed = true) ∧ w'.queue = []) ∧
      ∀ ds (w' : World σ), Run e w ds w' → (∀ d ∈ ds, d.isProcessed = true) → w'.queue = [] →
        failures ds = fs ∧ w.net.Adds w'.net session outputs events := by
  obtain ⟨m, hsettles, hadds⟩ := h
  refine ⟨hsettles.exists_run rfl, fun ds w' hrun hprocessed hdrained => ?_⟩
  obtain ⟨rfl, hfailures⟩ := hsettles.of_run rfl hrun hprocessed hdrained
  exact ⟨hfailures, hadds⟩

/-- What the store holds, and what was announced, once the way has been gone. -/
theorem Adds.world {w w' : World σ} (h : w.net.Adds w'.net session outputs events)
    (houtputs : ∀ other, w.outputs other = []) :
    (∀ b, w'.text (.binding b) = w.text (.binding b) ∧ w'.connections b = w.connections b) ∧
      (∀ other, w'.outputs other = if other = session then outputs else []) ∧
      w'.events = w.events ++ events := by
  have htext : ∀ (v : World σ) b, v.net.text (.binding b) = v.text (.binding b) :=
    fun v b => v.net_text (.binding b) trivial
  refine ⟨fun b => ⟨?_, congrFun h.next b⟩, fun other => ?_, h.events⟩
  · rw [← htext, ← htext]
    exact h.bindings b
  · have hother := h.outputs other
    rw [show w.net.outputs other = [] from houtputs other, List.nil_append] at hother
    exact hother

end Net

/-- Where a route was connected for the text of two integers and for nothing else, a submission of
the text computes: the exact result is delivered if it fits and meets the expectation, every other
expectation is missed until the budget of restarts is used up, and where no result fits, the only
failure is the objection of the operation. No behaviour is bound, and none is connected. -/
theorem seeded_route_computes {config : Config} {e : Engine}
    (he : Engine.assemble { config, cells := some (Cell.standard config) } = .ok e)
    (hlimit : config.maxRetraversals ≠ 0) {w₀ w : World σ} (h₀ : w₀.Spaced config) (op : Operation)
    (a b : Int64) {split operation out : String}
    (hdistinct : [Identifier.render (w₀.minted + 1), split, operation, out].Nodup)
    (hseeding : (w₀.run
      (Graph.connectRoute (twoDecimals a b) op.cell.name split operation out).run).2 = w)
    {s : Submission} (hinput : s.input = twoDecimals a b) (hecho : s.echo = false)
    {result : Except EngineError String} {w₁ : World σ}
    (haccept : Step e w (.accepted s result) w₁) :
    ∃ tree, result = .ok tree ∧
      (∃ ds w', Run e w₁ ds w' ∧ (∀ d ∈ ds, d.isProcessed = true) ∧ w'.queue = []) ∧
      ∀ ds (w' : World σ), Run e w₁ ds w' → (∀ d ∈ ds, d.isProcessed = true) → w'.queue = [] →
        (∀ behaviour, w'.text (.binding behaviour) = w.text (.binding behaviour) ∧
          w'.connections behaviour = w.connections behaviour) ∧
        (op.result? a.toInt b.toInt = none →
          failures ds = [.cell (.domain op.cell.name (op.objection b.toInt))] ∧
          (∀ session, w'.outputs session = []) ∧
          w'.events = w.events ++ [.accepted s.session tree, .dropped operation op.cell.name
            (EngineError.cell (.domain op.cell.name (op.objection b.toInt))).message]) ∧
        (∀ r, op.result? a.toInt b.toInt = some r →
          (∀ t, s.expectation = some t → t = r.text) →
            failures ds = [] ∧
            (∀ session, w'.outputs session = if session = s.session then [r.text] else []) ∧
            w'.events = w.events ++ [.accepted s.session tree, .emitted s.session tree r.text]) ∧
        (∀ r t, op.result? a.toInt b.toInt = some r → s.expectation = some t → t ≠ r.text →
          failures ds =
            (List.range' 1 config.maxRetraversals.toNat).map
              (fun i => .cell (.expectationNotMet tree (Int64.ofNat i))) ++
            [.cell (.budgetExhausted tree (Int64.ofNat config.maxRetraversals.toNat))] ∧
          (∀ session, w'.outputs session = []) ∧
          w'.events = w.events ++ .accepted s.session tree ::
            ((List.range' 1 config.maxRetraversals.toNat).map
              (fun i => .expectationNotMet tree (Int64.ofNat i)) ++
            [.budgetExhausted tree (Int64.ofNat config.maxRetraversals.toNat)])) := by
  obtain rfl : e.config = config := (Engine.assemble_eq_ok he).1
  have hcarries := Engine.carries_of_standard he op
  obtain ⟨c, rfl, hseeded, hqueue, houtputs, hcounters⟩ := h₀.seeded hdistinct hseeding
  rw [← hinput] at hseeded
  obtain ⟨rfl, hnet⟩ := haccept.of_accepted
  obtain ⟨hseeded₁, hunderway, hholds, haccepted⟩ := hseeded.accept hecho hqueue hcounters
  rw [← hnet] at hseeded₁ hunderway hholds haccepted
  rw [hinput] at hseeded₁ hholds
  -- the three ways in which walks end
  have hnone : op.result? a.toInt b.toInt = none → w₁.net.Ends σ e s.session _ [] _ :=
    fun hresult => hholds.ends_of_none hcarries hseeded₁ hresult
  have hmet := fun r hresult => hholds.ends_of_met (σ := σ) (r := r) hcarries hseeded₁ hunderway
    hresult
  have hmissed := fun r hresult ht => Net.Holds.ends_of_missed (σ := σ) (r := r) hcarries hresult ht
    hlimit _ (Nat.zero_add _) hseeded₁ hunderway hholds
  obtain ⟨fs, outputs, events, hends⟩ :
      ∃ fs outputs events, w₁.net.Ends σ e s.session fs outputs events := by
    cases hresult : op.result? a.toInt b.toInt with
    | none => exact ⟨_, _, _, hnone hresult⟩
    | some r =>
      by_cases ht : ∀ t, s.expectation = some t → t = r.text
      · exact ⟨_, _, _, hmet r hresult ht⟩
      · obtain ⟨t, ht⟩ := not_forall.mp ht
        exact ⟨_, _, _, hmissed r hresult ⟨t, Classical.not_imp.mp ht⟩⟩
  refine ⟨_, rfl, hends.runs.1, fun ds w' hrun hprocessed hdrained => ?_⟩
  have hleaves : ∀ {fs outputs events}, w₁.net.Ends σ e s.session fs outputs events →
      failures ds = fs ∧ w.net.Adds w'.net s.session outputs
        (.accepted s.session w.net.fresh :: events) := by
    intro fs outputs events h
    obtain ⟨hfailures, hadds⟩ := h.runs.2 ds w' hrun hprocessed hdrained
    exact ⟨hfailures, haccepted.trans hadds⟩
  refine ⟨((hleaves hends).2.world houtputs).1, ?_, ?_, ?_⟩
  · intro hresult
    obtain ⟨hfailures, hadds⟩ := hleaves (hnone hresult)
    obtain ⟨-, hsessions, hevents⟩ := hadds.world houtputs
    exact ⟨hfailures, fun session => (hsessions session).trans (ite_self _), hevents⟩
  · intro r hresult ht
    obtain ⟨hfailures, hadds⟩ := hleaves (hmet r hresult ht)
    exact ⟨hfailures, (hadds.world houtputs).2⟩
  · intro r t hresult ht hne
    obtain ⟨hfailures, hadds⟩ := hleaves (hmissed r hresult ⟨t, ht, hne⟩)
    obtain ⟨-, hsessions, hevents⟩ := hadds.world houtputs
    exact ⟨hfailures, fun session => (hsessions session).trans (ite_self _), hevents⟩

/-- A sum is expected to be another number: three restarts are made, and a fourth is refused. -/
theorem seeded_route_computes_of_missed_sum : ∃ (config : Config) (e : Engine)
    (w w₁ w' : World Memory) (tree : String) (ds : List Label), config.maxRetraversals = 3 ∧
    Engine.assemble { config, cells := some (Cell.standard config) } = .ok e ∧
    ((World.inMemory 0).run
      (Graph.connectRoute (twoDecimals 3 4) "sum" "split" "add" "out").run).2 = w ∧
    Step e w (.accepted { input := "3 4", session := "a", expectation := some "8" } (.ok tree)) w₁ ∧
    Run e w₁ ds w' ∧ w'.queue = [] ∧
    failures ds = [.cell (.expectationNotMet tree 1), .cell (.expectationNotMet tree 2),
      .cell (.expectationNotMet tree 3), .cell (.budgetExhausted tree 3)] ∧
    ∀ session, w'.outputs session = [] := by
  obtain ⟨e, he⟩ := Engine.exists_standard { maxRetraversals := 3 } rfl
  have h₀ : (World.inMemory 0).Spaced { maxRetraversals := 3 } := Or.inl ⟨rfl, rfl⟩
  have hshort : ∀ b : String, b.length < 26 → Identifier.render 1 ≠ b := by
    rintro b hb rfl
    have hlength := Identifier.length_render_ge 1
    omega
  have hdistinct : [Identifier.render 1, "split", "add", "out"].Nodup := by
    simp [hshort _ (show "split".length < 26 by decide),
      hshort _ (show "add".length < 26 by decide), hshort _ (show "out".length < 26 by decide)]
  generalize hw : ((World.inMemory 0).run
    (Graph.connectRoute (twoDecimals 3 4) "sum" "split" "add" "out").run).2 = w
  obtain ⟨w₁, haccept, -⟩ := Step.exists_accepted e w
    { input := "3 4", session := "a", expectation := some "8" }
  obtain ⟨tree, htree, ⟨ds, w', hrun, hprocessed, hdrained⟩, hall⟩ :=
    seeded_route_computes he (by decide) h₀ .sum 3 4 hdistinct hw (by decide) rfl haccept
  obtain ⟨-, -, -, hmissed⟩ := hall ds w' hrun hprocessed hdrained
  obtain ⟨hfailures, houtputs, -⟩ := hmissed (.number 7) "8" (by decide) rfl (by decide)
  exact ⟨_, e, w, w₁, w', tree, ds, rfl, he, rfl, htree ▸ haccept, hrun, hdrained, hfailures,
    houtputs⟩

end SelfWiring
