import Mathlib.Algebra.BigOperators.Group.Finset.Basic
import Mathlib.Data.Set.Finite.Basic
import SelfWiring.Proofs.Filings
import SelfWiring.Proofs.Inventory
import SelfWiring.Proofs.Store.Healthy

/-!
# What the status shows

The status counts keys by patterns. After every run these counts are those of the run: an anchor for
each submission, a record for each text that is new, connections for each behaviour that forwarded,
and a binding for each entry behaviour and for whatever a behaviour is connected to. Texts that were
handed in are parts of keys, too, but of none that begins like these patterns do.
-/

namespace SelfWiring

/-! ## What was done -/

def Label.text? : Label → Option String
  | .accepted s _ => some s.input
  | .processed _ _ _ => none

def Label.tree? : Label → Option String
  | .accepted _ (.ok tree) => some tree
  | _ => none

/-- The texts that were accepted, each as often as it was. -/
def acceptedTexts (ds : List Label) : List String := ds.filterMap Label.text?

def acceptedTrees (ds : List Label) : List String := ds.filterMap Label.tree?

/-- Results of a behaviour were forwarded. -/
def Forwarded (ds : List Label) (b : String) : Prop :=
  ∃ p n queued, .processed p (.ok (.forwarded n)) queued ∈ ds ∧ p.destination = b

/-- What a network has on file and what it has connected is what was done. -/
structure Net.Accounts (n : Net) (ds : List Label) : Prop where
  filed : n.Filed
  recorded : ∀ t, (n.text (.informationId t)).isSome = true ↔ t ∈ acceptedTexts ds
  anchored : ∀ t, (n.text (.firstBehaviour t)).isSome = true ↔ t ∈ acceptedTrees ds
  /-- Each submission has a tree of its own. -/
  apart : (acceptedTrees ds).Nodup
  counted : (acceptedTrees ds).length = (acceptedTexts ds).length
  explored : ∀ b, (n.next b).isSome = true ↔ Forwarded ds b

variable {σ : Type} [Store σ] [FaultFree σ] {e : Engine}

theorem acceptedTexts_accepted (ds : List Label) (s : Submission)
    (result : Except EngineError String) :
    acceptedTexts (ds ++ [.accepted s result]) = acceptedTexts ds ++ [s.input] :=
  List.filterMap_append

theorem acceptedTrees_accepted (ds : List Label) (s : Submission) (tree : String) :
    acceptedTrees (ds ++ [.accepted s (.ok tree)]) = acceptedTrees ds ++ [tree] :=
  List.filterMap_append

theorem acceptedTexts_processed (ds : List Label) (p : Payload)
    (result : Except EngineError Outcome) (queued : List String) :
    acceptedTexts (ds ++ [.processed p result queued]) = acceptedTexts ds :=
  List.filterMap_append.trans (List.append_nil _)

theorem acceptedTrees_processed (ds : List Label) (p : Payload)
    (result : Except EngineError Outcome) (queued : List String) :
    acceptedTrees (ds ++ [.processed p result queued]) = acceptedTrees ds :=
  List.filterMap_append.trans (List.append_nil _)

theorem forwarded_accepted {ds : List Label} {s : Submission}
    {result : Except EngineError String} {b : String} :
    Forwarded (ds ++ [.accepted s result]) b ↔ Forwarded ds b := by
  simp [Forwarded]

theorem forwarded_processed {ds : List Label} {p : Payload} {result : Except EngineError Outcome}
    {queued : List String} {b : String} :
    Forwarded (ds ++ [.processed p result queued]) b ↔
      Forwarded ds b ∨ (b = p.destination ∧ ∃ n, result = .ok (.forwarded n)) := by
  constructor
  · rintro ⟨q, n, queued', hmem, rfl⟩
    rcases List.mem_append.mp hmem with hmem | hmem
    · exact Or.inl ⟨q, n, queued', hmem, rfl⟩
    · obtain ⟨rfl, rfl, -⟩ := Label.processed.inj (List.mem_singleton.mp hmem)
      exact Or.inr ⟨rfl, n, rfl⟩
  · rintro (⟨q, n, queued', hmem, rfl⟩ | ⟨rfl, n, rfl⟩)
    · exact ⟨q, n, queued', List.mem_append_left _ hmem, rfl⟩
    · exact ⟨p, n, queued, List.mem_append_right _ List.mem_cons_self, rfl⟩

theorem World.Empty.accounts {w : World σ} (h : w.Empty) : w.net.Accounts [] := by
  have htext : ∀ k, w.net.text k = none := h.net_text
  refine ⟨⟨fun k hk => ?_, fun i t hi => ?_, fun item hitem => ?_⟩, fun t => ?_, fun t => ?_, .nil,
    rfl, fun b => ?_⟩
  · rw [htext] at hk
    exact nomatch hk
  · rw [htext] at hi
    exact nomatch hi
  · rw [h.net_queue] at hitem
    exact absurd hitem List.not_mem_nil
  · simp [htext, acceptedTexts]
  · simp [htext, acceptedTrees]
  · simp [h.net_next, Forwarded]

/-- A step puts on file what is accepted, and connects where results are forwarded. -/
theorem Step.accounts (hs : e.Filing σ) {w w' : World σ} {ds : List Label} {d : Label}
    (ht : w.net.WellFormed e.registry e.config.maxSignals) (h : w.net.Accounts ds)
    (hstep : Step e w d w') : w'.net.Accounts (ds ++ [d]) := by
  cases d with
  | accepted s result =>
    obtain ⟨rfl, hnet⟩ := hstep.of_accepted
    have hfresh : w.net.fresh ∉ acceptedTrees ds := by
      intro hmem
      have hanchored := (h.anchored _).mpr hmem
      rw [Net.fresh, ht.unanchored w.net.minted (Nat.le_refl _)] at hanchored
      exact nomatch hanchored
    refine ⟨?_, fun t => ?_, fun t => ?_, ?_, ?_, fun b => ?_⟩
    · rw [hnet]
      exact h.filed.accept ht s
    · rw [hnet, Net.isSome_informationId_accept, acceptedTexts_accepted, h.recorded]
      simp
    · rw [hnet, Net.isSome_firstBehaviour_accept, acceptedTrees_accepted, h.anchored]
      simp
    · rw [acceptedTrees_accepted, ← List.concat_eq_append]
      exact h.apart.concat hfresh
    · rw [acceptedTrees_accepted, acceptedTexts_accepted, List.length_append, List.length_append,
        h.counted]
      rfl
    · rw [hnet, (w.net.accept_hops s).1, forwarded_accepted, h.explored]
  | processed p result queued =>
    obtain ⟨hworks, hexplores⟩ := hstep.works hs ht h.filed
    refine ⟨hworks.filed, fun t => ?_, fun t => ?_, ?_, ?_, fun b => ?_⟩
    · rw [hworks.same (.informationId t) trivial (by simp), acceptedTexts_processed, h.recorded]
    · rw [hworks.same (.firstBehaviour t) trivial (by simp), acceptedTrees_processed, h.anchored]
    · rw [acceptedTrees_processed]
      exact h.apart
    · rw [acceptedTrees_processed, acceptedTexts_processed]
      exact h.counted
    · rw [hexplores b, forwarded_processed, h.explored]

theorem Run.accounts (hs : e.Filing σ) (hpreserves : e.PreservesWellFormed σ) {w w' : World σ}
    {ds : List Label} (h : w.Empty) (hrun : Run e w ds w') : w'.net.Accounts ds := by
  induction hrun with
  | nil => exact h.accounts
  | snoc hrun hstep ih => exact hstep.accounts hs (hrun.wellFormed hpreserves h) ih

/-! ## The keys that patterns are about -/

open Glob (Ordinary)

theorem Identifier.ordinary_render (j : Nat) : Ordinary (render j) := by
  have hdigits : alphabet.all Glob.isOrdinary = true := by decide
  exact fun c hc => List.all_eq_true.mp hdigits c (mem_alphabet_of_mem_render hc)

theorem Text.Integer.ordinary_render (n : Int) : Ordinary (String.ofList (render n)) := by
  have hdigit : ∀ {c}, c ∈ Nat.toDigits 10 n.natAbs → Glob.isOrdinary c = true := by
    intro c hc
    simp [Glob.isOrdinary, Char.isAlphanum, isDigit_of_mem_toDigits hc]
  intro c hc
  rw [String.toList_ofList, render] at hc
  split at hc
  · rcases List.mem_cons.mp hc with rfl | hc
    · decide
    · exact hdigit hc
  · exact hdigit hc

namespace Key

theorem ordinary_between {start ending : String} (hstart : Ordinary start)
    (hending : Ordinary ending) {id : String} (hid : ∃ j, id = Identifier.render j) :
    Ordinary (start ++ id ++ ending) := by
  obtain ⟨j, rfl⟩ := hid
  exact (hstart.append (Identifier.ordinary_render j)).append hending

/-- Keys are made of ordinary characters, save those that texts that were handed in are part of. -/
theorem ordinary_render {k : Key} (hk : k.Filed) (hregular : k.Regular)
    (htext : ∀ t, k ≠ .informationId t) : Ordinary k.render := by
  cases k with
  | informationId t => exact absurd rfl (htext t)
  | entry i c =>
    refine (ordinary_between (by decide) (by decide) hk).append ?_
    rcases hregular with rfl | rfl <;> decide
  | misses t pass =>
    refine ((ordinary_between (by decide) (by decide) hk).append ?_).append (by decide)
    exact Text.Integer.ordinary_render _
  | binding id | firstBehaviour id | retraversals id | done id | information id =>
    exact ordinary_between (by decide) (by decide) hk
  | inputQueue | eventQueue | separator | connections | trace | outputs => exact hk.elim

end Key

namespace World

/-- How many keys match the text of a key, which may have stars in it. -/
def countKeys (w : World σ) (k : Key) : Except StoreError Nat :=
  (Store.perform (.countKeys k.render) w.store).1

section

variable {w : World σ} (hkeyed : w.contents.Keyed) (hfiled : w.net.Filed)

include hkeyed

theorem holds_render_iff {k : Key} (hk : k.Regular) : w.contents.Holds k.render ↔
    (w.text k).isSome = true ∨ ∃ b, k = .connections b ∧ (w.connections b).isSome = true := by
  refine or_congr Iff.rfl ⟨fun hset => ?_, ?_⟩
  · obtain ⟨b, hb⟩ := hkeyed.sets _ hset
    have hconnections : (Key.connections b).Regular := trivial
    obtain rfl := (Key.render_inj hk hconnections).mp hb
    exact ⟨b, rfl, hset⟩
  · rintro ⟨b, rfl, hset⟩
    exact hset

theorem holds_render_iff_text {k : Key} (hk : k.Regular) (hne : ∀ b, k ≠ .connections b) :
    w.contents.Holds k.render ↔ (w.text k).isSome = true := by
  rw [holds_render_iff hkeyed hk]
  refine or_iff_left ?_
  rintro ⟨b, rfl, -⟩
  exact hne b rfl

include hfiled

omit hkeyed in
theorem filed_of_text {k : Key} (hk : k.Regular) (h : (w.text k).isSome = true) : k.Filed :=
  hfiled.keys k (by rwa [w.net_text k hk])

theorem holds_connections_iff {b : String} : w.contents.Holds (Key.connections b).render ↔
    (w.connections b).isSome = true := by
  rw [holds_render_iff hkeyed (k := .connections b) trivial]
  constructor
  · rintro (htext | ⟨b', hb', hset⟩)
    · exact (filed_of_text hfiled (k := .connections b) trivial htext).elim
    · obtain rfl := Key.connections.inj hb'
      exact hset
  · exact fun hset => Or.inr ⟨b, rfl, hset⟩

/-- Keys that begin differently from those with texts in them are made of ordinary characters. -/
theorem ordinary_of_holds {r : Registry} {limit : UInt64} (ht : w.net.WellFormed r limit)
    {start : String} (hstart : ∀ t, ¬ start.toList <+: (Key.informationId t).render.toList)
    {key : String} (h : w.contents.Holds key) (hbegins : start.toList <+: key.toList) :
    Ordinary key := by
  rcases h with htext | hset
  · obtain ⟨k, hk, rfl⟩ := hkeyed.texts key htext
    refine Key.ordinary_render (filed_of_text hfiled hk htext) hk fun t hkt => ?_
    exact hstart t (hkt ▸ hbegins)
  · obtain ⟨b, rfl⟩ := hkeyed.sets key hset
    -- whatever is connected is bound, and bound under an identifier that was minted
    obtain ⟨behaviours, hnext⟩ := Option.isSome_iff_exists.mp hset
    obtain ⟨⟨c, hc⟩, -⟩ := ht.grown.stored b behaviours hnext
    obtain ⟨j, -, hj⟩ := ht.grown.minted b c hc
    exact Key.ordinary_between (by decide) (by decide) ⟨j, hj⟩

end

section

variable {w : World HealthyStore} (hkeyed : w.contents.Keyed) (hfiled : w.net.Filed)
  {r : Registry} {limit : UInt64} (ht : w.net.WellFormed r limit) {k : String → Key}
  {start ending : String} (hrender : ∀ x, (k x).render = start ++ x ++ ending)
  (hstart : Ordinary start) (hending : Ordinary ending)
  (hshort : ClassGlob.isTooLong (k "*").render = false)
  (hforeign : ∀ t, ¬ start.toList <+: (Key.informationId t).render.toList)

include hkeyed hfiled ht hrender hstart hending hshort hforeign

/-- A pattern counts the keys of one kind. -/
theorem countKeys_eq {fillings : Finset String}
    (hfillings : ∀ x, x ∈ fillings ↔ w.contents.Holds (k x).render) :
    w.countKeys (k "*") = .ok fillings.card := by
  rw [countKeys, hrender]
  rw [hrender] at hshort
  refine w.store.countKeys_star hstart hending hshort ?_ fun x => ?_
  · exact fun key => ordinary_of_holds hkeyed hfiled ht hforeign
  · rw [← hrender]
    exact hfillings x

theorem countKeys_texts (hregular : ∀ x, (k x).Regular) (hne : ∀ x b, k x ≠ .connections b)
    {fillings : Finset String} (hfillings : ∀ x, x ∈ fillings ↔ (w.text (k x)).isSome = true) :
    w.countKeys (k "*") = .ok fillings.card := by
  refine countKeys_eq hkeyed hfiled ht hrender hstart hending hshort hforeign fun x => ?_
  rw [holds_render_iff_text hkeyed (hregular x) (hne x), hfillings]

end

end World

/-! ## The counts -/

/-- Identifiers that were minted and have some property are finitely many. -/
theorem exists_finset_of_minted {P : String → Prop} (bound : Nat)
    (h : ∀ id, P id → ∃ j < bound, id = Identifier.render j) :
    ∃ ids : Finset String, ∀ id, id ∈ ids ↔ P id := by
  classical
  refine ⟨((Finset.range bound).image Identifier.render).filter P, fun id => ?_⟩
  rw [Finset.mem_filter, Finset.mem_image]
  refine and_iff_right_of_imp fun hid => ?_
  obtain ⟨j, hj, rfl⟩ := h id hid
  exact ⟨j, Finset.mem_range.mpr hj, rfl⟩

/-- Behaviours are bound as entry behaviours, or as members of one set of connections. -/
theorem World.card_bound {r : Registry} {limit : UInt64} {w : World σ}
    (ht : w.net.WellFormed r limit) {explored entries : Finset String}
    (hexplored : ∀ b, b ∈ explored ↔ (w.connections b).isSome = true)
    (hentries : ∀ b, b ∈ entries ↔ w.IsEntry b) :
    ∃ bound : Finset String, (∀ b, b ∈ bound ↔ (w.text (.binding b)).isSome = true) ∧
      bound.card = entries.card + ∑ b ∈ explored, ((w.connections b).getD []).length := by
  have hforest := World.forest_of_grown ht.grown
  have hleads : ∀ producer b, b ∈ (w.connections producer).getD [] ↔ w.Leads producer b := by
    intro producer b
    unfold Leads
    cases w.connections producer <;> simp
  have hmembers : ∀ b,
      b ∈ explored.biUnion (fun producer => ((w.connections producer).getD []).toFinset) ↔
        ∃ producer, w.Leads producer b := by
    intro b
    simp only [Finset.mem_biUnion, List.mem_toFinset, hleads, hexplored]
    refine exists_congr fun producer => and_iff_right_of_imp ?_
    rintro ⟨behaviours, hnext, -⟩
    rw [hnext]
    rfl
  refine ⟨entries ∪ explored.biUnion fun producer => ((w.connections producer).getD []).toFinset,
    fun b => ?_, ?_⟩
  · rw [Finset.mem_union, hmembers, hentries, ← w.net_binding]
    constructor
    · rintro (hentry | ⟨producer, behaviours, hnext, hb⟩)
      · obtain ⟨i, c, hentered⟩ := World.isEntry_iff.mp hentry
        rw [ht.grown.entered i c b hentered]
        rfl
      · obtain ⟨name, _, hname, -⟩ := ht.grown.member producer b ⟨behaviours, hnext, hb⟩
        rw [hname]
        rfl
    · intro hbound
      obtain ⟨c, hc⟩ := Option.isSome_iff_exists.mp hbound
      exact (ht.grown.origin b c hc).imp_left World.isEntry_iff.mpr
  · rw [Finset.card_union_of_disjoint, Finset.card_biUnion]
    · refine congrArg _ (Finset.sum_congr rfl fun producer _ => List.toFinset_card_of_nodup ?_)
      cases hnext : w.connections producer with
      | none => exact .nil
      | some behaviours => exact hforest.once producer behaviours hnext
    · intro producer _ producer' _ hne
      rw [Function.onFun, Finset.disjoint_left]
      intro b hb hb'
      rw [List.mem_toFinset, hleads] at hb hb'
      exact hne (hforest.sole producer producer' b hb hb')
    · rw [Finset.disjoint_left]
      intro b hentry hmember
      obtain ⟨producer, hled⟩ := (hmembers b).mp hmember
      exact hforest.rootless b ((hentries b).mp hentry) producer hled

/-- Records are told apart by their texts. -/
theorem Net.card_records {r : Registry} {limit : UInt64} {n : Net} (ht : n.WellFormed r limit)
    {ds : List Label} (h : n.Accounts ds) : ∃ records : Finset String,
      (∀ i, i ∈ records ↔ (n.text (.information i)).isSome = true) ∧
        records.card = (acceptedTexts ds).toFinset.card := by
  have hid : ∀ t ∈ (acceptedTexts ds).toFinset, ∃ i, n.text (.informationId t) = some i := by
    intro t hmem
    exact Option.isSome_iff_exists.mp ((h.recorded t).mpr (List.mem_toFinset.mp hmem))
  refine ⟨(acceptedTexts ds).toFinset.image fun t => (n.text (.informationId t)).getD "",
    fun i => ?_, Finset.card_image_of_injOn ?_⟩
  · rw [Finset.mem_image]
    constructor
    · rintro ⟨t, hmem, rfl⟩
      obtain ⟨i, hi⟩ := hid t hmem
      rw [hi, Option.getD_some, ht.recorded t i hi]
      rfl
    · intro hrecord
      obtain ⟨t, ht'⟩ := Option.isSome_iff_exists.mp hrecord
      have hi := h.filed.indexed i t ht'
      refine ⟨t, List.mem_toFinset.mpr ((h.recorded t).mp (by rw [hi]; rfl)), ?_⟩
      rw [hi]
      rfl
  · intro t hmem t' hmem' heq
    obtain ⟨i, hi⟩ := hid t hmem
    obtain ⟨i', hi'⟩ := hid t' hmem'
    obtain rfl : i = i' := by simpa [hi, hi'] using heq
    exact Option.some.inj ((ht.recorded t i hi).symm.trans (ht.recorded t' i hi'))

/-- After every run from an empty store in memory or in a database, the status counts a set of
connections for each behaviour that was explored, which are those whose results were forwarded; a
behaviour for each at which texts enter, and for each member of a set of connections; a tree for
each submission that was accepted; and a record for each text that was. -/
theorem status_counts_exact {config : Config} {extras : List Cell}
    (he : Engine.assemble { config, cells := some (Cell.standard config ++ extras) } = .ok e)
    (hextras : ∀ c ∈ extras, ∀ ctx args, (c.call ctx args).run.StoreFree)
    {w₀ w : World HealthyStore} {ds : List Label} (h₀ : w₀.Empty) (hrun : Run e w₀ ds w) :
    ∃ explored entries : Finset String,
      (∀ b, b ∈ explored ↔ (w.connections b).isSome = true) ∧
      (∀ b, b ∈ explored ↔ Forwarded ds b) ∧
      (∀ b, b ∈ entries ↔ w.IsEntry b) ∧
      w.countKeys (.connections "*") = .ok explored.card ∧
      w.countKeys (.binding "*") =
        .ok (entries.card + ∑ b ∈ explored, ((w.connections b).getD []).length) ∧
      w.countKeys (.firstBehaviour "*") = .ok (acceptedTexts ds).length ∧
      w.countKeys (.information "*") = .ok (acceptedTexts ds).toFinset.card := by
  have hpreserves := Engine.preservesWellFormed_of_storeFree (σ := HealthyStore) he hextras
  have ht := hrun.wellFormed hpreserves h₀
  have hkeyed := hrun.keyed (Engine.keying_of_storeFree he hextras) h₀
  have haccounts := hrun.accounts (Engine.filing_of_storeFree he hextras) hpreserves h₀
  have hfiled := haccounts.filed
  -- whatever is connected or entered is bound, and under an identifier that was minted
  obtain ⟨explored, hexplored⟩ : ∃ explored : Finset String,
      ∀ b, b ∈ explored ↔ (w.connections b).isSome = true := by
    refine exists_finset_of_minted w.net.minted fun b hb => ?_
    obtain ⟨behaviours, hnext⟩ := Option.isSome_iff_exists.mp hb
    obtain ⟨⟨c, hc⟩, -⟩ := ht.grown.stored b behaviours hnext
    exact ht.grown.minted b c hc
  obtain ⟨entries, hentries⟩ : ∃ entries : Finset String, ∀ b, b ∈ entries ↔ w.IsEntry b := by
    refine exists_finset_of_minted w.net.minted fun b hb => ?_
    obtain ⟨i, c, hentered⟩ := World.isEntry_iff.mp hb
    exact ht.grown.minted b c (ht.grown.entered i c b hentered)
  obtain ⟨bound, hbound, hcard⟩ := World.card_bound ht hexplored hentries
  obtain ⟨records, hrecords, hcard'⟩ := Net.card_records ht haccounts
  refine ⟨explored, entries, hexplored, fun b => ?_, hentries, ?_, ?_, ?_, ?_⟩
  · exact (hexplored b).trans (haccounts.explored b)
  · refine World.countKeys_eq hkeyed hfiled ht Key.render_connections (by decide) (by decide) rfl
      (by simp [Key.render_informationId]) fun b => ?_
    exact (hexplored b).trans (World.holds_connections_iff hkeyed hfiled).symm
  · rw [← hcard]
    exact World.countKeys_texts hkeyed hfiled ht Key.render_binding (by decide) (by decide) rfl
      (by simp [Key.render_informationId]) (fun _ => trivial) (by simp) hbound
  · rw [← haccounts.counted, ← List.toFinset_card_of_nodup haccounts.apart]
    refine World.countKeys_texts hkeyed hfiled ht Key.render_firstBehaviour (by decide) (by decide)
      rfl (by simp [Key.render_informationId]) (fun _ => trivial) (by simp) fun t => ?_
    rw [List.mem_toFinset, ← haccounts.anchored, w.net_text (.firstBehaviour t) trivial]
    rfl
  · rw [← hcard']
    refine World.countKeys_texts hkeyed hfiled ht Key.render_information (by decide) (by decide)
      rfl (by simp [Key.render_informationId]) (fun _ => trivial) (by simp) fun i => ?_
    rw [hrecords, w.net_text (.information i) trivial]
    rfl

/-- In memory and in a database, texts are accepted that look like keys and like patterns, one of
them twice. Another one has been explored before. -/
theorem status_counts_exact_of_pattern_texts : ∃ e : Engine,
    ∀ store ∈ [HealthyStore.inMemory, .inDatabase], ∃ ds w b n,
      Run e { store, generator := .ofSeed 0 } ds w ∧
      acceptedTexts ds = ["4", "*:[id", "behaviour:?:connections", "*:[id"] ∧ Forwarded ds b ∧
      w.countKeys (.connections "*") = .ok (n + 1) ∧
      w.countKeys (.firstBehaviour "*") = .ok 4 ∧ w.countKeys (.information "*") = .ok 3 := by
  obtain ⟨e, he⟩ := Engine.exists_standard {} rfl
  have hextras : ∀ c ∈ ([] : List Cell), ∀ ctx args, (c.call ctx args).run.StoreFree := by simp
  have hinput := Engine.get?_of_assembled he (c := Cell.input) (by simp [Cell.standard])
  refine ⟨e, fun store hstore => ?_⟩
  have h₀ : World.Empty { store, generator := .ofSeed 0 } := by
    rcases List.mem_pair.mp hstore with rfl | rfl <;> exact ⟨rfl, rfl⟩
  obtain ⟨result, p, outcome, queued, w, b, behaviours, hrun, hconnected⟩ :=
    exists_connected (Engine.preservesWellFormed_of_storeFree he hextras) hinput h₀
  have hforwarded : Forwarded [.accepted { input := "4", session := "a" } result,
      .processed p outcome queued] b := by
    obtain ⟨explored, _, hexplored, hforwarded, -⟩ := status_counts_exact he hextras h₀ hrun
    exact (hforwarded b).mp ((hexplored b).mpr (by rw [hconnected]; rfl))
  obtain ⟨w₁, hstep₁, -⟩ := Step.exists_accepted e w { input := "*:[id", session := "a" }
  obtain ⟨w₂, hstep₂, -⟩ :=
    Step.exists_accepted e w₁ { input := "behaviour:?:connections", session := "a" }
  obtain ⟨w₃, hstep₃, -⟩ :=
    Step.exists_accepted e w₂ { input := "*:[id", echo := true, session := "b" }
  have hrun₃ := ((hrun.snoc hstep₁).snoc hstep₂).snoc hstep₃
  obtain ⟨explored, _, -, hexplored, -, hconnections, -, htrees, hrecords⟩ :=
    status_counts_exact he hextras h₀ hrun₃
  rw [← forwarded_accepted, ← forwarded_accepted, ← forwarded_accepted] at hforwarded
  have hcard := Finset.card_pos.mpr ⟨b, (hexplored b).mpr hforwarded⟩
  obtain ⟨n, hn⟩ := Nat.exists_eq_add_one.mpr hcard
  rw [hn] at hconnections
  exact ⟨_, w₃, b, n, hrun₃, rfl, hforwarded, hconnections, htrees, hrecords⟩

end SelfWiring
