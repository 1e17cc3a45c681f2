import Mathlib.Algebra.Order.BigOperators.Ring.Finset
import Mathlib.Data.Multiset.Bind
import SelfWiring.Proofs.Safety

/-!
# Hops

A hop is the arrival of arguments at a behaviour. Which hops follow it is settled by what its cell
yields and by the connections of its behaviour; once the behaviour was explored, it is settled for
good. Among the standard cells the kinds of the values rule out long walks: each hop leads to cells
that fewer hops can follow.
-/

namespace SelfWiring

/-! ## Generations -/

section Generations

variable {α : Type} {f : α → Multiset α}

/-- What has followed after `i` rounds, when each member is followed by others. -/
def generation (f : α → Multiset α) : Nat → Multiset α → Multiset α
  | 0, s => s
  | i + 1, s => generation f i (s.bind f)

theorem generation_add (i : Nat) :
    ∀ s t : Multiset α, generation f i (s + t) = generation f i s + generation f i t := by
  induction i with
  | zero => intro s t; rfl
  | succ i ih =>
    intro s t
    simp only [generation, Multiset.add_bind, ih]

theorem generation_zero (i : Nat) : generation f i 0 = 0 := by
  induction i with
  | zero => rfl
  | succ i ih => simpa only [generation, Multiset.zero_bind] using ih

/-- Where each member is a root or follows another, and some are left out, the rest are the
generations of the roots without those of what is left out. -/
theorem add_sum_generation {s left roots : Multiset α} (h : s + left = roots + s.bind f) (k : Nat) :
    s + ∑ i ∈ Finset.range k, generation f i left =
      ∑ i ∈ Finset.range k, generation f i roots + generation f k s := by
  induction k with
  | zero => simp [generation]
  | succ k ih =>
    have hround := congrArg (generation f k) h
    rw [generation_add, generation_add] at hround
    rw [Finset.sum_range_succ, Finset.sum_range_succ, ← add_assoc, ih, add_assoc, hround, add_assoc]
    rfl

theorem card_bind_le {bound : Nat} (hf : ∀ a, (f a).card ≤ bound) (s : Multiset α) :
    (s.bind f).card ≤ s.card * bound := by
  have hall : ∀ k ∈ s.map (Multiset.card ∘ f), k ≤ bound := by
    intro k hk
    obtain ⟨a, _, rfl⟩ := Multiset.mem_map.mp hk
    exact hf a
  rw [Multiset.card_bind, ← Multiset.card_map (Multiset.card ∘ f) s]
  exact Multiset.sum_le_card_nsmul _ bound hall

theorem card_generation_le {bound : Nat} (hf : ∀ a, (f a).card ≤ bound) (i : Nat) :
    ∀ s : Multiset α, (generation f i s).card ≤ s.card * bound ^ i := by
  induction i with
  | zero => intro s; simp [generation]
  | succ i ih =>
    intro s
    calc (generation f i (s.bind f)).card ≤ (s.bind f).card * bound ^ i := ih _
      _ ≤ s.card * bound * bound ^ i := Nat.mul_le_mul_right _ (card_bind_le hf s)
      _ = s.card * bound ^ (i + 1) := by rw [Nat.mul_assoc, Nat.pow_succ']

/-- Ranks that go down from one to the next come to an end. -/
theorem generation_eq_zero (P : α → Prop) (rank : α → Nat)
    (hf : ∀ a, P a → ∀ b ∈ f a, P b ∧ rank b < rank a) (i : Nat) :
    ∀ s : Multiset α, (∀ a ∈ s, P a ∧ rank a < i) → generation f i s = 0 := by
  induction i with
  | zero =>
    intro s hs
    apply Multiset.eq_zero_of_forall_notMem
    intro a ha
    exact Nat.not_lt_zero _ (hs a ha).2
  | succ i ih =>
    intro s hs
    apply ih
    intro b hb
    obtain ⟨a, ha, hba⟩ := Multiset.mem_bind.mp hb
    obtain ⟨hP, hrank⟩ := hs a ha
    obtain ⟨hPb, hlt⟩ := hf a hP b hba
    exact ⟨hPb, Nat.lt_of_lt_of_le hlt (Nat.le_of_lt_succ hrank)⟩

end Generations

/-! ## Ranks -/

/-- How many hops can follow on results of the declared kinds: a text can be split, two integers can
be reckoned with, and any one value can be delivered. -/
def Signature.rank (s : Signature) : Nat :=
  match s.outputs with
  | [.text] => 3
  | [_, _] => 2
  | [_] => 1
  | _ => 0

theorem Signature.rank_lt_four (s : Signature) : s.rank < 4 := by
  unfold rank
  split <;> decide

namespace Cell

/-- What decides which cells can follow which. -/
def shape (c : Cell) : Signature × Bool × Bool := (c.signature, c.entry, c.terminal)

/-- A value of a kind. -/
def sample : Kind → Value
  | .int => .int 0
  | .bool => .bool false
  | .text | .any => .text ""

/-- The shapes of the standard cells: one that enters texts, one that splits them, those that reckon
with two integers, and the one that ends walks. -/
def standardShapes : List (Signature × Bool × Bool) :=
  [(⟨[.text], [.text], false⟩, true, false), (⟨[.text], [.int, .int], true⟩, false, false),
    (⟨[.int, .int], [.int], false⟩, false, false), (⟨[.int, .int], [.int], false⟩, false, false),
    (⟨[.int, .int], [.int], false⟩, false, false), (⟨[.int, .int], [.int], true⟩, false, false),
    (⟨[.int, .int], [.bool], false⟩, false, false), (⟨[.int, .int], [.bool], false⟩, false, false),
    (⟨[.any], [], false⟩, false, true)]

theorem map_shape_standard (config : Config) : (standard config).map shape = standardShapes := rfl

theorem shape_mem_standard {config : Config} {c : Cell} (hc : c ∈ standard config) :
    c.shape ∈ standardShapes := by
  rw [← map_shape_standard config]
  exact List.mem_map_of_mem hc

theorem shape_rank_lt : ∀ s ∈ standardShapes, ∀ t ∈ standardShapes, s.2.2 = false →
    t.2.1 = false → t.1.accepts (s.1.outputs.map sample) = true → t.1.rank < s.1.rank := by
  decide

theorem shape_sample : ∀ s ∈ standardShapes,
    (s.1.outputs.map sample).map Value.kind = s.1.outputs := by
  decide

/-- The results of a standard cell are taken by cells of a lower rank only. -/
theorem rank_lt {config : Config} {c c' : Cell} (hc : c ∈ standard config)
    (hterminal : c.terminal = false) (hc' : c' ∈ standard config) (hentry : c'.entry = false)
    (haccepts : ∀ vs : List Value, vs.map Value.kind = c.signature.outputs →
      c'.signature.accepts vs = true) : c'.signature.rank < c.signature.rank := by
  have hshape := shape_mem_standard hc
  apply shape_rank_lt c.shape hshape c'.shape (shape_mem_standard hc') hterminal hentry
  exact haccepts _ (shape_sample c.shape hshape)

end Cell

/-! ## What follows a hop -/

/-- The arrival of arguments at a behaviour. -/
structure Hop where
  destination : String
  cell : Option String
  args : List Value
  sources : List String
  deriving DecidableEq

/-- The hop that a payload makes when it is processed. -/
def Payload.hop (p : Payload) : Hop := ⟨p.destination, p.context.cell, p.args, p.sources⟩

variable {σ : Type} [Store σ] [FaultFree σ]

open Classical in
/-- What a cell yields for arguments, if it yields anything. -/
noncomputable def Cell.results? (σ : Type) [Store σ] [FaultFree σ] (c : Cell) (args : List Value) :
    Option (List Value) :=
  if h : ∃ results, c.Yields σ args results then some h.choose else none

/-- The results that a hop passes on, if its cell yields any and is not terminal. -/
noncomputable def Engine.passes? (σ : Type) [Store σ] [FaultFree σ] (e : Engine) (h : Hop) :
    Option (List Value) :=
  (h.cell.bind e.registry.get?).bind fun c =>
    if c.terminal then none else c.results? σ h.args

/-- How many hops can follow a hop. -/
def Engine.rank (e : Engine) (h : Hop) : Nat :=
  ((h.cell.bind e.registry.get?).map fun c => c.signature.rank).getD 0

/-- The hops that follow a hop along the connections of its behaviour. -/
noncomputable def Net.onward (σ : Type) [Store σ] [FaultFree σ] (e : Engine) (n : Net) (h : Hop) :
    Multiset Hop :=
  match e.passes? σ h with
  | none => 0
  | some results => ((n.next h.destination).getD []).map fun b =>
    (⟨b, n.text (.binding b), results, [h.destination]⟩ : Hop)

/-- The cell of a hop is the cell that its behaviour is bound to. -/
def Net.Placed (n : Net) (h : Hop) : Prop :=
  ∃ name, h.cell = some name ∧ n.text (.binding h.destination) = some name

/-- A hop that passes results on has left its behaviour connected. -/
def Net.Explored (σ : Type) [Store σ] [FaultFree σ] (e : Engine) (n : Net) (h : Hop) : Prop :=
  (e.passes? σ h).isSome = true → (n.next h.destination).isSome = true

namespace Cell.Steady

variable {c : Cell} (hc : c.Steady σ)

include hc

theorem results?_of_yields {args results : List Value} (h : c.Yields σ args results) :
    c.results? σ args = some results := by
  have hyields : ∃ results, c.Yields σ args results := ⟨results, h⟩
  unfold results?
  rw [dif_pos hyields]
  exact congrArg some (hc.yields_unique hyields.choose_spec h)

theorem results?_of_objects {args : List Value} (h : c.Objects σ args) :
    c.results? σ args = none := by
  unfold results?
  apply dif_neg
  rintro ⟨results, hyields⟩
  exact hc.not_yields h hyields

end Cell.Steady

/-! ## Orderly engines -/

/-- An engine whose cells come to the same on the same arguments, and whose ranks go down along
connections. -/
structure Engine.Orderly (σ : Type) [Store σ] [FaultFree σ] (e : Engine) : Prop where
  serves : e.Serves σ fun n m => m = n
  steady : ∀ name cell, e.registry.get? name = some cell → name ≠ Cell.outputName → cell.Steady σ
  descends : ∀ name cell name' cell', e.registry.get? name = some cell → cell.terminal = false →
    e.registry.get? name' = some cell' → cell'.entry = false →
      (∀ vs : List Value, vs.map Value.kind = cell.signature.outputs →
        cell'.signature.accepts vs = true) → cell'.signature.rank < cell.signature.rank

theorem Engine.orderly_of_standard {config : Config} {e : Engine}
    (he : assemble { config, cells := some (Cell.standard config) } = .ok e) : e.Orderly σ := by
  have hstandard : ∀ name cell, e.registry.get? name = some cell → cell ∈ Cell.standard config :=
    fun name cell hcell => ((assemble_eq_ok he).2 cell).mp (Registry.mem_of_get? hcell)
  constructor
  · exact serves_of_standard he
  · intro name cell hcell hname
    rcases Cell.eq_output_or_mem_of_mem_standard (hstandard name cell hcell) with rfl | hmem
    · exact absurd (Registry.name_of_get? hcell).symm hname
    · exact Cell.standard_steady hmem
  · intro name cell name' cell' hcell hterminal hcell' hentry haccepts
    exact Cell.rank_lt (hstandard name cell hcell) hterminal (hstandard name' cell' hcell') hentry
      haccepts

namespace Net

variable {e : Engine} {n m : Net} {h : Hop}

theorem onward_of_passes? {results : List Value} {behaviours : List String}
    (hpasses : e.passes? σ h = some results) (hnext : n.next h.destination = some behaviours) :
    n.onward σ e h = (behaviours.map fun b =>
      (⟨b, n.text (.binding b), results, [h.destination]⟩ : Hop) : List Hop) := by
  unfold onward
  rw [hpasses, hnext]
  rfl

theorem onward_of_none (hpasses : e.passes? σ h = none) : n.onward σ e h = 0 := by
  unfold onward
  rw [hpasses]

theorem explored_of_none (hpasses : e.passes? σ h = none) : n.Explored σ e h := by
  intro hsome
  rw [hpasses] at hsome
  exact absurd hsome (by simp)

theorem explored_of_next {behaviours : List String}
    (hnext : n.next h.destination = some behaviours) : n.Explored σ e h := by
  intro _
  rw [hnext]
  rfl

theorem Placed.mono (hgrows : n.Grows m) (hplaced : n.Placed h) : m.Placed h := by
  obtain ⟨name, hname, hbinding⟩ := hplaced
  exact ⟨name, hname, hgrows.binding hbinding⟩

theorem Explored.mono (hgrows : n.Grows m) (hexplored : n.Explored σ e h) : m.Explored σ e h := by
  intro hpasses
  obtain ⟨behaviours, hnext⟩ := Option.isSome_iff_exists.mp (hexplored hpasses)
  rw [hgrows.next _ _ hnext]
  rfl

/-- The output cell passes nothing on. -/
theorem passes?_of_output (he : e.Orderly σ) (hout : h.cell = some Cell.outputName) :
    e.passes? σ h = none := by
  unfold Engine.passes?
  rw [hout, Option.bind_some, he.serves.output, Option.bind_some]
  rfl

/-- What follows a hop does not depend on where it came from. -/
theorem onward_congr_hop {h h' : Hop} (hdestination : h'.destination = h.destination)
    (hcell : h'.cell = h.cell) (hargs : h'.args = h.args) :
    n.onward σ e h' = n.onward σ e h := by
  unfold onward Engine.passes?
  rw [hdestination, hcell, hargs]

variable {born : String → Submission → Prop}

/-- What follows a hop whose behaviour was explored follows it for good. -/
theorem onward_mono (hinv : Inv σ e.registry born n) (hgrows : n.Grows m)
    (hexplored : n.Explored σ e h) : m.onward σ e h = n.onward σ e h := by
  cases hpasses : e.passes? σ h with
  | none => rw [onward_of_none hpasses, onward_of_none hpasses]
  | some results =>
    obtain ⟨behaviours, hnext⟩ := Option.isSome_iff_exists.mp (hexplored (by rw [hpasses]; rfl))
    rw [onward_of_passes? hpasses hnext, onward_of_passes? hpasses (hgrows.next _ _ hnext)]
    congr 1
    apply List.map_congr_left
    intro b hb
    obtain ⟨_, _, _, _, _, htakes⟩ := hinv.wired _ _ hnext
    obtain ⟨name, _, hbinding, _⟩ := htakes b hb
    rw [hbinding, hgrows.binding hbinding]

/-- The hops that follow go to the cells of their behaviours, and fewer hops can follow them. -/
theorem onward_descends (he : e.Orderly σ) (hinv : Inv σ e.registry born n) (hplaced : n.Placed h)
    {h' : Hop} (hmem : h' ∈ n.onward σ e h) : n.Placed h' ∧ e.rank h' < e.rank h := by
  cases hpasses : e.passes? σ h with
  | none =>
    rw [onward_of_none hpasses] at hmem
    exact absurd hmem (Multiset.notMem_zero h')
  | some results =>
    cases hnext : n.next h.destination with
    | none =>
      unfold onward at hmem
      rw [hpasses, hnext] at hmem
      exact absurd hmem (by simp)
    | some behaviours =>
      rw [onward_of_passes? hpasses hnext] at hmem
      obtain ⟨b, hb, rfl⟩ := List.mem_map.mp (Multiset.mem_coe.mp hmem)
      obtain ⟨name, cell, hbinding, hcell, hterminal, htakes⟩ := hinv.wired _ _ hnext
      obtain ⟨name', cell', hbinding', hcell', hentry, haccepts⟩ := htakes b hb
      obtain ⟨name₀, hname, hbinding₀⟩ := hplaced
      obtain rfl := Option.mem_unique hbinding hbinding₀
      refine ⟨⟨name', hbinding', hbinding'⟩, ?_⟩
      unfold Engine.rank
      rw [hbinding', hname, Option.bind_some, Option.bind_some, hcell, hcell']
      exact he.descends name cell name' cell' hcell hterminal hcell' hentry haccepts

theorem rank_lt_four (e : Engine) (h : Hop) : e.rank h < 4 := by
  unfold Engine.rank
  cases h.cell.bind e.registry.get? with
  | none => decide
  | some cell => exact cell.signature.rank_lt_four

/-- No walk makes more than four hops one after the other. -/
theorem generation_onward_eq_zero (he : e.Orderly σ) (hinv : Inv σ e.registry born n)
    {s : Multiset Hop} (hplaced : ∀ h ∈ s, n.Placed h) : generation (n.onward σ e) 4 s = 0 := by
  apply generation_eq_zero n.Placed e.rank
  · intro h hplaced h' hmem
    exact onward_descends he hinv hplaced hmem
  · intro h hmem
    exact ⟨hplaced h hmem, rank_lt_four e h⟩

/-- Hops each of which is a root or follows another are the hops of four generations. -/
theorem eq_sum_generation (he : e.Orderly σ) (hinv : Inv σ e.registry born n)
    {s roots : Multiset Hop} (hplaced : ∀ h ∈ s, n.Placed h)
    (hbalance : s = roots + s.bind (n.onward σ e)) :
    s = ∑ i ∈ Finset.range 4, generation (n.onward σ e) i roots := by
  have hnone : s + 0 = roots + s.bind (n.onward σ e) := (add_zero s).trans hbalance
  have hsum := add_sum_generation hnone 4
  rw [generation_onward_eq_zero he hinv hplaced] at hsum
  simpa [generation_zero] using hsum

/-- Hops each of which is a root or follows another, some of them left out, are not more than the
hops of four generations. -/
theorem card_le_of_balance (he : e.Orderly σ) (hinv : Inv σ e.registry born n)
    {s left roots : Multiset Hop} (hplaced : ∀ h ∈ s, n.Placed h)
    (hbalance : s + left = roots + s.bind (n.onward σ e)) {bound : Nat}
    (hbound : ∀ h, (n.onward σ e h).card ≤ bound) :
    s.card ≤ roots.card * (1 + bound + bound ^ 2 + bound ^ 3) := by
  have hsum := add_sum_generation hbalance 4
  rw [generation_onward_eq_zero he hinv hplaced, add_zero] at hsum
  have hcard := congrArg Multiset.card hsum
  rw [Multiset.card_add, Multiset.card_sum, Multiset.card_sum] at hcard
  have hgenerations : ∑ i ∈ Finset.range 4, (generation (n.onward σ e) i roots).card ≤
      ∑ i ∈ Finset.range 4, roots.card * bound ^ i :=
    Finset.sum_le_sum fun i _ => card_generation_le hbound i roots
  calc s.card ≤ ∑ i ∈ Finset.range 4, (generation (n.onward σ e) i roots).card :=
        hcard ▸ Nat.le_add_right _ _
    _ ≤ ∑ i ∈ Finset.range 4, roots.card * bound ^ i := hgenerations
    _ = roots.card * (1 + bound + bound ^ 2 + bound ^ 3) := by
        rw [← Finset.mul_sum]
        simp [Finset.sum_range_succ]

end Net

end SelfWiring
