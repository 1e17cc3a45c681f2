import SelfWiring.Random.Generator

/-!
# Bounds of draws

A number drawn below a bound is below it, so an exploration draws no more cells than it may. All
cells that are drawn come from among the candidates.
-/

namespace SelfWiring.Random.Generator

theorem scaled_lt {v n bits : Nat} (hn : 0 < n) (hv : v < Nat.pow 2 bits) :
    v * n / Nat.pow 2 bits < n := by
  apply Nat.div_lt_of_lt_mul
  exact Nat.mul_lt_mul_of_pos_right hv hn

theorem below_lt {bits n : Nat} {draw : Generator → Nat × Generator} (hn : 0 < n)
    (hdraw : ∀ g, (draw g).1 < Nat.pow 2 bits) (tries : Nat) :
    ∀ g, (below bits n draw tries g).1 < n := by
  induction tries with
  | zero => intro g; exact scaled_lt hn (hdraw g)
  | succ tries ih =>
    intro g
    show (if (draw g).1 * n % Nat.pow 2 bits ≤ zone bits n then
        ((draw g).1 * n / Nat.pow 2 bits, (draw g).2)
      else below bits n draw tries (draw g).2).1 < n
    split
    · exact scaled_lt hn (hdraw g)
    · exact ih _

theorem below64_lt {n : Nat} (hn : 0 < n) (g : Generator) : (below64 n g).1 < n := by
  unfold below64
  by_cases hwhole : n % 0x10000000000000000 = 0
  · rw [if_pos hwhole]
    have hmax : 2 ^ 64 ≤ n := Nat.le_of_dvd hn (Nat.dvd_of_mod_eq_zero hwhole)
    exact Nat.lt_of_lt_of_le (UInt64.toNat_lt _) hmax
  · rw [if_neg hwhole]
    exact below_lt hn (fun g => UInt64.toNat_lt _) patience g

theorem length_pick_le (candidates : List String) (k : Nat) :
    ∀ g, (pick candidates k g).1.length ≤ k := by
  induction k with
  | zero => intro g; exact Nat.le_refl 0
  | succ k ih =>
    intro g
    have hrest := ih (g.below32 candidates.length).2
    have hone : (candidates[(g.below32 candidates.length).1]?).toList.length ≤ 1 := by
      cases candidates[(g.below32 candidates.length).1]? <;> simp
    simp only [pick, List.length_append]
    omega

/-- No more cells are drawn than are allowed. -/
theorem length_cells_le (limit : UInt64) (candidates : List String) (g : Generator) :
    (g.cells limit candidates).1.length ≤ limit.toNat := by
  unfold cells
  split
  · exact Nat.zero_le _
  · have hdrawn := length_pick_le candidates (g.below64 (limit.toNat + 1)).1
      (g.below64 (limit.toNat + 1)).2
    have hcount := below64_lt (Nat.succ_pos limit.toNat) g
    exact Nat.le_trans hdrawn (Nat.le_of_lt_succ hcount)

theorem mem_pick {candidates : List String} {c : String} (k : Nat) :
    ∀ g, c ∈ (pick candidates k g).1 → c ∈ candidates := by
  induction k with
  | zero => intro g h; exact absurd h (by simp [pick])
  | succ k ih =>
    intro g h
    simp only [pick, List.mem_append, Option.mem_toList] at h
    rcases h with h | h
    · exact List.mem_of_getElem? h
    · exact ih _ h

theorem mem_cells {limit : UInt64} {candidates : List String} {g : Generator} {c : String}
    (h : c ∈ (g.cells limit candidates).1) : c ∈ candidates := by
  unfold cells at h
  split at h
  · exact absurd h (by simp)
  · exact mem_pick _ _ h

end SelfWiring.Random.Generator
