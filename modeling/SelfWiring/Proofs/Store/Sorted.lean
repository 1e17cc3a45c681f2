import SelfWiring.Proofs.Store.Healthy

/-!
# What sorted sets hold

A store keeps its sorted sets if they can always be read, if no call but the writing of a score
changes one, and if that adds the one member, where the score is a number. The store in memory does,
and so does a healthy store of either make.
-/

namespace SelfWiring

/-- The entries of a sorted set as a store shows them. -/
def ranking {σ : Type} [Store σ] (s : σ) (key : String) : List (String × Score) :=
  match (Store.perform (.zrange key) s).1 with
  | .ok entries => entries
  | .error _ => []

/-- A store that keeps its sorted sets. -/
class Sorting (σ : Type) [Store σ] : Prop where
  zrange : ∀ key (s : σ), (Store.perform (.zrange key) s).1 = .ok (ranking s key)
  kept : ∀ {c : StoreCall}, c.Ageless → ∀ s : σ, ranking (Store.perform c s).2 = ranking s
  added : ∀ key member {score : Score} (s : σ), score.isNaN = false → ∀ other m,
    m ∈ (ranking (Store.perform (.zadd key member score) s).2 other).map (·.1) ↔
      m ∈ (ranking s other).map (·.1) ∨ other = key ∧ m = member

/-! ## The stores -/

namespace Memory

theorem sorted_perform {c : StoreCall} (hc : c.Ageless) (m : Memory) :
    (perform c m).2.sorted = m.sorted := by
  cases c
  case setInit => rw [perform]; split <;> rfl
  case pop => simp only [perform]; split <;> rfl
  all_goals first | rfl | exact hc.elim

theorem mem_ranked {entries : List (String × Score)} {member : String} :
    member ∈ (ranked entries).map (·.1) ↔ member ∈ entries.map (·.1) :=
  ((List.mergeSort_perm entries Score.leads).map (·.1)).mem_iff

end Memory

instance : Sorting Memory where
  zrange _ _ := rfl
  kept {c} hc m := by
    funext key
    show Memory.ranked (((Memory.perform c m).2.sorted.get? key).getD {}).entries = _
    rw [Memory.sorted_perform hc]
    rfl
  added key member score m _ other x := by
    show x ∈ (Memory.ranked _).map (·.1) ↔ x ∈ (Memory.ranked _).map (·.1) ∨ _
    rw [Memory.mem_ranked, Memory.mem_ranked]
    show x ∈ ((((m.sorted.insert key _).get? other).getD {}).entries).map (·.1) ↔ _
    rw [Dict.get?_insert]
    split
    case isTrue h => simp [h, Dict.insert, Dict.mem_keys_put]
    case isFalse h => simp [h]

namespace Tables

theorem scores_perform {c : StoreCall} (hc : c.Ageless) (t : Tables) :
    (perform c t).2.scores = t.scores := by
  cases c
  case setInit key members =>
    rw [perform]
    split
    · rfl
    · exact t.scores_withMembers key members
  case setAdd key members => exact t.scores_withMembers key members
  case pop => simp only [perform]; split <;> rfl
  all_goals first | rfl | exact hc.elim

theorem mem_scoresOf {t : Tables} {key member : String} :
    member ∈ (t.scoresOf key).map (·.1) ↔ ∃ r ∈ t.scores, r.key = key ∧ r.member = member := by
  rw [scoresOf, ((List.mergeSort_perm _ Score.leads).map (·.1)).mem_iff, List.map_map]
  simp [and_assoc]

/-- A row that is put among others is there, and all members stay. -/
theorem exists_putScore (row : ScoreRow) (rows : List ScoreRow) (key member : String) :
    (∃ r ∈ putScore row rows, r.key = key ∧ r.member = member) ↔
      (∃ r ∈ rows, r.key = key ∧ r.member = member) ∨ row.key = key ∧ row.member = member := by
  rw [putScore]
  split
  case isFalse => simp [or_and_right, exists_or]
  case isTrue hthere =>
    -- the row that is replaced has the same key and member
    have hsame : ∀ r : ScoreRow, (if r.key = row.key ∧ r.member = row.member then row else r).key =
        r.key ∧ (if r.key = row.key ∧ r.member = row.member then row else r).member = r.member := by
      intro r
      split
      case isTrue h => exact ⟨h.1.symm, h.2.symm⟩
      case isFalse => exact ⟨rfl, rfl⟩
    obtain ⟨r₀, hr₀, hkey, hmember⟩ : ∃ r ∈ rows, r.key = row.key ∧ r.member = row.member := by
      simpa using hthere
    constructor
    · rintro ⟨_, hr, hrow⟩
      obtain ⟨r, hmem, rfl⟩ := List.mem_map.mp hr
      rw [(hsame r).1, (hsame r).2] at hrow
      exact Or.inl ⟨r, hmem, hrow⟩
    · rintro (⟨r, hr, hrow⟩ | hrow)
      · refine ⟨_, List.mem_map.mpr ⟨r, hr, rfl⟩, ?_⟩
        rw [(hsame r).1, (hsame r).2]
        exact hrow
      · refine ⟨_, List.mem_map.mpr ⟨r₀, hr₀, rfl⟩, ?_⟩
        rw [(hsame r₀).1, (hsame r₀).2, hkey, hmember]
        exact hrow

end Tables

namespace HealthyStore

theorem ranking_database {d : Database} (h : d.Healthy) :
    ranking (⟨.database d, h⟩ : HealthyStore) = d.tables.scoresOf := by
  have hzrange : ∀ key, (Store.perform (.zrange key) (⟨.database d, h⟩ : HealthyStore)).1 =
      .ok (d.tables.scoresOf key) := fun key =>
    congrArg Prod.fst (Database.perform_eq h (.zrange key))
  funext key
  rw [ranking, hzrange]

theorem perform_database {d : Database} (h : d.Healthy) (c : StoreCall) :
    ∃ h', (Store.perform c (⟨.database d, h⟩ : HealthyStore)).2 =
      ⟨.database { d with tables := (d.tables.perform c).2 }, h'⟩ := by
  have hperform := congrArg Prod.snd (Database.perform_eq h c)
  have hafter : Database.Healthy { d with tables := (d.tables.perform c).2 } := by
    have hhealthy := h.perform c
    rw [hperform] at hhealthy
    exact hhealthy
  exact ⟨hafter, Subtype.ext (congrArg Backend.database hperform)⟩

end HealthyStore

open HealthyStore in
instance : Sorting HealthyStore where
  zrange key s := by
    obtain ⟨m | d, h⟩ := s
    · rfl
    · rw [ranking_database h]
      exact congrArg Prod.fst (Database.perform_eq h (.zrange key))
  kept {c} hc s := by
    obtain ⟨m | d, h⟩ := s
    · exact Sorting.kept hc m
    · obtain ⟨h', hafter⟩ := perform_database h c
      rw [hafter, ranking_database h', ranking_database h]
      show Tables.scoresOf (d.tables.perform c).2 = _
      funext key
      rw [Tables.scoresOf, Tables.scores_perform hc]
      rfl
  added key member score s hscore other x := by
    obtain ⟨m | d, h⟩ := s
    · exact Sorting.added key member m hscore other x
    · obtain ⟨h', hafter⟩ := perform_database h (.zadd key member score)
      rw [hafter, ranking_database h', ranking_database h]
      rw [Tables.mem_scoresOf, Tables.mem_scoresOf]
      have hperform : (d.tables.perform (.zadd key member score)).2.scores =
          Tables.putScore ⟨key, member, score.unsignedZero⟩ d.tables.scores := by
        simp only [Tables.perform, hscore, Bool.false_eq_true, if_false]
      show (∃ r ∈ (d.tables.perform (.zadd key member score)).2.scores, _) ↔ _
      rw [hperform, Tables.exists_putScore, eq_comm (a := key), eq_comm (a := member)]

end SelfWiring
