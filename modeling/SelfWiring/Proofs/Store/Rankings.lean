import Mathlib.Data.List.Nodup
import SelfWiring.Proofs.Store.Sorted

/-!
# Sorted sets side by side

Writing a score changes the one sorted set that it is for, and a member that has a score already is
not entered again. Both kinds of store behave so.
-/

namespace SelfWiring

/-- A store whose sorted sets leave each other alone and hold each member once. -/
class SeparateRankings (σ : Type) [Store σ] : Prop extends Sorting σ where
  aside : ∀ key member score (s : σ) other, other ≠ key →
    ranking (Store.perform (.zadd key member score) s).2 other = ranking s other
  once : ∀ key member score (s : σ) other, ((ranking s other).map (·.1)).Nodup →
    ((ranking (Store.perform (.zadd key member score) s).2 other).map (·.1)).Nodup

/-! ## The store in memory -/

theorem Memory.nodup_ranked {entries : List (String × Score)} :
    ((ranked entries).map (·.1)).Nodup ↔ (entries.map (·.1)).Nodup :=
  ((List.mergeSort_perm entries Score.leads).map (·.1)).nodup_iff

instance : SeparateRankings Memory where
  aside key member score m other hother := by
    show Memory.ranked (((m.sorted.insert key _).get? other).getD {}).entries = _
    rw [Dict.get?_insert_of_ne _ _ hother]
    rfl
  once key member score m other h := by
    show ((Memory.ranked (((m.sorted.insert key _).get? other).getD {}).entries).map (·.1)).Nodup
    have hentries := Memory.nodup_ranked.mp h
    rw [Memory.nodup_ranked, Dict.get?_insert]
    split
    case isTrue heq => exact Dict.nodup_keys_put member score (heq ▸ hentries)
    case isFalse => exact hentries

/-! ## Tables -/

namespace Tables

theorem nodup_scoresOf {t : Tables} {key : String} :
    ((t.scoresOf key).map (·.1)).Nodup ↔ ((t.scoreEntries key).map (·.1)).Nodup :=
  ((List.mergeSort_perm (t.scoreEntries key) Score.leads).map (·.1)).nodup_iff

theorem nodup_putScore (t : Tables) (row : ScoreRow) {key : String}
    (h : ((t.scoreEntries key).map (·.1)).Nodup) :
    ((({ t with scores := putScore row t.scores } : Tables).scoreEntries key).map (·.1)).Nodup := by
  by_cases hkey : key = row.key
  · subst hkey
    rw [scoreEntries_putScore]
    split
    case isTrue =>
      have hmembers : ((t.scoreEntries row.key).map fun e =>
          if e.1 = row.member then (row.member, row.score) else e).map (·.1) =
            (t.scoreEntries row.key).map (·.1) := by
        rw [List.map_map]
        refine List.map_congr_left fun e _ => ?_
        show (if e.1 = row.member then (row.member, row.score) else e).1 = e.1
        split
        case isTrue heq => exact heq.symm
        case isFalse => rfl
      rw [hmembers]
      exact h
    case isFalse hnew =>
      rw [List.map_append]
      exact List.Nodup.append h (List.nodup_singleton _) (List.disjoint_singleton.mpr hnew)
  · rw [scoreEntries_putScore_of_ne t row hkey]
    exact h

/-- A score is put among the others, or refused. -/
theorem perform_zadd (key member : String) (score : Score) (t : Tables) :
    (t.perform (.zadd key member score)).2 = t ∨ (t.perform (.zadd key member score)).2 =
      { t with scores := putScore ⟨key, member, score.unsignedZero⟩ t.scores } := by
  rw [perform]
  split
  · exact .inl rfl
  · exact .inr rfl

end Tables

open HealthyStore in
instance : SeparateRankings HealthyStore where
  aside key member score s other hother := by
    obtain ⟨m | d, h⟩ := s
    · exact SeparateRankings.aside key member score m other hother
    · obtain ⟨h', hafter⟩ := perform_database h (.zadd key member score)
      rw [hafter, ranking_database h', ranking_database h]
      show Tables.scoresOf (d.tables.perform _).2 other = _
      rcases d.tables.perform_zadd key member score with hperform | hperform
      · rw [hperform]
      · have hentries : Tables.scoreEntries (d.tables.perform _).2 other = _ :=
          hperform ▸ d.tables.scoreEntries_putScore_of_ne _ hother
        exact congrArg (List.mergeSort · Score.leads) hentries
  once key member score s other hnodup := by
    obtain ⟨m | d, h⟩ := s
    · exact SeparateRankings.once key member score m other hnodup
    · obtain ⟨h', hafter⟩ := perform_database h (.zadd key member score)
      rw [ranking_database h, Tables.nodup_scoresOf] at hnodup
      rw [hafter, ranking_database h', Tables.nodup_scoresOf]
      show ((Tables.scoreEntries (d.tables.perform _).2 other).map (·.1)).Nodup
      rcases d.tables.perform_zadd key member score with hperform | hperform
      · rw [hperform]
        exact hnodup
      · rw [hperform]
        exact d.tables.nodup_putScore _ hnodup

end SelfWiring
