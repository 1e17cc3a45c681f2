import Mathlib.Data.List.Nodup
import SelfWiring.Proofs.Store.Ideal
import SelfWiring.Store.Tables

/-!
# The table store is ideal

Rows under ascending numbers stand for lists and sets: the rows of one list, in the order of their
numbers, are its items, and the rows of one set are its members. All lists share one table and all
sets another, so what has to be kept along is that the numbers ascend over the whole table and that
each next number is still free.
-/

namespace SelfWiring

/-! ## Numbered rows -/

section Numbered

variable {ρ : Type} {id : ρ → Nat} {rows : List ρ} {next : Nat}

/-- The numbers of the rows ascend, and the next number is above all of them. -/
structure Numbered (id : ρ → Nat) (rows : List ρ) (next : Nat) : Prop where
  ascending : rows.Pairwise fun a b => id a < id b
  below : ∀ r ∈ rows, id r < next

theorem Numbered.append (h : Numbered id rows next) {row : ρ} (hrow : id row = next) :
    Numbered id (rows ++ [row]) (next + 1) := by
  constructor
  · refine List.pairwise_append.mpr ⟨h.ascending, List.pairwise_singleton _ _, ?_⟩
    intro a ha b hb
    rw [List.mem_singleton.mp hb, hrow]
    exact h.below a ha
  · intro r hr
    rcases List.mem_append.mp hr with hr | hr
    · exact Nat.lt_succ_of_lt (h.below r hr)
    · rw [List.mem_singleton.mp hr, hrow]
      exact Nat.lt_succ_self _

theorem Numbered.filter (h : Numbered id rows next) (p : ρ → Bool) :
    Numbered id (rows.filter p) next :=
  ⟨h.ascending.filter _, fun r hr => h.below r (List.mem_filter.mp hr).1⟩

/-- Rows that were selected from a table are in the order of their numbers already. -/
theorem Numbered.mergeSort_filter (h : Numbered id rows next) (p : ρ → Bool) :
    (rows.filter p).mergeSort (fun a b => decide (id a ≤ id b)) = rows.filter p :=
  List.mergeSort_of_pairwise ((h.filter p).ascending.imp fun hlt => decide_eq_true hlt.le)

theorem Numbered.eq_of_id (h : Numbered id rows next) {r r' : ρ} (hr : r ∈ rows) (hr' : r' ∈ rows)
    (hid : id r = id r') : r = r' := by
  have hnodup : (rows.map id).Nodup :=
    List.pairwise_map.mpr (h.ascending.imp fun hlt => hlt.ne)
  exact List.inj_on_of_nodup_map hnodup hr hr' hid

end Numbered

namespace Tables

/-- The rows of a set, as members. -/
def memberNames (t : Tables) (key : String) : List String :=
  (t.members.filter (·.key == key)).map (·.member)

/-- The rows of a list, as items. -/
def itemValues (t : Tables) (list : String) : List String :=
  (t.items.filter (·.list == list)).map (·.value)

/-- The rows of a sorted set, as entries. -/
def scoreEntries (t : Tables) (key : String) : List (String × Score) :=
  (t.scores.filter (·.key == key)).map fun r => (r.member, r.score)

/-- The set of a key, if it has a header. -/
def set? (t : Tables) (key : String) : Option (List String) :=
  if t.headers.contains key then some (t.memberNames key) else none

def contents (t : Tables) : Contents := ⟨t.text?, t.itemValues, t.set?⟩

/-- The rows are numbered, and members have a set that they belong to. -/
structure Orderly (t : Tables) : Prop where
  items : Numbered ListRow.id t.items t.nextItem
  members : Numbered MemberRow.id t.members t.nextMember
  owned : ∀ r ∈ t.members, r.key ∈ t.headers

/-- The tables hold what the ideal store does. -/
structure Realizes (t : Tables) (i : Ideal) : Prop where
  orderly : t.Orderly
  contents : t.contents = i.toContents
  sorted : ∀ key, (t.scoreEntries key).Perm (i.sorted key).entries

/-! ## Texts -/

theorem find?_upsert (key value : String) (rows : List (String × String)) (k : String) :
    ((upsert key value rows).find? (·.1 == k)).map (·.2) =
      if k = key then some value else (rows.find? (·.1 == k)).map (·.2) := by
  unfold upsert
  split
  case isTrue hpresent =>
    -- the new row has the key of the one that it replaces
    have hsame : (fun r : String × String => (if r.1 = key then (key, value) else r).1 == k) =
        fun r => r.1 == k := by
      funext r
      by_cases hr : r.1 = key <;> simp [hr]
    rw [List.find?_map, Function.comp_def, hsame, Option.map_map]
    rcases hfind : rows.find? (·.1 == k) with _ | r
    · have habsent := List.find?_eq_none.mp hfind
      obtain ⟨r, hr, hkey⟩ := List.any_eq_true.mp hpresent
      have hne : k ≠ key := by
        rintro rfl
        exact habsent r hr hkey
      rw [hfind, if_neg hne]
      rfl
    · have hr : r.1 = k := by simpa using List.find?_some hfind
      rw [hfind]
      by_cases hk : k = key <;> simp [hr, hk]
  case isFalse habsent =>
    rw [List.find?_append]
    by_cases hk : k = key
    · have hnone : rows.find? (·.1 == k) = none := by
        refine List.find?_eq_none.mpr fun r hr hkey => habsent ?_
        exact List.any_eq_true.mpr ⟨r, hr, hk ▸ hkey⟩
      simp [hnone, ← hk]
    · have hkey : (key == k) = false := beq_eq_false_iff_ne.mpr (Ne.symm hk)
      simp [hk, hkey]

theorem text?_upsert (t : Tables) (key value : String) :
    ({ t with texts := upsert key value t.texts } : Tables).text? =
      Function.update t.text? key (some value) := by
  funext k
  rw [Function.update_apply]
  exact find?_upsert key value t.texts k

/-! ## Lists -/

theorem oldest?_eq {t : Tables} (h : t.Orderly) (list : String) :
    t.oldest? list = (t.items.filter (·.list == list)).head? := by
  rw [oldest?, h.items.mergeSort_filter]

theorem itemValues_push (t : Tables) (list value : String) :
    ({ t with items := t.items ++ [⟨t.nextItem, list, value⟩], nextItem := t.nextItem + 1 }
      : Tables).itemValues =
      Function.update t.itemValues list (t.itemValues list ++ [value]) := by
  funext l
  rw [Function.update_apply]
  by_cases hl : l = list
  · simp [itemValues, hl]
  · simp [itemValues, hl, Ne.symm hl]

/-- The rows of one list are those that stay when the oldest one goes, and no other list loses a
row. -/
theorem itemValues_pop {t : Tables} (h : t.Orderly) {list : String} {row : ListRow}
    {rest : List ListRow} (hrows : t.items.filter (·.list == list) = row :: rest) :
    ({ t with items := t.items.filter (·.id != row.id) } : Tables).itemValues =
      Function.update t.itemValues list (rest.map (·.value)) := by
  have hrow : row ∈ t.items ∧ row.list = list := by
    have hmem : row ∈ t.items.filter (·.list == list) := hrows ▸ List.mem_cons_self
    simpa using hmem
  funext l
  rw [Function.update_apply]
  have hcomm : (t.items.filter (·.id != row.id)).filter (·.list == l) =
      (t.items.filter (·.list == l)).filter (·.id != row.id) := by
    rw [List.filter_filter, List.filter_filter]
    exact List.filter_congr fun _ _ => Bool.and_comm _ _
  show ((t.items.filter (·.id != row.id)).filter (·.list == l)).map (·.value) = _
  rw [hcomm]
  by_cases hl : l = list
  · have hascending := (h.items.filter (·.list == list)).ascending
    rw [hrows, List.pairwise_cons] at hascending
    have hrest : rest.filter (·.id != row.id) = rest := by
      refine List.filter_eq_self.mpr fun r hr => ?_
      exact bne_iff_ne.mpr (hascending.1 r hr).ne'
    rw [hl, hrows, List.filter_cons_of_neg (by simp), hrest, if_pos rfl]
  · have hall : (t.items.filter (·.list == l)).filter (·.id != row.id) =
        t.items.filter (·.list == l) := by
      refine List.filter_eq_self.mpr fun r hr => bne_iff_ne.mpr fun hid => hl ?_
      have hr' : r ∈ t.items ∧ r.list = l := by simpa using hr
      rw [← hr'.2, h.items.eq_of_id hr'.1 hrow.1 hid, hrow.2]
    rw [hall, if_neg hl]
    rfl

/-! ## Sets -/

/-- Adding members changes the member rows and nothing else. -/
theorem foldl_addMember_eq (key : String) (t : Tables) (members : List String) :
    ∃ rows next, members.foldl (addMember key) t =
      { t with members := rows, nextMember := next } := by
  induction members generalizing t with
  | nil => exact ⟨_, _, rfl⟩
  | cons m members ih =>
    obtain ⟨rows, next, hrest⟩ := ih (addMember key t m)
    refine ⟨rows, next, hrest.trans ?_⟩
    unfold addMember
    split <;> rfl

theorem memberNames_addMember (key : String) (t : Tables) (m : String) :
    (addMember key t m).memberNames = Function.update t.memberNames key
      (if (t.memberNames key).contains m then t.memberNames key else t.memberNames key ++ [m]) := by
  have hpresent : (t.members.any fun r => r.key == key && r.member == m) =
      (t.memberNames key).contains m := by
    rw [Bool.eq_iff_iff, List.any_eq_true, List.contains_iff_mem, memberNames, List.mem_map]
    simp [and_assoc]
  rw [addMember, hpresent]
  split
  · rw [Function.update_eq_self]
  · funext k
    rw [Function.update_apply]
    by_cases hk : k = key
    · simp [memberNames, hk]
    · simp [memberNames, hk, Ne.symm hk]

theorem memberNames_foldl (key : String) (t : Tables) (members : List String) :
    (members.foldl (addMember key) t).memberNames =
      Function.update t.memberNames key (addMembers (t.memberNames key) members) := by
  induction members generalizing t with
  | nil => exact (Function.update_eq_self _ _).symm
  | cons m members ih =>
    rw [List.foldl_cons, ih, memberNames_addMember, Function.update_self, Function.update_idem]
    rfl

theorem Orderly.addMember {t : Tables} (h : t.Orderly) {key : String} (hkey : key ∈ t.headers)
    (m : String) : (t.addMember key m).Orderly := by
  unfold Tables.addMember
  split
  · exact h
  · refine ⟨h.items, h.members.append rfl, fun r hr => ?_⟩
    rcases List.mem_append.mp hr with hr | hr
    · exact h.owned r hr
    · rw [List.mem_singleton.mp hr]
      exact hkey

theorem Orderly.foldl_addMember {t : Tables} (h : t.Orderly) {key : String}
    (hkey : key ∈ t.headers) (members : List String) :
    (members.foldl (Tables.addMember key) t).Orderly := by
  induction members generalizing t with
  | nil => exact h
  | cons m members ih =>
    refine ih (h.addMember hkey m) ?_
    unfold Tables.addMember
    split <;> exact hkey

theorem mem_addHeader (key : String) (t : Tables) (k : String) :
    k ∈ (addHeader key t).headers ↔ k = key ∨ k ∈ t.headers := by
  unfold addHeader
  split
  case isTrue hpresent =>
    refine ⟨Or.inr, ?_⟩
    rintro (rfl | hk)
    · exact List.contains_iff_mem.mp hpresent
    · exact hk
  case isFalse habsent =>
    rw [List.mem_append, List.mem_singleton, or_comm]

theorem addHeader_eq (key : String) (t : Tables) :
    ∃ headers, addHeader key t = { t with headers } := by
  unfold addHeader
  split
  · exact ⟨t.headers, rfl⟩
  · exact ⟨_, rfl⟩

theorem Orderly.addHeader {t : Tables} (h : t.Orderly) (key : String) :
    (t.addHeader key).Orderly := by
  have hmem := mem_addHeader key t
  obtain ⟨headers, heq⟩ := addHeader_eq key t
  rw [heq] at hmem ⊢
  exact ⟨h.items, h.members, fun r hr => (hmem r.key).mpr (Or.inr (h.owned r hr))⟩

/-- A set without a header has no members. -/
theorem Orderly.memberNames_eq {t : Tables} (h : t.Orderly) (key : String) :
    t.memberNames key = (t.set? key).getD [] := by
  unfold set?
  split
  case isTrue => rfl
  case isFalse habsent =>
    refine List.map_eq_nil_iff.mpr (List.filter_eq_nil_iff.mpr fun r hr hkey => habsent ?_)
    exact List.contains_iff_mem.mpr (beq_iff_eq.mp hkey ▸ h.owned r hr)

/-- The tables with a set that has some members more. -/
def withMembers (t : Tables) (key : String) (members : List String) : Tables :=
  members.foldl (addMember key) (addHeader key t)

theorem Orderly.withMembers {t : Tables} (h : t.Orderly) (key : String) (members : List String) :
    (t.withMembers key members).Orderly :=
  (h.addHeader key).foldl_addMember ((mem_addHeader key t key).mpr (Or.inl rfl)) members

theorem withMembers_eq (t : Tables) (key : String) (members : List String) :
    ∃ headers rows next, t.withMembers key members =
      { t with headers, members := rows, nextMember := next } := by
  obtain ⟨headers, heq⟩ := addHeader_eq key t
  obtain ⟨rows, next, hfold⟩ := foldl_addMember_eq key (addHeader key t) members
  refine ⟨headers, rows, next, ?_⟩
  rw [withMembers, hfold, heq]

theorem mem_headers_withMembers (t : Tables) (key : String) (members : List String) (k : String) :
    k ∈ (t.withMembers key members).headers ↔ k = key ∨ k ∈ t.headers := by
  obtain ⟨rows, next, hfold⟩ := foldl_addMember_eq key (addHeader key t) members
  rw [withMembers, hfold]
  exact mem_addHeader key t k

theorem memberNames_withMembers (t : Tables) (key : String) (members : List String) :
    (t.withMembers key members).memberNames =
      Function.update t.memberNames key (addMembers (t.memberNames key) members) := by
  obtain ⟨headers, heq⟩ := addHeader_eq key t
  rw [withMembers, memberNames_foldl, heq]
  rfl

theorem set?_withMembers {t : Tables} (h : t.Orderly) (key : String) (members : List String) :
    (t.withMembers key members).set? = Function.update t.set? key
      (some (addMembers ((t.set? key).getD []) members)) := by
  funext k
  have hheader := mem_headers_withMembers t key members k
  rw [Function.update_apply, set?, memberNames_withMembers, Function.update_apply,
    h.memberNames_eq key]
  by_cases hk : k = key
  · rw [if_pos hk, if_pos hk, if_pos (List.contains_iff_mem.mpr (hheader.mpr (Or.inl hk)))]
  · have hsame : (t.withMembers key members).headers.contains k = t.headers.contains k := by
      rw [Bool.eq_iff_iff, List.contains_iff_mem, List.contains_iff_mem, hheader, or_iff_right hk]
    rw [hsame, if_neg hk, if_neg hk, set?]

theorem contents_withMembers {t : Tables} (h : t.Orderly) (key : String) (members : List String) :
    (t.withMembers key members).contents =
      t.contents.putSet key (addMembers ((t.set? key).getD []) members) := by
  have hset := set?_withMembers h key members
  obtain ⟨headers, rows, next, heq⟩ := t.withMembers_eq key members
  rw [heq] at hset ⊢
  exact Contents.ext rfl rfl hset

theorem scores_withMembers (t : Tables) (key : String) (members : List String) :
    (t.withMembers key members).scores = t.scores := by
  obtain ⟨headers, rows, next, heq⟩ := t.withMembers_eq key members
  rw [heq]

theorem texts_withMembers (t : Tables) (key : String) (members : List String) :
    (t.withMembers key members).texts = t.texts := by
  obtain ⟨headers, rows, next, heq⟩ := t.withMembers_eq key members
  rw [heq]

theorem membersOf_eq {t : Tables} (h : t.Orderly) (key : String) :
    t.membersOf key = t.memberNames key := by
  rw [membersOf, h.members.mergeSort_filter, memberNames]

/-! ## Sorted sets -/

/-- Writing the entry of a member that is there once replaces that entry. -/
theorem replace_perm {member : String} {score : Score} :
    ∀ {entries : List (String × Score)}, (entries.map (·.1)).Nodup →
      member ∈ entries.map (·.1) →
      (entries.map fun e => if e.1 = member then (member, score) else e).Perm
        ((member, score) :: entries.filter (·.1 ≠ member))
  | [], _, hmem => absurd hmem List.not_mem_nil
  | e :: rest, hnodup, hmem => by
    rw [List.map_cons, List.nodup_cons] at hnodup
    rw [List.map_cons]
    by_cases he : e.1 = member
    · have hne : ∀ x ∈ rest, x.1 ≠ member := by
        intro x hx heq
        exact hnodup.1 (List.mem_map.mpr ⟨x, hx, heq.trans he.symm⟩)
      have hkept : rest.map (fun e => if e.1 = member then (member, score) else e) = rest :=
        (List.map_congr_left fun x hx => if_neg (hne x hx)).trans (List.map_id _)
      have hall : rest.filter (·.1 ≠ member) = rest :=
        List.filter_eq_self.mpr fun x hx => decide_eq_true (hne x hx)
      rw [if_pos he, List.filter_cons_of_neg (by simpa using he), hkept, hall]
    · have hrest : member ∈ rest.map (·.1) :=
        (List.mem_cons.mp hmem).resolve_left (Ne.symm he)
      rw [if_neg he, List.filter_cons_of_pos (by simpa using he)]
      exact ((replace_perm hnodup.2 hrest).cons e).trans (.swap _ _ _)

/-- A row that takes the place of another one belongs to the same sorted set. -/
theorem filter_replaceRow (row : ScoreRow) (rows : List ScoreRow) (k : String) :
    (rows.map fun r => if r.key = row.key ∧ r.member = row.member then row else r).filter
        (·.key == k) =
      (rows.filter (·.key == k)).map fun r =>
        if r.key = row.key ∧ r.member = row.member then row else r := by
  rw [List.filter_map]
  refine congrArg _ (List.filter_congr fun r _ => ?_)
  rw [Function.comp_apply]
  split
  case isTrue hsame => rw [hsame.1]
  case isFalse => rfl

theorem scoreEntries_putScore_of_ne (t : Tables) (row : ScoreRow) {k : String}
    (hk : k ≠ row.key) :
    ({ t with scores := putScore row t.scores } : Tables).scoreEntries k = t.scoreEntries k := by
  refine congrArg (List.map _) ?_
  show (putScore row t.scores).filter (·.key == k) = t.scores.filter (·.key == k)
  unfold putScore
  split
  · rw [filter_replaceRow]
    refine (List.map_congr_left fun r hr => if_neg ?_).trans (List.map_id _)
    rintro ⟨hkey, -⟩
    exact hk (hkey ▸ (beq_iff_eq.mp (List.mem_filter.mp hr).2).symm)
  · simp [Ne.symm hk]

/-- Writing a score comes to writing an entry of its sorted set. -/
theorem scoreEntries_putScore (t : Tables) (row : ScoreRow) :
    ({ t with scores := putScore row t.scores } : Tables).scoreEntries row.key =
      if row.member ∈ (t.scoreEntries row.key).map (·.1) then
        (t.scoreEntries row.key).map fun e =>
          if e.1 = row.member then (row.member, row.score) else e
      else t.scoreEntries row.key ++ [(row.member, row.score)] := by
  have hpresent : (t.scores.any fun r => r.key == row.key && r.member == row.member) ↔
      row.member ∈ (t.scoreEntries row.key).map (·.1) := by
    rw [scoreEntries, List.map_map, List.any_eq_true, List.mem_map]
    simp [and_assoc]
  show ((putScore row t.scores).filter (·.key == row.key)).map _ = _
  unfold putScore
  by_cases hmem : row.member ∈ (t.scoreEntries row.key).map (·.1)
  · rw [if_pos (hpresent.mpr hmem), if_pos hmem, filter_replaceRow, scoreEntries, List.map_map,
      List.map_map]
    refine List.map_congr_left fun r hr => ?_
    have hkey : r.key = row.key := beq_iff_eq.mp (List.mem_filter.mp hr).2
    by_cases hmember : r.member = row.member <;> simp [hkey, hmember]
  · rw [if_neg (fun h => hmem (hpresent.mp h)), if_neg hmem]
    simp [scoreEntries]

theorem scoreEntries_zadd_perm {t : Tables} {s : SortedSet} {row : ScoreRow}
    (h : (t.scoreEntries row.key).Perm s.entries) (hplain : row.score.Plain) :
    (({ t with scores := putScore row t.scores } : Tables).scoreEntries row.key).Perm
      (s.put (row.member, row.score) hplain).entries := by
  have hothers : ((t.scoreEntries row.key).filter (·.1 ≠ row.member)).Perm
      (s.others row.member) := h.filter _
  have hput := s.entriesWith_perm (row.member, row.score)
  refine List.Perm.trans ?_ ((hothers.cons (row.member, row.score)).trans hput.symm)
  rw [scoreEntries_putScore]
  split
  case isTrue hmem => exact replace_perm ((h.map (·.1)).nodup_iff.mpr s.unrepeated) hmem
  case isFalse habsent =>
    have hall : (t.scoreEntries row.key).filter (·.1 ≠ row.member) = t.scoreEntries row.key := by
      refine List.filter_eq_self.mpr fun e he => decide_eq_true fun heq => habsent ?_
      exact List.mem_map.mpr ⟨e, he, heq⟩
    rw [hall]
    exact List.perm_append_singleton _ _

/-! ## Calls -/

/-- Every call leaves the rows numbered and the members with a set. -/
theorem Orderly.perform {t : Tables} (h : t.Orderly) (c : StoreCall) :
    (Tables.perform c t).2.Orderly := by
  cases c
  case push list value => exact ⟨h.items.append rfl, h.members, h.owned⟩
  case pop list =>
    simp only [Tables.perform]
    split
    · exact ⟨h.items.filter _, h.members, h.owned⟩
    · exact h
  case setInit key members =>
    simp only [Tables.perform]
    split
    · exact h
    · exact h.withMembers key members
  case setAdd key members => exact h.withMembers key members
  case zadd key member score =>
    simp only [Tables.perform]
    split
    · exact h
    · exact ⟨h.items, h.members, h.owned⟩
  all_goals exact ⟨h.items, h.members, h.owned⟩

section

variable {t : Tables}

theorem performs_set (key value : String) :
    Performs contents (.set key value) t (.ok ()) (t.contents.putText key value) :=
  ⟨rfl, Contents.ext (text?_upsert t key value) rfl rfl⟩

theorem performs_incr (key : String) :
    Performs contents (.incr key) t (.ok (nextCount (t.text? key)))
      (t.contents.putText key (countText (nextCount (t.text? key)))) :=
  ⟨rfl, Contents.ext (text?_upsert t key _) rfl rfl⟩

theorem performs_push (list value : String) :
    Performs contents (.push list value) t (.ok ())
      (t.contents.putList list (t.itemValues list ++ [value])) :=
  ⟨rfl, Contents.ext rfl (itemValues_push t list value) rfl⟩

theorem performs_pop_nil (h : t.Orderly) {list : String} (hlist : t.itemValues list = []) :
    Performs contents (.pop list) t (.ok none) t.contents := by
  have hrows : t.items.filter (·.list == list) = [] := List.map_eq_nil_iff.mp hlist
  have hperform : Tables.perform (.pop list) t = (.ok none, t) := by
    simp only [Tables.perform, oldest?_eq h, hrows, List.head?_nil]
  exact ⟨congrArg Prod.fst hperform, congrArg (fun r => contents r.2) hperform⟩

theorem performs_pop_cons (h : t.Orderly) {list head : String} {rest : List String}
    (hlist : t.itemValues list = head :: rest) :
    Performs contents (.pop list) t (.ok (some head)) (t.contents.putList list rest) := by
  obtain ⟨row, rows, hrows, rfl, rfl⟩ := List.map_eq_cons_iff.mp hlist
  have hperform : Tables.perform (.pop list) t =
      (.ok (some row.value), { t with items := t.items.filter (·.id != row.id) }) := by
    simp only [Tables.perform, oldest?_eq h, hrows, List.head?_cons]
  refine ⟨congrArg Prod.fst hperform, ?_⟩
  show contents (Tables.perform (.pop list) t).2 = _
  rw [hperform]
  exact Contents.ext rfl (itemValues_pop h hrows) rfl

theorem performs_setInit_none (h : t.Orderly) {key : String} (hset : t.set? key = none)
    (members : List String) :
    Performs contents (.setInit key members) t (.ok true)
      (t.contents.putSet key (addMembers [] members)) := by
  have habsent : ¬ t.headers.contains key := by
    intro hpresent
    rw [set?, if_pos hpresent] at hset
    exact nomatch hset
  have hperform : Tables.perform (.setInit key members) t = (.ok true, t.withMembers key members) :=
    if_neg habsent
  refine ⟨congrArg Prod.fst hperform, ?_⟩
  show contents (Tables.perform (.setInit key members) t).2 = _
  rw [hperform, contents_withMembers h, hset, Option.getD_none]

theorem performs_setInit_some {key : String} {present : List String}
    (hset : t.set? key = some present) (members : List String) :
    Performs contents (.setInit key members) t (.ok false) t.contents := by
  have hpresent : t.headers.contains key := by
    by_contra habsent
    rw [set?, if_neg habsent] at hset
    exact nomatch hset
  have hperform : Tables.perform (.setInit key members) t = (.ok false, t) := if_pos hpresent
  exact ⟨congrArg Prod.fst hperform, congrArg (fun r => contents r.2) hperform⟩

theorem performs_setMembers (h : t.Orderly) (key : String) :
    Performs contents (.setMembers key) t (answerFor key (t.set? key)) t.contents := by
  refine ⟨?_, rfl⟩
  show answerFor key (if t.headers.contains key then some (t.membersOf key) else none) = _
  rw [membersOf_eq h, set?]

theorem contents_zadd (key member : String) (score : Score) :
    (Tables.perform (.zadd key member score) t).2.contents = t.contents := by
  simp only [Tables.perform]
  split <;> rfl

end

/-! ## The ideal store -/

theorem isNaN_of_plain {score : Score} (h : score.Plain) : score.isNaN = false := by
  have hfinite := h.finite
  rw [Score.isNaN, decide_eq_false_iff_not]
  omega

theorem unsignedZero_of_plain {score : Score} (h : score.Plain) : score.unsignedZero = score := by
  unfold Score.unsignedZero
  split
  case isTrue hzero => exact Score.bits_inj (h.unsigned hzero).symm hzero.symm
  case isFalse => rfl

theorem realizes_empty : ({} : Tables).Realizes .empty :=
  ⟨⟨⟨.nil, by simp⟩, ⟨.nil, by simp⟩, by simp⟩, rfl, fun _ => .nil⟩

/-- A call that leaves the sorted sets alone. -/
theorem Realizes.matches {t : Tables} {sorted : String → SortedSet} {c : StoreCall}
    {answer : Except StoreError c.Answer} {after : Contents}
    (h : t.Realizes ⟨t.contents, sorted⟩) (hperforms : Performs Tables.contents c t answer after)
    (hscores : (Tables.perform c t).2.scores = t.scores) :
    Matches Tables.Realizes c t (answer, ⟨after, sorted⟩) := by
  refine ⟨hperforms.1, h.orderly.perform c, hperforms.2, fun key => ?_⟩
  show ((Tables.perform c t).2.scoreEntries key).Perm _
  rw [scoreEntries, hscores]
  exact h.sorted key

theorem matches_pop {t : Tables} {sorted : String → SortedSet}
    (ht : t.Realizes ⟨t.contents, sorted⟩) (list : String) :
    Matches Tables.Realizes (.pop list) t (.ok (t.itemValues list).head?,
      ⟨t.contents.putList list (t.itemValues list).tail, sorted⟩) := by
  have hscores : (Tables.perform (.pop list) t).2.scores = t.scores := by
    simp only [Tables.perform]
    split <;> rfl
  rcases hlist : t.itemValues list with _ | ⟨head, rest⟩
  · have hsame : t.contents.putList list [] = t.contents := by
      refine Contents.ext rfl ?_ rfl
      show Function.update t.itemValues list [] = t.itemValues
      rw [← hlist, Function.update_eq_self]
    rw [List.head?_nil, List.tail_nil, hsame]
    exact ht.matches (performs_pop_nil ht.orderly hlist) hscores
  · exact ht.matches (performs_pop_cons ht.orderly hlist) hscores

theorem matches_setInit {t : Tables} {sorted : String → SortedSet}
    (ht : t.Realizes ⟨t.contents, sorted⟩) (key : String) (names : List String) :
    Matches Tables.Realizes (.setInit key names) t
      (Ideal.perform ⟨t.contents, sorted⟩ (.setInit key names) trivial) := by
  have hscores : (Tables.perform (.setInit key names) t).2.scores = t.scores := by
    simp only [Tables.perform]
    split
    · rfl
    · exact scores_withMembers t key names
  rcases hset : t.set? key with _ | present
  · simp only [Ideal.perform, contents, hset, ← addMembers_nil]
    exact ht.matches (performs_setInit_none ht.orderly hset names) hscores
  · simp only [Ideal.perform, contents, hset]
    exact ht.matches (performs_setInit_some hset names) hscores

theorem matches_zadd {t : Tables} {sorted : String → SortedSet}
    (ht : t.Realizes ⟨t.contents, sorted⟩) (key member : String) {score : Score}
    (hscore : score.Plain) :
    Matches Tables.Realizes (.zadd key member score) t (.ok (),
      ⟨t.contents, Function.update sorted key ((sorted key).put (member, score) hscore)⟩) := by
  have hperform : Tables.perform (.zadd key member score) t =
      (.ok (), { t with scores := putScore ⟨key, member, score⟩ t.scores }) := by
    simp only [Tables.perform, isNaN_of_plain hscore, unsignedZero_of_plain hscore,
      Bool.false_eq_true, if_false]
  refine .of_eq hperform ⟨⟨ht.orderly.items, ht.orderly.members, ht.orderly.owned⟩, rfl, ?_⟩
  intro k
  show List.Perm _ (Function.update sorted key _ k).entries
  by_cases hk : k = key
  · subst hk
    rw [Function.update_self]
    exact scoreEntries_zadd_perm (ht.sorted k) hscore
  · rw [Function.update_of_ne hk]
    exact (scoreEntries_putScore_of_ne t ⟨key, member, score⟩ hk).symm ▸ ht.sorted k

/-- The tables answer like the ideal store. -/
theorem realization : Realization Tables.Realizes := by
  rintro t ⟨contents, sorted⟩ c hc ht
  obtain rfl : t.contents = contents := ht.contents
  have horderly := ht.orderly
  cases c with
  | get key => exact ⟨rfl, ht⟩
  | set key value => exact ht.matches (performs_set key value) rfl
  | incr key =>
    simp only [Ideal.perform, ← nextCount_eq, ← countText_nextCount hc]
    exact ht.matches (performs_incr key) rfl
  | push list value => exact ht.matches (performs_push list value) rfl
  | pop list => exact matches_pop ht list
  | len list => exact ⟨congrArg Except.ok (List.length_map _).symm, ht⟩
  | setInit key names => exact matches_setInit ht key names
  | setAdd key names =>
    refine ht.matches ⟨rfl, ?_⟩ (scores_withMembers t key names)
    refine (contents_withMembers horderly key names).trans ?_
    rw [addMembers_eq]
    rfl
  | setMembers key => exact ht.matches (performs_setMembers horderly key) rfl
  | zadd key member score => exact matches_zadd ht key member hc
  | zrange key =>
    have hsorted := Score.mergeSort_leads_eq (ht.sorted key) (sorted key).ordered (sorted key).plain
    exact ⟨congrArg Except.ok hsorted, ht⟩
  | randomKey _ => exact hc.elim
  | countKeys _ => exact hc.elim

end Tables

end SelfWiring
