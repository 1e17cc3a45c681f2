import SelfWiring.Proofs.Contents
import SelfWiring.Key
import SelfWiring.Store.Backend

/-!
# Stores up to the scores of traces

The scores in the trace of a tree are readings of the clock. `Blanking.blank` leaves them out of a
store and keeps everything else. Apart from reading a sorted set, no call tells a store from its
blank: it gets the same answer, and the stores after it are blanked to the same.
-/

namespace SelfWiring

namespace Key

/-- Whether a text is that of a `trace` key. -/
def isTrace (key : String) : Bool :=
  "tree:".toList.isPrefixOf key.toList && ":trace".toList.isSuffixOf key.toList

theorem isTrace_render (tree : String) : isTrace (trace tree).render = true := by
  rw [isTrace, Bool.and_eq_true, List.isPrefixOf_iff_prefix, List.isSuffixOf_iff_suffix]
  show _ <+: ("tree:" ++ tree ++ ":trace").toList ∧ _ <:+ ("tree:" ++ tree ++ ":trace").toList
  rw [String.toList_append, String.toList_append]
  exact ⟨⟨_, (List.append_assoc _ _ _).symm⟩, ⟨_, rfl⟩⟩

end Key

namespace Score

/-- No score in a trace, and the score itself elsewhere. -/
def blankIn (key : String) (score : Score) : Score := if Key.isTrace key then ⟨0⟩ else score

theorem fraction_lt (ms : Nat) {unit : Nat} (hunit : 0 < unit) :
    ms * unit / Nat.pow 2 ms.log2 - unit < unit := by
  have hms : ms < 2 ^ (ms.log2 + 1) := Nat.lt_log2_self
  have hdiv : ms * unit / 2 ^ ms.log2 < 2 * unit := by
    rw [Nat.div_lt_iff_lt_mul (Nat.two_pow_pos _), Nat.mul_assoc, Nat.mul_comm unit,
      ← Nat.mul_assoc, ← Nat.pow_succ']
    exact Nat.mul_lt_mul_of_pos_right hms hunit
  show ms * unit / 2 ^ ms.log2 - unit < unit
  omega

/-- The score of a clock reading is a number. -/
theorem isNaN_ofMillis (ms : Nat) : (ofMillis ms).isNaN = false := by
  unfold ofMillis
  dsimp only
  split
  · decide
  · rename_i hms
    have htop : (min ms latest).log2 < 63 :=
      (Nat.log2_lt hms).mpr (Nat.lt_of_le_of_lt (Nat.min_le_right _ _) (by decide))
    have hfraction := fraction_lt (min ms latest) (show 0 < 0x10000000000000 by decide)
    generalize (min ms latest).log2 = top at htop hfraction
    simp only [isNaN, magnitude, UInt64.toNat_ofNat', decide_eq_false_iff_not, Nat.pow_eq] at *
    omega

end Score

/-- Calls whose answer and effect have nothing to do with scores. -/
def StoreCall.Ageless : StoreCall → Prop
  | .zadd _ _ _ | .zrange _ => False
  | _ => True

/-- Stores that can be blanked. Some of them are in order: no call on them fails for a transient
reason, and they stay in order. -/
class Blanking (σ : Type) [Store σ] where
  blank : σ → σ
  InOrder : σ → Prop
  inOrder_perform : ∀ (c : StoreCall) {s : σ}, InOrder s → InOrder (Store.perform c s).2
  steady : ∀ (c : StoreCall) {s : σ} (reason : String), InOrder s →
    (Store.perform c s).1 ≠ .error (.transient reason)
  perform_blank : ∀ {c : StoreCall} (s : σ), c.Ageless →
    Store.perform c (blank s) = ((Store.perform c s).1, blank (Store.perform c s).2)
  zadd_blank : ∀ {key : String} (member : String) {score : Score} (s : σ),
    Key.isTrace key = true → score.isNaN = false → Store.perform (.zadd key member ⟨0⟩) (blank s) =
      ((Store.perform (.zadd key member score) s).1,
        blank (Store.perform (.zadd key member score) s).2)

/-! ## The memory store -/

namespace Memory

def blankSet (key : String) (set : Dict Score) : Dict Score :=
  ⟨set.entries.map fun e => (e.1, e.2.blankIn key)⟩

def blank (m : Memory) : Memory :=
  { m with sorted := ⟨m.sorted.entries.map fun e => (e.1, blankSet e.1 e.2)⟩ }

theorem blankSet_insert (key member : String) (score : Score) (set : Dict Score) :
    (blankSet key set).insert member (score.blankIn key) =
      blankSet key (set.insert member score) :=
  congrArg Dict.mk (Dict.put_map (fun _ score => score.blankIn key) member score set.entries)

theorem getD_get?_blank (m : Memory) (key : String) :
    (m.blank.sorted.get? key).getD {} = blankSet key ((m.sorted.get? key).getD {}) := by
  have hget : m.blank.sorted.get? key = (m.sorted.get? key).map (blankSet key) :=
    Dict.lookup_map blankSet key m.sorted.entries
  rw [hget]
  cases m.sorted.get? key <;> rfl

theorem zadd_blank (key member : String) (score : Score) (m : Memory) :
    perform (.zadd key member (score.blankIn key)) m.blank =
      (.ok (), (perform (.zadd key member score) m).2.blank) := by
  simp only [perform]
  rw [getD_get?_blank, blankSet_insert]
  refine congrArg (fun sorted => (Except.ok (), ({ m with sorted } : Memory))) ?_
  exact congrArg Dict.mk (Dict.put_map blankSet key _ m.sorted.entries)

theorem perform_blank {c : StoreCall} (m : Memory) (hc : c.Ageless) :
    perform c m.blank = ((perform c m).1, (perform c m).2.blank) := by
  cases c
  case pop list =>
    unfold perform
    dsimp only
    rw [show m.blank.lists = m.lists from rfl]
    split <;> rfl
  case setInit key members =>
    unfold perform
    dsimp only
    rw [show m.blank.sets = m.sets from rfl]
    split <;> rfl
  case zadd => exact hc.elim
  case zrange => exact hc.elim
  all_goals rfl

end Memory

instance : Blanking Memory where
  blank := Memory.blank
  InOrder _ := True
  inOrder_perform _ _ _ := trivial
  steady c m reason _ := Memory.perform_ne_transient c m reason
  perform_blank m hc := Memory.perform_blank m hc
  zadd_blank {key} member {score} m hkey _ := by
    have hblank : score.blankIn key = ⟨0⟩ := if_pos hkey
    exact hblank ▸ Memory.zadd_blank key member score m

/-! ## The table store -/

namespace Tables

def blankRow (r : ScoreRow) : ScoreRow := { r with score := r.score.blankIn r.key }

def blank (t : Tables) : Tables := { t with scores := t.scores.map blankRow }

theorem perform_ne_transient (c : StoreCall) (t : Tables) (reason : String) :
    (perform c t).1 ≠ .error (.transient reason) := by
  cases c
  case get | setMembers => exact Memory.answerFor_ne_transient _ _ _
  case randomKey pattern =>
    simp only [perform]
    unfold matching
    split
    · exact fun h => nomatch h
    · exact Memory.answerFor_ne_transient _ _ _
  case countKeys pattern =>
    simp only [perform]
    unfold matching
    split <;> exact fun h => nomatch h
  case pop list =>
    simp only [perform]
    split <;> simp
  case setInit key members =>
    simp only [perform]
    split <;> simp
  case zadd key member score =>
    simp only [perform]
    split <;> simp
  all_goals simp [perform]

theorem putScore_map (row : ScoreRow) (rows : List ScoreRow) :
    putScore (blankRow row) (rows.map blankRow) = (putScore row rows).map blankRow := by
  have hany : ((rows.map blankRow).any fun r => r.key == row.key && r.member == row.member) =
      rows.any fun r => r.key == row.key && r.member == row.member := by
    rw [List.any_map]
    rfl
  unfold putScore
  rw [show (blankRow row).key = row.key from rfl, show (blankRow row).member = row.member from rfl,
    hany]
  split
  · rw [List.map_map, List.map_map]
    refine List.map_congr_left fun r _ => ?_
    rw [Function.comp_apply, Function.comp_apply]
    by_cases h : r.key = row.key ∧ r.member = row.member
    · rw [if_pos h, if_pos (show (blankRow r).key = _ ∧ (blankRow r).member = _ from h)]
    · rw [if_neg h, if_neg (show ¬((blankRow r).key = _ ∧ (blankRow r).member = _) from h)]
  · rw [List.map_append]
    rfl

theorem zadd_blank {key : String} (member : String) {score : Score} (t : Tables)
    (hkey : Key.isTrace key = true) (hscore : score.isNaN = false) :
    perform (.zadd key member ⟨0⟩) t.blank =
      ((perform (.zadd key member score) t).1, (perform (.zadd key member score) t).2.blank) := by
  have hperform : perform (.zadd key member score) t =
      (.ok (), { t with scores := putScore ⟨key, member, score.unsignedZero⟩ t.scores }) := by
    simp only [perform, hscore, Bool.false_eq_true, if_false]
  have hrow : blankRow ⟨key, member, score.unsignedZero⟩ = ⟨key, member, ⟨0⟩⟩ :=
    congrArg (ScoreRow.mk key member) (if_pos hkey)
  rw [hperform]
  show (Except.ok (), { t with scores := putScore ⟨key, member, ⟨0⟩⟩ (t.scores.map blankRow) }) = _
  rw [← hrow, putScore_map]
  rfl

theorem addMember_blank (key : String) (t : Tables) (m : String) :
    addMember key t.blank m = (addMember key t m).blank := by
  unfold addMember
  rw [show t.blank.members = t.members from rfl]
  split <;> rfl

theorem foldl_addMember_blank (key : String) (t : Tables) (members : List String) :
    members.foldl (addMember key) (addHeader key t.blank) =
      (members.foldl (addMember key) (addHeader key t)).blank := by
  have hheader : addHeader key t.blank = (addHeader key t).blank := by
    unfold addHeader
    rw [show t.blank.headers = t.headers from rfl]
    split <;> rfl
  rw [hheader]
  generalize addHeader key t = t'
  induction members generalizing t' with
  | nil => rfl
  | cons m members ih => rw [List.foldl_cons, addMember_blank, ih, List.foldl_cons]

theorem perform_blank {c : StoreCall} (t : Tables) (hc : c.Ageless) :
    perform c t.blank = ((perform c t).1, (perform c t).2.blank) := by
  cases c
  case pop list =>
    unfold perform
    dsimp only
    rw [show t.blank.oldest? list = t.oldest? list from rfl]
    split <;> rfl
  case setInit key members =>
    unfold perform
    dsimp only
    rw [show t.blank.headers = t.headers from rfl, foldl_addMember_blank]
    split <;> rfl
  case setAdd key members =>
    exact congrArg (Prod.mk (Except.ok ())) (foldl_addMember_blank key t members)
  case zadd => exact hc.elim
  case zrange => exact hc.elim
  all_goals rfl

end Tables

/-! ## Databases and backends -/

/-- A database is in order while no other process holds the write lock. -/
instance : Blanking Database where
  blank d := { d with tables := d.tables.blank }
  InOrder d := d.locked = false
  inOrder_perform c d hd := by
    show (Database.perform c d).2.locked = false
    unfold Database.perform
    split
    · exact hd
    · split <;> exact hd
  steady c d reason hd := by
    show (Database.perform c d).1 ≠ _
    unfold Database.perform
    rw [hd, Bool.false_and, if_neg Bool.false_ne_true]
    split
    · exact fun h => nomatch h
    · exact Tables.perform_ne_transient c d.tables reason
  perform_blank {c} d hc := by
    show Database.perform c { d with tables := d.tables.blank } = _
    rw [show Store.perform c d = Database.perform c d from rfl]
    unfold Database.perform
    dsimp only
    split
    · rfl
    · split
      · rfl
      · rw [Tables.perform_blank d.tables hc]
  zadd_blank {key} member {score} d hkey hscore := by
    obtain ⟨versions, tables, locked, readOnly⟩ := d
    have htables := Tables.zadd_blank member tables hkey hscore
    cases locked
    · cases readOnly
      · exact congrArg (fun r => (r.1, ({ versions, tables := r.2 } : Database))) htables
      · rfl
    · rfl

instance : Blanking Backend where
  blank
    | .memory m => .memory m.blank
    | .database d => .database (Blanking.blank d)
  InOrder
    | .memory _ => True
    | .database d => Blanking.InOrder d
  inOrder_perform c s hs := by
    cases s with
    | memory m => exact trivial
    | database d => exact Blanking.inOrder_perform c (s := d) hs
  steady c s reason hs := by
    cases s with
    | memory m => exact Memory.perform_ne_transient c m reason
    | database d => exact Blanking.steady c (s := d) reason hs
  perform_blank {c} s hc := by
    cases s with
    | memory m =>
      exact congrArg (fun r => (r.1, Backend.memory r.2)) (Memory.perform_blank m hc)
    | database d =>
      exact congrArg (fun r => (r.1, Backend.database r.2)) (Blanking.perform_blank d hc)
  zadd_blank {key} member {score} s hkey hscore := by
    cases s with
    | memory m =>
      have hm := Blanking.zadd_blank member m hkey hscore
      exact congrArg (fun r => (r.1, Backend.memory r.2)) hm
    | database d =>
      have hd := Blanking.zadd_blank member d hkey hscore
      exact congrArg (fun r => (r.1, Backend.database r.2)) hd

end SelfWiring
