import SelfWiring.Proofs.Contents
import SelfWiring.Proofs.Store.Order

/-!
# The ideal store

What the two stores have in common, told without dictionaries, rows and row numbers: texts of which
the last one written counts, lists of which the head is taken and the tail appended to, sets that
the first writer creates and that keep the order in which their members came, and sorted sets with
one score for each member.

The ideal store says what a call comes to where its documentation does. It says nothing about key
patterns, about counters at the end of their range, and about scores that are not plain.
-/

namespace SelfWiring

/-! ## Sorted sets -/

/-- Entries in their order, one for each member. -/
structure SortedSet where
  entries : List (String × Score)
  ordered : entries.Pairwise Precedes
  unrepeated : (entries.map (·.1)).Nodup
  plain : ∀ e ∈ entries, e.2.Plain

namespace SortedSet

def empty : SortedSet := ⟨[], .nil, .nil, by simp⟩

/-- The entries for other members. -/
def others (s : SortedSet) (member : String) : List (String × Score) :=
  s.entries.filter (·.1 ≠ member)

/-- The entries with a new one for a member: what precedes the entry, the entry, what it
precedes. -/
def entriesWith (s : SortedSet) (e : String × Score) : List (String × Score) :=
  (s.others e.1).filter (Precedes · e) ++ e :: (s.others e.1).filter (Precedes e ·)

theorem ne_of_mem_others {s : SortedSet} {member : String} {e : String × Score}
    (h : e ∈ s.others member) : e.1 ≠ member :=
  of_decide_eq_true (List.mem_filter.mp h).2

theorem entriesWith_perm (s : SortedSet) (e : String × Score) :
    (s.entriesWith e).Perm (e :: s.others e.1) := by
  -- an entry for another member comes before or after the new one, and never both
  have hafter : (s.others e.1).filter (Precedes e ·) =
      (s.others e.1).filter (fun x => !decide (Precedes x e)) := by
    refine List.filter_congr fun x hx => ?_
    rw [← decide_not, decide_eq_decide]
    constructor
    · exact fun h h' => Precedes.irrefl _ (h.trans h')
    · exact fun h => (precedes_or_precedes (ne_of_mem_others hx)).resolve_left h
  rw [entriesWith, hafter]
  exact List.perm_middle.trans ((List.filter_append_perm _ _).cons e)

/-- Give a member a score, in place of the one that it has. -/
def put (s : SortedSet) (e : String × Score) (h : e.2.Plain) : SortedSet where
  entries := s.entriesWith e
  ordered := by
    have hothers : (s.others e.1).Pairwise Precedes := s.ordered.filter _
    rw [entriesWith, List.pairwise_append, List.pairwise_cons]
    refine ⟨hothers.filter _, ⟨fun x hx => ?_, hothers.filter _⟩, fun x hx y hy => ?_⟩
    · exact of_decide_eq_true (List.mem_filter.mp hx).2
    · have hbefore : Precedes x e := of_decide_eq_true (List.mem_filter.mp hx).2
      rcases List.mem_cons.mp hy with rfl | hy
      · exact hbefore
      · exact hbefore.trans (of_decide_eq_true (List.mem_filter.mp hy).2)
  unrepeated := by
    refine ((s.entriesWith_perm e).map (·.1)).nodup_iff.mpr ?_
    rw [List.map_cons, List.nodup_cons]
    refine ⟨fun hmem => ?_, s.unrepeated.sublist (List.filter_sublist.map _)⟩
    obtain ⟨x, hx, heq⟩ := List.mem_map.mp hmem
    exact ne_of_mem_others hx heq
  plain := by
    intro x hx
    rcases List.mem_cons.mp ((s.entriesWith_perm e).mem_iff.mp hx) with rfl | hx
    · exact h
    · exact s.plain x (List.mem_filter.mp hx).1

end SortedSet

/-! ## Calls -/

/-- What is stored. -/
structure Ideal extends Contents where
  sorted : String → SortedSet

namespace Ideal

def empty : Ideal := ⟨.empty, fun _ => .empty⟩

/-- The number in a counter. A text that is no integer counts as zero. -/
def counter (s : Ideal) (key : String) : Int :=
  (((s.text key).bind Text.Integer.read?).getD 0).toInt

/-- The ideal store answers a call: the operations without key patterns, on counters that stay below
the greatest 64-bit integer, and with plain scores. -/
def Answers (s : Ideal) : StoreCall → Prop
  | .incr key => s.counter key + 1 < Int64.maxValue.toInt
  | .zadd _ _ score => score.Plain
  | .randomKey _ | .countKeys _ => False
  | _ => True

instance (s : Ideal) : (c : StoreCall) → Decidable (s.Answers c)
  | .incr key => inferInstanceAs (Decidable (s.counter key + 1 < Int64.maxValue.toInt))
  | .zadd _ _ score => inferInstanceAs (Decidable score.Plain)
  | .randomKey _ | .countKeys _ => inferInstanceAs (Decidable False)
  | .get _ | .set _ _ | .push _ _ | .pop _ | .len _ | .setInit _ _ | .setAdd _ _ | .setMembers _
  | .zrange _ => inferInstanceAs (Decidable True)

/-- Members without repetitions, in the order of their first occurrence. -/
def distinct (members : List String) : List String := members.eraseDups

/-- What a call that is answered comes to. -/
def perform (s : Ideal) : (c : StoreCall) → s.Answers c → Except StoreError c.Answer × Ideal
  | .get key, _ => (answerFor key (s.text key), s)
  | .set key value, _ => (.ok (), { s with toContents := s.putText key value })
  | .incr key, _ =>
    let n := s.counter key + 1
    (.ok (.ofInt n),
      { s with toContents := s.putText key (String.ofList (Text.Integer.render n)) })
  | .push list value, _ =>
    (.ok (), { s with toContents := s.putList list (s.list list ++ [value]) })
  | .pop list, _ =>
    (.ok (s.list list).head?, { s with toContents := s.putList list (s.list list).tail })
  | .len list, _ => (.ok (s.list list).length, s)
  | .setInit key members, _ =>
    match s.set key with
    | some _ => (.ok false, s)
    | none => (.ok true, { s with toContents := s.putSet key (distinct members) })
  | .setAdd key members, _ =>
    let present := (s.set key).getD []
    let added := distinct (members.filter (· ∉ present))
    (.ok (), { s with toContents := s.putSet key (present ++ added) })
  | .setMembers key, _ => (answerFor key (s.set key), s)
  | .zadd key member score, h =>
    let entries := (s.sorted key).put (member, score) h
    (.ok (), { s with sorted := Function.update s.sorted key entries })
  | .zrange key, _ => (.ok (s.sorted key).entries, s)

end Ideal

/-- Adding members one at a time comes to the same. -/
theorem addMembers_eq (present members : List String) :
    addMembers present members =
      present ++ Ideal.distinct (members.filter (· ∉ present)) := by
  induction members generalizing present with
  | nil => simp [addMembers, Ideal.distinct]
  | cons m members ih =>
    have hstep : addMembers present (m :: members) =
        addMembers (if present.contains m then present else present ++ [m]) members := rfl
    rw [hstep]
    by_cases hm : m ∈ present
    · rw [if_pos (List.contains_iff_mem.mpr hm), ih, List.filter_cons_of_neg (by simpa using hm)]
    · have hrest : members.filter (· ∉ present ++ [m]) =
          (members.filter (· ∉ present)).filter (fun x => !x == m) := by
        rw [List.filter_filter]
        refine List.filter_congr fun x _ => ?_
        by_cases hx : x = m <;> simp [hx]
      rw [if_neg (by simpa using hm), ih, List.filter_cons_of_pos (by simpa using hm), hrest,
        Ideal.distinct, Ideal.distinct, List.eraseDups_cons, List.append_assoc]
      rfl

theorem addMembers_nil (members : List String) :
    addMembers [] members = Ideal.distinct members := by
  rw [addMembers_eq, List.nil_append]
  exact congrArg Ideal.distinct (List.filter_eq_self.mpr fun _ _ => by simp)

theorem nextCount_eq (s : Ideal) (key : String) :
    nextCount (s.text key) = Int64.ofInt (s.counter key + 1) := by
  rw [nextCount, Ideal.counter, Int64.ofInt_add, Int64.ofInt_toInt]
  rfl

theorem countText_nextCount {s : Ideal} {key : String} (h : s.Answers (.incr key)) :
    countText (nextCount (s.text key)) =
      String.ofList (Text.Integer.render (s.counter key + 1)) := by
  have hupper : s.counter key + 1 < 2 ^ 63 - 1 := h
  have hlower : -2 ^ 63 ≤ s.counter key := Int64.le_toInt _
  rw [countText, nextCount_eq, Int64.toInt_ofInt_of_le (by omega) (by omega)]

/-! ## Transcripts -/

/-- A call with its answer. -/
abbrev Answered := (c : StoreCall) × Except StoreError c.Answer

/-- The calls with the answers that a store gives to them in turn. -/
def transcript {σ : Type} [Store σ] : List StoreCall → σ → List Answered
  | [], _ => []
  | c :: rest, s => ⟨c, (Store.perform c s).1⟩ :: transcript rest (Store.perform c s).2

namespace Ideal

/-- The ideal store answers each of the calls in turn. -/
def AnswersAll : Ideal → List StoreCall → Prop
  | _, [] => True
  | s, c :: rest => ∃ h : s.Answers c, (s.perform c h).2.AnswersAll rest

/-- The calls with the answers that the ideal store gives to them in turn. -/
def transcript : (calls : List StoreCall) → (s : Ideal) → s.AnswersAll calls → List Answered
  | [], _, _ => []
  | c :: rest, s, h =>
    have hhead : s.Answers c := h.elim fun hc _ => hc
    ⟨c, (s.perform c hhead).1⟩ ::
      transcript rest (s.perform c hhead).2 (h.elim fun _ htail => htail)

end Ideal

/-- A call gets the answer, and leaves a store that is related to the ideal one, of a result. -/
def Matches {σ : Type} [Store σ] (realizes : σ → Ideal → Prop) (c : StoreCall) (s : σ)
    (result : Except StoreError c.Answer × Ideal) : Prop :=
  (Store.perform c s).1 = result.1 ∧ realizes (Store.perform c s).2 result.2

theorem Matches.of_eq {σ : Type} [Store σ] {realizes : σ → Ideal → Prop} {c : StoreCall} {s s' : σ}
    {answer : Except StoreError c.Answer} {i : Ideal} (hperform : Store.perform c s = (answer, s'))
    (h : realizes s' i) : Matches realizes c s (answer, i) := by
  rw [Matches, hperform]
  exact ⟨rfl, h⟩

/-- Stores of some make realize ideal ones: every call that is answered is answered alike, and the
stores after it are related again. -/
def Realization {σ : Type} [Store σ] (realizes : σ → Ideal → Prop) : Prop :=
  ∀ {s : σ} {i : Ideal} (c : StoreCall) (h : i.Answers c), realizes s i →
    Matches realizes c s (i.perform c h)

theorem Realization.transcript_eq {σ : Type} [Store σ] {realizes : σ → Ideal → Prop}
    (real : Realization realizes) {calls : List StoreCall} : ∀ {s : σ} {i : Ideal}
    (h : i.AnswersAll calls), realizes s i → transcript calls s = i.transcript calls h := by
  induction calls with
  | nil => intro s i h hs; rfl
  | cons c rest ih =>
    intro s i h hs
    have hhead : i.Answers c := h.elim fun hc _ => hc
    have htail : (i.perform c hhead).2.AnswersAll rest := h.elim fun _ ht => ht
    obtain ⟨hanswer, hafter⟩ := real c hhead hs
    rw [transcript, Ideal.transcript, hanswer, ih htail hafter]

end SelfWiring
