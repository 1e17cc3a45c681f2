import Mathlib.Data.List.Basic
import Mathlib.Data.String.Basic
import Mathlib.Tactic.SplitIfs
import SelfWiring.Store.Score

/-!
# The order of sorted sets

The entries of a sorted set are ordered by the numbers that their scores stand for, and entries with
equal scores by the bytes of their members. `Precedes` says so: the number of a score is computed
from the fields of its bits, and the bytes of a text are those of its UTF-8 form. Stores compare the
bits of scores and the characters of texts instead, which comes to the same for scores that are
plain: finite, and no negative zero.
-/

namespace SelfWiring

/-! ## Bytes of texts -/

/-- The bytes of a text in UTF-8. -/
def utf8Bytes (s : String) : List UInt8 := s.toByteArray.data.toList

theorem utf8Bytes_eq (s : String) : utf8Bytes s = s.toList.flatMap String.utf8EncodeChar := by
  rw [utf8Bytes, ← String.utf8Encode_toList, List.utf8Encode, List.data_toByteArray,
    List.toList_toArray]

/-- The bytes of a smaller character come first, whatever follows the two: a character with a longer
form has a greater first byte, and of two forms of one length the high bits come first. -/
theorem utf8EncodeChar_append_lt {c d : Char} (h : c < d) (l l' : List UInt8) :
    String.utf8EncodeChar c ++ l < String.utf8EncodeChar d ++ l' := by
  have hlt : c.val.toNat < d.val.toNat := h
  have hc : c.val.toNat < 0x110000 := by
    have := c.valid
    unfold UInt32.isValidChar Nat.isValidChar at this
    omega
  have hd : d.val.toNat < 0x110000 := by
    have := d.valid
    unfold UInt32.isValidChar Nat.isValidChar at this
    omega
  unfold String.utf8EncodeChar
  dsimp only
  generalize c.val.toNat = m at hlt hc
  generalize d.val.toNat = n at hlt hd
  -- one case for each pair of lengths; no byte overflows
  split_ifs <;>
    simp (disch := omega) only [List.cons_append, List.nil_append, List.cons_lt_cons_iff,
      UInt8.lt_iff_toNat_lt, ← UInt8.toNat_inj, UInt8.toNat_ofNat', Nat.mod_eq_of_lt] <;>
    omega

theorem flatMap_utf8EncodeChar_lt : ∀ {cs ds : List Char}, cs < ds →
    cs.flatMap String.utf8EncodeChar < ds.flatMap String.utf8EncodeChar
  | _, [], h => absurd h (List.not_lt_nil _)
  | [], d :: ds, _ => by
    obtain ⟨b, bs, hbytes⟩ := List.exists_cons_of_ne_nil (String.utf8EncodeChar_ne_nil (c := d))
    rw [List.flatMap_cons, hbytes]
    exact List.nil_lt_cons _ _
  | c :: cs, d :: ds, h => by
    rw [List.flatMap_cons, List.flatMap_cons]
    rcases List.cons_lt_cons_iff.mp h with hlt | ⟨rfl, htail⟩
    · exact utf8EncodeChar_append_lt hlt _ _
    · exact List.append_left_lt (flatMap_utf8EncodeChar_lt htail)

/-- Texts compare by their characters as they do by their bytes. -/
theorem utf8Bytes_lt_iff {s t : String} : utf8Bytes s < utf8Bytes t ↔ s < t := by
  have hmono : ∀ {s t : String}, s < t → utf8Bytes s < utf8Bytes t := by
    intro s t h
    rw [utf8Bytes_eq, utf8Bytes_eq]
    exact flatMap_utf8EncodeChar_lt (String.lt_iff_toList_lt.mp h)
  refine ⟨fun h => ?_, hmono⟩
  rcases lt_trichotomy s t with hlt | rfl | hgt
  · exact hlt
  · exact absurd h (List.lt_irrefl _)
  · exact absurd h (List.lt_asymm (hmono hgt))

/-! ## Numbers of scores -/

namespace Score

/-- The number with a given exponent and fraction, in units of the least positive score; a fraction
stays below `unit`. -/
def scaled (unit exponent fraction : Nat) : Nat :=
  if exponent = 0 then fraction else (unit + fraction) * 2 ^ (exponent - 1)

/-- The size of a score that is a number, in units of the least positive score. -/
def size (s : Score) : Nat := scaled (2 ^ 52) (s.magnitude / 2 ^ 52) (s.magnitude % 2 ^ 52)

/-- The number that a score stands for if it is finite, in units of the least positive score. -/
def number (s : Score) : Int := if s.isNegative then -(s.size : Int) else s.size

/-- A finite score that is no negative zero. -/
structure Plain (s : Score) : Prop where
  finite : s.magnitude < 0x7FF0000000000000
  unsigned : s.magnitude = 0 → s.isNegative = false

instance (s : Score) : Decidable s.Plain :=
  decidable_of_iff (s.magnitude < 0x7FF0000000000000 ∧ (s.magnitude = 0 → s.isNegative = false))
    ⟨fun h => ⟨h.1, h.2⟩, fun h => ⟨h.1, h.2⟩⟩

/-- A greater exponent outweighs every fraction. -/
theorem scaled_lt_scaled {unit i j f g : Nat} (hf : f < unit) (hij : i < j) :
    scaled unit i f < scaled unit j g := by
  have hpow : unit * 2 ^ (j - 1) ≤ scaled unit j g := by
    rw [scaled, if_neg (Nat.ne_zero_of_lt hij)]
    exact Nat.mul_le_mul_right _ (Nat.le_add_right _ _)
  refine Nat.lt_of_lt_of_le ?_ hpow
  unfold scaled
  split
  · exact Nat.lt_of_lt_of_le hf (Nat.le_mul_of_pos_right _ (Nat.two_pow_pos _))
  · have hstep : 2 * 2 ^ (i - 1) ≤ 2 ^ (j - 1) := by
      rw [← Nat.pow_succ']
      exact Nat.pow_le_pow_right (by decide) (by omega)
    calc (unit + f) * 2 ^ (i - 1) < (unit + unit) * 2 ^ (i - 1) :=
          Nat.mul_lt_mul_of_pos_right (Nat.add_lt_add_left hf _) (Nat.two_pow_pos _)
      _ = unit * (2 * 2 ^ (i - 1)) := by rw [← Nat.two_mul, Nat.mul_comm 2, Nat.mul_assoc]
      _ ≤ unit * 2 ^ (j - 1) := Nat.mul_le_mul_left _ hstep

theorem scaled_lt_scaled_of_fraction {unit f g : Nat} (i : Nat) (hfg : f < g) :
    scaled unit i f < scaled unit i g := by
  unfold scaled
  split
  · exact hfg
  · exact Nat.mul_lt_mul_of_pos_right (Nat.add_lt_add_left hfg _) (Nat.two_pow_pos _)

theorem size_lt_size {a b : Score} (h : a.magnitude < b.magnitude) : a.size < b.size := by
  have hfraction := Nat.mod_lt a.magnitude (Nat.two_pow_pos 52)
  rcases Nat.lt_or_ge (a.magnitude / 2 ^ 52) (b.magnitude / 2 ^ 52) with hlt | hge
  · exact scaled_lt_scaled hfraction hlt
  · have heq : a.magnitude / 2 ^ 52 = b.magnitude / 2 ^ 52 :=
      Nat.le_antisymm (Nat.div_le_div_right h.le) hge
    rw [size, size, heq]
    exact scaled_lt_scaled_of_fraction _ (by omega)

theorem size_lt_size_iff {a b : Score} : a.size < b.size ↔ a.magnitude < b.magnitude := by
  refine ⟨fun h => ?_, size_lt_size⟩
  rcases Nat.lt_trichotomy a.magnitude b.magnitude with hlt | heq | hgt
  · exact hlt
  · rw [size, size, heq] at h
    exact absurd h (Nat.lt_irrefl _)
  · exact absurd h (Nat.lt_asymm (size_lt_size hgt))

theorem size_eq_zero_iff {s : Score} : s.size = 0 ↔ s.magnitude = 0 := by
  constructor
  · intro h
    by_contra hne
    have hlt : (⟨0⟩ : Score).size < s.size := size_lt_size (Nat.pos_of_ne_zero hne)
    omega
  · intro h
    rw [size, h]
    rfl

/-- Plain scores are ranked by their numbers. -/
theorem rank_lt_iff {a b : Score} (ha : a.Plain) (hb : b.Plain) :
    a.rank < b.rank ↔ a.number < b.number := by
  have hlt := size_lt_size_iff (a := a) (b := b)
  have hgt := size_lt_size_iff (a := b) (b := a)
  have hza := size_eq_zero_iff (s := a)
  have hzb := size_eq_zero_iff (s := b)
  have hua := ha.unsigned
  have hub := hb.unsigned
  unfold rank number
  cases ha' : a.isNegative <;> cases hb' : b.isNegative <;>
    simp only [ha', hb', reduceIte, Bool.false_eq_true, Bool.true_eq_false, imp_false] at hua hub ⊢
      <;> omega

theorem bits_inj {a b : Score} (hsign : a.isNegative = b.isNegative)
    (hmagnitude : a.magnitude = b.magnitude) : a = b := by
  obtain ⟨x⟩ := a
  obtain ⟨y⟩ := b
  simp only [isNegative, magnitude, decide_eq_decide, mk.injEq] at *
  rw [← UInt64.toNat_inj]
  have hx := x.toNat_lt
  have hy := y.toNat_lt
  omega

theorem rank_inj {a b : Score} (h : a.rank = b.rank) : a = b := by
  unfold rank at h
  cases ha : a.isNegative <;> cases hb : b.isNegative <;>
    simp only [ha, hb, reduceIte, Bool.false_eq_true] at h
  · exact bits_inj (ha.trans hb.symm) (by omega)
  · omega
  · omega
  · exact bits_inj (ha.trans hb.symm) (by omega)

/-- Plain scores for the same number are the same. -/
theorem number_inj {a b : Score} (ha : a.Plain) (hb : b.Plain) (h : a.number = b.number) :
    a = b := by
  apply rank_inj
  have hlt := rank_lt_iff ha hb
  have hgt := rank_lt_iff hb ha
  omega

end Score

/-! ## Entries -/

/-- An entry comes before another if its score stands for a smaller number, or for the same number
and the bytes of its member come first. -/
def Precedes (a b : String × Score) : Prop :=
  a.2.number < b.2.number ∨ (a.2.number = b.2.number ∧ utf8Bytes a.1 < utf8Bytes b.1)

instance : DecidableRel Precedes := fun _ _ => inferInstanceAs (Decidable (_ ∨ _))

theorem Precedes.irrefl (a : String × Score) : ¬ Precedes a a := by
  rintro (hlt | ⟨-, hbytes⟩)
  · exact lt_irrefl _ hlt
  · exact List.lt_irrefl _ hbytes

theorem Precedes.trans {a b c : String × Score} (h : Precedes a b) (h' : Precedes b c) :
    Precedes a c := by
  rcases h with hab | ⟨hab, hbytes⟩ <;> rcases h' with hbc | ⟨hbc, hbytes'⟩
  · exact Or.inl (hab.trans hbc)
  · exact Or.inl (hbc ▸ hab)
  · exact Or.inl (hab ▸ hbc)
  · exact Or.inr ⟨hab.trans hbc, List.lt_trans hbytes hbytes'⟩

/-- Entries for different members are ordered one way or the other. -/
theorem precedes_or_precedes {a b : String × Score} (h : a.1 ≠ b.1) :
    Precedes a b ∨ Precedes b a := by
  rcases lt_trichotomy a.2.number b.2.number with hlt | heq | hgt
  · exact Or.inl (Or.inl hlt)
  · rcases lt_or_gt_of_ne h with hbytes | hbytes
    · exact Or.inl (Or.inr ⟨heq, utf8Bytes_lt_iff.mpr hbytes⟩)
    · exact Or.inr (Or.inr ⟨heq.symm, utf8Bytes_lt_iff.mpr hbytes⟩)
  · exact Or.inr (Or.inl hgt)

namespace Score

theorem leads_iff {a b : String × Score} : leads a b = true ↔
    a.2.rank < b.2.rank ∨ (a.2.rank = b.2.rank ∧ a.1 ≤ b.1) := by
  have hle : (!decide (b.1 < a.1)) = true ↔ a.1 ≤ b.1 := by
    rw [Bool.not_eq_true', decide_eq_false_iff_not]
    exact not_lt
  simp only [leads, Bool.or_eq_true, Bool.and_eq_true, decide_eq_true_eq, beq_iff_eq, hle]

theorem leads_trans (a b c : String × Score) (h : leads a b = true) (h' : leads b c = true) :
    leads a c = true := by
  rw [leads_iff] at *
  rcases h with hab | ⟨hab, hle⟩ <;> rcases h' with hbc | ⟨hbc, hle'⟩
  · exact Or.inl (hab.trans hbc)
  · exact Or.inl (hbc ▸ hab)
  · exact Or.inl (hab ▸ hbc)
  · exact Or.inr ⟨hab.trans hbc, hle.trans hle'⟩

theorem leads_total (a b : String × Score) : (leads a b || leads b a) = true := by
  rw [Bool.or_eq_true, leads_iff, leads_iff]
  rcases lt_trichotomy a.2.rank b.2.rank with hlt | heq | hgt
  · exact Or.inl (Or.inl hlt)
  · exact (le_total a.1 b.1).imp (fun h => Or.inr ⟨heq, h⟩) (fun h => Or.inr ⟨heq.symm, h⟩)
  · exact Or.inr (Or.inl hgt)

theorem leads_antisymm {a b : String × Score} (h : leads a b = true) (h' : leads b a = true) :
    a = b := by
  rw [leads_iff] at *
  have hrank : a.2.rank = b.2.rank := by omega
  have hle : a.1 ≤ b.1 := (h.resolve_left (by omega)).2
  have hge : b.1 ≤ a.1 := (h'.resolve_left (by omega)).2
  exact Prod.ext (le_antisymm hle hge) (rank_inj hrank)

theorem leads_of_precedes {a b : String × Score} (ha : a.2.Plain) (hb : b.2.Plain)
    (h : Precedes a b) : leads a b = true := by
  rw [leads_iff]
  rcases h with hlt | ⟨heq, hbytes⟩
  · exact Or.inl ((rank_lt_iff ha hb).mpr hlt)
  · exact Or.inr ⟨congrArg rank (number_inj ha hb heq), (utf8Bytes_lt_iff.mp hbytes).le⟩

/-- Sorting by rank puts entries of plain scores into their order. -/
theorem mergeSort_leads_eq {l entries : List (String × Score)} (hperm : l.Perm entries)
    (hordered : entries.Pairwise Precedes) (hplain : ∀ e ∈ entries, e.2.Plain) :
    l.mergeSort leads = entries := by
  have hleads : entries.Pairwise (fun a b => leads a b = true) := by
    refine hordered.imp_of_mem ?_
    intro a b ha hb h
    exact leads_of_precedes (hplain a ha) (hplain b hb) h
  have hsorted : (l.mergeSort leads).Pairwise (fun a b => leads a b = true) :=
    List.pairwise_mergeSort leads_trans leads_total l
  have hsame : (l.mergeSort leads).Perm entries := (List.mergeSort_perm l leads).trans hperm
  refine List.Perm.eq_of_pairwise ?_ hsorted hleads hsame
  intro a b _ _ h h'
  exact leads_antisymm h h'

end Score

end SelfWiring
