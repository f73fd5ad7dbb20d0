import Mathlib.Data.List.Sort
import Mathlib.Data.List.Pairwise

/-!
# Protected ranges

The model of `pii/engine/protected.rs` as far as it merges ranges and looks a span up in them.  The lookup asks for the
partition point of the ranges that end before the span, and tests the range that stands there.  After the merge the ranges
are apart and in their order (`apart_mergeRanges`), so their ends are in the same order, and the first range that does not
end before the span is the only one that can begin before its end without ending before its start.
-/

namespace OpenProxy

/-! ### Partition points -/

/-- The loop of the binary search on the positions `base` to `base + size`. -/
def searchFrom (p : Nat → Bool) (base size : Nat) : Nat :=
  if 1 < size then
    let half := size / 2
    let mid := base + half
    searchFrom p (if p mid then mid else base) (size - half)
  else if p base then base + 1 else base
termination_by size

/-- `partition_point`. -/
def partitionPoint {α : Type*} (p : α → Bool) (l : List α) : Nat :=
  if l.isEmpty then 0 else searchFrom (fun i => l[i]?.any p) 0 l.length

/-- Where the predicate holds of the positions before `k` only, the search finds `k`. -/
theorem searchFrom_eq {p : Nat → Bool} {k base size : Nat} (hp : ∀ i < base + size, p i = true ↔ i < k)
    (hsize : 1 ≤ size) (hbase : base = 0 ∨ base < k) (hk : k ≤ base + size) : searchFrom p base size = k := by
  fun_induction searchFrom p base size with
  | case1 base size hlt half mid ih =>
    have hhalf : half = size / 2 := rfl
    have hmid : mid = base + half := rfl
    have hpmid := hp mid (by omega)
    by_cases hm : p mid = true
    · rw [dif_pos hm] at ih
      rw [if_pos hm]
      have hmk := hpmid.mp hm
      exact ih (fun i hi => hp i (by omega)) (by omega) (Or.inr hmk) (by omega)
    · rw [dif_neg hm] at ih
      rw [if_neg hm]
      have hkm : k ≤ mid := Nat.le_of_not_lt fun h => hm (hpmid.mpr h)
      exact ih (fun i hi => hp i (by omega)) (by omega) hbase (by omega)
  | case2 base size hlt hpb =>
    have hbk := (hp base (by omega)).mp hpb
    omega
  | case3 base size hlt hpb =>
    have hkb : k ≤ base := Nat.le_of_not_lt fun h => hpb ((hp base (by omega)).mpr h)
    omega

/-- A predicate that holds of no element behind one of which it does not hold. -/
def Partitioned {α : Type*} (p : α → Bool) (l : List α) : Prop := l.Pairwise fun a b => p b = true → p a = true

theorem Partitioned.any_getElem {α : Type*} {p : α → Bool} {l : List α} (h : Partitioned p l) (i : Nat) :
    l[i]?.any p = true ↔ i < (l.takeWhile p).length := by
  induction l generalizing i with
  | nil => simp
  | cons a l ih =>
    obtain ⟨ha, hl⟩ := List.pairwise_cons.mp h
    by_cases hpa : p a = true
    · rw [List.takeWhile_cons_of_pos hpa]
      cases i with
      | zero => simp [hpa]
      | succ i => simpa using ih hl i
    · rw [List.takeWhile_cons_of_neg hpa]
      cases i with
      | zero => simp [hpa]
      | succ i =>
        simp only [List.getElem?_cons_succ, List.length_nil, Nat.not_lt_zero, iff_false, Option.any_eq_true, not_exists]
        rintro b ⟨hb, hpb⟩
        exact hpa (ha b (List.mem_of_getElem? hb) hpb)

/-- The search finds how many elements satisfy the predicate before the first one that does not. -/
theorem partitionPoint_eq {α : Type*} {p : α → Bool} {l : List α} (h : Partitioned p l) :
    partitionPoint p l = (l.takeWhile p).length := by
  unfold partitionPoint
  cases l with
  | nil => rfl
  | cons a l =>
    rw [if_neg (by simp)]
    refine searchFrom_eq (fun i _ => h.any_getElem i) (by simp) (Or.inl rfl) ?_
    rw [Nat.zero_add]
    exact (List.takeWhile_prefix p).length_le

/-- The element at the partition point is the first one of which the predicate does not hold. -/
theorem getElem_partitionPoint {α : Type*} {p : α → Bool} {l : List α} (h : Partitioned p l) :
    l[partitionPoint p l]? = l.find? fun a => !p a := by
  rw [partitionPoint_eq h]
  clear h
  induction l with
  | nil => rfl
  | cons a l ih =>
    by_cases hpa : p a = true
    · rw [List.takeWhile_cons_of_pos hpa, List.find?_cons_of_neg (by simp [hpa])]
      exact ih
    · rw [List.takeWhile_cons_of_neg hpa, List.find?_cons_of_pos (by simp [hpa])]
      rfl

namespace Pii

/-! ### Ranges -/

/-- `Range<usize>`. -/
structure Range where
  start : Nat
  stop : Nat
  deriving DecidableEq, Repr

namespace Range

def Valid (r : Range) : Prop := r.start < r.stop

/-- The first range ends before the second one begins, and they do not touch. -/
def Apart (r s : Range) : Prop := r.start < s.start ∧ r.stop < s.start

def Overlaps (r : Range) (start stop : Nat) : Prop := start < r.stop ∧ r.start < stop

end Range

/-- The position lies in one of the ranges. -/
def Covers (ranges : List Range) (x : Nat) : Prop := ∃ r ∈ ranges, r.start ≤ x ∧ x < r.stop

/-- The loop of `merge_ranges`, with the last range that was pushed. -/
def absorb (last : Range) : List Range → List Range
  | [] => [last]
  | r :: ranges =>
    if r.start ≤ last.stop then absorb { last with stop := max last.stop r.stop } ranges else last :: absorb r ranges

def mergeRanges (ranges : List Range) : List Range :=
  if ranges.length ≤ 1 then ranges
  else
    match ranges.mergeSort fun r s => r.start ≤ s.start with
    | [] => []
    | r :: sorted => absorb r sorted

def isInProtectedRange (ranges : List Range) (start stop : Nat) : Bool :=
  match ranges[partitionPoint (fun r => r.stop ≤ start) ranges]? with
  | some r => start < r.stop && r.start < stop
  | none => false

section

variable {ranges sorted : List Range} {last r : Range} {x start stop : Nat}

/-! ### What the merge covers -/

/-- The position lies in the last range or in one of those that are still to come. -/
theorem covers_absorb (hlast : last.Valid) (hvalid : ∀ r ∈ sorted, r.Valid) (hle : ∀ r ∈ sorted, last.start ≤ r.start)
    (hsorted : sorted.Pairwise fun r s => r.start ≤ s.start) :
    Covers (absorb last sorted) x ↔ Covers (last :: sorted) x := by
  induction sorted generalizing last with
  | nil => rfl
  | cons r sorted ih =>
    obtain ⟨hr, hrest⟩ := List.pairwise_cons.mp hsorted
    have hlr := hle r List.mem_cons_self
    have hvr := hvalid r List.mem_cons_self
    have hvrest : ∀ r ∈ sorted, r.Valid := fun s hs => hvalid s (List.mem_cons_of_mem _ hs)
    unfold Range.Valid at hlast hvr
    unfold absorb
    split
    · -- the two ranges touch, so their union is a range
      rename_i htouch
      have hunion : (Range.mk last.start (max last.stop r.stop)).Valid := by
        unfold Range.Valid
        dsimp only
        omega
      rw [ih hunion hvrest (fun s hs => hle s (List.mem_cons_of_mem _ hs)) hrest]
      unfold Covers
      simp only [List.exists_mem_cons_iff, ← or_assoc]
      refine or_congr_left ?_
      omega
    · have hrec := ih hvr hvrest hr hrest
      unfold Covers at hrec ⊢
      rw [List.exists_mem_cons_iff, hrec, List.exists_mem_cons_iff (a := last)]

/-- The ranges that come out begin where the last range does or later. -/
theorem start_le_of_mem_absorb (hle : ∀ r ∈ sorted, last.start ≤ r.start)
    (hsorted : sorted.Pairwise fun r s => r.start ≤ s.start) (h : r ∈ absorb last sorted) : last.start ≤ r.start := by
  induction sorted generalizing last with
  | nil =>
    rw [List.mem_singleton.mp h]
  | cons s sorted ih =>
    obtain ⟨hs, hrest⟩ := List.pairwise_cons.mp hsorted
    unfold absorb at h
    split at h
    · exact @ih ⟨last.start, max last.stop s.stop⟩ (fun r hr => hle r (List.mem_cons_of_mem _ hr)) hrest h
    · rcases List.mem_cons.mp h with rfl | h
      · exact le_rfl
      · exact (hle s List.mem_cons_self).trans (ih hs hrest h)

/-- The step of the merge: the ranges that come out are apart. -/
theorem apart_absorb (hlast : last.Valid) (hvalid : ∀ r ∈ sorted, r.Valid) (hle : ∀ r ∈ sorted, last.start ≤ r.start)
    (hsorted : sorted.Pairwise fun r s => r.start ≤ s.start) : (absorb last sorted).Pairwise Range.Apart := by
  induction sorted generalizing last with
  | nil => exact List.pairwise_singleton _ _
  | cons r sorted ih =>
    obtain ⟨hr, hrest⟩ := List.pairwise_cons.mp hsorted
    have hvr := hvalid r List.mem_cons_self
    have hvrest : ∀ r ∈ sorted, r.Valid := fun s hs => hvalid s (List.mem_cons_of_mem _ hs)
    unfold Range.Valid at hlast hvr
    unfold absorb
    split
    · have hunion : (Range.mk last.start (max last.stop r.stop)).Valid := by
        unfold Range.Valid
        dsimp only
        omega
      exact ih hunion hvrest (fun s hs => hle s (List.mem_cons_of_mem _ hs)) hrest
    · rename_i hgap
      refine List.pairwise_cons.mpr ⟨fun s hs => ?_, ih hvr hvrest hr hrest⟩
      have hrs := start_le_of_mem_absorb hr hrest hs
      constructor <;> omega

theorem valid_absorb (hlast : last.Valid) (hvalid : ∀ r ∈ sorted, r.Valid) : ∀ r ∈ absorb last sorted, r.Valid := by
  induction sorted generalizing last with
  | nil =>
    intro r hr
    rw [List.mem_singleton.mp hr]
    exact hlast
  | cons s sorted ih =>
    have hvs := hvalid s List.mem_cons_self
    have hvrest : ∀ r ∈ sorted, r.Valid := fun r hr => hvalid r (List.mem_cons_of_mem _ hr)
    unfold absorb
    split
    · refine ih ?_ hvrest
      unfold Range.Valid at hlast ⊢
      dsimp only
      omega
    · rintro r hr
      rcases List.mem_cons.mp hr with rfl | hr
      · exact hlast
      · exact ih hvs hvrest r hr

/-- What is sorted is a last range and the ones that begin where it does or later. -/
theorem mergeRanges_cases (ranges : List Range) :
    (mergeRanges ranges = ranges ∧ ranges.length ≤ 1) ∨
      ∃ last sorted, mergeRanges ranges = absorb last sorted ∧ (last :: sorted).Perm ranges ∧
        (last :: sorted).Pairwise fun r s => r.start ≤ s.start := by
  unfold mergeRanges
  by_cases hshort : ranges.length ≤ 1
  · exact Or.inl ⟨if_pos hshort, hshort⟩
  · right
    rw [if_neg hshort]
    have hperm := List.mergeSort_perm ranges fun r s => r.start ≤ s.start
    have hsorted : (ranges.mergeSort fun r s => r.start ≤ s.start).Pairwise fun r s => r.start ≤ s.start := by
      have := @List.pairwise_mergeSort Range (fun r s => decide (r.start ≤ s.start))
        (fun a b c hab hbc => by simp only [decide_eq_true_eq] at hab hbc ⊢; omega)
        (fun a b => by simp only [Bool.or_eq_true, decide_eq_true_eq]; omega) ranges
      exact this.imp fun h => of_decide_eq_true h
    cases hcase : ranges.mergeSort fun r s => r.start ≤ s.start with
    | nil =>
      rw [hcase] at hperm
      rw [hperm.symm.eq_nil] at hshort
      exact absurd (Nat.zero_le 1) hshort
    | cons last sorted =>
      rw [hcase] at hperm hsorted
      exact ⟨last, sorted, rfl, hperm, hsorted⟩

theorem apart_mergeRanges (hvalid : ∀ r ∈ ranges, r.Valid) : (mergeRanges ranges).Pairwise Range.Apart := by
  rcases mergeRanges_cases ranges with ⟨heq, hshort⟩ | ⟨last, sorted, heq, hperm, hsorted⟩
  · rw [heq]
    match ranges, hshort with
    | [], _ => exact List.Pairwise.nil
    | [r], _ => exact List.pairwise_singleton _ _
  · rw [heq]
    obtain ⟨hle, hrest⟩ := List.pairwise_cons.mp hsorted
    have hall : ∀ r ∈ last :: sorted, r.Valid := fun r hr => hvalid r (hperm.mem_iff.mp hr)
    exact apart_absorb (hall last List.mem_cons_self) (fun r hr => hall r (List.mem_cons_of_mem _ hr)) hle hrest

theorem valid_mergeRanges (hvalid : ∀ r ∈ ranges, r.Valid) : ∀ r ∈ mergeRanges ranges, r.Valid := by
  rcases mergeRanges_cases ranges with ⟨heq, -⟩ | ⟨last, sorted, heq, hperm, -⟩
  · rwa [heq]
  · rw [heq]
    have hall : ∀ r ∈ last :: sorted, r.Valid := fun r hr => hvalid r (hperm.mem_iff.mp hr)
    exact valid_absorb (hall last List.mem_cons_self) fun r hr => hall r (List.mem_cons_of_mem _ hr)

theorem covers_mergeRanges (hvalid : ∀ r ∈ ranges, r.Valid) : Covers (mergeRanges ranges) x ↔ Covers ranges x := by
  rcases mergeRanges_cases ranges with ⟨heq, -⟩ | ⟨last, sorted, heq, hperm, hsorted⟩
  · rw [heq]
  · rw [heq]
    obtain ⟨hle, hrest⟩ := List.pairwise_cons.mp hsorted
    have hall : ∀ r ∈ last :: sorted, r.Valid := fun r hr => hvalid r (hperm.mem_iff.mp hr)
    rw [covers_absorb (hall last List.mem_cons_self) (fun r hr => hall r (List.mem_cons_of_mem _ hr)) hle hrest]
    exact exists_congr fun r => and_congr_left fun _ => hperm.mem_iff

/-! ### The lookup -/

/-- A span overlaps one of the ranges if and only if some position of it is covered. -/
theorem exists_overlaps_iff (hvalid : ∀ r ∈ ranges, r.Valid) (hspan : start < stop) :
    (∃ r ∈ ranges, r.Overlaps start stop) ↔ ∃ x, start ≤ x ∧ x < stop ∧ Covers ranges x := by
  constructor
  · rintro ⟨r, hr, hstart, hstop⟩
    have hv := hvalid r hr
    unfold Range.Valid at hv
    exact ⟨max start r.start, by omega, by omega, r, hr, by omega, by omega⟩
  · rintro ⟨x, hstart, hstop, r, hr, hle, hlt⟩
    exact ⟨r, hr, by unfold Range.Overlaps; omega⟩

/-- Of ranges that are apart, the one that the lookup finds overlaps the span if any of them does. -/
theorem isInProtectedRange_iff (hvalid : ∀ r ∈ ranges, r.Valid) (hapart : ranges.Pairwise Range.Apart) :
    isInProtectedRange ranges start stop = true ↔ ∃ r ∈ ranges, r.Overlaps start stop := by
  have hpartitioned : Partitioned (fun r : Range => r.stop ≤ start) ranges := by
    refine hapart.imp_of_mem fun {r s} _ hs hrs hstop => ?_
    have hv := hvalid s hs
    unfold Range.Valid at hv
    rw [decide_eq_true_iff] at hstop ⊢
    have hgap := hrs.2
    omega
  unfold isInProtectedRange
  rw [getElem_partitionPoint hpartitioned]
  cases hfind : ranges.find? fun r => !decide (r.stop ≤ start) with
  | none =>
    rw [List.find?_eq_none] at hfind
    refine iff_of_false Bool.false_ne_true ?_
    rintro ⟨r, hr, hstart, -⟩
    have hbefore := hfind r hr
    simp only [Bool.not_eq_true', decide_eq_false_iff_not, not_not] at hbefore
    omega
  | some r =>
    obtain ⟨hend, before, behind, hsplit, hbefore⟩ := List.find?_eq_some_iff_append.mp hfind
    simp only [Bool.not_eq_true', decide_eq_false_iff_not] at hend
    simp only [Bool.and_eq_true, decide_eq_true_iff]
    constructor
    · intro h
      exact ⟨r, List.mem_of_find?_eq_some hfind, h⟩
    · rintro ⟨s, hs, hstart, hstop⟩
      refine ⟨by omega, ?_⟩
      rw [hsplit] at hs hapart
      rcases List.mem_append.mp hs with hs | hs
      · have hle := hbefore s hs
        simp only [Bool.not_not, decide_eq_true_iff] at hle
        omega
      · rcases List.mem_cons.mp hs with rfl | hs
        · exact hstop
        · -- a range behind the one that was found begins behind it
          obtain ⟨hrs, -⟩ := (List.pairwise_cons.mp (List.pairwise_append.mp hapart).2.1).1 s hs
          omega

/-- The lookup is the plain overlap test on the ranges before the merge. -/
theorem mergeRanges_lookup (hvalid : ∀ r ∈ ranges, r.Valid) :
    (mergeRanges ranges).Pairwise Range.Apart ∧ (∀ x, Covers (mergeRanges ranges) x ↔ Covers ranges x) ∧
      ∀ start stop, start < stop →
        (isInProtectedRange (mergeRanges ranges) start stop = true ↔ ∃ r ∈ ranges, r.Overlaps start stop) := by
  refine ⟨apart_mergeRanges hvalid, fun x => covers_mergeRanges hvalid, fun start stop hspan => ?_⟩
  have hvalid' := valid_mergeRanges hvalid
  rw [isInProtectedRange_iff hvalid' (apart_mergeRanges hvalid), exists_overlaps_iff hvalid' hspan,
    exists_overlaps_iff hvalid hspan]
  exact exists_congr fun x => and_congr_right fun _ => and_congr_right fun _ => covers_mergeRanges hvalid

end

/-- Two ranges that touch, and one that stands apart from them. -/
def touching : List Range := [⟨4, 6⟩, ⟨0, 2⟩, ⟨2, 3⟩]

theorem mergeRanges_lookup_touching :
    (mergeRanges touching).Pairwise Range.Apart ∧ (∀ x, Covers (mergeRanges touching) x ↔ Covers touching x) ∧
      ∀ start stop, start < stop →
        (isInProtectedRange (mergeRanges touching) start stop = true ↔ ∃ r ∈ touching, r.Overlaps start stop) := by
  refine mergeRanges_lookup fun r hr => ?_
  unfold touching at hr
  simp only [List.mem_cons, List.not_mem_nil, or_false] at hr
  rcases hr with rfl | rfl | rfl
  · exact Nat.lt_of_sub_pos Nat.two_pos
  · exact Nat.two_pos
  · exact Nat.lt_succ_self 2

end Pii

end OpenProxy
