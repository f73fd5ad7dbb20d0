import Mathlib.Data.List.Pairwise
import Mathlib.Order.WellFounded

/-!
# Intervals kept from left to right

`sweep` walks through intervals in the order of where they begin, the longer one first where two begin together, and
keeps each interval that does not begin inside the one it kept last.  Nothing that the intervals cover is lost
exactly when some of them, each the longest one that begins where it does, are apart and cover all of it
(`covers_sweep_iff`).
-/

namespace OpenProxy.Data.Sweep

variable {α β : Type*} [LinearOrder α] {lo hi : β → α} {cs : List β} {last : α}

section Defs

variable (lo hi)

/-- The point lies in one of the intervals. -/
def Covers (cs : List β) (x : α) : Prop := ∃ c ∈ cs, lo c ≤ x ∧ x < hi c

/-- The order of the intervals: by where they begin, and the longer one first. -/
def Before (a b : β) : Prop := lo a < lo b ∨ (lo a = lo b ∧ hi b ≤ hi a)

/-- The intervals have no point in common. -/
def Apart (a b : β) : Prop := hi a ≤ lo b ∨ hi b ≤ lo a

/-- The intervals that do not begin inside the one kept last. -/
def sweep : α → List β → List β
  | _, [] => []
  | last, c :: cs => if last ≤ lo c then c :: sweep (hi c) cs else sweep last cs

/-- Some of the intervals are apart and cover all that the intervals cover, and each of them is the longest one that
begins where it does. -/
def Tiled (cs : List β) : Prop :=
  ∃ tiles ⊆ cs, tiles.Pairwise (Apart lo hi) ∧ (∀ t ∈ tiles, ∀ c ∈ cs, lo c = lo t → hi c ≤ hi t) ∧
    ∀ x, Covers lo hi cs x → Covers lo hi tiles x

end Defs

instance : Std.Symm (Apart lo hi) := ⟨fun _ _ => Or.symm⟩

theorem sweep_sublist : (sweep lo hi last cs).Sublist cs := by
  induction cs generalizing last with
  | nil => exact List.Sublist.refl _
  | cons c cs ih =>
    unfold sweep
    split
    · exact ih.cons_cons c
    · exact ih.cons c

theorem le_lo_of_mem_sweep (hvalid : ∀ c ∈ cs, lo c ≤ hi c) {c : β} (hc : c ∈ sweep lo hi last cs) : last ≤ lo c := by
  induction cs generalizing last with
  | nil => simp [sweep] at hc
  | cons b cs ih =>
    have hvalid' : ∀ c ∈ cs, lo c ≤ hi c := fun c hc => hvalid c (List.mem_cons_of_mem _ hc)
    unfold sweep at hc
    split at hc
    · rename_i hle
      rcases List.mem_cons.mp hc with rfl | hc
      · exact hle
      · exact (hle.trans (hvalid b (by simp))).trans (ih hvalid' hc)
    · exact ih hvalid' hc

theorem sweep_pairwise (hvalid : ∀ c ∈ cs, lo c ≤ hi c) : (sweep lo hi last cs).Pairwise fun a b => hi a ≤ lo b := by
  induction cs generalizing last with
  | nil => exact List.Pairwise.nil
  | cons b cs ih =>
    have hvalid' : ∀ c ∈ cs, lo c ≤ hi c := fun c hc => hvalid c (List.mem_cons_of_mem _ hc)
    unfold sweep
    split
    · exact List.Pairwise.cons (fun c hc => le_lo_of_mem_sweep hvalid' hc) (ih hvalid')
    · exact ih hvalid'

/-- Two intervals that are kept and have a point in common are the same. -/
theorem eq_of_mem_sweep (hvalid : ∀ c ∈ cs, lo c ≤ hi c) {a b : β} (ha : a ∈ sweep lo hi last cs)
    (hb : b ∈ sweep lo hi last cs) (hab : ¬ Apart lo hi a b) : a = b := by
  by_contra hne
  have hpair : (sweep lo hi last cs).Pairwise (Apart lo hi) := (sweep_pairwise hvalid).imp Or.inl
  exact hab (hpair.forall ha hb hne)

/-- An interval that is given up begins inside one that is kept and stands before it. -/
theorem mem_sweep_or (hsorted : cs.Pairwise (Before lo hi)) (last : α) {c : β} (hc : c ∈ cs) :
    c ∈ sweep lo hi last cs ∨ lo c < last ∨ ∃ g ∈ sweep lo hi last cs, Before lo hi g c ∧ lo c < hi g := by
  induction cs generalizing last with
  | nil => simp at hc
  | cons b cs ih =>
    obtain ⟨hb, hsorted'⟩ := List.pairwise_cons.mp hsorted
    unfold sweep
    by_cases hle : last ≤ lo b
    · rw [if_pos hle]
      rcases List.mem_cons.mp hc with rfl | hc
      · exact Or.inl (by simp)
      rcases ih hsorted' (hi b) hc with hmem | hlt | ⟨g, hg, hgc⟩
      · exact Or.inl (List.mem_cons_of_mem _ hmem)
      · exact Or.inr (Or.inr ⟨b, by simp, hb c hc, hlt⟩)
      · exact Or.inr (Or.inr ⟨g, List.mem_cons_of_mem _ hg, hgc⟩)
    · rw [if_neg hle]
      rcases List.mem_cons.mp hc with rfl | hc
      · exact Or.inr (Or.inl (not_le.mp hle))
      · exact ih hsorted' last hc

section Sorted

variable (hsorted : cs.Pairwise (Before lo hi)) (hvalid : ∀ c ∈ cs, lo c ≤ hi c) (hlast : ∀ c ∈ cs, last ≤ lo c)
include hsorted hvalid hlast

/-- What is kept and not empty is a choice of tiles, as far as it covers everything. -/
theorem tiled_of_covers (hcovers : ∀ x, Covers lo hi cs x → Covers lo hi (sweep lo hi last cs) x) : Tiled lo hi cs := by
  refine ⟨(sweep lo hi last cs).filter fun c => lo c < hi c, fun c hc => ?_, ?_, fun t ht c hc heq => ?_, fun x hx => ?_⟩
  · exact sweep_sublist.subset (List.mem_filter.mp hc).1
  · exact ((sweep_pairwise hvalid).imp Or.inl).filter _
  · simp only [List.mem_filter, decide_eq_true_eq] at ht
    obtain ⟨ht, hlt⟩ := ht
    by_contra hlong
    rw [not_le] at hlong
    rcases mem_sweep_or hsorted last hc with hmem | hbad | ⟨g, hg, hbefore, hin⟩
    · have heq' : c = t := eq_of_mem_sweep hvalid hmem ht (by simp only [Apart, not_or, not_le]; grind)
      exact absurd hlong (by rw [heq']; exact lt_irrefl _)
    · exact absurd hbad (not_lt.mpr (hlast c hc))
    · have hle : lo g ≤ lo c := by rcases hbefore with h | h <;> grind
      have heq' : g = t := eq_of_mem_sweep hvalid hg ht (by simp only [Apart, not_or, not_le]; grind)
      subst heq'
      rcases hbefore with h | h <;> grind
  · obtain ⟨c, hc, hcx⟩ := hcovers x hx
    exact ⟨c, by simp only [List.mem_filter, decide_eq_true_eq]; exact ⟨hc, hcx.1.trans_lt hcx.2⟩, hcx⟩

/-- Every tile that is not empty is kept, by the tiles further left. -/
theorem kept_of_tile [WellFoundedLT α] {tiles : List β} (hsub : tiles ⊆ cs) (hapart : tiles.Pairwise (Apart lo hi))
    (hlongest : ∀ t ∈ tiles, ∀ c ∈ cs, lo c = lo t → hi c ≤ hi t)
    (hcovers : ∀ x, Covers lo hi cs x → Covers lo hi tiles x) {t : β} (ht : t ∈ tiles) (hpos : lo t < hi t) :
    ∃ g ∈ sweep lo hi last cs, lo g = lo t ∧ hi g = hi t := by
  have key : ∀ a, ∀ t ∈ tiles, lo t = a → lo t < hi t → ∃ g ∈ sweep lo hi last cs, lo g = lo t ∧ hi g = hi t := by
    intro a
    induction a using WellFoundedLT.induction with
    | ind a ih =>
      rintro t ht rfl hpos
      rcases mem_sweep_or hsorted last (hsub ht) with hmem | hbad | ⟨g, hg, hbefore, hin⟩
      · exact ⟨t, hmem, rfl, rfl⟩
      · exact absurd hbad (not_lt.mpr (hlast t (hsub ht)))
      have hgcs : g ∈ cs := sweep_sublist.subset hg
      rcases hbefore with hlt | ⟨heq, hle⟩
      · -- the tile over the beginning of `g` ends before `t`, so it is another one that is kept, and it meets `g`
        obtain ⟨t', ht', hstart, hstop⟩ := hcovers (lo g) ⟨g, hgcs, le_refl _, hlt.trans hin⟩
        have hne : t' ≠ t := by
          rintro rfl
          exact absurd hlt (not_lt.mpr hstart)
        have hapart' : Apart lo hi t' t := hapart.forall ht' ht hne
        have hend : hi t' ≤ lo t := by
          rcases hapart' with h | h
          · exact h
          · exact absurd (hpos.trans_le h) (not_lt.mpr (hstart.trans hlt.le))
        obtain ⟨g', hg', hlo, hhi⟩ := ih (lo t') (hstart.trans_lt hlt) t' ht' rfl (hstart.trans_lt hstop)
        have heq : g' = g := eq_of_mem_sweep hvalid hg' hg (by simp only [Apart, not_or, not_le]; grind)
        subst heq
        exact absurd (hend.trans_lt hin) (by rw [hhi]; exact lt_irrefl _)
      · exact ⟨g, hg, heq, le_antisymm (hlongest t ht g hgcs heq) hle⟩
  exact key (lo t) t ht rfl hpos

theorem covers_sweep_iff [WellFoundedLT α] :
    (∀ x, Covers lo hi cs x → Covers lo hi (sweep lo hi last cs) x) ↔ Tiled lo hi cs := by
  constructor
  · exact tiled_of_covers hsorted hvalid hlast
  · rintro ⟨tiles, hsub, hapart, hlongest, hcovers⟩ x hx
    obtain ⟨t, ht, hstart, hstop⟩ := hcovers x hx
    obtain ⟨g, hg, hlo, hhi⟩ := kept_of_tile hsorted hvalid hlast hsub hapart hlongest hcovers ht (hstart.trans_lt hstop)
    exact ⟨g, hg, hlo ▸ hstart, hhi ▸ hstop⟩

end Sorted

theorem covers_congr {cs cs' : List β} (h : ∀ c, c ∈ cs ↔ c ∈ cs') (x : α) : Covers lo hi cs x ↔ Covers lo hi cs' x := by
  simp only [Covers, h]

theorem tiled_congr {cs cs' : List β} (h : ∀ c, c ∈ cs ↔ c ∈ cs') : Tiled lo hi cs ↔ Tiled lo hi cs' := by
  simp only [Tiled, List.subset_def, Covers, h]

end OpenProxy.Data.Sweep
