import OpenProxy.Pii.Collision
import Mathlib.Tactic.Ring

/-!
# The numeric domain

The pseudonyms that the search among the numbers can reach from a proposal.  The search counts up, goes from 99…9 to
90…0, and never to a number with a leading zero: it reaches the numbers of the same length that begin with 9 or are not
below the proposal, and no others (`iterate_nextNumeric_iff`).
-/

namespace OpenProxy.Pii

open PiiSession (increment nextNumeric)

/-! ### The value of a digit -/

theorem toNat_of_isDigit {c : Char} (h : c.isDigit = true) : 48 ≤ c.toNat ∧ c.toNat ≤ 57 := by
  simp only [Char.isDigit, Bool.and_eq_true, decide_eq_true_eq, UInt32.le_iff_toNat_le, ge_iff_le] at h
  exact h

private theorem digitValue_eq (c : Char) : digitValue c = c.toNat - 48 := rfl

private theorem digitValue_lt {c : Char} (h : c.isDigit = true) : digitValue c < 10 := by
  have := toNat_of_isDigit h
  rw [digitValue_eq]
  omega

private theorem eq_of_toNat {a b : Char} (h : a.toNat = b.toNat) : a = b := Char.ext (UInt32.toNat_inj.mp h)

private theorem digitValue_inj {a b : Char} (ha : a.isDigit = true) (hb : b.isDigit = true)
    (h : digitValue a = digitValue b) : a = b := by
  have h1 := toNat_of_isDigit ha
  have h2 := toNat_of_isDigit hb
  rw [digitValue_eq, digitValue_eq] at h
  exact eq_of_toNat (by omega)

private theorem digitValue_succ {c : Char} (h : c.isDigit = true) (h9 : c ≠ '9') :
    digitValue (Char.ofNat (c.toNat + 1)) = digitValue c + 1 ∧ digitValue c < 9 := by
  have hc := toNat_of_isDigit h
  have hne : c.toNat ≠ 57 := fun e => h9 (eq_of_toNat e)
  have hall : ∀ n : Fin 9, digitValue (Char.ofNat (48 + n.val + 1)) = n.val + 1 := by decide
  have hsucc := hall ⟨c.toNat - 48, by omega⟩
  rw [show 48 + (c.toNat - 48) + 1 = c.toNat + 1 by omega] at hsucc
  rw [hsucc, digitValue_eq]
  exact ⟨rfl, by omega⟩

/-! ### The rank of digits -/

/-- The number that digits denote, the last digit first. -/
@[grind =] def rank : List Char → Nat
  | [] => 0
  | d :: ds => digitValue d + 10 * rank ds

private theorem ofDecimal_concat (s : Text) (c : Char) : ofDecimal (s ++ [c]) = 10 * ofDecimal s + digitValue c := by
  simp [ofDecimal, List.foldl_append]

theorem rank_reverse (s : Text) : rank s.reverse = ofDecimal s := by
  induction s using List.reverseRecOn with
  | nil => rfl
  | append_singleton s c ih =>
    rw [List.reverse_concat, ofDecimal_concat, rank, ih]
    omega

theorem rank_lt {ds : List Char} (h : ∀ d ∈ ds, d.isDigit = true) : rank ds < 10 ^ ds.length := by
  induction ds with
  | nil => simp [rank]
  | cons d ds ih =>
    have hd := digitValue_lt (h d List.mem_cons_self)
    have hds := ih fun d' hd' => h d' (List.mem_cons_of_mem _ hd')
    rw [rank, List.length_cons, Nat.pow_succ]
    omega

/-- Counting up, where the carry out of the first digit is lost. -/
theorem rank_increment {ds : List Char} (h : ∀ d ∈ ds, d.isDigit = true) :
    rank (increment ds) = (rank ds + 1) % 10 ^ ds.length := by
  induction ds with
  | nil => simp [increment, rank]
  | cons d ds ih =>
    have hd := h d List.mem_cons_self
    have hds : ∀ d' ∈ ds, d'.isDigit = true := fun d' hd' => h d' (List.mem_cons_of_mem _ hd')
    unfold increment
    split
    · rename_i h9
      have hzero : digitValue '0' = 0 := rfl
      have hnine : digitValue '9' = 9 := rfl
      have hcarry : 9 + 10 * rank ds + 1 = 10 * (rank ds + 1) := by omega
      rw [h9, rank, rank, ih hds, hzero, hnine, hcarry, List.length_cons, Nat.pow_succ, Nat.mul_comm (10 ^ ds.length) 10,
        Nat.mul_mod_mul_left, Nat.zero_add]
    · rename_i h9
      obtain ⟨hsucc, hlt⟩ := digitValue_succ hd h9
      have hrank := rank_lt hds
      rw [rank, rank, hsucc, List.length_cons, Nat.pow_succ, Nat.mod_eq_of_lt (by omega)]
      omega

theorem rank_injective {as bs : List Char} (ha : ∀ d ∈ as, d.isDigit = true) (hb : ∀ d ∈ bs, d.isDigit = true)
    (hlen : as.length = bs.length) (h : rank as = rank bs) : as = bs := by
  induction as generalizing bs with
  | nil => exact (List.length_eq_zero_iff.mp hlen.symm).symm
  | cons a as ih =>
    cases bs with
    | nil => simp at hlen
    | cons b bs =>
      have h1 := ha a List.mem_cons_self
      have h2 := hb b List.mem_cons_self
      have hlt1 := digitValue_lt h1
      have hlt2 := digitValue_lt h2
      rw [rank, rank] at h
      have hhead : a = b := digitValue_inj h1 h2 (by omega)
      have htail : as = bs := ih (fun d hd => ha d (List.mem_cons_of_mem _ hd))
        (fun d hd => hb d (List.mem_cons_of_mem _ hd)) (by simpa using hlen) (by omega)
      rw [hhead, htail]

/-! ### Numbers of one length -/

/-- A number with a given number of digits after the first. -/
def IsNumeral (n : Nat) (s : Text) : Prop := s.length = n + 1 ∧ s.all Char.isDigit = true

private theorem IsNumeral.reverse {n : Nat} {s : Text} (h : IsNumeral n s) : ∀ d ∈ s.reverse, d.isDigit = true := by
  intro d hd
  exact List.all_eq_true.mp h.2 d (List.mem_reverse.mp hd)

theorem IsNumeral.lt {n : Nat} {s : Text} (h : IsNumeral n s) : ofDecimal s < 10 ^ (n + 1) := by
  have := rank_lt h.reverse
  rwa [rank_reverse, List.length_reverse, h.1] at this

theorem IsNumeral.eq_of_ofDecimal {n : Nat} {s t : Text} (hs : IsNumeral n s) (ht : IsNumeral n t)
    (h : ofDecimal s = ofDecimal t) : s = t := by
  rw [← rank_reverse, ← rank_reverse] at h
  have := rank_injective hs.reverse ht.reverse (by rw [List.length_reverse, List.length_reverse, hs.1, ht.1]) h
  exact List.reverse_injective this

theorem IsNumeral.next {n : Nat} {s : Text} (h : IsNumeral n s) : IsNumeral n (nextNumeric s) :=
  ⟨by rw [PiiSession.length_nextNumeric, h.1], PiiSession.nextNumeric_digits h.2⟩

/-- The first digit and the digits after it. -/
private theorem ofDecimal_cons {c : Char} {s : Text} : ofDecimal (c :: s) = digitValue c * 10 ^ s.length + ofDecimal s := by
  induction s using List.reverseRecOn with
  | nil => simp [ofDecimal]
  | append_singleton s d ih =>
    rw [← List.cons_append, ofDecimal_concat, ih, ofDecimal_concat, List.length_append, List.length_singleton, Nat.pow_succ]
    ring

/-- What the first digit says of the number. -/
private theorem IsNumeral.head {n : Nat} {s : Text} (h : IsNumeral n s) : ∃ c rest, s = c :: rest ∧ c.isDigit = true ∧
    digitValue c * 10 ^ n ≤ ofDecimal s ∧ ofDecimal s < (digitValue c + 1) * 10 ^ n := by
  obtain ⟨hlen, hdigits⟩ := h
  cases s with
  | nil => simp at hlen
  | cons c rest =>
    rw [List.all_cons, Bool.and_eq_true] at hdigits
    have hrest : rank rest.reverse < 10 ^ rest.reverse.length :=
      rank_lt fun d hd => List.all_eq_true.mp hdigits.2 d (List.mem_reverse.mp hd)
    have hn : rest.length = n := by simpa using hlen
    rw [rank_reverse, List.length_reverse, hn] at hrest
    refine ⟨c, rest, rfl, hdigits.1, ?_, ?_⟩
    · rw [ofDecimal_cons, hn]
      omega
    · rw [ofDecimal_cons, hn, Nat.add_mul]
      omega

theorem IsNumeral.head_zero_iff {n : Nat} {s : Text} (h : IsNumeral n s) : s.head? = some '0' ↔ ofDecimal s < 10 ^ n := by
  obtain ⟨c, rest, rfl, hc, hge, hlt⟩ := h.head
  have hzero : digitValue '0' = 0 := rfl
  rw [List.head?_cons, Option.some.injEq]
  constructor
  · rintro rfl
    rw [hzero] at hlt
    omega
  · intro hsmall
    apply digitValue_inj hc (by decide)
    rw [hzero]
    by_contra hne
    have hone : 1 * 10 ^ n ≤ digitValue c * 10 ^ n := Nat.mul_le_mul_right _ (by omega)
    omega

theorem IsNumeral.head_nine_iff {n : Nat} {s : Text} (h : IsNumeral n s) :
    s.head? = some '9' ↔ 9 * 10 ^ n ≤ ofDecimal s := by
  obtain ⟨c, rest, rfl, hc, hge, hlt⟩ := h.head
  have hnine : digitValue '9' = 9 := rfl
  have hdigit := digitValue_lt hc
  rw [List.head?_cons, Option.some.injEq]
  constructor
  · rintro rfl
    rwa [hnine] at hge
  · intro hlarge
    apply digitValue_inj hc (by decide)
    rw [hnine]
    by_contra hne
    have hle : (digitValue c + 1) * 10 ^ n ≤ 9 * 10 ^ n := Nat.mul_le_mul_right _ (by omega)
    omega

/-! ### The search -/

/-- One step of the search, from a number without a leading zero. -/
theorem ofDecimal_nextNumeric {n : Nat} {s : Text} (h : IsNumeral n s) (hs : 10 ^ n ≤ ofDecimal s) :
    ofDecimal (nextNumeric s) = if ofDecimal s + 1 = 10 ^ (n + 1) then 9 * 10 ^ n else ofDecimal s + 1 := by
  have hlt := h.lt
  have hpos : 0 < 10 ^ n := Nat.pow_pos (by omega)
  have hpow : 10 ^ (n + 1) = 10 * 10 ^ n := by rw [Nat.pow_succ, Nat.mul_comm]
  have hvalue : ofDecimal (increment s.reverse).reverse = (ofDecimal s + 1) % 10 ^ (n + 1) := by
    rw [← rank_reverse, List.reverse_reverse, rank_increment h.reverse, rank_reverse, List.length_reverse, h.1]
  have ht : IsNumeral n (increment s.reverse).reverse := by
    constructor
    · rw [List.length_reverse, PiiSession.length_increment, List.length_reverse, h.1]
    · rw [List.all_eq_true]
      intro d hd
      exact PiiSession.increment_digits _ h.reverse d (List.mem_reverse.mp hd)
  have hzero := ht.head_zero_iff
  unfold nextNumeric
  generalize (increment s.reverse).reverse = t at hvalue ht hzero
  split
  · rename_i rest
    have hsmall := hzero.mp rfl
    rw [hvalue] at hsmall
    -- a leading zero appears only when the carry is lost
    have hlast : ofDecimal s + 1 = 10 ^ (n + 1) := by
      by_contra hne
      rw [Nat.mod_eq_of_lt (by omega)] at hsmall
      omega
    have hrest : ofDecimal rest = 0 := by
      rw [hlast, Nat.mod_self, ofDecimal_cons] at hvalue
      omega
    have hlen : rest.length = n := by
      have := ht.1
      rw [List.length_cons] at this
      omega
    rw [if_pos hlast, ofDecimal_cons, hrest, hlen]
    rfl
  · rename_i hno
    have hlarge : 10 ^ n ≤ ofDecimal t := by
      by_contra hsmall
      have hhead := hzero.mpr (by omega)
      obtain ⟨c, rest, heq, -⟩ := ht.head
      rw [heq, List.head?_cons, Option.some.injEq] at hhead
      exact hno rest (by rw [heq, hhead])
    rw [hvalue] at hlarge ⊢
    by_cases hlast : ofDecimal s + 1 = 10 ^ (n + 1)
    · rw [hlast, Nat.mod_self] at hlarge
      omega
    · rw [if_neg hlast, Nat.mod_eq_of_lt (by omega)]

private theorem IsNumeral.iterate {n : Nat} {s : Text} (h : IsNumeral n s) (i : Nat) : IsNumeral n (nextNumeric^[i] s) := by
  induction i with
  | zero => exact h
  | succ i ih =>
    rw [Function.iterate_succ_apply']
    exact ih.next

/-- The search counts up as long as there are digits for it. -/
private theorem ofDecimal_iterate {n : Nat} {s : Text} (h : IsNumeral n s) (hs : 10 ^ n ≤ ofDecimal s) {i : Nat}
    (hi : ofDecimal s + i < 10 ^ (n + 1)) : ofDecimal (nextNumeric^[i] s) = ofDecimal s + i := by
  induction i with
  | zero => rfl
  | succ i ih =>
    have hprev := ih (by omega)
    rw [Function.iterate_succ_apply', ofDecimal_nextNumeric (h.iterate i) (by omega), hprev, if_neg (by omega)]
    rfl

/-- The numbers that the search reaches from a proposal without a leading zero. -/
theorem iterate_nextNumeric_iff {n : Nat} {p q : Text} (hp : IsNumeral n p) (hlead : p.head? ≠ some '0') :
    (∃ i, nextNumeric^[i] p = q) ↔ IsNumeral n q ∧ (ofDecimal p ≤ ofDecimal q ∨ q.head? = some '9') := by
  have hstart : 10 ^ n ≤ ofDecimal p := by
    rw [ne_eq, hp.head_zero_iff] at hlead
    omega
  have hlast := hp.lt
  have hpow : 10 ^ (n + 1) = 10 * 10 ^ n := by rw [Nat.pow_succ, Nat.mul_comm]
  constructor
  · rintro ⟨i, rfl⟩
    refine ⟨hp.iterate i, ?_⟩
    rw [(hp.iterate i).head_nine_iff]
    induction i with
    | zero => exact Or.inl le_rfl
    | succ i ih =>
      have hlarge : 10 ^ n ≤ ofDecimal (nextNumeric^[i] p) := by omega
      rw [Function.iterate_succ_apply', ofDecimal_nextNumeric (hp.iterate i) hlarge]
      split
      · exact Or.inr le_rfl
      · omega
  · rintro ⟨hq, hreach⟩
    rw [hq.head_nine_iff] at hreach
    have hbound := hq.lt
    by_cases hle : ofDecimal p ≤ ofDecimal q
    · refine ⟨ofDecimal q - ofDecimal p, (hp.iterate _).eq_of_ofDecimal hq ?_⟩
      rw [ofDecimal_iterate hp hstart (by omega)]
      omega
    · -- up to the last number, from there to the first one with a leading nine, and up again
      have hnine : 9 * 10 ^ n ≤ ofDecimal q := by omega
      let turn := nextNumeric^[10 ^ (n + 1) - 1 - ofDecimal p] p
      have hturn : IsNumeral n turn := hp.iterate _
      have hvalue : ofDecimal turn = 10 ^ (n + 1) - 1 := by
        rw [ofDecimal_iterate hp hstart (by omega)]
        omega
      have hwrap : ofDecimal (nextNumeric turn) = 9 * 10 ^ n := by
        rw [ofDecimal_nextNumeric hturn (by omega), if_pos (by omega)]
      refine ⟨ofDecimal q - 9 * 10 ^ n + 1 + (10 ^ (n + 1) - 1 - ofDecimal p), ?_⟩
      rw [Function.iterate_add_apply, Function.iterate_succ_apply]
      refine (hturn.next.iterate _).eq_of_ofDecimal hq ?_
      rw [ofDecimal_iterate hturn.next (by omega) (by omega), hwrap]
      omega

end OpenProxy.Pii
