import Mathlib.Data.List.Basic
import Mathlib.Algebra.Order.Ring.Nat

/-!
# Checked computations

A function of Rust that returns an `Option` and is compiled with overflow checks ends with a value, with `None`, or with a
panic.  `>>=` is the operator `?`: the computation goes on with a value only.  `Safe x P` says that `x` does not panic and
that its value, if there is one, has the property `P`; the rules of `Safe` compute it step by step (`safe_bind`).
-/

namespace OpenProxy

/-- Why a computation panics. -/
inductive Panic
  | overflow
  | outOfRange
  | divideByZero
  deriving DecidableEq, Repr

/-- How a function that returns an `Option` ends. -/
inductive Checked (α : Type)
  | value (a : α)
  | missing
  | panic (p : Panic)
  deriving DecidableEq, Repr

namespace Checked

variable {α β : Type}

def bind (x : Checked α) (f : α → Checked β) : Checked β :=
  match x with
  | value a => f a
  | missing => missing
  | panic p => panic p

instance : Monad Checked where
  pure := value
  bind := bind

@[simp] theorem value_bind (a : α) (f : α → Checked β) : (value a >>= f) = f a := rfl

@[simp] theorem missing_bind (f : α → Checked β) : (missing >>= f) = missing := rfl

@[simp] theorem panic_bind (p : Panic) (f : α → Checked β) : (panic p >>= f) = panic p := rfl

/-- The operator `?` on a plain option. -/
def ofOption : Option α → Checked α
  | some a => value a
  | none => missing

@[simp] theorem ofOption_some (a : α) : ofOption (some a) = value a := rfl

@[simp] theorem ofOption_none : ofOption (none : Option α) = missing := rfl

/-- The returned option itself, without `?`. -/
def attempt : Checked α → Checked (Option α)
  | value a => value (some a)
  | missing => value none
  | panic p => panic p

@[simp] theorem attempt_value (a : α) : attempt (value a) = value (some a) := rfl

@[simp] theorem attempt_missing : attempt (missing : Checked α) = value none := rfl

/-! ### Arithmetic -/

/-- The greatest number of `usize` and `u64`, and of `u32`. -/
def max64 : Nat := 2 ^ 64 - 1

def max32 : Nat := 2 ^ 32 - 1

/-- A result that has to fit into a type. -/
def fit (max n : Nat) : Checked Nat := if n ≤ max then value n else panic .overflow

/-- `+` and `*`. -/
def add64 (a b : Nat) : Checked Nat := fit max64 (a + b)

def mul64 (a b : Nat) : Checked Nat := fit max64 (a * b)

def mul32 (a b : Nat) : Checked Nat := fit max32 (a * b)

/-- `-`. -/
def sub64 (a b : Nat) : Checked Nat := if b ≤ a then value (a - b) else panic .overflow

/-- `/`. -/
def div64 (a b : Nat) : Checked Nat := if b = 0 then panic .divideByZero else value (a / b)

/-- `checked_add(..)?`. -/
def checkedAdd (a b : Nat) : Checked Nat := if a + b ≤ max64 then value (a + b) else missing

/-- `checked_mul(..)?`. -/
def checkedMul (a b : Nat) : Checked Nat := if a * b ≤ max64 then value (a * b) else missing

/-- `saturating_mul`. -/
def saturatingMul (a b : Nat) : Nat := min (a * b) max64

/-- `try_from(..).ok()` for `u32`. -/
def tryFrom32 (n : Nat) : Option Nat := if n ≤ max32 then some n else none

/-! ### Slices -/

/-- `xs[i]`. -/
def index (xs : List α) (i : Nat) : Checked α :=
  match xs[i]? with
  | some a => value a
  | none => panic .outOfRange

/-- `xs[i] = a`. -/
def setIndex (xs : List α) (i : Nat) (a : α) : Checked (List α) :=
  if i < xs.length then value (xs.set i a) else panic .outOfRange

/-- The first `n` elements, each by its index. -/
def indices (xs : List α) : Nat → Checked (List α)
  | 0 => value []
  | n + 1 => do
    let before ← indices xs n
    let last ← index xs n
    value (before ++ [last])

/-- `get(s..e)`. -/
def getRange (xs : List α) (s e : Nat) : Option (List α) :=
  if s ≤ e ∧ e ≤ xs.length then some ((xs.take e).drop s) else none

/-- `xs[s..e]`. -/
def sliceRange (xs : List α) (s e : Nat) : Checked (List α) :=
  if s ≤ e ∧ e ≤ xs.length then value ((xs.take e).drop s) else panic .outOfRange

/-! ### Panics -/

/-- The computation does not panic, and its value has the property. -/
def Safe (x : Checked α) (P : α → Prop) : Prop :=
  match x with
  | value a => P a
  | missing => True
  | panic _ => False

/-- The computation does not panic. -/
def NoPanic (x : Checked α) : Prop := Safe x fun _ => True

section

variable {P Q : α → Prop} {x : Checked α}

@[simp] theorem safe_value (a : α) : Safe (value a) P ↔ P a := Iff.rfl

@[simp] theorem safe_missing : Safe missing P := trivial

@[simp] theorem not_safe_panic (p : Panic) : ¬ Safe (panic p) P := fun h => h

/-- The rule of sequences. -/
@[simp] theorem safe_bind {f : α → Checked β} {R : β → Prop} :
    Safe (x >>= f) R ↔ Safe x fun a => Safe (f a) R := by
  cases x <;> rfl

/-- The rule of consequence. -/
theorem Safe.mono (h : Safe x P) (himp : ∀ a, x = value a → P a → Q a) : Safe x Q := by
  cases x with
  | value a => exact himp a rfl h
  | missing => trivial
  | panic p => exact h

theorem Safe.of_value {a : α} (h : Safe x P) (hx : x = value a) : P a := by
  rw [hx] at h
  exact h

theorem Safe.noPanic (h : Safe x P) : NoPanic x := h.mono fun _ _ _ => trivial

@[simp] theorem safe_ofOption {o : Option α} : Safe (ofOption o) P ↔ ∀ a, o = some a → P a := by
  cases o with
  | none => simp
  | some a => simp

/-- With the option itself at hand the computation goes on in both cases. -/
theorem Safe.attempt {P : Option α → Prop} (h : Safe x fun a => P (some a)) (hnone : P none) : Safe (attempt x) P := by
  cases x with
  | value a => exact h
  | missing => exact hnone
  | panic p => exact h

end

section

variable {a b : Nat} {P : Nat → Prop}

theorem safe_fit {max : Nat} : Safe (fit max a) P ↔ a ≤ max ∧ P a := by
  unfold fit
  split
  · rename_i h
    simp [h]
  · rename_i h
    simp [h]

@[simp] theorem safe_add64 : Safe (add64 a b) P ↔ a + b ≤ max64 ∧ P (a + b) := safe_fit

@[simp] theorem safe_mul64 : Safe (mul64 a b) P ↔ a * b ≤ max64 ∧ P (a * b) := safe_fit

@[simp] theorem safe_mul32 : Safe (mul32 a b) P ↔ a * b ≤ max32 ∧ P (a * b) := safe_fit

@[simp] theorem safe_div64 : Safe (div64 a b) P ↔ b ≠ 0 ∧ P (a / b) := by
  unfold div64
  split
  · rename_i h
    simp [h]
  · rename_i h
    simp [h]

@[simp] theorem safe_checkedAdd : Safe (checkedAdd a b) P ↔ (a + b ≤ max64 → P (a + b)) := by
  unfold checkedAdd
  split
  · rename_i h
    simp [h]
  · rename_i h
    simp [h]

@[simp] theorem safe_checkedMul : Safe (checkedMul a b) P ↔ (a * b ≤ max64 → P (a * b)) := by
  unfold checkedMul
  split
  · rename_i h
    simp [h]
  · rename_i h
    simp [h]

end

theorem index_of_lt {xs : List α} {i : Nat} (h : i < xs.length) : index xs i = value xs[i] := by
  rw [index, List.getElem?_eq_getElem h]

theorem indices_of_le {xs : List α} {n : Nat} (h : n ≤ xs.length) : indices xs n = value (xs.take n) := by
  induction n with
  | zero => rfl
  | succ n ih =>
    rw [indices, ih (by omega), value_bind, index_of_lt (by omega), value_bind, List.take_append_getElem]

/-- The rule of an index within the bounds. -/
theorem safe_index {xs : List α} {i : Nat} {P : α → Prop} (h : i < xs.length) (hP : ∀ a ∈ xs, P a) :
    Safe (index xs i) P := by
  rw [index_of_lt h]
  exact hP _ (List.getElem_mem h)

theorem safe_indices {xs : List α} {n : Nat} {P : List α → Prop} (h : n ≤ xs.length) (hP : P (xs.take n)) :
    Safe (indices xs n) P := by
  rw [indices_of_le h]
  exact hP

/-! ### Values -/

theorem bind_eq_value {x : Checked α} {f : α → Checked β} {b : β} :
    (x >>= f) = value b ↔ ∃ a, x = value a ∧ f a = value b := by
  cases x with
  | value a => simp
  | missing => simp
  | panic p => simp

theorem fit_eq_value {max n m : Nat} : fit max n = value m ↔ n ≤ max ∧ n = m := by
  unfold fit
  split
  · rename_i h
    simp [h]
  · rename_i h
    simp [h]

theorem checkedAdd_of_le {a b : Nat} (h : a + b ≤ max64) : checkedAdd a b = value (a + b) := if_pos h

theorem checkedMul_of_le {a b : Nat} (h : a * b ≤ max64) : checkedMul a b = value (a * b) := if_pos h

theorem add64_of_le {a b : Nat} (h : a + b ≤ max64) : add64 a b = value (a + b) := if_pos h

theorem mul64_of_le {a b : Nat} (h : a * b ≤ max64) : mul64 a b = value (a * b) := if_pos h

theorem div64_of_ne_zero {a b : Nat} (h : b ≠ 0) : div64 a b = value (a / b) := if_neg h

theorem setIndex_of_lt {xs : List α} {i : Nat} (h : i < xs.length) (a : α) : setIndex xs i a = value (xs.set i a) := if_pos h

theorem sliceRange_of_le {xs : List α} {s e : Nat} (hs : s ≤ e) (he : e ≤ xs.length) :
    sliceRange xs s e = value ((xs.take e).drop s) := if_pos ⟨hs, he⟩

theorem getRange_of_le {xs : List α} {s e : Nat} (hs : s ≤ e) (he : e ≤ xs.length) :
    getRange xs s e = some ((xs.take e).drop s) := if_pos ⟨hs, he⟩

theorem getRange_of_lt {xs : List α} {s e : Nat} (he : xs.length < e) : getRange xs s e = none := if_neg (by omega)

theorem length_of_getRange {xs ys : List α} {s e : Nat} (h : getRange xs s e = some ys) :
    ys.length = e - s ∧ s ≤ e ∧ e ≤ xs.length := by
  unfold getRange at h
  split at h
  · rename_i hle
    cases h
    rw [List.length_drop, List.length_take]
    omega
  · cases h

/-! ### Loops -/

/-- The computation ends with a value, which has the property. -/
def Returns (x : Checked α) (P : α → Prop) : Prop := ∃ a, x = value a ∧ P a

theorem Returns.safe {x : Checked α} {P : α → Prop} (h : Returns x P) : Safe x P := by
  obtain ⟨a, rfl, ha⟩ := h
  exact ha

/-- The rule of loops: a step on the element at `i` leads from the invariant at `i` to that at `i + 1`. -/
theorem returns_foldlM {σ : Type} {f : σ → α → Checked σ} (inv : Nat → σ → Prop) {l : List α} {s : σ} (hs : inv 0 s)
    (hstep : ∀ i s a, l[i]? = some a → inv i s → Returns (f s a) (inv (i + 1))) :
    Returns (l.foldlM f s) (inv l.length) := by
  induction l generalizing s inv with
  | nil => exact ⟨s, rfl, hs⟩
  | cons a l ih =>
    obtain ⟨t, ht, hinv⟩ := hstep 0 s a rfl hs
    rw [List.foldlM_cons, ht, value_bind]
    exact ih (fun i => inv (i + 1)) hinv fun i u b hb hu => hstep (i + 1) u b hb hu

/-- `for i in 0..n`. -/
theorem returns_foldlM_range {σ : Type} {f : σ → Nat → Checked σ} (inv : Nat → σ → Prop) {n : Nat} {s : σ}
    (hs : inv 0 s) (hstep : ∀ i s, i < n → inv i s → Returns (f s i) (inv (i + 1))) :
    Returns ((List.range n).foldlM f s) (inv n) := by
  have hreturns : Returns ((List.range n).foldlM f s) (inv (List.range n).length) := by
    refine returns_foldlM inv hs fun i s j hj hinv => ?_
    obtain ⟨hi, rfl⟩ := List.getElem?_eq_some_iff.mp hj
    rw [List.length_range] at hi
    rw [List.getElem_range]
    exact hstep i s hi hinv
  rwa [List.length_range] at hreturns

end Checked

end OpenProxy
