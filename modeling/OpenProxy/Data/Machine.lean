import Mathlib.Data.List.Basic
import Mathlib.Data.Nat.Basic

/-!
# Runs of a machine

A machine makes a step for each input and gives an output.  The rules of this file reduce a property of whole runs to one
of single steps: an invariant that every allowed step keeps holds in every state of an allowed run, and two machines that
make the same outputs at every allowed step of a lockstep make the same outputs in the run.

A monitor reads the events that a machine emits and stops at the first event that its protocol does not allow.  If the
state of the machine and the state of the monitor are related, and a related pair stays related under every allowed step,
then the monitor accepts what an allowed run emits.  If moreover the monitor rejects what a step that is not allowed emits,
then the allowed runs are exactly the accepted ones.

A watch channel keeps its latest value and numbers the values.  A receiver remembers the version it has seen and waits
until there is another one.  A value that is sent while there is no receiver is dropped.  A receiver that waits for a value
with some property reads the value first and then asks for changes.  What keeps it from missing the value is `Awaits`,
which no later send breaks.
-/

namespace OpenProxy

section

variable {σ τ ι ο : Type} (step : σ → ι → σ × ο)

/-- The state after a sequence of inputs. -/
def runState : σ → List ι → σ
  | s, [] => s
  | s, i :: is => runState (step s i).1 is

/-- The outputs for a sequence of inputs. -/
def outputs : σ → List ι → List ο
  | _, [] => []
  | s, i :: is => (step s i).2 :: outputs (step s i).1 is

/-- Every step of the run is allowed in the state in which it is made. -/
def AllSteps (allowed : σ → ι → Prop) : σ → List ι → Prop
  | _, [] => True
  | s, i :: is => allowed s i ∧ AllSteps allowed (step s i).1 is

instance AllSteps.decidable {allowed : σ → ι → Prop} [∀ s i, Decidable (allowed s i)] :
    ∀ s is, Decidable (AllSteps step allowed s is)
  | _, [] => .isTrue trivial
  | s, i :: is => @instDecidableAnd _ _ _ (AllSteps.decidable (step s i).1 is)

variable {step}

theorem length_outputs (s : σ) (is : List ι) : (outputs step s is).length = is.length := by
  induction is generalizing s with
  | nil => rfl
  | cons i is ih => simp [outputs, ih]

theorem outputs_append (s : σ) (is js : List ι) :
    outputs step s (is ++ js) = outputs step s is ++ outputs step (runState step s is) js := by
  induction is generalizing s with
  | nil => rfl
  | cons i is ih => simp [outputs, runState, ih]

theorem runState_append (s : σ) (is js : List ι) :
    runState step s (is ++ js) = runState step (runState step s is) js := by
  induction is generalizing s with
  | nil => rfl
  | cons i is ih => exact ih _

theorem allSteps_append {allowed : σ → ι → Prop} {s : σ} {is js : List ι} :
    AllSteps step allowed s (is ++ js) ↔
      AllSteps step allowed s is ∧ AllSteps step allowed (runState step s is) js := by
  induction is generalizing s with
  | nil => simp [AllSteps, runState]
  | cons i is ih => simp [AllSteps, runState, ih, and_assoc]

/-- The rule of invariants. -/
theorem AllSteps.invariant {allowed : σ → ι → Prop} {inv : σ → Prop} {s : σ} {is : List ι}
    (h : AllSteps step allowed s is) (hstep : ∀ s i, inv s → allowed s i → inv (step s i).1) (hs : inv s) :
    inv (runState step s is) := by
  induction is generalizing s with
  | nil => exact hs
  | cons i is ih => exact ih h.2 (hstep s i hs h.1)

/-- The rule of invariants in both directions: if the allowed steps are those that keep the invariant, then the allowed runs
are those in which it holds in every state. -/
theorem allSteps_iff_initial {allowed : σ → ι → Prop} {inv : σ → Prop} {s : σ} {is : List ι}
    (hstep : ∀ s i, inv s → (allowed s i ↔ inv (step s i).1)) (hs : inv s) :
    AllSteps step allowed s is ↔ ∀ before, before <+: is → inv (runState step s before) := by
  induction is generalizing s with
  | nil =>
    refine iff_of_true trivial fun before hbefore => ?_
    rw [List.prefix_nil.mp hbefore]
    exact hs
  | cons i is ih =>
    constructor
    · rintro ⟨hi, hrest⟩ before hbefore
      cases before with
      | nil => exact hs
      | cons j before =>
        obtain ⟨rfl, hprefix⟩ := List.cons_prefix_cons.mp hbefore
        exact (ih ((hstep s j hs).mp hi)).mp hrest before hprefix
    · intro h
      have hi : inv (step s i).1 := h [i] (List.cons_prefix_cons.mpr ⟨rfl, List.nil_prefix⟩)
      refine ⟨(hstep s i hs).mpr hi, (ih hi).mpr fun before hbefore => ?_⟩
      exact h (i :: before) (List.cons_prefix_cons.mpr ⟨rfl, hbefore⟩)

/-- The rule of invariants for a property that every allowed step has. -/
theorem AllSteps.imp {allowed allowed' : σ → ι → Prop} {inv : σ → Prop} {s : σ} {is : List ι}
    (h : AllSteps step allowed s is)
    (hstep : ∀ s, ∀ i ∈ is, inv s → allowed s i → allowed' s i ∧ inv (step s i).1) (hs : inv s) :
    AllSteps step allowed' s is := by
  induction is generalizing s with
  | nil => trivial
  | cons i is ih =>
    obtain ⟨hi, hinv⟩ := hstep s i List.mem_cons_self hs h.1
    exact ⟨hi, ih h.2 (fun s i hi => hstep s i (List.mem_cons_of_mem _ hi)) hinv⟩

/-- The rule of invariants, where every step is allowed. -/
theorem runState_invariant {inv : σ → Prop} {s : σ} (is : List ι) (hstep : ∀ s i, inv s → inv (step s i).1) (hs : inv s) :
    inv (runState step s is) := by
  induction is generalizing s with
  | nil => exact hs
  | cons i is ih => exact ih (hstep s i hs)

end

/-! ### Monitors -/

section

variable {σ ι ε μ : Type} {step : σ → ι → σ × List ε} {check : μ → ε → Option μ}

/-- The state of the monitor after some events, if it has accepted all of them. -/
def watch (check : μ → ε → Option μ) (m : μ) (events : List ε) : Option μ := events.foldlM check m

/-- All that a machine emits in a run. -/
def emitted (step : σ → ι → σ × List ε) (s : σ) (is : List ι) : List ε := (outputs step s is).flatten

@[simp] theorem watch_nil (m : μ) : watch check m [] = some m := rfl

@[simp] theorem watch_cons (m : μ) (e : ε) (es : List ε) :
    watch check m (e :: es) = (check m e).bind fun m' => watch check m' es := by
  unfold watch
  exact List.foldlM_cons

theorem watch_append (m : μ) (es es' : List ε) :
    watch check m (es ++ es') = (watch check m es).bind fun m' => watch check m' es' := by
  unfold watch
  exact List.foldlM_append

@[simp] theorem emitted_nil (s : σ) : emitted step s [] = [] := rfl

@[simp] theorem emitted_cons (s : σ) (i : ι) (is : List ι) :
    emitted step s (i :: is) = (step s i).2 ++ emitted step (step s i).1 is := rfl

theorem emitted_append (s : σ) (is js : List ι) :
    emitted step s (is ++ js) = emitted step s is ++ emitted step (runState step s is) js := by
  simp [emitted, outputs_append]

variable {allowed : σ → ι → Prop} {rel : σ → μ → Prop} {s : σ} {m : μ} {is : List ι}

/-- The rule of acceptance. -/
theorem AllSteps.watch (h : AllSteps step allowed s is)
    (hstep : ∀ s m i, rel s m → allowed s i →
      ∃ m', OpenProxy.watch check m (step s i).2 = some m' ∧ rel (step s i).1 m')
    (hs : rel s m) :
    ∃ m', OpenProxy.watch check m (emitted step s is) = some m' ∧ rel (runState step s is) m' := by
  induction is generalizing s m with
  | nil => exact ⟨m, rfl, hs⟩
  | cons i is ih =>
    obtain ⟨m₁, hm₁, hrel₁⟩ := hstep s m i hs h.1
    obtain ⟨m₂, hm₂, hrel₂⟩ := ih h.2 hrel₁
    refine ⟨m₂, ?_, hrel₂⟩
    rw [emitted_cons, watch_append, hm₁]
    exact hm₂

/-- A monitor that cannot be satisfied any more stays so. -/
theorem doomed_watch {doomed : μ → Prop} (hdoom : ∀ m e m', doomed m → check m e = some m' → doomed m') {m m' : μ}
    {es : List ε} (hm : doomed m) (h : OpenProxy.watch check m es = some m') : doomed m' := by
  induction es generalizing m with
  | nil =>
    cases h
    exact hm
  | cons e es ih =>
    rw [watch_cons] at h
    obtain ⟨m₁, hm₁, h⟩ := Option.bind_eq_some_iff.mp h
    exact ih (hdoom m e m₁ hm hm₁) h

/-- The rule of rejection: after a step that is not allowed the monitor has stopped or is doomed. -/
theorem allSteps_of_watch (doomed : μ → Prop) (hdoom : ∀ m e m', doomed m → check m e = some m' → doomed m')
    (hstep : ∀ s m i, rel s m → allowed s i →
      ∃ m', OpenProxy.watch check m (step s i).2 = some m' ∧ rel (step s i).1 m')
    (hreject : ∀ s m i m', rel s m → ¬ allowed s i → OpenProxy.watch check m (step s i).2 = some m' → doomed m')
    {m' : μ} (hs : rel s m) (h : OpenProxy.watch check m (emitted step s is) = some m') (hm' : ¬ doomed m') :
    AllSteps step allowed s is := by
  induction is generalizing s m with
  | nil => trivial
  | cons i is ih =>
    rw [emitted_cons, watch_append] at h
    obtain ⟨m₁, hm₁, h⟩ := Option.bind_eq_some_iff.mp h
    by_cases hi : allowed s i
    · obtain ⟨m₂, hm₂, hrel₂⟩ := hstep s m i hs hi
      obtain rfl : m₁ = m₂ := Option.some_inj.mp (hm₁.symm.trans hm₂)
      exact ⟨hi, ih hrel₂ h⟩
    · exact absurd (doomed_watch hdoom (hreject s m i m₁ hs hi hm₁) h) hm'

end

/-! ### Watch channels -/

structure Watch (α : Type) where
  value : α
  version : Nat
  closed : Bool
  deriving DecidableEq

/-- What a receiver gets when it asks for a change. -/
inductive Changed
  | ready (seen : Nat)
  | failed
  | pending
  deriving DecidableEq

namespace Watch

variable {α : Type}

def send (w : Watch α) (hasReceiver : Bool) (value : α) : Watch α :=
  if hasReceiver then { w with value := value, version := w.version + 1 } else w

/-- The sender is dropped. -/
def close (w : Watch α) : Watch α := { w with closed := true }

def changed (w : Watch α) (seen : Nat) : Changed :=
  if seen ≠ w.version then .ready w.version else if w.closed then .failed else .pending

/-- The second channel is the first after some sends. -/
structure Later (w w' : Watch α) : Prop where
  version_le : w.version ≤ w'.version
  value_eq : w'.version = w.version → w'.value = w.value

/-- The receiver has not yet seen a value with the property, or there is something that it has not seen. -/
structure Awaits (w : Watch α) (wanted : α → Prop) (seen : Nat) : Prop where
  le : seen ≤ w.version
  lt : wanted w.value → seen < w.version

theorem Later.refl (w : Watch α) : Later w w := ⟨Nat.le_refl _, fun _ => rfl⟩

theorem later_send (w : Watch α) (hasReceiver : Bool) (value : α) : Later w (w.send hasReceiver value) := by
  cases hasReceiver with
  | false => exact Later.refl w
  | true =>
    refine ⟨Nat.le_succ _, ?_⟩
    intro heq
    have : w.version + 1 = w.version := heq
    omega

theorem later_close (w : Watch α) : Later w w.close := ⟨Nat.le_refl _, fun _ => rfl⟩

variable {w w' : Watch α} {wanted : α → Prop} {seen : Nat}

/-- A receiver that has just read a value that it does not want. -/
theorem awaits_of_not_wanted (hle : seen ≤ w.version) (hvalue : ¬ wanted w.value) : w.Awaits wanted seen :=
  ⟨hle, fun h => absurd h hvalue⟩

/-- No send is missed. -/
theorem Awaits.later (h : w.Awaits wanted seen) (hlater : Later w w') : w'.Awaits wanted seen := by
  refine ⟨Nat.le_trans h.le hlater.version_le, ?_⟩
  intro hwanted
  by_cases heq : w'.version = w.version
  · rw [hlater.value_eq heq] at hwanted
    rw [heq]
    exact h.lt hwanted
  · have hle := h.le
    have hversion := hlater.version_le
    omega

/-- Where the wanted value is there, the receiver is woken. -/
theorem Awaits.changed_eq (h : w.Awaits wanted seen) (hwanted : wanted w.value) : w.changed seen = .ready w.version := by
  have hlt := h.lt hwanted
  have hne : seen ≠ w.version := by omega
  rw [changed, if_pos hne]

theorem changed_ready_version {seen' : Nat} (h : w.changed seen = .ready seen') : seen' = w.version := by
  unfold changed at h
  split at h
  · exact (Changed.ready.inj h).symm
  · split at h <;> cases h

end Watch

end OpenProxy
