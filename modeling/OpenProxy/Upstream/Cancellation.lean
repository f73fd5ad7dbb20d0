import OpenProxy.Upstream.CancelToken

/-!
# Cancellations that are not lost

Once a `cancel` has returned, nobody waits for a change that does not come and everybody finishes
(`cancel_reaches_everyone`), in the runs in which no send is dropped while a party is in its window (`SendReaches`).
Without that condition a waiter sleeps for ever, with the value of the channel still `false`
(`cancellation_lost`).

The proof is about `Delivered`: the flag is set, and a party that is in its window or has a receiver finds the value
`true`.  Every step keeps it, and with it every step of a party brings it nearer to its end.
-/

namespace OpenProxy.Upstream

/-! ### Statements -/

namespace Party

def AtStart : Party → Prop
  | canceller pc => pc = .start
  | waiter pc => pc = .start
  | forwarder f => f.token = .new ∧ f.pc = .start

/-- The call has returned, and for `from_watch_and_token` the token that it has made is cancelled. -/
def Finished : Party → Prop
  | canceller pc => pc = .returned
  | waiter pc => pc = .returned
  | forwarder f => f.pc = .done ∧ f.token.flag = true

/-- The party waits in `changed`, and there is nothing that it has not seen. -/
def asleep (t : CancellationToken) : Party → Bool
  | waiter (.waiting seen) => t.cancelTx.changed seen == .pending
  | forwarder f =>
    match f.pc with
    | .selecting seen => t.cancelTx.changed seen == .pending && f.rx.changed f.rxSeen == .pending
    | _ => false
  | _ => false

end Party

namespace TokenLabel

/-- The label is a turn of the party. -/
def isTurn (i : Nat) : TokenLabel → Bool
  | advance j _ => j == i
  | _ => false

/-- The label is a reason that is sent to the party. -/
def isReason (i : Nat) : TokenLabel → Bool
  | sendReason j _ => j == i
  | _ => false

end TokenLabel

namespace TokenState

/-- A `cancel` has returned, and no other one is on its way. -/
def Cancelled (s : TokenState) : Prop :=
  Party.canceller .returned ∈ s.parties ∧ ∀ p ∈ s.parties, p.inProgress = false

/-- The token is cancelled and somebody sleeps. -/
def Lost (s : TokenState) : Prop := s.Cancelled ∧ ∃ p ∈ s.parties, p.asleep s.token = true

/-- A send is not dropped while a party is in its window, but for a value that is there already or with another `cancel`
to come. -/
def SendReaches (s : TokenState) : TokenLabel → Prop
  | .advance i _ => s.parties[i]? = some (.canceller .counted) →
      s.hasReceiver = true ∨ s.token.cancelTx.value = true ∨ (∀ p ∈ s.parties, p.inWindow = false) ∨
        ∃ p ∈ s.parties.eraseIdx i, p.inProgress = true
  | _ => True

instance (s : TokenState) : Decidable s.Cancelled := inferInstanceAs (Decidable (_ ∧ _))

instance (s : TokenState) : Decidable s.Lost := inferInstanceAs (Decidable (_ ∧ _))

instance (s : TokenState) : ∀ l, Decidable (s.SendReaches l)
  | .advance _ _ => inferInstanceAs (Decidable (_ → _))
  | .sendReason _ _ => .isTrue trivial
  | .closeReason _ => .isTrue trivial
  | .drop => .isTrue trivial

end TokenState

/-! ### What a step can do -/

namespace CancellationToken

/-- The second token is the first after some steps. -/
structure Later (t t' : CancellationToken) : Prop where
  flag : t.flag = true → t'.flag = true
  value : t.cancelTx.value = true → t'.cancelTx.value = true
  channel : t.cancelTx.Later t'.cancelTx

theorem Later.refl (t : CancellationToken) : Later t t := ⟨id, id, Watch.Later.refl _⟩

theorem later_observe (t : CancellationToken) : Later t t.observe := ⟨id, id, Watch.Later.refl _⟩

theorem later_cancelStep (t : CancellationToken) (hasReceiver : Bool) (pc : CancelPc) :
    Later t (t.cancelStep hasReceiver pc).1 := by
  cases pc with
  | start => exact ⟨fun _ => rfl, id, Watch.Later.refl _⟩
  | stored => exact ⟨id, id, Watch.Later.refl _⟩
  | counted =>
    refine ⟨id, ?_, Watch.later_send _ _ _⟩
    cases hasReceiver with
    | false => exact id
    | true => exact fun _ => rfl
  | returned => exact Later.refl t

/-- What a waiter finds in `changed`. -/
theorem waiting_cases (t : CancellationToken) (seen : Nat) :
    t.waiterStep (.waiting seen) = (t, .woken t.cancelTx.version) ∨ t.waiterStep (.waiting seen) = (t, .leaving) ∨
      t.waiterStep (.waiting seen) = (t, .waiting seen) ∧ t.cancelTx.changed seen = .pending := by
  simp only [waiterStep]
  cases hchanged : t.cancelTx.changed seen with
  | ready seen' =>
    obtain rfl := Watch.changed_ready_version hchanged
    exact Or.inl rfl
  | failed => exact Or.inr (Or.inl rfl)
  | pending => exact Or.inr (Or.inr ⟨rfl, rfl⟩)

/-- A waiter changes nothing of the token but the count of its observers. -/
theorem waiterStep_token (t : CancellationToken) (pc : WaiterPc) :
    (t.waiterStep pc).1 = t ∨ (t.waiterStep pc).1 = t.observe := by
  cases pc with
  | observing => exact Or.inr rfl
  | waiting seen =>
    rcases t.waiting_cases seen with h | h | ⟨h, -⟩
    all_goals
      rw [h]
      exact Or.inl rfl
  | _ => exact Or.inl rfl

theorem forwarderStep_token (t : CancellationToken) (choice : Bool) (f : Forwarder) :
    (t.forwarderStep choice f).1 = t ∨ (t.forwarderStep choice f).1 = t.observe := by
  unfold forwarderStep
  cases f.pc with
  | observing => exact Or.inr rfl
  | cancelling hasRx pc => cases pc <;> exact Or.inl rfl
  | _ => exact Or.inl rfl

end CancellationToken

namespace Party

theorem later_step (t : CancellationToken) (hasReceiver choice : Bool) (p : Party) :
    t.Later (p.step t hasReceiver choice).1 := by
  cases p with
  | canceller pc => exact t.later_cancelStep hasReceiver pc
  | waiter pc =>
    show t.Later (t.waiterStep pc).1
    rcases t.waiterStep_token pc with h | h
    · rw [h]; exact .refl t
    · rw [h]; exact t.later_observe
  | forwarder f =>
    show t.Later (t.forwarderStep choice f).1
    rcases t.forwarderStep_token choice f with h | h
    · rw [h]; exact .refl t
    · rw [h]; exact t.later_observe

end Party

/-! ### What a party knows -/

def WaiterPc.Ok (w : Watch Bool) : WaiterPc → Prop
  | subscribed seen | woken seen => seen ≤ w.version
  | waiting seen => w.Awaits (· = true) seen
  | _ => True

def ForwarderPc.Ok (w : Watch Bool) (flag : Bool) : ForwarderPc → Prop
  | subscribed seen | woken seen => seen ≤ w.version
  | selecting seen | reasonWoken seen => w.Awaits (· = true) seen
  | cancelling _ pc => pc ≠ .start → flag = true
  | done => flag = true
  | _ => True

namespace Party

/-- The versions that the party has seen are those of the channel, and it sleeps only while the value is `false`. -/
def Ok (t : CancellationToken) : Party → Prop
  | canceller pc => pc ≠ .start → t.flag = true
  | waiter pc => pc.Ok t.cancelTx
  | forwarder f => f.pc.Ok t.cancelTx f.token.flag

/-- The party finds the value `true` when it looks, or it does not look. -/
def Told (t : CancellationToken) (p : Party) : Prop :=
  t.cancelTx.value = true ∨ p.inWindow = false ∧ p.hasReceiver = false

variable {t t' : CancellationToken}

/-- The steps of others change nothing of what the party knows. -/
theorem Ok.later {p : Party} (h : p.Ok t) (hlater : t.Later t') : p.Ok t' := by
  have hversion := hlater.channel.version_le
  cases p with
  | canceller pc => exact fun hpc => hlater.flag (h hpc)
  | waiter pc =>
    cases pc with
    | subscribed seen => exact Nat.le_trans h hversion
    | woken seen => exact Nat.le_trans h hversion
    | waiting seen => exact Watch.Awaits.later h hlater.channel
    | _ => trivial
  | forwarder f =>
    unfold Ok at h ⊢
    dsimp only at h ⊢
    cases hpc : f.pc with
    | subscribed seen => rw [hpc] at h; exact Nat.le_trans h hversion
    | woken seen => rw [hpc] at h; exact Nat.le_trans h hversion
    | selecting seen => rw [hpc] at h; exact Watch.Awaits.later h hlater.channel
    | reasonWoken seen => rw [hpc] at h; exact Watch.Awaits.later h hlater.channel
    | cancelling hasRx pc => rw [hpc] at h; exact h
    | done => rw [hpc] at h; exact h
    | _ => trivial

theorem Told.later {p : Party} (h : p.Told t) (hlater : t.Later t') : p.Told t' := h.imp_left hlater.value

/-- A party that is told and has a receiver finds the value `true`. -/
theorem value_of_hasReceiver {p : Party} (h : p.Told t) (hreceiver : p.hasReceiver = true) : t.cancelTx.value = true := by
  rcases h with hvalue | ⟨-, hnone⟩
  · exact hvalue
  · rw [hreceiver] at hnone
    cases hnone

end Party

namespace CancellationToken

variable {t : CancellationToken}

theorem waiterStep_ok {pc : WaiterPc} (h : pc.Ok t.cancelTx) : (t.waiterStep pc).2.Ok t.cancelTx := by
  cases pc with
  | start =>
    show WaiterPc.Ok _ (if t.flag then _ else _)
    cases t.flag <;> trivial
  | checked => exact Nat.le_refl _
  | subscribed seen =>
    show WaiterPc.Ok _ (if t.cancelTx.value then _ else _)
    by_cases hvalue : t.cancelTx.value = true
    · rw [if_pos hvalue]; trivial
    · rw [if_neg hvalue]
      exact Watch.awaits_of_not_wanted (Nat.le_refl _) hvalue
  | waiting seen =>
    rcases t.waiting_cases seen with hstep | hstep | ⟨hstep, -⟩
    · rw [hstep]
      exact Nat.le_refl _
    · rw [hstep]
      trivial
    · rw [hstep]
      exact h
  | woken seen =>
    show WaiterPc.Ok _ (if t.cancelTx.value then _ else _)
    by_cases hvalue : t.cancelTx.value = true
    · rw [if_pos hvalue]; trivial
    · rw [if_neg hvalue]
      exact Watch.awaits_of_not_wanted h hvalue
  | _ => trivial

/-- What the task of a forwarder finds at its `select!`. -/
theorem selecting_cases (t : CancellationToken) (choice : Bool) {f : Forwarder} {seen : Nat} (hpc : f.pc = .selecting seen) :
    (t.forwarderStep choice f).2 = { f with rxSeen := f.rx.version, pc := .reasonWoken seen } ∧ f.rxSeen ≠ f.rx.version ∨
    (t.forwarderStep choice f).2 = { f with pc := .cancelling true .start } ∨
    (t.forwarderStep choice f).2 = { f with pc := .woken t.cancelTx.version } ∨
    (t.forwarderStep choice f).2 = f ∧ t.cancelTx.changed seen = .pending := by
  have hreason : ∀ f', reasonBranch f seen = some f' →
      f' = { f with rxSeen := f.rx.version, pc := .reasonWoken seen } ∧ f.rxSeen ≠ f.rx.version ∨
        f' = { f with pc := .cancelling true .start } := by
    intro f' h
    unfold reasonBranch at h
    cases hchanged : f.rx.changed f.rxSeen with
    | ready seen' =>
      rw [hchanged] at h
      obtain rfl := Watch.changed_ready_version hchanged
      refine Or.inl ⟨(Option.some.inj h).symm, ?_⟩
      intro heq
      rw [Watch.changed, if_neg (fun hne => hne heq)] at hchanged
      split at hchanged <;> cases hchanged
    | failed => rw [hchanged] at h; exact Or.inr (Option.some.inj h).symm
    | pending => rw [hchanged] at h; cases h
  have htoken : ∀ f', tokenBranch t f seen = some f' →
      f' = { f with pc := .cancelling true .start } ∨ f' = { f with pc := .woken t.cancelTx.version } := by
    intro f' h
    unfold tokenBranch at h
    cases hchanged : t.cancelTx.changed seen with
    | ready seen' =>
      rw [hchanged] at h
      obtain rfl := Watch.changed_ready_version hchanged
      exact Or.inr (Option.some.inj h).symm
    | failed => rw [hchanged] at h; exact Or.inl (Option.some.inj h).symm
    | pending => rw [hchanged] at h; cases h
  have hnone : tokenBranch t f seen = none → t.cancelTx.changed seen = .pending := by
    intro h
    unfold tokenBranch at h
    cases hchanged : t.cancelTx.changed seen with
    | pending => rfl
    | ready seen' => rw [hchanged] at h; cases h
    | failed => rw [hchanged] at h; cases h
  have hstep : (t.forwarderStep choice f).2 =
      (if choice then (reasonBranch f seen).or (tokenBranch t f seen)
        else (tokenBranch t f seen).or (reasonBranch f seen)).getD f := by
    unfold forwarderStep
    rw [hpc]
  rw [hstep]
  cases hr : reasonBranch f seen with
  | none =>
    cases ht : tokenBranch t f seen with
    | none => cases choice <;> exact Or.inr (Or.inr (Or.inr ⟨rfl, hnone ht⟩))
    | some f' =>
      have hf' := htoken f' ht
      cases choice <;> exact Or.inr (hf'.imp_right Or.inl)
  | some f₁ =>
    have hf₁ := hreason f₁ hr
    cases ht : tokenBranch t f seen with
    | none => cases choice <;> exact hf₁.imp_right Or.inl
    | some f₂ =>
      have hf₂ := htoken f₂ ht
      cases choice with
      | true => exact hf₁.imp_right Or.inl
      | false => exact Or.inr (hf₂.imp_right Or.inl)

theorem forwarderStep_ok {f : Forwarder} (choice : Bool) (h : f.pc.Ok t.cancelTx f.token.flag) :
    (t.forwarderStep choice f).2.pc.Ok t.cancelTx (t.forwarderStep choice f).2.token.flag := by
  cases hpc : f.pc with
  | start =>
    unfold forwarderStep
    rw [hpc]
    cases f.rx.value with
    | true => exact fun hne => absurd rfl hne
    | false => trivial
  | checkFlag =>
    unfold forwarderStep
    rw [hpc]
    cases t.flag <;> trivial
  | observing =>
    unfold forwarderStep
    rw [hpc]
    exact fun hne => absurd rfl hne
  | checked =>
    unfold forwarderStep
    rw [hpc]
    exact Nat.le_refl _
  | subscribed seen =>
    rw [hpc] at h
    unfold forwarderStep
    rw [hpc]
    dsimp only
    by_cases hvalue : t.cancelTx.value = true
    · rw [if_pos hvalue]
      exact fun hne => absurd rfl hne
    · rw [if_neg hvalue]
      exact Watch.awaits_of_not_wanted h hvalue
  | selecting seen =>
    rcases t.selecting_cases choice hpc with ⟨hstep, -⟩ | hstep | hstep | ⟨hstep, -⟩
    · rw [hstep]
      rw [hpc] at h
      exact h
    · rw [hstep]
      exact fun hne => absurd rfl hne
    · rw [hstep]
      exact Nat.le_refl _
    · rw [hstep]
      exact h
  | reasonWoken seen =>
    rw [hpc] at h
    unfold forwarderStep
    rw [hpc]
    dsimp only
    cases f.rx.value with
    | true => exact fun hne => absurd rfl hne
    | false => exact h
  | woken seen =>
    rw [hpc] at h
    unfold forwarderStep
    rw [hpc]
    dsimp only
    by_cases hvalue : t.cancelTx.value = true
    · rw [if_pos hvalue]
      exact fun hne => absurd rfl hne
    · rw [if_neg hvalue]
      exact Watch.awaits_of_not_wanted h hvalue
  | cancelling hasRx pc =>
    rw [hpc] at h
    unfold forwarderStep
    rw [hpc]
    cases pc with
    | start => exact fun _ => rfl
    | stored => exact fun _ => h (by decide)
    | counted => exact fun _ => h (by decide)
    | returned => exact h (by decide)
  | done =>
    have hstep : (t.forwarderStep choice f).2 = f := by
      unfold forwarderStep
      rw [hpc]
    rw [hstep]
    exact h

end CancellationToken
/-! ### What a step brings nearer -/

def CancelPc.rank : CancelPc → Nat
  | start => 3
  | stored => 2
  | counted => 1
  | returned => 0

/-- The steps that are left when the party is told. -/
def WaiterPc.rank : WaiterPc → Nat
  | start => 2
  | observing => 1
  | checked => 3
  | subscribed _ => 2
  | waiting _ => 3
  | woken _ => 2
  | leaving => 1
  | returned => 0

/-- The steps that are left when the party is told; each reason that it has not seen may bring two more. -/
def ForwarderPc.rank (unseen : Nat) : ForwarderPc → Nat
  | start => 7 + 2 * unseen
  | checkFlag => 6 + 2 * unseen
  | observing => 5 + 2 * unseen
  | checked => 6 + 2 * unseen
  | subscribed _ => 5 + 2 * unseen
  | selecting _ => 6 + 2 * unseen
  | reasonWoken _ => 7 + 2 * unseen
  | woken _ => 5 + 2 * unseen
  | cancelling _ pc => 1 + pc.rank
  | done => 0

/-- One if there is a reason that has not been seen. -/
def Forwarder.unseen (f : Forwarder) : Nat := if f.rxSeen = f.rx.version then 0 else 1

def Party.rank : Party → Nat
  | canceller pc => pc.rank
  | waiter pc => pc.rank
  | forwarder f => f.pc.rank f.unseen

namespace CancellationToken

variable {t : CancellationToken}

/-- Once the flag is set and the waiter told, it stays told, and a step is a step towards its end. -/
theorem waiterStep_told {pc : WaiterPc} (hflag : t.flag = true) (hok : pc.Ok t.cancelTx)
    (htold : (Party.waiter pc).Told t) :
    (Party.waiter (t.waiterStep pc).2).Told t ∧ (t.waiterStep pc).2.rank ≤ pc.rank - 1 := by
  rcases htold with hvalue | ⟨hwindow, hreceiver⟩
  · refine ⟨Or.inl hvalue, ?_⟩
    cases pc with
    | start =>
      show WaiterPc.rank (if t.flag then _ else _) ≤ 1
      rw [if_pos hflag]
      exact Nat.le_refl _
    | subscribed seen =>
      show WaiterPc.rank (if t.cancelTx.value then _ else _) ≤ 1
      rw [if_pos hvalue]
      exact Nat.le_refl _
    | waiting seen =>
      rcases t.waiting_cases seen with hstep | hstep | ⟨-, hpending⟩
      · rw [hstep]
        exact Nat.le_refl _
      · rw [hstep]
        exact Nat.le_succ _
      · rw [Watch.Awaits.changed_eq hok hvalue] at hpending
        cases hpending
    | woken seen =>
      show WaiterPc.rank (if t.cancelTx.value then _ else _) ≤ 1
      rw [if_pos hvalue]
      exact Nat.le_refl _
    | _ => exact Nat.le_refl _
  · cases pc with
    | start =>
      show (Party.waiter (if t.flag then _ else _)).Told t ∧ WaiterPc.rank (if t.flag then _ else _) ≤ 1
      rw [if_pos hflag]
      exact ⟨Or.inr ⟨rfl, rfl⟩, Nat.le_refl _⟩
    | observing => exact ⟨Or.inr ⟨rfl, rfl⟩, Nat.le_refl _⟩
    | returned => exact ⟨Or.inr ⟨rfl, rfl⟩, Nat.le_refl _⟩
    | checked => cases hwindow
    | _ => cases hreceiver

private theorem cancelStep_rank (t : CancellationToken) (hasReceiver : Bool) (pc : CancelPc) :
    (t.cancelStep hasReceiver pc).2.rank ≤ pc.rank - 1 := by
  cases pc <;> exact Nat.le_refl _

theorem forwarderStep_told {f : Forwarder} (choice : Bool) (hflag : t.flag = true)
    (hok : f.pc.Ok t.cancelTx f.token.flag) (htold : (Party.forwarder f).Told t) :
    (Party.forwarder (t.forwarderStep choice f).2).Told t ∧
      (t.forwarderStep choice f).2.pc.rank (t.forwarderStep choice f).2.unseen ≤ f.pc.rank f.unseen - 1 := by
  cases hpc : f.pc with
  | start =>
    unfold forwarderStep
    rw [hpc]
    cases f.rx.value with
    | true =>
      refine ⟨Or.inr ⟨rfl, rfl⟩, ?_⟩
      show 4 ≤ 7 + 2 * f.unseen - 1
      omega
    | false =>
      refine ⟨Or.inr ⟨rfl, rfl⟩, ?_⟩
      have hseen : Forwarder.unseen { f with rxSeen := f.rx.version, pc := .checkFlag } = 0 := if_pos rfl
      show 6 + 2 * Forwarder.unseen { f with rxSeen := f.rx.version, pc := .checkFlag } ≤ 7 + 2 * f.unseen - 1
      omega
  | checkFlag =>
    unfold forwarderStep
    rw [hpc]
    dsimp only
    rw [if_pos hflag]
    refine ⟨Or.inr ⟨rfl, rfl⟩, ?_⟩
    show 5 + 2 * f.unseen ≤ 6 + 2 * f.unseen - 1
    omega
  | observing =>
    unfold forwarderStep
    rw [hpc]
    refine ⟨Or.inr ⟨rfl, rfl⟩, ?_⟩
    show 4 ≤ 5 + 2 * f.unseen - 1
    omega
  | cancelling hasRx pc =>
    have hstays : (Party.forwarder (t.forwarderStep choice f).2).Told t := by
      rcases htold with hvalue | ⟨-, hreceiver⟩
      · exact Or.inl hvalue
      · have hnone : hasRx = false := by
          rw [Party.hasReceiver, hpc] at hreceiver
          exact hreceiver
        unfold forwarderStep
        rw [hpc, hnone]
        cases pc <;> exact Or.inr ⟨rfl, rfl⟩
    refine ⟨hstays, ?_⟩
    unfold forwarderStep
    rw [hpc]
    cases pc <;> exact Nat.le_refl _
  | done =>
    have hstep : (t.forwarderStep choice f).2 = f := by
      unfold forwarderStep
      rw [hpc]
    rw [hstep, hpc]
    exact ⟨htold, Nat.le_refl _⟩
  | checked =>
    -- In the window and behind it the value is there.
    have hvalue : t.cancelTx.value = true := by
      rcases htold with hvalue | ⟨hwindow, -⟩
      · exact hvalue
      · rw [Party.inWindow, hpc] at hwindow
        cases hwindow
    refine ⟨Or.inl hvalue, ?_⟩
    unfold forwarderStep
    rw [hpc]
    show 5 + 2 * f.unseen ≤ 6 + 2 * f.unseen - 1
    omega
  | subscribed seen =>
    have hvalue := Party.value_of_hasReceiver htold (by rw [Party.hasReceiver, hpc])
    refine ⟨Or.inl hvalue, ?_⟩
    unfold forwarderStep
    rw [hpc]
    dsimp only
    rw [if_pos hvalue]
    show 4 ≤ 5 + 2 * f.unseen - 1
    omega
  | selecting seen =>
    have hvalue := Party.value_of_hasReceiver htold (by rw [Party.hasReceiver, hpc])
    refine ⟨Or.inl hvalue, ?_⟩
    rw [hpc] at hok
    rcases t.selecting_cases choice hpc with ⟨hstep, hne⟩ | hstep | hstep | ⟨-, hpending⟩
    · rw [hstep]
      have hbefore : f.unseen = 1 := if_neg hne
      have hafter : Forwarder.unseen { f with rxSeen := f.rx.version, pc := .reasonWoken seen } = 0 := if_pos rfl
      show 7 + 2 * Forwarder.unseen _ ≤ 6 + 2 * f.unseen - 1
      omega
    · rw [hstep]
      show 4 ≤ 6 + 2 * f.unseen - 1
      omega
    · rw [hstep]
      show 5 + 2 * f.unseen ≤ 6 + 2 * f.unseen - 1
      omega
    · rw [Watch.Awaits.changed_eq hok hvalue] at hpending
      cases hpending
  | reasonWoken seen =>
    have hvalue := Party.value_of_hasReceiver htold (by rw [Party.hasReceiver, hpc])
    refine ⟨Or.inl hvalue, ?_⟩
    unfold forwarderStep
    rw [hpc]
    cases f.rx.value with
    | true =>
      show 4 ≤ 7 + 2 * f.unseen - 1
      omega
    | false =>
      show 6 + 2 * f.unseen ≤ 7 + 2 * f.unseen - 1
      omega
  | woken seen =>
    have hvalue := Party.value_of_hasReceiver htold (by rw [Party.hasReceiver, hpc])
    refine ⟨Or.inl hvalue, ?_⟩
    unfold forwarderStep
    rw [hpc]
    dsimp only
    rw [if_pos hvalue]
    show 4 ≤ 5 + 2 * f.unseen - 1
    omega

end CancellationToken

namespace Party

variable {t : CancellationToken}

theorem step_ok {p : Party} (hasReceiver choice : Bool) (h : p.Ok t) :
    (p.step t hasReceiver choice).2.Ok (p.step t hasReceiver choice).1 := by
  cases p with
  | canceller pc =>
    cases pc with
    | start => exact fun _ => rfl
    | stored => exact fun _ => h (by decide)
    | counted => exact fun _ => h (by decide)
    | returned => exact fun _ => h (by decide)
  | waiter pc =>
    have hafter : (waiter (t.waiterStep pc).2).Ok t := CancellationToken.waiterStep_ok h
    exact hafter.later (later_step t hasReceiver choice (.waiter pc))
  | forwarder f =>
    have hafter : (forwarder (t.forwarderStep choice f).2).Ok t := CancellationToken.forwarderStep_ok choice h
    exact hafter.later (later_step t hasReceiver choice (.forwarder f))

theorem step_told {p : Party} (hasReceiver choice : Bool) (hflag : t.flag = true) (hok : p.Ok t) (htold : p.Told t) :
    (p.step t hasReceiver choice).2.Told (p.step t hasReceiver choice).1 ∧
      (p.step t hasReceiver choice).2.rank ≤ p.rank - 1 := by
  cases p with
  | canceller pc => exact ⟨Or.inr ⟨rfl, rfl⟩, CancellationToken.cancelStep_rank t hasReceiver pc⟩
  | waiter pc =>
    obtain ⟨hstays, hrank⟩ := CancellationToken.waiterStep_told hflag hok htold
    exact ⟨hstays.later (later_step t hasReceiver choice (.waiter pc)), hrank⟩
  | forwarder f =>
    obtain ⟨hstays, hrank⟩ := CancellationToken.forwarderStep_told choice hflag hok htold
    exact ⟨hstays.later (later_step t hasReceiver choice (.forwarder f)), hrank⟩

/-- Nothing is left to do for a party only when it has finished. -/
theorem finished_of_rank {p : Party} (hok : p.Ok t) (hrank : p.rank = 0) : p.Finished := by
  cases p with
  | canceller pc => cases pc <;> first | rfl | cases hrank
  | waiter pc => cases pc <;> first | rfl | cases hrank
  | forwarder f =>
    have hrank : f.pc.rank f.unseen = 0 := hrank
    have hok : f.pc.Ok t.cancelTx f.token.flag := hok
    have hdone : f.pc = .done := by
      cases hpc : f.pc with
      | done => rfl
      | _ =>
        rw [hpc, ForwarderPc.rank] at hrank
        omega
    rw [hdone] at hok
    exact ⟨hdone, hok⟩

end Party

/-! ### What the reasons change -/

namespace Party

variable {t : CancellationToken}

/-- A change of the channel of reasons changes nothing that is said of the token. -/
theorem mapRx_ok {p : Party} (change : Watch Bool → Watch Bool) (h : p.Ok t) : (p.mapRx change).Ok t := by
  cases p <;> exact h

theorem mapRx_told {p : Party} (change : Watch Bool → Watch Bool) (h : p.Told t) : (p.mapRx change).Told t := by
  cases p <;> exact h

theorem mapRx_inProgress (change : Watch Bool → Watch Bool) (p : Party) : (p.mapRx change).inProgress = p.inProgress := by
  cases p <;> rfl

theorem mapRx_eq_canceller {change : Watch Bool → Watch Bool} {p : Party} {pc : CancelPc} :
    p.mapRx change = canceller pc ↔ p = canceller pc := by
  cases p with
  | canceller pc' => exact Iff.rfl
  | waiter pc' => exact Iff.rfl
  | forwarder f => constructor <;> intro h <;> cases h

private theorem rank_of_unseen {unseen unseen' : Nat} (pc : ForwarderPc) (h : unseen' ≤ 1) :
    (pc.rank unseen = 0 → pc.rank unseen' = 0) ∧ pc.rank unseen' ≤ pc.rank unseen + 2 := by
  cases pc with
  | cancelling hasRx pc => exact ⟨id, Nat.le_add_right _ _⟩
  | done => exact ⟨id, Nat.le_add_right _ _⟩
  | _ =>
    simp only [ForwarderPc.rank]
    omega

/-- A party that has finished stays finished, and to another one a reason brings two steps at most. -/
theorem mapRx_rank (change : Watch Bool → Watch Bool) (p : Party) :
    (p.rank = 0 → (p.mapRx change).rank = 0) ∧ (p.mapRx change).rank ≤ p.rank + 2 := by
  cases p with
  | canceller pc => exact ⟨id, Nat.le_add_right _ _⟩
  | waiter pc => exact ⟨id, Nat.le_add_right _ _⟩
  | forwarder f =>
    have hafter : Forwarder.unseen { f with rx := change f.rx } ≤ 1 := by
      unfold Forwarder.unseen
      split <;> omega
    exact rank_of_unseen f.pc hafter

/-- To close the channel of reasons brings no new steps. -/
theorem mapRx_close_rank (p : Party) : (p.mapRx Watch.close).rank = p.rank := by
  cases p <;> rfl

end Party

/-! ### What a step does to the state -/

namespace TokenState

variable {s : TokenState}

/-- The flag is set, and every party is told. -/
structure Delivered (s : TokenState) : Prop where
  flag : s.token.flag = true
  told : ∀ p ∈ s.parties, p.Told s.token

/-- What holds in every state that a run reaches. -/
structure Inv (s : TokenState) : Prop where
  ok : ∀ p ∈ s.parties, p.Ok s.token
  delivered : s.Cancelled → s.Delivered

theorem inv_start {parties : List Party} (hstart : ∀ p ∈ parties, p.AtStart) : Inv (start parties) := by
  constructor
  · intro p hp
    have hat := hstart p hp
    cases p with
    | canceller pc => exact fun hne => absurd hat hne
    | waiter pc =>
      have hpc : pc = .start := hat
      rw [hpc]
      trivial
    | forwarder f =>
      have hpc : f.pc = .start := hat.2
      show f.pc.Ok _ _
      rw [hpc]
      trivial
  · intro hcancelled
    have hreturned : CancelPc.returned = .start := hstart _ hcancelled.1
    cases hreturned

/-- A member of a list in which one member was replaced. -/
private theorem mem_set_cases {parties : List Party} {i : Nat} {p' q : Party}
    (hq : q ∈ parties.set i p') : q = p' ∨ q ∈ parties.eraseIdx i ∧ q ∈ parties := by
  obtain ⟨j, hj⟩ := List.getElem?_of_mem hq
  rw [List.getElem?_set] at hj
  by_cases hij : i = j
  · rw [if_pos hij] at hj
    split at hj
    · exact Or.inl (Option.some.inj hj).symm
    · cases hj
  · rw [if_neg hij] at hj
    exact Or.inr ⟨List.mem_eraseIdx_iff_getElem?.mpr ⟨j, fun h => hij h.symm, hj⟩, List.mem_of_getElem? hj⟩

private theorem mem_set_of_mem_eraseIdx {parties : List Party} {i : Nat} {p' q : Party}
    (hq : q ∈ parties.eraseIdx i) : q ∈ parties.set i p' := by
  obtain ⟨j, hne, hj⟩ := List.mem_eraseIdx_iff_getElem?.mp hq
  refine List.mem_of_getElem? (i := j) ?_
  rw [List.getElem?_set, if_neg fun h => hne h.symm]
  exact hj

private theorem mem_eraseIdx_or_eq {parties : List Party} {i : Nat} {p q : Party} (hi : parties[i]? = some p)
    (hq : q ∈ parties) : q ∈ parties.eraseIdx i ∨ q = p := by
  obtain ⟨j, hj⟩ := List.getElem?_of_mem hq
  by_cases hij : j = i
  · rw [hij, hi] at hj
    exact Or.inr (Option.some.inj hj).symm
  · exact Or.inl (List.mem_eraseIdx_iff_getElem?.mpr ⟨j, hij, hj⟩)

private theorem mem_set_self {parties : List Party} {i : Nat} {p : Party} (hi : parties[i]? = some p) (p' : Party) :
    p' ∈ parties.set i p' := by
  obtain ⟨hlt, -⟩ := List.getElem?_eq_some_iff.mp hi
  exact List.mem_set hlt p'

/-- The state after a step of a party. -/
def advanced (s : TokenState) (i : Nat) (p : Party) (choice : Bool) : TokenState :=
  ⟨(p.step s.token s.hasReceiver choice).1, s.parties.set i (p.step s.token s.hasReceiver choice).2⟩

theorem step_advance {i : Nat} {choice : Bool} {p : Party} (hi : s.parties[i]? = some p) :
    (s.step (.advance i choice)).1 = s.advanced i p choice := by
  simp only [step, hi, advanced]

theorem step_advance_none {i : Nat} {choice : Bool} (hi : s.parties[i]? = none) : (s.step (.advance i choice)).1 = s := by
  simp only [step, hi]

private theorem advanced_ok (h : ∀ p ∈ s.parties, p.Ok s.token) {i : Nat} {p : Party} (hi : s.parties[i]? = some p)
    (choice : Bool) : ∀ q ∈ (s.advanced i p choice).parties, q.Ok (s.advanced i p choice).token := by
  intro q hq
  rcases mem_set_cases hq with rfl | ⟨-, hmem⟩
  · exact Party.step_ok s.hasReceiver choice (h p (List.mem_of_getElem? hi))
  · exact (h q hmem).later (Party.later_step s.token s.hasReceiver choice p)

private theorem advanced_delivered (hok : ∀ p ∈ s.parties, p.Ok s.token) (h : s.Delivered) {i : Nat} {p : Party}
    (hi : s.parties[i]? = some p) (choice : Bool) : (s.advanced i p choice).Delivered := by
  have hlater := Party.later_step s.token s.hasReceiver choice p
  have hp := List.mem_of_getElem? hi
  refine ⟨hlater.flag h.flag, ?_⟩
  intro q hq
  rcases mem_set_cases hq with rfl | ⟨-, hmem⟩
  · exact (Party.step_told s.hasReceiver choice h.flag (hok p hp) (h.told p hp)).1
  · exact (h.told q hmem).later hlater

/-- A party that does not cancel changes nothing of how many calls of `cancel` there are. -/
private theorem cancelled_of_advanced {i : Nat} {p : Party} (hi : s.parties[i]? = some p) {choice : Bool}
    (hprogress : p.inProgress = false) (hreturned : (p.step s.token s.hasReceiver choice).2 = .canceller .returned →
      p = .canceller .returned) (h : (s.advanced i p choice).Cancelled) : s.Cancelled := by
  constructor
  · rcases mem_set_cases h.1 with heq | ⟨-, hmem⟩
    · rw [← hreturned heq.symm]
      exact List.mem_of_getElem? hi
    · exact hmem
  · intro q hq
    rcases mem_eraseIdx_or_eq hi hq with hmem | rfl
    · exact h.2 q (mem_set_of_mem_eraseIdx hmem)
    · exact hprogress

/-- A send that reaches somebody, or after which nobody is left that has to be told. -/
private theorem sent_delivered (hok : ∀ p ∈ s.parties, p.Ok s.token) {i : Nat} {choice : Bool}
    (hi : s.parties[i]? = some (.canceller .counted)) (hreaches : s.SendReaches (.advance i choice))
    (h : (s.advanced i (.canceller .counted) choice).Cancelled) :
    (s.advanced i (.canceller .counted) choice).Delivered := by
  have hflag : s.token.flag = true := hok _ (List.mem_of_getElem? hi) (by decide)
  refine ⟨hflag, ?_⟩
  intro q hq
  rcases hreaches hi with hreceiver | hvalue | hwindow | ⟨p, hp, hprogress⟩
  · left
    show (s.token.cancelTx.send s.hasReceiver true).value = true
    rw [hreceiver]
    rfl
  · exact Or.inl ((s.token.later_cancelStep s.hasReceiver .counted).value hvalue)
  · by_cases hreceiver : s.hasReceiver = true
    · left
      show (s.token.cancelTx.send s.hasReceiver true).value = true
      rw [hreceiver]
      rfl
    · right
      rcases mem_set_cases hq with rfl | ⟨-, hmem⟩
      · exact ⟨rfl, rfl⟩
      · refine ⟨hwindow q hmem, ?_⟩
        cases hq' : q.hasReceiver with
        | false => rfl
        | true => exact absurd (List.any_eq_true.mpr ⟨q, hmem, hq'⟩) hreceiver
  · have hnone := h.2 p (mem_set_of_mem_eraseIdx hp)
    rw [hprogress] at hnone
    cases hnone

theorem advance_inv (h : s.Inv) {i : Nat} {choice : Bool} (hreaches : s.SendReaches (.advance i choice)) :
    Inv (s.step (.advance i choice)).1 := by
  cases hi : s.parties[i]? with
  | none =>
    rw [step_advance_none hi]
    exact h
  | some p =>
    rw [step_advance hi]
    refine ⟨advanced_ok h.ok hi choice, ?_⟩
    intro hcancelled
    have hself := mem_set_self hi (p.step s.token s.hasReceiver choice).2
    cases p with
    | canceller pc =>
      cases pc with
      | start =>
        have hnone := hcancelled.2 _ hself
        cases hnone
      | stored =>
        have hnone := hcancelled.2 _ hself
        cases hnone
      | counted => exact sent_delivered h.ok hi hreaches hcancelled
      | returned =>
        have hbefore := cancelled_of_advanced hi rfl (fun _ => rfl) hcancelled
        exact advanced_delivered h.ok (h.delivered hbefore) hi choice
    | waiter pc =>
      have hbefore := cancelled_of_advanced hi rfl (fun heq => nomatch heq) hcancelled
      exact advanced_delivered h.ok (h.delivered hbefore) hi choice
    | forwarder f =>
      have hbefore := cancelled_of_advanced hi rfl (fun heq => nomatch heq) hcancelled
      exact advanced_delivered h.ok (h.delivered hbefore) hi choice

private theorem getElem?_mapRx (parties : List Party) (i : Nat) (change : Watch Bool → Watch Bool) (j : Nat) :
    (parties.modify i (Party.mapRx change))[j]? =
      if i = j then parties[j]?.map (Party.mapRx change) else parties[j]? := by
  rw [List.getElem?_modify]
  split <;> simp_all

private theorem mem_modify {parties : List Party} {i : Nat} {change : Watch Bool → Watch Bool} {q : Party}
    (hq : q ∈ parties.modify i (Party.mapRx change)) : ∃ p ∈ parties, q = p ∨ q = p.mapRx change := by
  obtain ⟨j, hj⟩ := List.getElem?_of_mem hq
  rw [getElem?_mapRx] at hj
  split at hj
  · obtain ⟨p, hp, rfl⟩ := Option.map_eq_some_iff.mp hj
    exact ⟨p, List.mem_of_getElem? hp, Or.inr rfl⟩
  · exact ⟨q, List.mem_of_getElem? hj, Or.inl rfl⟩

private theorem mem_modify_of_mem {parties : List Party} (i : Nat) (change : Watch Bool → Watch Bool) {p : Party}
    (hp : p ∈ parties) : p ∈ parties.modify i (Party.mapRx change) ∨ p.mapRx change ∈ parties.modify i (Party.mapRx change) := by
  obtain ⟨j, hj⟩ := List.getElem?_of_mem hp
  by_cases hij : i = j
  · refine Or.inr (List.mem_of_getElem? (i := j) ?_)
    rw [getElem?_mapRx, if_pos hij, hj]
    rfl
  · refine Or.inl (List.mem_of_getElem? (i := j) ?_)
    rw [getElem?_mapRx, if_neg hij, hj]

private theorem modify_delivered (h : s.Delivered) (i : Nat) (change : Watch Bool → Watch Bool) :
    Delivered { s with parties := s.parties.modify i (Party.mapRx change) } := by
  refine ⟨h.flag, ?_⟩
  intro q hq
  obtain ⟨p, hp, rfl | rfl⟩ := mem_modify hq
  · exact h.told _ hp
  · exact Party.mapRx_told change (h.told p hp)

private theorem modify_ok (h : ∀ p ∈ s.parties, p.Ok s.token) (i : Nat) (change : Watch Bool → Watch Bool) :
    ∀ q ∈ s.parties.modify i (Party.mapRx change), q.Ok s.token := by
  intro q hq
  obtain ⟨p, hp, rfl | rfl⟩ := mem_modify hq
  · exact h _ hp
  · exact Party.mapRx_ok change (h p hp)

private theorem modify_inv (h : s.Inv) (i : Nat) (change : Watch Bool → Watch Bool) :
    Inv { s with parties := s.parties.modify i (Party.mapRx change) } := by
  constructor
  · exact modify_ok h.ok i change
  · intro hcancelled
    refine modify_delivered (h.delivered ?_) i change
    constructor
    · obtain ⟨p, hp, heq | heq⟩ := mem_modify hcancelled.1
      · rw [heq]
        exact hp
      · rw [← Party.mapRx_eq_canceller.mp heq.symm]
        exact hp
    · intro p hp
      rcases mem_modify_of_mem i change hp with hmem | hmem
      · exact hcancelled.2 p hmem
      · rw [← Party.mapRx_inProgress change]
        exact hcancelled.2 _ hmem

private theorem later_dropped (t : CancellationToken) : t.Later { t with cancelTx := t.cancelTx.close } :=
  ⟨id, id, Watch.later_close _⟩

private theorem step_drop (s : TokenState) :
    (s.step .drop).1 = s ∨ (s.step .drop).1 = { s with token := { s.token with cancelTx := s.token.cancelTx.close } } := by
  simp only [step]
  split
  · exact Or.inl rfl
  · exact Or.inr rfl

private theorem drop_parties (s : TokenState) : (s.step .drop).1.parties = s.parties := by
  rcases s.step_drop with h | h <;> rw [h]

private theorem drop_ok (h : ∀ p ∈ s.parties, p.Ok s.token) :
    ∀ p ∈ (s.step .drop).1.parties, p.Ok (s.step .drop).1.token := by
  rcases s.step_drop with hstep | hstep
  · rw [hstep]
    exact h
  · rw [hstep]
    exact fun p hp => (h p hp).later (later_dropped _)

private theorem drop_delivered (h : s.Delivered) : Delivered (s.step .drop).1 := by
  rcases s.step_drop with hstep | hstep
  · rw [hstep]
    exact h
  · rw [hstep]
    exact ⟨h.flag, fun p hp => (h.told p hp).later (later_dropped _)⟩

private theorem drop_inv (h : s.Inv) : Inv (s.step .drop).1 := by
  refine ⟨drop_ok h.ok, ?_⟩
  intro hcancelled
  refine drop_delivered (h.delivered ?_)
  unfold Cancelled at hcancelled ⊢
  rwa [s.drop_parties] at hcancelled

/-- An allowed step keeps the invariant. -/
theorem step_inv (h : s.Inv) (l : TokenLabel) (hreaches : s.SendReaches l) : Inv (s.step l).1 := by
  cases l with
  | advance i choice => exact advance_inv h hreaches
  | sendReason i isSome => exact modify_inv h i _
  | closeReason i => exact modify_inv h i _
  | drop => exact drop_inv h

/-- From a state in which everybody is told, every step leads to one. -/
structure Settled (s : TokenState) : Prop where
  ok : ∀ p ∈ s.parties, p.Ok s.token
  delivered : s.Delivered

theorem step_settled (h : s.Settled) (l : TokenLabel) : Settled (s.step l).1 := by
  cases l with
  | advance i choice =>
    cases hi : s.parties[i]? with
    | none =>
      rw [step_advance_none hi]
      exact h
    | some p =>
      rw [step_advance hi]
      exact ⟨advanced_ok h.ok hi choice, advanced_delivered h.ok h.delivered hi choice⟩
  | sendReason i isSome => exact ⟨modify_ok h.ok i _, modify_delivered h.delivered i _⟩
  | closeReason i => exact ⟨modify_ok h.ok i _, modify_delivered h.delivered i _⟩
  | drop => exact ⟨drop_ok h.ok, drop_delivered h.delivered⟩

/-! ### Turns -/

/-- One for a turn of the party, and one for a reason that it is sent. -/
private theorem step_rank (h : s.Settled) (l : TokenLabel) {i : Nat} {q : Party}
    (hq : (s.step l).1.parties[i]? = some q) :
    ∃ p, s.parties[i]? = some p ∧ (p.rank = 0 → q.rank = 0) ∧
      (q.rank = 0 ∨ q.rank + (if l.isTurn i then 1 else 0) ≤ p.rank + 2 * (if l.isReason i then 1 else 0)) := by
  have hmapRx : ∀ j change, (s.parties.modify j (Party.mapRx change))[i]? = some q →
      ∃ p, s.parties[i]? = some p ∧ (j ≠ i ∧ q = p ∨ j = i ∧ q = p.mapRx change) := by
    intro j change hmodify
    rw [getElem?_mapRx] at hmodify
    split at hmodify
    · rename_i hij
      obtain ⟨p, hp, hpq⟩ := Option.map_eq_some_iff.mp hmodify
      exact ⟨p, hp, Or.inr ⟨hij, hpq.symm⟩⟩
    · rename_i hij
      exact ⟨q, hmodify, Or.inl ⟨hij, rfl⟩⟩
  cases l with
  | advance j choice =>
    by_cases hij : j = i
    · subst hij
      cases hj : s.parties[j]? with
      | none =>
        rw [step_advance_none hj, hj] at hq
        cases hq
      | some p =>
        have hp := List.mem_of_getElem? hj
        have hrank := (Party.step_told s.hasReceiver choice h.delivered.flag (h.ok p hp) (h.delivered.told p hp)).2
        rw [step_advance hj, advanced, List.getElem?_set_self (List.getElem?_eq_some_iff.mp hj).1] at hq
        rw [← Option.some.inj hq]
        refine ⟨p, rfl, fun hzero => by omega, ?_⟩
        by_cases hzero : p.rank = 0
        · exact Or.inl (by omega)
        · have hturn : (TokenLabel.advance j choice).isTurn j = true := beq_self_eq_true j
          rw [if_pos hturn]
          exact Or.inr (by omega)
    · have hsame : s.parties[i]? = some q := by
        cases hj : s.parties[j]? with
        | none => rwa [step_advance_none hj] at hq
        | some p => rwa [step_advance hj, advanced, List.getElem?_set_ne hij] at hq
      have hturn : (TokenLabel.advance j choice).isTurn i = false := beq_eq_false_iff_ne.mpr hij
      refine ⟨q, hsame, id, Or.inr ?_⟩
      rw [hturn]
      exact Nat.le_add_right _ _
  | sendReason j isSome =>
    obtain ⟨p, hp, ⟨-, rfl⟩ | ⟨hij, rfl⟩⟩ := hmapRx j _ hq
    · exact ⟨q, hp, id, Or.inr (Nat.le_add_right _ _)⟩
    · obtain ⟨hzero, hrank⟩ := p.mapRx_rank fun rx => rx.send true isSome
      have hreason : (TokenLabel.sendReason j isSome).isReason i = true := beq_iff_eq.mpr hij
      refine ⟨p, hp, hzero, Or.inr ?_⟩
      rw [hreason]
      exact hrank
  | closeReason j =>
    obtain ⟨p, hp, ⟨-, rfl⟩ | ⟨-, rfl⟩⟩ := hmapRx j _ hq
    · exact ⟨q, hp, id, Or.inr (Nat.le_add_right _ _)⟩
    · have hrank := p.mapRx_close_rank
      exact ⟨p, hp, fun hzero => hrank.trans hzero, Or.inr (Nat.le_trans (Nat.le_of_eq hrank) (Nat.le_add_right _ _))⟩
  | drop =>
    rw [s.drop_parties] at hq
    exact ⟨q, hq, id, Or.inr (Nat.le_add_right _ _)⟩

/-- In a run the turns of a party use up its steps. -/
private theorem run_rank (h : s.Settled) (labels : List TokenLabel) {i : Nat} {q : Party}
    (hq : (runState step s labels).parties[i]? = some q) :
    ∃ p, s.parties[i]? = some p ∧ (p.rank = 0 → q.rank = 0) ∧
      (q.rank = 0 ∨ q.rank + labels.countP (TokenLabel.isTurn i) ≤ p.rank + 2 * labels.countP (TokenLabel.isReason i)) := by
  induction labels generalizing s with
  | nil => exact ⟨q, hq, id, Or.inr (Nat.le_refl _)⟩
  | cons l labels ih =>
    obtain ⟨p₁, hp₁, hzero₁, hrank₁⟩ := ih (step_settled h l) hq
    obtain ⟨p, hp, hzero, hrank⟩ := step_rank h l hp₁
    refine ⟨p, hp, fun hp => hzero₁ (hzero hp), ?_⟩
    rw [List.countP_cons, List.countP_cons]
    rcases hrank₁ with hdone | hrank₁
    · exact Or.inl hdone
    · rcases hrank with hdone | hrank
      · exact Or.inl (hzero₁ hdone)
      · right
        omega

private theorem rank_le (p : Party) : p.rank ≤ 9 := by
  cases p with
  | canceller pc => cases pc <;> exact Nat.le_of_ble_eq_true rfl
  | waiter pc => cases pc <;> exact Nat.le_of_ble_eq_true rfl
  | forwarder f =>
    have hunseen : f.unseen ≤ 1 := by
      unfold Forwarder.unseen
      split <;> omega
    show f.pc.rank f.unseen ≤ 9
    cases f.pc with
    | cancelling hasRx pc =>
      have hpc : pc.rank ≤ 3 := by cases pc <;> decide
      show 1 + pc.rank ≤ 9
      omega
    | _ =>
      simp only [ForwarderPc.rank]
      omega

/-- From a settled state every party finishes within its turns. -/
theorem Settled.finished (h : s.Settled) (labels : List TokenLabel) {i : Nat} {p : Party}
    (hp : (runState step s labels).parties[i]? = some p)
    (hturns : 9 + 2 * labels.countP (TokenLabel.isReason i) ≤ labels.countP (TokenLabel.isTurn i)) : p.Finished := by
  have hafter : Settled (runState step s labels) := runState_invariant labels (fun _ l hs => step_settled hs l) h
  refine Party.finished_of_rank (hafter.ok p (List.mem_of_getElem? hp)) ?_
  obtain ⟨p₀, -, -, hzero | hrank⟩ := run_rank h labels hp
  · exact hzero
  · have hle := rank_le p₀
    omega

/-- Where everybody is told, nobody sleeps. -/
theorem Settled.not_asleep (h : s.Settled) {p : Party} (hp : p ∈ s.parties) : p.asleep s.token = false := by
  have hok := h.ok p hp
  have htold := h.delivered.told p hp
  cases p with
  | canceller pc => rfl
  | waiter pc =>
    cases pc with
    | waiting seen =>
      have hvalue := Party.value_of_hasReceiver htold rfl
      have hready := Watch.Awaits.changed_eq hok hvalue
      show (s.token.cancelTx.changed seen == .pending) = false
      rw [hready]
      rfl
    | _ => rfl
  | forwarder f =>
    cases hpc : f.pc with
    | selecting seen =>
      have hok : f.pc.Ok s.token.cancelTx f.token.flag := hok
      rw [hpc] at hok
      have hvalue := Party.value_of_hasReceiver htold (by rw [Party.hasReceiver, hpc])
      have hready := Watch.Awaits.changed_eq hok hvalue
      rw [Party.asleep, hpc]
      show (s.token.cancelTx.changed seen == .pending && _) = false
      rw [hready]
      rfl
    | _ => rw [Party.asleep, hpc]

end TokenState

/-- In a run in which no send is dropped while a party is in its window, nobody sleeps once the token is cancelled; and from
there on every call returns, and every token that was made is cancelled, once the party has had its turns. -/
theorem cancel_reaches_everyone {parties : List Party} (hstart : ∀ p ∈ parties, p.AtStart) {labels : List TokenLabel}
    (hreaches : AllSteps TokenState.step TokenState.SendReaches (.start parties) labels) :
    ¬ (runState TokenState.step (.start parties) labels).Lost ∧
    ((runState TokenState.step (.start parties) labels).Cancelled →
      ∀ (labels' : List TokenLabel) (i : Nat) (p : Party),
        (runState TokenState.step (runState TokenState.step (.start parties) labels) labels').parties[i]? = some p →
        9 + 2 * labels'.countP (TokenLabel.isReason i) ≤ labels'.countP (TokenLabel.isTurn i) → p.Finished) := by
  have hinv := hreaches.invariant (fun s l h hl => TokenState.step_inv h l hl) (TokenState.inv_start hstart)
  have hsettled : ∀ h : (runState TokenState.step (.start parties) labels).Cancelled,
      (runState TokenState.step (.start parties) labels).Settled := fun h => ⟨hinv.ok, hinv.delivered h⟩
  constructor
  · rintro ⟨hcancelled, p, hp, hasleep⟩
    have hawake := (hsettled hcancelled).not_asleep hp
    rw [hasleep] at hawake
    cases hawake
  · intro hcancelled labels' i p hp hturns
    exact (hsettled hcancelled).finished labels' hp hturns

/-- A waiter that sleeps, a forwarder that is selecting, and then the cancellation. -/
def sleepersParties : List Party :=
  [.waiter .start, .forwarder ⟨⟨false, 0, false⟩, 0, .new, .start⟩, .canceller .start]

def sleepersLabels : List TokenLabel :=
  .replicate 3 (.advance 0 false) ++ .replicate 4 (.advance 1 false) ++ .replicate 3 (.advance 2 false)

theorem cancel_reaches_sleepers :
    ¬ (runState TokenState.step (.start sleepersParties) sleepersLabels).Lost ∧
      (Party.waiter .returned).Finished := by
  have hstart : ∀ p ∈ sleepersParties, p.AtStart := by
    intro p hp
    simp only [sleepersParties, List.mem_cons, List.not_mem_nil, or_false] at hp
    rcases hp with rfl | rfl | rfl
    · exact rfl
    · exact ⟨rfl, rfl⟩
    · exact rfl
  have hreaches : AllSteps TokenState.step TokenState.SendReaches (.start sleepersParties) sleepersLabels := by decide
  have hrun := cancel_reaches_everyone hstart hreaches
  exact ⟨hrun.1, hrun.2 (by decide) (.replicate 9 (.advance 0 false)) 0 _ (by decide) (by decide)⟩

/-! ### Cancellations that are lost -/

def lostWaiter : List Party := [.waiter .start, .canceller .start]

def lostForwarder : List Party := [.forwarder ⟨⟨false, 0, false⟩, 0, .new, .start⟩, .canceller .start]

/-- The flag is loaded, the token is cancelled, and then the subscription is made. -/
def lostWaiterLabels : List TokenLabel :=
  .advance 0 false :: (.replicate 3 (.advance 1 false) ++ .replicate 2 (.advance 0 false))

def lostForwarderLabels : List TokenLabel :=
  .replicate 2 (.advance 0 false) ++ .replicate 3 (.advance 1 false) ++ .replicate 2 (.advance 0 false)

/-- The flag is set and the waiter sleeps; the channel has not changed. -/
def lostWaiterState : TokenState :=
  ⟨⟨true, 1, 0, ⟨false, 0, false⟩⟩, [.waiter (.waiting 0), .canceller .returned]⟩

private theorem lostWaiterState_step (l : TokenLabel) : (lostWaiterState.step l).1 = lostWaiterState := by
  cases l with
  | advance i choice =>
    match i with
    | 0 => rfl
    | 1 => rfl
    | i + 2 => rfl
  | sendReason i isSome =>
    match i with
    | 0 => rfl
    | 1 => rfl
    | 2 => rfl
    | i + 3 => rfl
  | closeReason i =>
    match i with
    | 0 => rfl
    | 1 => rfl
    | 2 => rfl
    | i + 3 => rfl
  | drop => rfl

/-- The waiter and the forwarder sleep, and nothing ever wakes the waiter. -/
theorem cancellation_lost :
    (runState TokenState.step (.start lostWaiter) lostWaiterLabels).Lost ∧
      (∀ labels, runState TokenState.step (.start lostWaiter) (lostWaiterLabels ++ labels) =
        runState TokenState.step (.start lostWaiter) lostWaiterLabels) ∧
      (runState TokenState.step (.start lostForwarder) lostForwarderLabels).Lost ∧
      ¬ ∀ (parties : List Party) (labels : List TokenLabel), (∀ p ∈ parties, p.AtStart) →
        ¬ (runState TokenState.step (.start parties) labels).Lost := by
  have hlost : (runState TokenState.step (.start lostWaiter) lostWaiterLabels).Lost := by decide
  refine ⟨hlost, ?_, by decide, ?_⟩
  · intro labels
    have hstate : runState TokenState.step (.start lostWaiter) lostWaiterLabels = lostWaiterState := by decide
    rw [runState_append, hstate]
    have hstays : ∀ s l, s = lostWaiterState → (TokenState.step s l).1 = lostWaiterState := by
      rintro s l rfl
      exact lostWaiterState_step l
    exact runState_invariant labels hstays rfl
  · intro hnever
    refine hnever lostWaiter lostWaiterLabels ?_ hlost
    intro p hp
    simp only [lostWaiter, List.mem_cons, List.not_mem_nil, or_false] at hp
    rcases hp with rfl | rfl <;> rfl

end OpenProxy.Upstream
