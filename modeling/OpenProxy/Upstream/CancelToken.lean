import OpenProxy.Data.Machine

/-!
# Cancellation tokens

A token is a flag and a watch channel.  `cancel` stores the flag, counts, and sends on the channel; `cancelled` and
`from_watch_and_token` load the flag, subscribe, read the value of the channel, and wait for it to change.  Every atomic
operation and every operation on a channel is one step, and the steps of all parties come in any order.

A send is dropped when there is no receiver at that moment.  A party that has loaded the flag and has not yet subscribed
(`Party.inWindow`) is then told nothing: the value that it reads after its subscription is still the old one.
-/

namespace OpenProxy.Upstream

structure CancellationToken where
  flag : Bool
  cancelCount : Nat
  observeCount : Nat
  cancelTx : Watch Bool
  deriving DecidableEq

/-- Where a call of `cancel` is. -/
inductive CancelPc
  | start
  | stored
  | counted
  | returned
  deriving DecidableEq

/-- Where a call of `cancelled` is. -/
inductive WaiterPc
  | start
  | observing
  | checked
  | subscribed (seen : Nat)
  | waiting (seen : Nat)
  | woken (seen : Nat)
  | leaving
  | returned
  deriving DecidableEq

/-- Where a call of `from_watch_and_token` or its forwarder task is. -/
inductive ForwarderPc
  | start
  | checkFlag
  | observing
  | checked
  | subscribed (seen : Nat)
  | selecting (seen : Nat)
  | reasonWoken (seen : Nat)
  | woken (seen : Nat)
  | cancelling (hasRx : Bool) (pc : CancelPc)
  | done
  deriving DecidableEq

/-- A call of `from_watch_and_token`: its channel of reasons, of which it only asks whether the value is `Some`, and the
token that it makes. -/
structure Forwarder where
  rx : Watch Bool
  rxSeen : Nat
  token : CancellationToken
  pc : ForwarderPc
  deriving DecidableEq

inductive Party
  | canceller (pc : CancelPc)
  | waiter (pc : WaiterPc)
  | forwarder (f : Forwarder)
  deriving DecidableEq

namespace CancellationToken

def new : CancellationToken := ⟨false, 0, 0, ⟨false, 0, false⟩⟩

/-- `is_cancelled` counts that it has seen the flag. -/
def observe (t : CancellationToken) : CancellationToken := { t with observeCount := t.observeCount + 1 }

/-- One step of `cancel`. -/
def cancelStep (t : CancellationToken) (hasReceiver : Bool) : CancelPc → CancellationToken × CancelPc
  | .start => ({ t with flag := true }, .stored)
  | .stored => ({ t with cancelCount := t.cancelCount + 1 }, .counted)
  | .counted => ({ t with cancelTx := t.cancelTx.send hasReceiver true }, .returned)
  | .returned => (t, .returned)

/-- One step of `cancelled`.  A step that is not possible changes nothing. -/
def waiterStep (t : CancellationToken) : WaiterPc → CancellationToken × WaiterPc
  | .start => (t, if t.flag then .observing else .checked)
  | .observing => (t.observe, .returned)
  | .checked => (t, .subscribed t.cancelTx.version)
  | .subscribed _ => (t, if t.cancelTx.value then .leaving else .waiting t.cancelTx.version)
  | .waiting seen =>
    match t.cancelTx.changed seen with
    | .ready seen' => (t, .woken seen')
    | .failed => (t, .leaving)
    | .pending => (t, .waiting seen)
  | .woken seen => (t, if t.cancelTx.value then .leaving else .waiting seen)
  | .leaving => (t, .returned)
  | .returned => (t, .returned)

/-- The branch of `select!` for the reasons, if it is ready. -/
def reasonBranch (f : Forwarder) (seen : Nat) : Option Forwarder :=
  match f.rx.changed f.rxSeen with
  | .ready seen' => some { f with rxSeen := seen', pc := .reasonWoken seen }
  | .failed => some { f with pc := .cancelling true .start }
  | .pending => none

/-- The branch of `select!` for the token, if it is ready. -/
def tokenBranch (t : CancellationToken) (f : Forwarder) (seen : Nat) : Option Forwarder :=
  match t.cancelTx.changed seen with
  | .ready seen' => some { f with pc := .woken seen' }
  | .failed => some { f with pc := .cancelling true .start }
  | .pending => none

/-- One step of `from_watch_and_token` or of its task.  The choice is which branch of `select!` is asked first, and, in the
last step of `inner.cancel()`, whether the new token has a receiver. -/
def forwarderStep (t : CancellationToken) (choice : Bool) (f : Forwarder) : CancellationToken × Forwarder :=
  match f.pc with
  | .start =>
    (t, { f with rxSeen := f.rx.version, pc := if f.rx.value then .cancelling false .start else .checkFlag })
  | .checkFlag => (t, { f with pc := if t.flag then .observing else .checked })
  | .observing => (t.observe, { f with pc := .cancelling false .start })
  | .checked => (t, { f with pc := .subscribed t.cancelTx.version })
  -- The value is read with `borrow`, which leaves the version of the subscription.
  | .subscribed seen => (t, { f with pc := if t.cancelTx.value then .cancelling true .start else .selecting seen })
  | .selecting seen =>
    let branches :=
      if choice then (reasonBranch f seen).or (tokenBranch t f seen) else (tokenBranch t f seen).or (reasonBranch f seen)
    (t, branches.getD f)
  | .reasonWoken seen => (t, { f with pc := if f.rx.value then .cancelling true .start else .selecting seen })
  | .woken seen => (t, { f with pc := if t.cancelTx.value then .cancelling true .start else .selecting seen })
  | .cancelling _ .returned => (t, { f with pc := .done })
  | .cancelling hasRx pc =>
    let cancelled := f.token.cancelStep choice pc
    (t, { f with token := cancelled.1, pc := .cancelling hasRx cancelled.2 })
  | .done => (t, f)

end CancellationToken

namespace Party

/-- The flag has been loaded, and the subscription has not been made. -/
def inWindow : Party → Bool
  | canceller _ => false
  | waiter pc => pc == .checked
  | forwarder f => f.pc == .checked

/-- The party has a receiver of the token's channel. -/
def hasReceiver : Party → Bool
  | canceller _ => false
  | waiter (.subscribed _) | waiter (.waiting _) | waiter (.woken _) | waiter .leaving => true
  | waiter _ => false
  | forwarder f =>
    match f.pc with
    | .subscribed _ | .selecting _ | .reasonWoken _ | .woken _ => true
    | .cancelling hasRx _ => hasRx
    | _ => false

/-- The party has a handle of the token, which keeps its channel open. -/
def hasHandle : Party → Bool
  | canceller pc => pc != .returned
  | waiter pc => pc != .returned
  | forwarder f =>
    match f.pc with
    | .start | .checkFlag | .observing | .checked | .subscribed _ => true
    | _ => false

/-- A call of `cancel` that has begun and not yet sent. -/
def inProgress : Party → Bool
  | canceller .stored | canceller .counted => true
  | _ => false

/-- One step of a party. -/
def step (t : CancellationToken) (hasReceiver choice : Bool) : Party → CancellationToken × Party
  | canceller pc => ((t.cancelStep hasReceiver pc).1, canceller (t.cancelStep hasReceiver pc).2)
  | waiter pc => ((t.waiterStep pc).1, waiter (t.waiterStep pc).2)
  | forwarder f => ((t.forwarderStep choice f).1, forwarder (t.forwarderStep choice f).2)

/-- What happens to the channel of reasons of a forwarder. -/
def mapRx (change : Watch Bool → Watch Bool) : Party → Party
  | forwarder f => forwarder { f with rx := change f.rx }
  | p => p

end Party

structure TokenState where
  token : CancellationToken
  parties : List Party
  deriving DecidableEq

inductive TokenLabel
  | advance (party : Nat) (choice : Bool)
  /-- A value is sent to a forwarder's channel of reasons; it is `Some` or `None`. -/
  | sendReason (party : Nat) (isSome : Bool)
  | closeReason (party : Nat)
  /-- The last handle of the token is dropped. -/
  | drop
  deriving DecidableEq

namespace TokenState

def start (parties : List Party) : TokenState := ⟨.new, parties⟩

/-- The receiver count of the token's channel is not zero. -/
def hasReceiver (s : TokenState) : Bool := s.parties.any Party.hasReceiver

def step (s : TokenState) : TokenLabel → TokenState × Unit
  | .advance i choice =>
    match s.parties[i]? with
    | none => (s, ())
    | some p =>
      let stepped := p.step s.token s.hasReceiver choice
      (⟨stepped.1, s.parties.set i stepped.2⟩, ())
  | .sendReason i isSome => ({ s with parties := s.parties.modify i (Party.mapRx fun rx => rx.send true isSome) }, ())
  | .closeReason i => ({ s with parties := s.parties.modify i (Party.mapRx Watch.close) }, ())
  | .drop =>
    (if s.parties.any Party.hasHandle then s
      else { s with token := { s.token with cancelTx := s.token.cancelTx.close } }, ())

end TokenState

end OpenProxy.Upstream
