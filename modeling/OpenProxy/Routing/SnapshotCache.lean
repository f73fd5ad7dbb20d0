import OpenProxy.Data.Machine
import Mathlib.Data.Option.Basic

/-!
# The cache of the routing snapshot

`get_snapshot` serves a cached snapshot as long as five signals say that no routing table has changed: two epochs that the
update hook of the writer bumps at every row change, an epoch that its commit hook bumps, the times of the database file,
and `PRAGMA data_version` on a connection of its own.  The steps of the writer, of foreign connections and of the calls
of `get_snapshot` come in any order; every read of a signal and every section under a lock is one step.

Commits are numbered in the order in which they become visible, and a snapshot stands for the number of commits that the
first query of `build` sees.  Of SQLite it is assumed that `data_version` changes exactly when another connection
commits, and that the times of the file change with every commit; they may change at other times, too.
-/

namespace OpenProxy.Routing

/-- What `probe_versions` reads. -/
structure Versions where
  config : Nat
  cooldown : Nat
  file : Nat
  write : Nat
deriving DecidableEq

structure SnapshotState where
  configVersion : Nat
  cooldownVersion : Nat
  fileVersion : Nat
  writeEpoch : Nat
  externalVersion : Option Nat
  snap : Nat
deriving DecidableEq

/-- `get_snapshot` probes the versions twice. -/
inductive Round
  | first
  | second
deriving DecidableEq

/-- Where a call of `get_snapshot` is. -/
inductive CallPc
  | readConfig (round : Round)
  | readCooldown (round : Round) (config : Nat)
  | readFile (round : Round) (config cooldown : Nat)
  | readWrite (round : Round) (config cooldown file : Nat)
  | check (p : Versions)
  | lockRebuild
  | recheck (p : Versions)
  | build (p : Versions)
  | readExternal (p : Versions) (snap : Nat)
  | store (st : SnapshotState)
  | unlockRebuild (result : Option Nat)
  | returned (result : Option Nat)
deriving DecidableEq

/-- A call, with the number of commits that were visible when it began, and the number of those that were visible also
when each call that had not yet returned began. -/
structure Call where
  started : Nat
  floor : Nat
  pc : CallPc
deriving DecidableEq

def Call.isActive (c : Call) : Bool :=
  match c.pc with
  | .returned _ => false
  | _ => true

/-- A visible commit that changed a routing table, with the config epoch and the file time when it became visible. -/
structure RoutingCommit where
  number : Nat
  config : Nat
  file : Nat
deriving DecidableEq

structure CacheState where
  visible : Nat
  fileTime : Nat
  configEpoch : Nat
  cooldownEpoch : Nat
  writeEpoch : Nat
  /-- The transaction of the writer has changed a routing table. -/
  changed : Bool
  /-- The commit hook of the transaction has run. -/
  hooked : Bool
  commits : List RoutingCommit
  cached : Option SnapshotState
  rebuilding : Bool
  calls : List Call
deriving DecidableEq

/-- What the code does not decide: whether the probe of `data_version` is refused, whether the last rebuild is recent
enough for the debounce of cooldowns, and whether `build` fails. -/
structure CallChoice where
  refused : Bool
  recent : Bool
  fails : Bool
deriving DecidableEq

inductive CacheLabel
  | changeRouting
  | changeCooldown
  | commitHook
  | commit
  | rollback
  | foreignCommit (routing : Bool)
  | touchFile
  | startCall
  | call (i : Nat) (choice : CallChoice)
deriving DecidableEq

namespace CacheState

def start : CacheState where
  visible := 0
  fileTime := 0
  configEpoch := 0
  cooldownEpoch := 0
  writeEpoch := 0
  changed := false
  hooked := false
  commits := []
  cached := none
  rebuilding := false
  calls := []

/-- A commit becomes visible. -/
def publish (s : CacheState) (routing : Bool) : CacheState :=
  { s with
    visible := s.visible + 1
    fileTime := s.fileTime + 1
    commits := if routing then s.commits ++ [⟨s.visible + 1, s.configEpoch, s.fileTime + 1⟩] else s.commits }

/-- The commits that every call in progress has found when it began. -/
def settled (s : CacheState) : Nat := (s.calls.filter Call.isActive).foldl (fun n c => min n c.started) s.visible

def goto (s : CacheState) (i : Nat) (c : Call) (pc : CallPc) : CacheState :=
  { s with calls := s.calls.set i { c with pc := pc } }

/-- The first section under the lock of the cache. -/
def checkCached (s : CacheState) (i : Nat) (c : Call) (p : Versions) (choice : CallChoice) : CacheState :=
  match s.cached with
  | none => s.goto i c .lockRebuild
  | some st =>
    let external := if choice.refused then none else some s.visible
    if st.fileVersion ≠ p.file ∧ (st.writeEpoch = p.write ∨ st.externalVersion ≠ external) then s.goto i c .lockRebuild
    else
      -- A commit of the pool that explains the new file times: only the baseline is refreshed.
      let st := if st.fileVersion ≠ p.file then { st with fileVersion := p.file, writeEpoch := p.write } else st
      let s := { s with cached := some st }
      if st.configVersion = p.config ∧ st.cooldownVersion = p.cooldown then s.goto i c (.returned (some st.snap))
      else if st.configVersion = p.config ∧ choice.recent then s.goto i c (.returned (some st.snap))
      else s.goto i c .lockRebuild

/-- The second section: another call may have rebuilt the snapshot in the meantime. -/
def recheckCached (s : CacheState) (i : Nat) (c : Call) (p : Versions) : CacheState :=
  match s.cached with
  | none => s.goto i c (.build p)
  | some st =>
    if st.fileVersion = p.file ∧ st.writeEpoch = p.write ∧ st.configVersion = p.config ∧
        st.cooldownVersion = p.cooldown then s.goto i c (.unlockRebuild (some st.snap))
    else s.goto i c (.build p)

/-- One step of a call. -/
def callStep (s : CacheState) (i : Nat) (c : Call) (choice : CallChoice) : CacheState :=
  match c.pc with
  | .readConfig round => s.goto i c (.readCooldown round s.configEpoch)
  | .readCooldown round config => s.goto i c (.readFile round config s.cooldownEpoch)
  | .readFile round config cooldown => s.goto i c (.readWrite round config cooldown s.fileTime)
  | .readWrite .first config cooldown file => s.goto i c (.check ⟨config, cooldown, file, s.writeEpoch⟩)
  | .readWrite .second config cooldown file => s.goto i c (.recheck ⟨config, cooldown, file, s.writeEpoch⟩)
  | .check p => s.checkCached i c p choice
  | .lockRebuild => if s.rebuilding then s else { s.goto i c (.readConfig .second) with rebuilding := true }
  | .recheck p => s.recheckCached i c p
  | .build p => s.goto i c (if choice.fails then .unlockRebuild none else .readExternal p s.visible)
  | .readExternal p snap =>
    let external := if choice.refused then none else some s.visible
    s.goto i c (.store ⟨p.config, p.cooldown, p.file, p.write, external, snap⟩)
  | .store st => { s.goto i c (.unlockRebuild (some st.snap)) with cached := some st }
  | .unlockRebuild result => { s.goto i c (.returned result) with rebuilding := false }
  | .returned _ => s

/-- A step of the writer, of a foreign connection or of a call.  A step that is not possible changes nothing. -/
def step (s : CacheState) : CacheLabel → CacheState × Unit
  | .changeRouting => (if s.hooked then s else { s with configEpoch := s.configEpoch + 1, changed := true }, ())
  | .changeCooldown => (if s.hooked then s else { s with cooldownEpoch := s.cooldownEpoch + 1 }, ())
  | .commitHook => (if s.hooked then s else { s with writeEpoch := s.writeEpoch + 1, hooked := true }, ())
  | .commit => (if s.hooked then { s.publish s.changed with changed := false, hooked := false } else s, ())
  | .rollback => ({ s with changed := false, hooked := false }, ())
  | .foreignCommit routing => (s.publish routing, ())
  | .touchFile => ({ s with fileTime := s.fileTime + 1 }, ())
  | .startCall => ({ s with calls := s.calls ++ [⟨s.visible, s.settled, .readConfig .first⟩] }, ())
  | .call i choice =>
    match s.calls[i]? with
    | none => (s, ())
    | some c => (s.callStep i c choice, ())

/-- A call that began after a routing change was visible and all earlier calls had returned gets a snapshot with the
change. -/
def Fresh (s : CacheState) : Prop :=
  ∀ c ∈ s.calls, ∀ snap, c.pc = .returned (some snap) → ∀ r ∈ s.commits, r.number ≤ c.floor → r.number ≤ snap

end CacheState

end OpenProxy.Routing
