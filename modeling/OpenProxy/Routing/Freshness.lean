import OpenProxy.Routing.SnapshotCache

/-!
# The freshness of the routing snapshot

A snapshot that misses a routing change is found out by the next call if the config epoch has moved between its probe and
the change, or if both the file times and `data_version` were read before the change.  `data_version` is read after the
build, so a change that becomes visible in between, and whose row changes came before the probe, is not found out.
-/

namespace OpenProxy.Routing.CacheState

variable {s s' : CacheState} {c : Call} {i : Nat}

/-- No routing change becomes visible between `build` and the read of `data_version`, unless the config epoch moved after
it was probed; and a refused probe of `data_version` is not compared with another one. -/
def PcAllowed (s : CacheState) (choice : CallChoice) : CallPc → Prop
  | .readExternal p snap => choice.refused = false → ∀ r ∈ s.commits, snap < r.number → p.config < r.config
  | .check p => choice.refused = true → ∀ st ∈ s.cached,
    st.fileVersion ≠ p.file → st.writeEpoch ≠ p.write → st.externalVersion ≠ none
  | _ => True

instance (s : CacheState) (choice : CallChoice) (pc : CallPc) : Decidable (s.PcAllowed choice pc) :=
  match pc with
  | .readExternal _ _ => inferInstanceAs (Decidable (_ → _))
  | .check _ => inferInstanceAs (Decidable (_ → _))
  | .readConfig _ | .readCooldown _ _ | .readFile _ _ _ | .readWrite _ _ _ _ | .lockRebuild | .recheck _ | .build _
  | .store _ | .unlockRebuild _ | .returned _ => .isTrue trivial

def Allowed (s : CacheState) : CacheLabel → Prop
  | .call i choice => ∀ c ∈ s.calls[i]?, s.PcAllowed choice c.pc
  | _ => True

instance (s : CacheState) (l : CacheLabel) : Decidable (s.Allowed l) :=
  match l with
  | .call _ _ => inferInstanceAs (Decidable (∀ c ∈ _, _))
  | .changeRouting | .changeCooldown | .commitHook | .commit | .rollback | .foreignCommit _ | .touchFile
  | .startCall => .isTrue trivial

/-! ### The invariant -/

/-- A snapshot that misses a routing change is found out. -/
structure Good (s : CacheState) (st : SnapshotState) : Prop where
  snap : st.snap ≤ s.visible
  file : st.fileVersion ≤ s.fileTime
  external : ∀ e ∈ st.externalVersion, e ≤ s.visible
  detectable : ∀ r ∈ s.commits, st.snap < r.number →
    st.configVersion < r.config ∨ st.fileVersion < r.file ∧ ∀ e ∈ st.externalVersion, e < r.number

/-- The config epoch was read after all changes that the call must see. -/
def ConfigSeen (s : CacheState) (c : Call) (config : Nat) : Prop :=
  ∀ r ∈ s.commits, r.number ≤ c.started → r.config ≤ config

def FileSeen (s : CacheState) (c : Call) (file : Nat) : Prop :=
  file ≤ s.fileTime ∧ ∀ r ∈ s.commits, r.number ≤ c.started → r.file ≤ file

/-- The snapshot has all changes that the call must see. -/
def Includes (s : CacheState) (c : Call) (snap : Nat) : Prop := ∀ r ∈ s.commits, r.number ≤ c.started → r.number ≤ snap

/-- What a call knows at each place. -/
def PcOk (s : CacheState) (c : Call) : CallPc → Prop
  | .readConfig _ => True
  | .readCooldown _ config => ConfigSeen s c config
  | .readFile _ config _ => ConfigSeen s c config
  | .readWrite _ config _ file => ConfigSeen s c config ∧ FileSeen s c file
  | .check p => ConfigSeen s c p.config ∧ FileSeen s c p.file
  | .lockRebuild => True
  | .recheck p => ConfigSeen s c p.config ∧ FileSeen s c p.file
  | .build p => ConfigSeen s c p.config ∧ FileSeen s c p.file
  | .readExternal p snap =>
    snap ≤ s.visible ∧ p.file ≤ s.fileTime ∧ (∀ r ∈ s.commits, snap < r.number → p.file < r.file) ∧ Includes s c snap
  | .store st => Good s st ∧ Includes s c st.snap
  | .unlockRebuild result => ∀ snap ∈ result, Includes s c snap
  | .returned result => ∀ snap ∈ result, Includes s c snap

structure CallOk (s : CacheState) (c : Call) : Prop where
  floor : c.floor ≤ c.started
  started : c.started ≤ s.visible
  pc : PcOk s c c.pc

structure Inv (s : CacheState) : Prop where
  commits : ∀ r ∈ s.commits, r.number ≤ s.visible ∧ r.config ≤ s.configEpoch ∧ r.file ≤ s.fileTime
  cached : ∀ st ∈ s.cached, Good s st
  calls : ∀ c ∈ s.calls, CallOk s c

theorem inv_start : Inv start := by
  refine ⟨?_, ?_, ?_⟩
  · intro r hr
    cases hr
  · intro st hst
    cases hst
  · intro c hc
    cases hc

/-! ### What the database may do -/

/-- Counters grow, and a new commit has a new number and a new file time. -/
structure Evolves (s s' : CacheState) : Prop where
  visible : s.visible ≤ s'.visible
  fileTime : s.fileTime ≤ s'.fileTime
  commits : ∀ r ∈ s'.commits, r ∈ s.commits ∨ s.visible < r.number ∧ s.fileTime < r.file

theorem Evolves.good {st : SnapshotState} (h : Evolves s s') (hgood : Good s st) : Good s' st := by
  obtain ⟨hsnap, hfile, hexternal, hdetect⟩ := hgood
  refine ⟨Nat.le_trans hsnap h.visible, Nat.le_trans hfile h.fileTime,
    fun e he => Nat.le_trans (hexternal e he) h.visible, ?_⟩
  intro r hr hmissed
  rcases h.commits r hr with hold | ⟨hnumber, hnew⟩
  · exact hdetect r hold hmissed
  · refine .inr ⟨by omega, fun e he => ?_⟩
    have := hexternal e he
    omega

section

variable (h : Evolves s s') (hstarted : c.started ≤ s.visible)
include h hstarted

/-- A call does not have to see what becomes visible after its start. -/
theorem Evolves.old {r : RoutingCommit} (hr : r ∈ s'.commits) (hseen : r.number ≤ c.started) : r ∈ s.commits := by
  rcases h.commits r hr with hold | ⟨hnumber, -⟩
  · exact hold
  · omega

theorem Evolves.configSeen {config : Nat} (hseen : ConfigSeen s c config) : ConfigSeen s' c config :=
  fun r hr hle => hseen r (h.old hstarted hr hle) hle

theorem Evolves.fileSeen {file : Nat} (hseen : FileSeen s c file) : FileSeen s' c file :=
  ⟨Nat.le_trans hseen.1 h.fileTime, fun r hr hle => hseen.2 r (h.old hstarted hr hle) hle⟩

theorem Evolves.includes {snap : Nat} (hincl : Includes s c snap) : Includes s' c snap :=
  fun r hr hle => hincl r (h.old hstarted hr hle) hle

theorem Evolves.pcOk {pc : CallPc} (hpc : PcOk s c pc) : PcOk s' c pc := by
  cases pc with
  | readConfig round => trivial
  | readCooldown round config => exact h.configSeen hstarted hpc
  | readFile round config cooldown => exact h.configSeen hstarted hpc
  | readWrite round config cooldown file => exact ⟨h.configSeen hstarted hpc.1, h.fileSeen hstarted hpc.2⟩
  | check p => exact ⟨h.configSeen hstarted hpc.1, h.fileSeen hstarted hpc.2⟩
  | lockRebuild => trivial
  | recheck p => exact ⟨h.configSeen hstarted hpc.1, h.fileSeen hstarted hpc.2⟩
  | build p => exact ⟨h.configSeen hstarted hpc.1, h.fileSeen hstarted hpc.2⟩
  | readExternal p snap =>
    obtain ⟨hsnap, hfile, hlate, hincl⟩ := hpc
    refine ⟨Nat.le_trans hsnap h.visible, Nat.le_trans hfile h.fileTime, ?_, h.includes hstarted hincl⟩
    intro r hr hmissed
    rcases h.commits r hr with hold | ⟨-, hnew⟩
    · exact hlate r hold hmissed
    · omega
  | store st => exact ⟨h.good hpc.1, h.includes hstarted hpc.2⟩
  | unlockRebuild result => exact fun snap hsnap => h.includes hstarted (hpc snap hsnap)
  | returned result => exact fun snap hsnap => h.includes hstarted (hpc snap hsnap)

end

theorem Evolves.callOk (h : Evolves s s') (hc : CallOk s c) : CallOk s' c :=
  ⟨hc.floor, Nat.le_trans hc.started h.visible, h.pcOk hc.started hc.pc⟩

/-- A step of the database keeps the invariant. -/
theorem Evolves.inv (h : Evolves s s') (hinv : Inv s) (hcached : s'.cached = s.cached) (hcalls : s'.calls = s.calls)
    (hcommits : ∀ r ∈ s'.commits, r.number ≤ s'.visible ∧ r.config ≤ s'.configEpoch ∧ r.file ≤ s'.fileTime) : Inv s' := by
  refine ⟨hcommits, ?_, ?_⟩
  · intro st hst
    rw [hcached] at hst
    exact h.good (hinv.cached st hst)
  · intro c hc
    rw [hcalls] at hc
    exact h.callOk (hinv.calls c hc)

theorem evolves_publish (s : CacheState) (routing : Bool) : Evolves s (s.publish routing) := by
  refine ⟨Nat.le_succ _, Nat.le_succ _, ?_⟩
  intro r hr
  cases routing with
  | false => exact .inl hr
  | true =>
    rcases List.mem_append.mp hr with hr | hr
    · exact .inl hr
    · rw [List.mem_singleton.mp hr]
      exact .inr ⟨Nat.lt_succ_self _, Nat.lt_succ_self _⟩

theorem publish_inv (h : Inv s) (routing : Bool) : Inv (s.publish routing) := by
  refine (evolves_publish s routing).inv h rfl rfl ?_
  intro r hr
  have hold : ∀ r ∈ s.commits, r.number ≤ s.visible + 1 ∧ r.config ≤ s.configEpoch ∧ r.file ≤ s.fileTime + 1 := by
    intro r hr
    obtain ⟨hnumber, hconfig, hfile⟩ := h.commits r hr
    omega
  cases routing with
  | false => exact hold r hr
  | true =>
    rcases List.mem_append.mp hr with hr | hr
    · exact hold r hr
    · rw [List.mem_singleton.mp hr]
      exact ⟨Nat.le_refl _, Nat.le_refl _, Nat.le_refl _⟩

/-- A step that moves only counters of which the invariant says nothing or that grow. -/
theorem quiet_inv (h : Inv s) (hvisible : s'.visible = s.visible) (hfile : s.fileTime ≤ s'.fileTime)
    (hconfig : s.configEpoch ≤ s'.configEpoch) (hcommits : s'.commits = s.commits) (hcached : s'.cached = s.cached)
    (hcalls : s'.calls = s.calls) : Inv s' := by
  have hevolves : Evolves s s' :=
    ⟨Nat.le_of_eq hvisible.symm, hfile, fun r hr => .inl (hcommits ▸ hr)⟩
  refine hevolves.inv h hcached hcalls fun r hr => ?_
  obtain ⟨hnumber, hconfig', hfile'⟩ := h.commits r (hcommits ▸ hr)
  omega

/-! ### What a call may do -/

/-- The place of one call changes. -/
theorem goto_inv {pc : CallPc} (h : Inv s) (hc : CallOk s c) (hpc : PcOk s c pc) : Inv (s.goto i c pc) := by
  refine ⟨h.commits, fun st hst => ?_, fun c' hc' => ?_⟩
  · obtain ⟨hsnap, hfile, hexternal, hdetect⟩ := h.cached st hst
    exact ⟨hsnap, hfile, hexternal, hdetect⟩
  · have hevolves : Evolves s (s.goto i c pc) := ⟨Nat.le_refl _, Nat.le_refl _, fun r hr => .inl hr⟩
    rcases List.mem_or_eq_of_mem_set hc' with hc' | rfl
    · exact hevolves.callOk (h.calls c' hc')
    · exact ⟨hc.floor, hc.started, hevolves.pcOk hc.started hpc⟩

/-- The cached snapshot is replaced by another one that is found out. -/
theorem cached_inv {st : SnapshotState} (h : Inv s) (hst : Good s st) : Inv { s with cached := some st } := by
  have hevolves : Evolves s { s with cached := some st } := ⟨Nat.le_refl _, Nat.le_refl _, fun r hr => .inl hr⟩
  refine ⟨h.commits, ?_, fun c hc => hevolves.callOk (h.calls c hc)⟩
  rintro st' ⟨⟩
  exact hevolves.good hst

theorem rebuilding_inv (h : Inv s) (rebuilding : Bool) : Inv { s with rebuilding := rebuilding } :=
  quiet_inv h rfl (Nat.le_refl _) (Nat.le_refl _) rfl rfl rfl

/-- A probe that was made after the call began finds out a snapshot without a change that the call must see. -/
theorem Good.includes {st : SnapshotState} {p : Versions} (hst : Good s st) (hconfig : ConfigSeen s c p.config)
    (hfile : FileSeen s c p.file) (hsame : st.configVersion = p.config)
    (hmoved : st.fileVersion = p.file ∨ ∃ e ∈ st.externalVersion, s.visible ≤ e) (hstarted : c.started ≤ s.visible) :
    Includes s c st.snap := by
  intro r hr hle
  by_contra hmissed
  rcases hst.detectable r hr (by omega) with hlt | ⟨hlt, hexternal⟩
  · have := hconfig r hr hle
    omega
  · rcases hmoved with hmoved | ⟨e, he, hvisible⟩
    · have := hfile.2 r hr hle
      omega
    · have := hexternal e he
      omega

/-- The snapshot after its baseline has been refreshed. -/
def refreshed (st : SnapshotState) (p : Versions) : SnapshotState :=
  if st.fileVersion ≠ p.file then { st with fileVersion := p.file, writeEpoch := p.write } else st

theorem refreshed_fields (st : SnapshotState) (p : Versions) :
    (refreshed st p).snap = st.snap ∧ (refreshed st p).configVersion = st.configVersion := by
  unfold refreshed
  split <;> exact ⟨rfl, rfl⟩

theorem Good.refreshed {st : SnapshotState} {p : Versions} (h : Inv s) (hst : Good s st) (hfile : p.file ≤ s.fileTime)
    (hmoved : st.fileVersion = p.file ∨ ∃ e ∈ st.externalVersion, s.visible ≤ e) : Good s (refreshed st p) := by
  unfold CacheState.refreshed
  split
  · rename_i hne
    obtain ⟨e, he, hvisible⟩ := hmoved.resolve_left hne
    refine ⟨hst.snap, hfile, hst.external, fun r hr hmissed => ?_⟩
    rcases hst.detectable r hr hmissed with hlt | ⟨-, hexternal⟩
    · exact .inl hlt
    · have := hexternal e he
      have := (h.commits r hr).1
      omega
  · exact hst

theorem checkCached_inv {p : Versions} {choice : CallChoice} (h : Inv s) (hc : CallOk s c)
    (hpc : PcOk s c (.check p))
    (hallowed : choice.refused = true → ∀ st ∈ s.cached,
      st.fileVersion ≠ p.file → st.writeEpoch ≠ p.write → st.externalVersion ≠ none) :
    Inv (s.checkCached i c p choice) := by
  unfold checkCached
  cases hcached : s.cached with
  | none => exact goto_inv h hc trivial
  | some st =>
    have hst : Good s st := h.cached st hcached
    dsimp only
    by_cases hforeign : st.fileVersion ≠ p.file ∧
        (st.writeEpoch = p.write ∨ st.externalVersion ≠ if choice.refused then none else some s.visible)
    · rw [if_pos hforeign]
      exact goto_inv h hc trivial
    · rw [if_neg hforeign]
      have hmoved : st.fileVersion = p.file ∨ ∃ e ∈ st.externalVersion, s.visible ≤ e := by
        by_cases hfile : st.fileVersion = p.file
        · exact .inl hfile
        · simp only [ne_eq, hfile, not_false_eq_true, true_and, not_or, Decidable.not_not] at hforeign
          obtain ⟨hwrite, hexternal⟩ := hforeign
          cases hrefused : choice.refused with
          | true => exact absurd (by simpa [hrefused] using hexternal) (hallowed hrefused st hcached hfile hwrite)
          | false => exact .inr ⟨s.visible, by simpa [hrefused] using hexternal, Nat.le_refl _⟩
      have hrefreshed : Inv { s with cached := some (refreshed st p) } :=
        cached_inv h (hst.refreshed h hpc.2.1 hmoved)
      have hevolves : Evolves s { s with cached := some (refreshed st p) } :=
        ⟨Nat.le_refl _, Nat.le_refl _, fun r hr => .inl hr⟩
      have hreturn : (refreshed st p).configVersion = p.config →
          PcOk { s with cached := some (refreshed st p) } c (.returned (some (refreshed st p).snap)) := by
        intro hsame
        rw [(refreshed_fields st p).2] at hsame
        rintro snap ⟨⟩
        rw [(refreshed_fields st p).1]
        exact hevolves.includes hc.started (hst.includes hpc.1 hpc.2 hsame hmoved hc.started)
      change Inv (if (refreshed st p).configVersion = p.config ∧ (refreshed st p).cooldownVersion = p.cooldown then _
        else if (refreshed st p).configVersion = p.config ∧ choice.recent = true then _ else _)
      split
      · rename_i hsame
        exact goto_inv hrefreshed (hevolves.callOk hc) (hreturn hsame.1)
      · split
        · rename_i hsame
          exact goto_inv hrefreshed (hevolves.callOk hc) (hreturn hsame.1)
        · exact goto_inv hrefreshed (hevolves.callOk hc) trivial

theorem recheckCached_inv {p : Versions} (h : Inv s) (hc : CallOk s c) (hpc : PcOk s c (.recheck p)) :
    Inv (s.recheckCached i c p) := by
  unfold recheckCached
  cases hcached : s.cached with
  | none => exact goto_inv h hc hpc
  | some st =>
    dsimp only
    split
    · rename_i hsame
      obtain ⟨hfile, -, hconfig, -⟩ := hsame
      refine goto_inv h hc ?_
      rintro snap ⟨⟩
      exact (h.cached st hcached).includes hpc.1 hpc.2 hconfig (.inl hfile) hc.started
    · exact goto_inv h hc hpc

theorem callStep_inv {choice : CallChoice} (h : Inv s) (hc : CallOk s c)
    (hallowed : s.Allowed (.call i choice)) (hi : s.calls[i]? = some c) : Inv (s.callStep i c choice) := by
  have hpc := hc.pc
  have hcond := hallowed c hi
  unfold callStep
  cases hplace : c.pc with
  | readConfig round =>
    refine goto_inv h hc fun r hr _ => ?_
    exact (h.commits r hr).2.1
  | readCooldown round config =>
    rw [hplace] at hpc
    exact goto_inv h hc hpc
  | readFile round config cooldown =>
    rw [hplace] at hpc
    exact goto_inv h hc ⟨hpc, Nat.le_refl _, fun r hr _ => (h.commits r hr).2.2⟩
  | readWrite round config cooldown file =>
    rw [hplace] at hpc
    cases round with
    | first => exact goto_inv h hc hpc
    | second => exact goto_inv h hc hpc
  | check p =>
    rw [hplace] at hpc hcond
    exact checkCached_inv h hc hpc hcond
  | lockRebuild =>
    dsimp only
    split
    · exact h
    · have hgoto : Inv (s.goto i c (.readConfig .second)) := goto_inv h hc trivial
      exact rebuilding_inv hgoto true
  | recheck p =>
    rw [hplace] at hpc
    exact recheckCached_inv h hc hpc
  | build p =>
    rw [hplace] at hpc
    refine goto_inv h hc ?_
    split
    · rintro snap ⟨⟩
    · -- No commit is later than the state that the build sees now.
      refine ⟨Nat.le_refl _, hpc.2.1, fun r hr hlate => ?_, fun r hr _ => (h.commits r hr).1⟩
      have := (h.commits r hr).1
      omega
  | readExternal p snap =>
    rw [hplace] at hpc hcond
    obtain ⟨hsnap, hfile, hlate, hincludes⟩ := hpc
    refine goto_inv h hc ⟨⟨hsnap, hfile, ?_, ?_⟩, hincludes⟩
    · intro e he
      cases hrefused : choice.refused with
      | true => simp [hrefused] at he
      | false =>
        have heq : s.visible = e := by simpa [hrefused] using he
        exact Nat.le_of_eq heq.symm
    · intro r hr hmissed
      cases hrefused : choice.refused with
      | true => exact .inr ⟨hlate r hr hmissed, by simp⟩
      | false => exact .inl (hcond hrefused r hr hmissed)
  | store st =>
    rw [hplace] at hpc
    have hgoto : Inv (s.goto i c (.unlockRebuild (some st.snap))) := by
      refine goto_inv h hc ?_
      rintro snap ⟨⟩
      exact hpc.2
    have hevolves : Evolves s (s.goto i c (.unlockRebuild (some st.snap))) :=
      ⟨Nat.le_refl _, Nat.le_refl _, fun r hr => .inl hr⟩
    exact cached_inv hgoto (hevolves.good hpc.1)
  | unlockRebuild result =>
    rw [hplace] at hpc
    have hgoto : Inv (s.goto i c (.returned result)) := goto_inv h hc hpc
    exact rebuilding_inv hgoto false
  | returned result => exact h

/-! ### Whole runs -/

theorem settled_le (s : CacheState) : s.settled ≤ s.visible := by
  have hfold : ∀ (calls : List Call) (n : Nat), calls.foldl (fun n c => min n c.started) n ≤ n := by
    intro calls
    induction calls with
    | nil => exact fun n => Nat.le_refl n
    | cons c calls ih => exact fun n => Nat.le_trans (ih _) (Nat.min_le_left _ _)
  exact hfold _ _

theorem step_inv {l : CacheLabel} (h : Inv s) (hallowed : s.Allowed l) : Inv (s.step l).1 := by
  cases l with
  | changeRouting =>
    dsimp only [step]
    split
    · exact h
    · exact quiet_inv h rfl (Nat.le_refl _) (Nat.le_succ _) rfl rfl rfl
  | changeCooldown =>
    dsimp only [step]
    split
    · exact h
    · exact quiet_inv h rfl (Nat.le_refl _) (Nat.le_refl _) rfl rfl rfl
  | commitHook =>
    dsimp only [step]
    split
    · exact h
    · exact quiet_inv h rfl (Nat.le_refl _) (Nat.le_refl _) rfl rfl rfl
  | commit =>
    dsimp only [step]
    split
    · exact quiet_inv (publish_inv h s.changed) rfl (Nat.le_refl _) (Nat.le_refl _) rfl rfl rfl
    · exact h
  | rollback => exact quiet_inv h rfl (Nat.le_refl _) (Nat.le_refl _) rfl rfl rfl
  | foreignCommit routing => exact publish_inv h routing
  | touchFile => exact quiet_inv h rfl (Nat.le_succ _) (Nat.le_refl _) rfl rfl rfl
  | startCall =>
    have hevolves : Evolves s (s.step .startCall).1 := ⟨Nat.le_refl _, Nat.le_refl _, fun r hr => .inl hr⟩
    refine ⟨h.commits, fun st hst => hevolves.good (h.cached st hst), fun c hc => ?_⟩
    rcases List.mem_append.mp hc with hc | hc
    · exact hevolves.callOk (h.calls c hc)
    · rw [List.mem_singleton.mp hc]
      exact ⟨s.settled_le, Nat.le_refl _, trivial⟩
  | call i choice =>
    dsimp only [step]
    split
    · exact h
    · rename_i c hi
      exact callStep_inv h (h.calls c (List.mem_of_getElem? hi)) hallowed hi

theorem Inv.fresh (h : Inv s) : Fresh s := by
  intro c hc snap hreturned r hr hfloor
  have hok := h.calls c hc
  have hpc := hok.pc
  rw [hreturned] at hpc
  exact hpc snap rfl r hr (Nat.le_trans hfloor hok.floor)

/-- The snapshot is fresh in every state of a run in which no routing change slips in between a build and its read of
`data_version`. -/
theorem snapshot_fresh (labels : List CacheLabel) (h : AllSteps step Allowed start labels) :
    Fresh (runState step start labels) :=
  (h.invariant (fun _ _ => step_inv) inv_start).fresh

/-- A choice in which nothing fails. -/
def plain : CallChoice := ⟨false, false, false⟩

/-- A transaction that changes a routing table, and a call that begins after it. -/
def changeThenCall : List CacheLabel :=
  [.changeRouting, .commitHook, .commit, .startCall] ++ List.replicate 15 (.call 0 plain)

theorem snapshot_fresh_change :
    AllSteps step Allowed start changeThenCall ∧
      (runState step start changeThenCall).calls = [⟨1, 1, .returned (some 1)⟩] ∧
      Fresh (runState step start changeThenCall) :=
  ⟨by decide, by decide, snapshot_fresh changeThenCall (by decide)⟩

/-- The first call probes the epochs after the row change and builds before the commit, and reads `data_version` after
it. -/
def changeDuringBuild : List CacheLabel :=
  [.changeRouting, .startCall] ++ List.replicate 12 (.call 0 plain) ++ [.commitHook, .commit] ++
    List.replicate 3 (.call 0 plain) ++ [.startCall] ++ List.replicate 5 (.call 1 plain)

theorem snapshot_stale : ¬ ∀ labels, Fresh (runState step start labels) := by
  intro h
  have hcalls : (runState step start changeDuringBuild).calls[1]? = some ⟨1, 1, .returned (some 0)⟩ := by decide
  have hcommits : (runState step start changeDuringBuild).commits = [⟨1, 1, 1⟩] := by decide
  have hstale := h changeDuringBuild ⟨1, 1, .returned (some 0)⟩ (List.mem_of_getElem? hcalls) 0 rfl ⟨1, 1, 1⟩
    (by rw [hcommits]; simp) (Nat.le_refl 1)
  exact absurd hstale (by decide)

end OpenProxy.Routing.CacheState
