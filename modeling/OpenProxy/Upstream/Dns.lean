import OpenProxy.Data.Machine
import OpenProxy.Data.Table
import OpenProxy.Net.IpAddr

/-!
# Hosts that were validated

The model of `upstream/dns.rs`.  `resolve_public_host` lets `resolve_host` read or fill the cache that the connector reads
as well, and requires that all addresses are public.  Each read of the clock or of the cache is a step, and the steps of
the calls come in any order; time passes between them, and a lookup may give any addresses.

A validated host is not resolved a second time as long as the entry of the cache lasts, and this may end before the
`DNS_TTL` from the validation has passed.  The calls in that time return the validated addresses if none of them begins
after the end of the entry, and no lookup that was under way stores other addresses (`sound_of_keepsPromise`).
-/

namespace OpenProxy.Upstream.Dns

open Net

/-! ### Private and reserved addresses -/

def octet (v4 : BitVec 32) (i : Nat) : Nat := v4.toNat / 256 ^ (3 - i) % 256

def segment (v6 : BitVec 128) (i : Nat) : Nat := v6.toNat / 65536 ^ (7 - i) % 65536

/-- `Ipv4Addr::is_private`. -/
def isV4Private (v4 : BitVec 32) : Bool :=
  octet v4 0 == 10 || (octet v4 0 == 172 && 16 ≤ octet v4 1 && octet v4 1 ≤ 31) ||
    (octet v4 0 == 192 && octet v4 1 == 168)

def isV4PrivateOrReserved (v4 : BitVec 32) : Bool :=
  octet v4 0 == 0
    || octet v4 0 == 127
    || isV4Private v4
    || (octet v4 0 == 169 && octet v4 1 == 254)
    || v4.toNat == 2 ^ 32 - 1
    || (octet v4 0 == 192 && octet v4 1 == 0 && octet v4 2 == 2)
    || (octet v4 0 == 198 && octet v4 1 == 51 && octet v4 2 == 100)
    || (octet v4 0 == 203 && octet v4 1 == 0 && octet v4 2 == 113)
    || (octet v4 0 == 192 && octet v4 1 == 0 && octet v4 2 == 0)
    || (octet v4 0 == 100 && 64 ≤ octet v4 1 && octet v4 1 ≤ 127)
    || (octet v4 0 == 198 && 18 ≤ octet v4 1 && octet v4 1 ≤ 19)
    || 240 ≤ octet v4 0

/-- `Ipv6Addr::to_ipv4`, of mapped and of compatible addresses. -/
def toIpv4 (v6 : BitVec 128) : Option (BitVec 32) :=
  if (List.range 5).all (fun i => segment v6 i == 0) && (segment v6 5 == 0 || segment v6 5 == 0xffff) then
    some (BitVec.ofNat 32 v6.toNat)
  else none

def isV6PrivateOrReserved (v6 : BitVec 128) : Bool :=
  match toIpv4 v6 with
  | some v4 => isV4PrivateOrReserved v4
  | none =>
    v6.toNat == 0
      || v6.toNat == 1
      || segment v6 0 &&& 0xfe00 == 0xfc00
      || segment v6 0 &&& 0xffc0 == 0xfe80
      || (segment v6 0 == 0x2001 && segment v6 1 == 0xdb8)
      || segment v6 0 &&& 0xff00 == 0xff00

def isPrivateOrReserved : IpAddr → Bool
  | .v4 v4 => isV4PrivateOrReserved v4
  | .v6 v6 => isV6PrivateOrReserved v6

example : isPrivateOrReserved (ofOctets [169, 254, 169, 254]) = true ∧
    isPrivateOrReserved (ofSegments [0, 0, 0, 0, 0, 0, 0x7f00, 1]) = true ∧
    isPrivateOrReserved (ofOctets [1, 1, 1, 1]) = false := by decide +kernel

/-! ### The calls -/

/-- `DNS_TTL`, in nanoseconds. -/
def dnsTtl : Nat := 300 * 10 ^ 9

/-- The addresses of a host and a port, and the time from which they are not served. -/
abbrev DnsCache := Table (Text × Nat) (List SocketAddr × Nat)

def getCachedDns (cache : DnsCache) (now : Nat) (key : Text × Nat) : Option (List SocketAddr) :=
  ((cache.lookup key).filter fun entry => now < entry.2).map Prod.fst

/-- Where a call of `resolve_host` is, by itself or from `resolve_public_host`. -/
inductive ResolvePc
  | start
  | lookup
  | answered (addrs : List SocketAddr)
  | stamped (addrs : List SocketAddr) (expiry : Nat)
  | resolved (addrs : List SocketAddr)
  | returned (result : Option (List SocketAddr))
  deriving DecidableEq

/-- Addresses that `resolve_public_host` has returned, and the end of its promise; kept for the statements only. -/
structure Validated where
  host : Text
  port : Nat
  addrs : List SocketAddr
  deadline : Nat
  deriving DecidableEq

structure ResolveCall where
  host : Text
  port : Nat
  /-- The call comes from `resolve_public_host`. -/
  isPublic : Bool
  /-- `OPENPROXY_ALLOW_PRIVATE_UPSTREAMS` is set. -/
  allowPrivate : Bool
  pc : ResolvePc
  /-- What was validated for its host when it made its first step; kept for the statements only. -/
  promised : List Validated
  deriving DecidableEq

def ResolveCall.key (c : ResolveCall) : Text × Nat := (c.host, c.port)

structure DnsState where
  now : Nat
  cache : DnsCache
  calls : List ResolveCall
  validated : List Validated

inductive DnsLabel
  | call (host : Text) (port : Nat) (isPublic allowPrivate : Bool)
  /-- The next step of a call, with the answer of its lookup. -/
  | next (call : Nat) (answer : Option (List SocketAddr))
  | sweep
  | tick (elapsed : Nat)

def anyPrivate (addrs : List SocketAddr) : Bool := addrs.any fun a => isPrivateOrReserved a.ip

/-- The first step of `resolve_host`: a literal address, an entry of the cache, or a lookup. -/
def resolveStart (cache : DnsCache) (now : Nat) (host : Text) (port : Nat) (allowPrivate : Bool) : ResolvePc :=
  match parseIpAddr host with
  | some ip => if !allowPrivate && isPrivateOrReserved ip then .returned none else .resolved [⟨ip, port⟩]
  | none =>
    match getCachedDns cache now (host, port) with
    | some addrs => .resolved addrs
    | none => .lookup

namespace DnsState

def goto (s : DnsState) (i : Nat) (c : ResolveCall) (pc : ResolvePc) : DnsState :=
  { s with calls := s.calls.set i { c with pc := pc } }

/-- `resolve_public_host` accepts the addresses. -/
def accepts (addrs : List SocketAddr) : Bool := !addrs.isEmpty && !anyPrivate addrs

/-- The promises for the host of a call that have not ended. -/
def promises (s : DnsState) (c : ResolveCall) : List Validated :=
  s.validated.filter fun v => (v.host, v.port) = c.key ∧ s.now < v.deadline

def callStep (s : DnsState) (i : Nat) (c : ResolveCall) (answer : Option (List SocketAddr)) : DnsState :=
  match c.pc with
  | .start => s.goto i { c with promised := s.promises c } (resolveStart s.cache s.now c.host c.port c.allowPrivate)
  | .lookup =>
    match answer with
    | some addrs => s.goto i c (if !c.allowPrivate && anyPrivate addrs then .returned none else .answered addrs)
    | none => s.goto i c (.returned none)
  | .answered addrs => s.goto i c (.stamped addrs (s.now + dnsTtl))
  | .stamped addrs expiry => { s.goto i c (.resolved addrs) with cache := s.cache.insert c.key (addrs, expiry) }
  | .resolved addrs =>
    if !c.isPublic then s.goto i c (.returned (some addrs))
    else if accepts addrs then
      { s.goto i c (.returned (some addrs)) with
        validated := ⟨c.host, c.port, addrs, s.now + dnsTtl⟩ :: s.validated }
    else s.goto i c (.returned none)
  | .returned _ => s

def step (s : DnsState) : DnsLabel → DnsState × Unit
  | .call host port isPublic allowPrivate =>
    ({ s with calls := s.calls ++ [⟨host, port, isPublic, allowPrivate, .start, []⟩] }, ())
  | .next i answer =>
    match s.calls[i]? with
    | some c => (s.callStep i c answer, ())
    | none => (s, ())
  | .sweep => ({ s with cache := s.cache.retain fun _ entry => s.now < entry.2 }, ())
  | .tick elapsed => ({ s with now := s.now + elapsed }, ())

def init : DnsState := ⟨0, ∅, [], []⟩

/-! ### The promise -/

/-- A call for a validated host that began before the end of the promise returns the validated addresses, and they are
public. -/
def Sound (s : DnsState) : Prop :=
  ∀ c ∈ s.calls, ∀ v ∈ c.promised, ∀ result, c.pc = .returned result → result = some v.addrs ∧ anyPrivate v.addrs = false

/-- A call for a name does not begin between the end of its entry and the end of a promise, it stores no other addresses
than were promised, and where it validates addresses the cache serves no others. -/
def CallKeeps (s : DnsState) (c : ResolveCall) : ResolvePc → Prop
  | .start => parseIpAddr c.host = none → s.promises c ≠ [] → (getCachedDns s.cache s.now c.key).isSome = true
  | .stamped addrs _ => ∀ v ∈ s.promises c, addrs = v.addrs
  | .resolved addrs => c.isPublic = true → accepts addrs = true → parseIpAddr c.host = none →
    ∀ cached ∈ getCachedDns s.cache s.now c.key, cached = addrs
  | _ => True

def KeepsPromise (s : DnsState) : DnsLabel → Prop
  | .next i _ => ∀ c ∈ s.calls[i]?, s.CallKeeps c c.pc
  | _ => True

instance (s : DnsState) (c : ResolveCall) : ∀ pc, Decidable (s.CallKeeps c pc)
  | .start => inferInstanceAs (Decidable (_ → _ → _))
  | .stamped _ _ => inferInstanceAs (Decidable (∀ v ∈ s.promises c, _))
  | .resolved _ => inferInstanceAs (Decidable (_ → _ → _ → ∀ cached ∈ getCachedDns s.cache s.now c.key, _))
  | .lookup | .answered _ | .returned _ => .isTrue trivial

instance (s : DnsState) : DecidablePred s.KeepsPromise
  | .next i _ => inferInstanceAs (Decidable (∀ c ∈ s.calls[i]?, s.CallKeeps c c.pc))
  | .call .. | .sweep | .tick _ => .isTrue trivial

/-- The addresses are those of the literal, or the cache serves no others until the end of the promise. -/
def Served (s : DnsState) (v : Validated) : Prop :=
  (∀ ip, parseIpAddr v.host = some ip → v.addrs = [⟨ip, v.port⟩]) ∧
    (parseIpAddr v.host = none → s.now < v.deadline →
      ∀ cached ∈ getCachedDns s.cache s.now (v.host, v.port), cached = v.addrs)

/-- A literal is resolved to itself, and a call has found what it was promised. -/
structure CallInv (c : ResolveCall) : Prop where
  literal : ∀ ip, parseIpAddr c.host = some ip →
    c.pc = .start ∨ c.pc = .resolved [⟨ip, c.port⟩] ∨ ∃ r, c.pc = .returned r
  promised : ∀ v ∈ c.promised, accepts v.addrs = true ∧ (c.pc = .resolved v.addrs ∨ c.pc = .returned (some v.addrs))

structure Inv (s : DnsState) : Prop where
  accepted : ∀ v ∈ s.validated, accepts v.addrs = true
  served : ∀ v ∈ s.validated, s.Served v
  calls : ∀ c ∈ s.calls, CallInv c

variable {s : DnsState} {i : Nat} {c : ResolveCall} {answer : Option (List SocketAddr)} {label : DnsLabel}

theorem mem_getCachedDns {cache : DnsCache} {now : Nat} {key : Text × Nat} {addrs : List SocketAddr} :
    addrs ∈ getCachedDns cache now key ↔ ∃ expiry, cache.lookup key = some (addrs, expiry) ∧ now < expiry := by
  unfold getCachedDns
  cases cache.lookup key with
  | none => simp
  | some entry =>
    simp only [Option.mem_def, Option.map_eq_some_iff, Option.filter_eq_some_iff, decide_eq_true_eq]
    constructor
    · rintro ⟨entry', ⟨h, hnow⟩, rfl⟩
      exact ⟨entry'.2, h, hnow⟩
    · rintro ⟨expiry, h, hnow⟩
      exact ⟨_, ⟨h, hnow⟩, rfl⟩

theorem anyPrivate_of_accepts {addrs : List SocketAddr} (h : accepts addrs = true) : anyPrivate addrs = false := by
  unfold accepts at h
  rw [Bool.and_eq_true, Bool.not_eq_true', Bool.not_eq_true'] at h
  exact h.2

theorem Inv.sound (h : s.Inv) : s.Sound := by
  intro c hc v hv result hresult
  obtain ⟨haccepts, hpc | hpc⟩ := (h.calls c hc).promised v hv
  · rw [hresult] at hpc
    cases hpc
  · rw [hresult] at hpc
    exact ⟨ResolvePc.returned.inj hpc, anyPrivate_of_accepts haccepts⟩

theorem Served.resolveStart_eq {v : Validated} (h : s.Served v) (haccepts : accepts v.addrs = true)
    (hnow : s.now < v.deadline) (allowPrivate : Bool)
    (hsome : parseIpAddr v.host = none → (getCachedDns s.cache s.now (v.host, v.port)).isSome = true) :
    resolveStart s.cache s.now v.host v.port allowPrivate = .resolved v.addrs := by
  obtain ⟨hliteral, hname⟩ := h
  have hpublic := anyPrivate_of_accepts haccepts
  unfold resolveStart
  cases hparse : parseIpAddr v.host with
  | some ip =>
    have haddrs := hliteral ip hparse
    rw [haddrs] at hpublic
    have hip : isPrivateOrReserved ip = false := by simpa [anyPrivate] using hpublic
    dsimp only
    rw [hip, Bool.and_false, if_neg Bool.false_ne_true, haddrs]
  | none =>
    obtain ⟨cached, hcached⟩ := Option.isSome_iff_exists.mp (hsome hparse)
    dsimp only
    rw [hcached, hname hparse hnow cached hcached]

/-- A change of the place of a call leaves the rest of the state. -/
theorem Inv.goto (h : s.Inv) {pc : ResolvePc} (hcall : CallInv { c with pc := pc }) : (s.goto i c pc).Inv := by
  refine ⟨h.accepted, h.served, fun c' hc' => ?_⟩
  rcases List.mem_or_eq_of_mem_set hc' with hc' | rfl
  · exact h.calls c' hc'
  · exact hcall

theorem Inv.callInv_start (h : s.Inv) (hkeeps : s.CallKeeps c .start) :
    CallInv { c with promised := s.promises c, pc := resolveStart s.cache s.now c.host c.port c.allowPrivate } where
  literal ip hparse := by
    dsimp only at hparse ⊢
    unfold resolveStart
    rw [hparse]
    dsimp only
    split
    · exact Or.inr (Or.inr ⟨none, rfl⟩)
    · exact Or.inr (Or.inl rfl)
  promised v hv := by
    obtain ⟨hv, hpromise⟩ := List.mem_filter.mp hv
    obtain ⟨hkey, hnow⟩ := of_decide_eq_true hpromise
    obtain ⟨hhost, hport⟩ := Prod.mk.inj hkey
    have hstart := (h.served v hv).resolveStart_eq (h.accepted v hv) hnow c.allowPrivate (by
      rw [hkey, hhost]
      exact fun hparse => hkeeps hparse (List.ne_nil_of_mem (List.mem_filter.mpr ⟨hv, hpromise⟩)))
    rw [hhost, hport] at hstart
    exact ⟨h.accepted v hv, Or.inl hstart⟩

/-- A call that looks a host up, or has done so, is one for a name, and nothing was promised to it. -/
theorem CallInv.of_waiting (h : CallInv c) (hstart : c.pc ≠ .start) (hresolved : ∀ addrs, c.pc ≠ .resolved addrs)
    (hreturned : ∀ r, c.pc ≠ .returned r) (pc : ResolvePc) : CallInv { c with pc := pc } where
  literal ip hparse := by
    rcases h.literal ip hparse with hpc | hpc | ⟨r, hpc⟩
    · exact absurd hpc hstart
    · exact absurd hpc (hresolved _)
    · exact absurd hpc (hreturned r)
  promised v hv := by
    rcases (h.promised v hv).2 with hpc | hpc
    · exact absurd hpc (hresolved _)
    · exact absurd hpc (hreturned _)

/-- A call that has resolved its host may return the addresses, and may return nothing only if it does not accept them. -/
theorem CallInv.of_resolved (h : CallInv c) {addrs : List SocketAddr} (hpc : c.pc = .resolved addrs)
    {r : Option (List SocketAddr)} (hr : r = some addrs ∨ accepts addrs = false) : CallInv { c with pc := .returned r } where
  literal _ _ := Or.inr (Or.inr ⟨r, rfl⟩)
  promised v hv := by
    obtain ⟨haccepts, hv⟩ := h.promised v hv
    have haddrs : addrs = v.addrs := by
      rcases hv with hv | hv
      · rw [hpc] at hv
        exact ResolvePc.resolved.inj hv
      · rw [hpc] at hv
        cases hv
    rcases hr with hr | hr
    · exact ⟨haccepts, Or.inr (by rw [hr, haddrs])⟩
    · rw [haddrs, haccepts] at hr
      cases hr

/-- A store that agrees with a promise keeps it. -/
theorem Served.insert {v : Validated} (h : s.Served v) {addrs : List SocketAddr} {expiry : Nat}
    (hkeeps : (v.host, v.port) = c.key → s.now < v.deadline → addrs = v.addrs) :
    ({ s with cache := s.cache.insert c.key (addrs, expiry) } : DnsState).Served v := by
  refine ⟨h.1, fun hparse hnow cached hcached => ?_⟩
  obtain ⟨end', hlookup, hend⟩ := mem_getCachedDns.mp hcached
  dsimp only at hlookup
  by_cases hkey : (v.host, v.port) = c.key
  · -- what the cache serves from now on is what has been stored
    rw [hkey, AList.lookup_insert, Option.some.injEq, Prod.mk.injEq] at hlookup
    rw [← hlookup.1, hkeeps hkey hnow]
  · rw [AList.lookup_insert_ne hkey] at hlookup
    exact h.2 hparse hnow cached (mem_getCachedDns.mpr ⟨end', hlookup, hend⟩)

/-- The step of a call keeps the invariant. -/
theorem Inv.callStep (h : s.Inv) (hcall : s.calls[i]? = some c) (hkeeps : s.KeepsPromise (.next i answer)) :
    (s.callStep i c answer).Inv := by
  have hkept : s.CallKeeps c c.pc := hkeeps c hcall
  have hc := h.calls c (List.mem_of_getElem? hcall)
  unfold DnsState.callStep
  split
  · rename_i hpc
    rw [hpc] at hkept
    exact h.goto (h.callInv_start hkept)
  · rename_i hpc
    have hwaiting := hc.of_waiting (by simp [hpc]) (by simp [hpc]) (by simp [hpc])
    split
    · exact h.goto (hwaiting _)
    · exact h.goto (hwaiting _)
  · rename_i addrs hpc
    exact h.goto (hc.of_waiting (by simp [hpc]) (by simp [hpc]) (by simp [hpc]) _)
  · rename_i addrs expiry hpc
    rw [hpc] at hkept
    have hwaiting := hc.of_waiting (by simp [hpc]) (by simp [hpc]) (by simp [hpc])
    have hgoto := h.goto (i := i) (hwaiting (.resolved addrs))
    exact ⟨hgoto.accepted, fun v hv => (hgoto.served v hv).insert fun hkey hnow =>
      hkept v (List.mem_filter.mpr ⟨hv, decide_eq_true ⟨hkey, hnow⟩⟩), hgoto.calls⟩
  · rename_i addrs hpc
    split
    · exact h.goto (hc.of_resolved hpc (Or.inl rfl))
    · rename_i hpublic
      split
      · rename_i haccepts
        have hgoto := h.goto (i := i) (hc.of_resolved hpc (Or.inl rfl))
        refine ⟨fun v hv => ?_, fun v hv => ?_, hgoto.calls⟩
        · rcases List.mem_cons.mp hv with rfl | hv
          · exact haccepts
          · exact h.accepted v hv
        · rcases List.mem_cons.mp hv with rfl | hv
          · refine ⟨fun ip hparse => ?_, fun hparse _ => ?_⟩
            swap
            · rw [hpc] at hkept
              exact hkept (by simpa using hpublic) haccepts hparse
            rcases hc.literal ip hparse with hpc' | hpc' | ⟨r, hpc'⟩
            · rw [hpc] at hpc'
              cases hpc'
            · rw [hpc] at hpc'
              exact ResolvePc.resolved.inj hpc'
            · rw [hpc] at hpc'
              cases hpc'
          · exact h.served v hv
      · rename_i haccepts
        exact h.goto (hc.of_resolved hpc (Or.inr (Bool.not_eq_true _ ▸ haccepts)))
  · exact h

theorem Inv.step (h : s.Inv) (hkeeps : s.KeepsPromise label) : (s.step label).1.Inv := by
  cases label with
  | call host port isPublic allowPrivate =>
    refine ⟨h.accepted, h.served, fun c hc => ?_⟩
    rcases List.mem_append.mp hc with hc | hc
    · exact h.calls c hc
    · rw [List.mem_singleton.mp hc]
      exact ⟨fun _ _ => Or.inl rfl, fun _ hv => absurd hv List.not_mem_nil⟩
  | next i answer =>
    unfold DnsState.step
    dsimp only
    cases hcall : s.calls[i]? with
    | some c => exact h.callStep hcall hkeeps
    | none => exact h
  | sweep =>
    refine ⟨h.accepted, fun v hv => ⟨(h.served v hv).1, fun hparse hnow cached hcached => ?_⟩, h.calls⟩
    obtain ⟨expiry, hlookup, hend⟩ := mem_getCachedDns.mp hcached
    unfold DnsState.step at hlookup
    dsimp only at hlookup
    rw [Table.lookup_retain, Option.filter_eq_some_iff] at hlookup
    exact (h.served v hv).2 hparse hnow cached (mem_getCachedDns.mpr ⟨expiry, hlookup.1, hend⟩)
  | tick elapsed =>
    refine ⟨h.accepted, fun v hv => ⟨(h.served v hv).1, fun hparse hnow cached hcached => ?_⟩, h.calls⟩
    -- an entry that has ended does not come back
    obtain ⟨expiry, hlookup, hend⟩ := mem_getCachedDns.mp hcached
    have hle : s.now ≤ s.now + elapsed := Nat.le_add_right _ _
    exact (h.served v hv).2 hparse (Nat.lt_of_le_of_lt hle hnow) cached
      (mem_getCachedDns.mpr ⟨expiry, hlookup, Nat.lt_of_le_of_lt hle hend⟩)

theorem inv_init : init.Inv :=
  ⟨fun _ hv => absurd hv List.not_mem_nil, fun _ hv => absurd hv List.not_mem_nil, fun _ hc => absurd hc List.not_mem_nil⟩

/-- In a run whose steps all keep the promise, calls for validated hosts return the validated addresses. -/
theorem sound_of_keepsPromise (labels : List DnsLabel) (h : AllSteps step KeepsPromise init labels) :
    (runState step init labels).Sound :=
  (h.invariant (fun _ _ hinv hkeeps => hinv.step hkeeps) inv_init).sound

/-! ### A validation near the end of an entry -/

def publicAddr : SocketAddr := ⟨ofOctets [1, 1, 1, 1], 80⟩

def rebound : SocketAddr := ⟨ofOctets [10, 0, 0, 1], 80⟩

/-- A lookup of a call, from its first step to its return. -/
def lookupSteps (i : Nat) (answer : SocketAddr) : List DnsLabel :=
  [.next i none, .next i (some [answer]), .next i none, .next i none, .next i none]

/-- A validation, another one that finds the entry of the first, and a call a nanosecond before the entry ends. -/
def freshLabels : List DnsLabel :=
  .call ['h'] 80 true true :: lookupSteps 0 publicAddr ++
    [.tick 1, .call ['h'] 80 true true, .next 1 none, .next 1 none, .tick (dnsTtl - 2), .call ['h'] 80 false true,
      .next 2 none, .next 2 none]

theorem sound_freshLabels : (runState step init freshLabels).Sound :=
  sound_of_keepsPromise freshLabels (by decide +kernel)

/-- The second validation finds an entry that ends a nanosecond later; after that the name is bound to a private address. -/
def rebindingLabels : List DnsLabel :=
  .call ['h'] 80 true true :: lookupSteps 0 publicAddr ++
    [.tick (dnsTtl - 1), .call ['h'] 80 true true, .next 1 none, .next 1 none, .tick 1, .call ['h'] 80 false true] ++
    lookupSteps 2 rebound

theorem not_sound_rebindingLabels : ¬ (runState step init rebindingLabels).Sound := by
  intro h
  have hcall : ⟨['h'], 80, false, true, .returned (some [rebound]), [⟨['h'], 80, [publicAddr], 2 * dnsTtl - 1⟩]⟩ ∈
      (runState step init rebindingLabels).calls := by decide +kernel
  have hresult := (h _ hcall _ (List.mem_singleton_self _) _ rfl).1
  exact absurd hresult (by decide +kernel)

end DnsState

end OpenProxy.Upstream.Dns
