import OpenProxy.Anthropic.Content
import OpenProxy.Data.Table

/-!
# Synthetic threads

The registry of `message_threads.rs` remembers for each session the digests of the messages of its last successful
request, and answers a longer request that begins with the same digests with the number of messages that the upstream has
seen.  The digest does not read everything that makes two messages different: not the name, not the parts of a content
that have no text, not where a list of calls ends.  And a success overwrites the mark of a session that is to stay
stateless.  Where what is not read does not change, and no session is marked before a success, an answer never hides a
changed history (`run_right`).
-/

namespace OpenProxy.Threads

open Json

/-! ### The digest of a message -/

/-- What a call is read as. -/
def callText (call : Json) : Text := call.asStr.getD (write call)

/-- What `hash_message` feeds to the hasher, which ends every string with a byte that is in no string. -/
def hashed (msg : OpenAIMessage) : List Text :=
  msg.role :: extractContentText msg.content :: ((msg.toolCalls.getD []).map callText ++ msg.toolCallId.toList)

/-- `hash_message`. -/
def hashMessage (digest : List Text → UInt64) (msg : OpenAIMessage) : UInt64 := digest (hashed msg)

/-! ### The registry -/

/-- `ActiveThreadState`, with times in nanoseconds. -/
structure ActiveThreadState where
  targetId : Option Int
  lastMessageId : Text
  messageHashes : List UInt64
  lastActivity : Nat
  degradedToStateless : Bool

/-- `MessageThreadRegistry`. -/
abbrev Registry := Table Text ActiveThreadState

/-- `THREAD_IDLE_TIMEOUT`. -/
def threadIdleTimeout : Nat := 270 * 10 ^ 9

/-- `plan_continuation`: the id of the last response and the number of messages that it has seen. -/
def planContinuation (digest : List Text → UInt64) (entries : Registry) (now : Nat) (sessionKey : Text)
    (messages : List OpenAIMessage) : Registry × Option (Text × Nat) :=
  match entries.lookup sessionKey with
  | none => (entries, none)
  | some entry =>
    if entry.degradedToStateless then (entries, none)
    else if threadIdleTimeout ≤ now - entry.lastActivity then (entries.erase sessionKey, none)
    else
      let currentHashes := messages.map (hashMessage digest)
      let cachedHashes := entry.messageHashes
      if cachedHashes.isEmpty ∨ currentHashes.length ≤ cachedHashes.length then (entries, none)
      else if currentHashes.take cachedHashes.length ≠ cachedHashes then (entries, none)
      else (entries, some (entry.lastMessageId, cachedHashes.length))

/-- `record_success`. -/
def recordSuccess (digest : List Text → UInt64) (entries : Registry) (now : Nat) (sessionKey : Text)
    (targetId : Option Int) (messages : List OpenAIMessage) (responseMessageId : Text) : Registry :=
  entries.insert sessionKey ⟨targetId, responseMessageId, messages.map (hashMessage digest), now, false⟩

/-- `should_opt_in_synthetic_threads`. -/
def shouldOptInSyntheticThreads (entries : Registry) (sessionKey : Text) : Bool :=
  (entries.lookup sessionKey).all fun entry => !entry.degradedToStateless

/-- `invalidate`. -/
def invalidate (entries : Registry) (sessionKey : Text) : Registry := entries.erase sessionKey

/-- `mark_stateless`. -/
def markStateless (entries : Registry) (sessionKey : Text) : Registry :=
  match entries.lookup sessionKey with
  | some entry => entries.insert sessionKey { entry with degradedToStateless := true }
  | none => entries

/-- The `thread` of a request. -/
inductive Thread
  | create
  | continue (previousMessageId : Text)

/-- `resolve_synthetic_thread_plan`, with whether the target and the request are such that threads are synthetic at all. -/
def resolveSyntheticThreadPlan (digest : List Text → UInt64) (entries : Registry) (now : Nat) (synthetic : Bool)
    (canonicalSession : Text) (messages : List OpenAIMessage) : Registry × List OpenAIMessage × Option Thread :=
  if !synthetic || !shouldOptInSyntheticThreads entries canonicalSession then (entries, messages, none)
  else
    let (entries, plan) := planContinuation digest entries now canonicalSession messages
    match plan with
    | some (prevMsgId, sliceFrom) =>
      if sliceFrom < messages.length then (entries, messages.drop sliceFrom, some (.continue prevMsgId))
      else (entries, messages, none)
    | none => (entries, messages, some .create)

/-! ### Runs -/

inductive Call
  | planContinuation (now : Nat) (sessionKey : Text) (messages : List OpenAIMessage)
  | recordSuccess (now : Nat) (sessionKey : Text) (targetId : Option Int) (messages : List OpenAIMessage)
      (responseMessageId : Text)
  | invalidate (sessionKey : Text)
  | markStateless (sessionKey : Text)

/-- The messages of a call. -/
def Call.messages : Call → List OpenAIMessage
  | .planContinuation _ _ messages => messages
  | .recordSuccess _ _ _ messages _ => messages
  | .invalidate _ => []
  | .markStateless _ => []

/-- The registry, with what it is about: the messages and the id of the last success of each session, and the sessions
whose thread has been marked and not been invalidated since. -/
structure History where
  entries : Registry
  recorded : Text → Option (List OpenAIMessage × Text)
  marked : Text → Bool

def start : History := ⟨∅, fun _ => none, fun _ => false⟩

/-- A call, and the plan that it answers with. -/
def step (digest : List Text → UInt64) (s : History) : Call → History × Option (Text × Nat)
  | .planContinuation now key messages =>
    let (entries, plan) := planContinuation digest s.entries now key messages
    ({ s with entries }, plan)
  | .recordSuccess now key targetId messages id =>
    ({ s with
        entries := recordSuccess digest s.entries now key targetId messages id
        recorded := Function.update s.recorded key (some (messages, id)) }, none)
  | .invalidate key =>
    ({ s with entries := invalidate s.entries key, marked := Function.update s.marked key false }, none)
  | .markStateless key =>
    ({ s with
        entries := markStateless s.entries key
        marked := Function.update s.marked key (s.marked key || (s.entries.lookup key).isSome) }, none)

/-- Equal messages. -/
structure SameMessage (msg msg' : OpenAIMessage) : Prop where
  role : msg.role = msg'.role
  content : msg.content = msg'.content
  toolCalls : msg.toolCalls = msg'.toolCalls
  toolCallId : msg.toolCallId = msg'.toolCallId
  name : msg.name = msg'.name

/-- A plan continues the messages of the last success, and there is none for a session that is marked. -/
def Right (digest : List Text → UInt64) (s : History) : Call → Prop
  | .planContinuation now key messages =>
    (∀ id k, (planContinuation digest s.entries now key messages).2 = some (id, k) →
      ∃ stored, s.recorded key = some (stored, id) ∧ stored.length = k ∧
        List.Forall₂ SameMessage stored (messages.take k)) ∧
    (s.marked key = true → (planContinuation digest s.entries now key messages).2 = none)
  | _ => True

/-- Two messages are told apart by the digest of what it reads. -/
def CollisionFree (digest : List Text → UInt64) (messages : List OpenAIMessage) : Prop :=
  ∀ msg ∈ messages, ∀ msg' ∈ messages, hashMessage digest msg = hashMessage digest msg' → hashed msg = hashed msg'

/-! ### What the digest does not read -/

/-- Whether each call is a string. -/
def callShapes (msg : OpenAIMessage) : Option (List Bool) := msg.toolCalls.map (List.map fun call => call.asStr.isSome)

/-- A content whose text is all of it. -/
def isTextContent (content : Option Json) : Bool := (content.bind asStr).isSome

/-- Two messages agree in what the digest does not read: in their names, in how many calls there are and which of them are
strings, and in their contents unless these are strings. -/
structure SameUnread (msg msg' : OpenAIMessage) : Prop where
  name : msg.name = msg'.name
  calls : callShapes msg = callShapes msg'
  content : msg.content = msg'.content ∨ isTextContent msg.content = true ∧ isTextContent msg'.content = true

theorem callText_injective {call call' : Json} (hshape : call.asStr.isSome = call'.asStr.isSome)
    (h : callText call = callText call') : call = call' := by
  cases hcall : call.asStr with
  | none =>
    rw [hcall, Option.isSome_none, eq_comm, Option.isSome_eq_false_iff, Option.isNone_iff_eq_none] at hshape
    rw [callText, callText, hcall, hshape] at h
    exact write_injective h
  | some s =>
    rw [hcall, Option.isSome_some, eq_comm, Option.isSome_iff_exists] at hshape
    obtain ⟨s', hcall'⟩ := hshape
    rw [callText, callText, hcall, hcall', Option.getD_some, Option.getD_some] at h
    have hstring : ∀ {v : Json} {t : Text}, v.asStr = some t → v = string t := by
      intro v t hv
      cases v <;> simp_all [asStr]
    rw [hstring hcall, hstring hcall', h]

theorem calls_injective {calls calls' : List Json}
    (hshapes : (calls.map fun call => call.asStr.isSome) = calls'.map fun call => call.asStr.isSome)
    (h : calls.map callText = calls'.map callText) : calls = calls' := by
  induction calls generalizing calls' with
  | nil =>
    rw [List.map_nil, eq_comm, List.map_eq_nil_iff] at h
    exact h.symm
  | cons call calls ih =>
    cases calls' with
    | nil => cases h
    | cons call' calls' =>
      rw [List.map_cons, List.map_cons, List.cons.injEq] at h hshapes
      rw [callText_injective hshapes.1 h.1, ih hshapes.2 h.2]

theorem toList_injective {id id' : Option Text} (h : id.toList = id'.toList) : id = id' := by
  cases id <;> cases id' <;> simp_all

/-- What is read and what is not make up the message. -/
theorem sameMessage_iff {msg msg' : OpenAIMessage} :
    SameMessage msg msg' ↔ hashed msg = hashed msg' ∧ SameUnread msg msg' := by
  constructor
  · rintro ⟨hrole, hcontent, hcalls, hid, hname⟩
    refine ⟨?_, hname, ?_, Or.inl hcontent⟩
    · rw [hashed, hashed, hrole, hcontent, hcalls, hid]
    · rw [callShapes, callShapes, hcalls]
  · rintro ⟨hread, hname, hshapes, hcontent⟩
    simp only [hashed, List.cons.injEq] at hread
    obtain ⟨hrole, htext, hrest⟩ := hread
    have hlength : ((msg.toolCalls.getD []).map callText).length = ((msg'.toolCalls.getD []).map callText).length := by
      have hcount := congrArg (fun shapes => (shapes.getD []).length) hshapes
      simp only [callShapes] at hcount
      cases h : msg.toolCalls <;> cases h' : msg'.toolCalls <;> simp_all
    obtain ⟨hcalls, hid⟩ := List.append_inj hrest hlength
    refine ⟨hrole, ?_, ?_, toList_injective hid, hname⟩
    · rcases hcontent with hcontent | ⟨hstr, hstr'⟩
      · exact hcontent
      · unfold isTextContent at hstr hstr'
        cases h : msg.content with
        | none => simp [h] at hstr
        | some v =>
          cases h' : msg'.content with
          | none => simp [h'] at hstr'
          | some v' =>
            cases v <;> cases v' <;> simp_all [asStr, extractContentText]
    · unfold callShapes at hshapes
      cases h : msg.toolCalls with
      | none => cases h' : msg'.toolCalls <;> simp_all
      | some calls =>
        cases h' : msg'.toolCalls with
        | none => simp [h, h'] at hshapes
        | some calls' =>
          rw [h, h', Option.map_some, Option.map_some, Option.some_inj] at hshapes
          rw [h, h', Option.getD_some, Option.getD_some] at hcalls
          rw [calls_injective hshapes hcalls]

theorem forall₂_sameMessage {stored messages : List OpenAIMessage} (hread : stored.map hashed = messages.map hashed)
    (hunread : List.Forall₂ SameUnread stored messages) : List.Forall₂ SameMessage stored messages := by
  induction hunread with
  | nil => exact List.Forall₂.nil
  | cons hhead _ ih =>
    rw [List.map_cons, List.map_cons, List.cons.injEq] at hread
    exact List.Forall₂.cons (sameMessage_iff.mpr ⟨hread.1, hhead⟩) (ih hread.2)

/-! ### Single calls -/

section

variable {digest : List Text → UInt64} {entries : Registry} {now : Nat} {key : Text} {messages : List OpenAIMessage}

/-- When there is a plan. -/
theorem planContinuation_eq_some {id : Text} {k : Nat}
    (h : (planContinuation digest entries now key messages).2 = some (id, k)) :
    ∃ entry, entries.lookup key = some entry ∧ entry.degradedToStateless = false ∧
      now - entry.lastActivity < threadIdleTimeout ∧ entry.lastMessageId = id ∧ entry.messageHashes.length = k ∧
      k < messages.length ∧ (messages.map (hashMessage digest)).take k = entry.messageHashes := by
  unfold planContinuation at h
  split at h
  · cases h
  · rename_i entry hentry
    dsimp only at h
    split_ifs at h with hdegraded hidle hshort hprefix
    obtain ⟨hid, hk⟩ := Prod.mk.inj (Option.some_inj.mp h)
    refine ⟨entry, hentry, by simpa using hdegraded, by omega, hid, hk, ?_, ?_⟩
    · rw [not_or, List.length_map] at hshort
      omega
    · rw [← hk]
      exact not_not.mp hprefix

/-- What a plan does to the registry. -/
theorem planContinuation_entries (digest : List Text → UInt64) (entries : Registry) (now : Nat) (key : Text)
    (messages : List OpenAIMessage) :
    (planContinuation digest entries now key messages).1 = entries ∨
      ∃ entry, entries.lookup key = some entry ∧ entry.degradedToStateless = false ∧
        (planContinuation digest entries now key messages).1 = entries.erase key := by
  unfold planContinuation
  split
  · exact Or.inl rfl
  · rename_i entry hentry
    by_cases hdegraded : entry.degradedToStateless = true
    · exact Or.inl (by rw [if_pos hdegraded])
    · by_cases hidle : threadIdleTimeout ≤ now - entry.lastActivity
      · exact Or.inr ⟨entry, hentry, by simpa using hdegraded, by rw [if_neg hdegraded, if_pos hidle]⟩
      · refine Or.inl ?_
        simp only [if_neg hdegraded, if_neg hidle]
        split_ifs <;> rfl

theorem lookup_markStateless (entries : Registry) (key key' : Text) :
    (markStateless entries key).lookup key' =
      if key' = key then (entries.lookup key).map fun entry => { entry with degradedToStateless := true }
      else entries.lookup key' := by
  unfold markStateless
  split
  · rename_i entry hentry
    rw [Table.lookup_insert_eq, hentry]
    rfl
  · rename_i hnone
    split_ifs with heq
    · rw [heq, hnone]
      rfl
    · rfl

theorem lookup_erase_eq (entries : Registry) (key key' : Text) :
    (entries.erase key).lookup key' = if key' = key then none else entries.lookup key' := by
  split_ifs with heq
  · rw [heq, AList.lookup_erase]
  · exact AList.lookup_erase_ne heq

end

/-! ### What a registry knows of the calls -/

/-- Every entry has the id and the digests of the last success, and a session that is marked has an entry that says so.
`all` has the messages of the run. -/
structure Known (digest : List Text → UInt64) (all : List OpenAIMessage) (s : History) : Prop where
  entry : ∀ key entry, s.entries.lookup key = some entry → ∃ stored,
    s.recorded key = some (stored, entry.lastMessageId) ∧ entry.messageHashes = stored.map (hashMessage digest) ∧
      stored ⊆ all
  marked : ∀ key, s.marked key = true → ∃ entry, s.entries.lookup key = some entry ∧ entry.degradedToStateless = true

theorem known_start (digest : List Text → UInt64) (all : List OpenAIMessage) : Known digest all start where
  entry := by
    intro key entry hentry
    cases hentry
  marked := by
    intro key hmarked
    cases hmarked

/-- What is asked of a call.  A longer request that goes on a live thread and that the digest does not tell apart from the
recorded one agrees with it in what the digest does not read, and there is no success on a thread that is marked. -/
def Allowed (s : History) : Call → Prop
  | .planContinuation now key messages =>
    ∀ entry stored id, s.entries.lookup key = some entry → entry.degradedToStateless = false →
      now - entry.lastActivity < threadIdleTimeout → s.recorded key = some (stored, id) →
      stored.length < messages.length → stored.map hashed = (messages.take stored.length).map hashed →
      List.Forall₂ SameUnread stored (messages.take stored.length)
  | .recordSuccess _ key _ _ _ => ∀ entry, s.entries.lookup key = some entry → entry.degradedToStateless = false
  | .invalidate _ => True
  | .markStateless _ => True

section

variable {digest : List Text → UInt64} {all : List OpenAIMessage} {s : History}

theorem Known.step (hknown : Known digest all s) (call : Call) (hall : call.messages ⊆ all) (hallowed : Allowed s call) :
    Known digest all (step digest s call).1 := by
  cases call with
  | planContinuation now key messages =>
    rcases planContinuation_entries digest s.entries now key messages with heq | ⟨entry, hentry, hdegraded, heq⟩
    · refine ⟨?_, ?_⟩
      · simpa only [Threads.step, heq] using hknown.entry
      · simpa only [Threads.step, heq] using hknown.marked
    · refine ⟨?_, ?_⟩
      · intro key' entry' hentry'
        simp only [Threads.step, heq, lookup_erase_eq] at hentry'
        split_ifs at hentry' with hkey
        exact hknown.entry key' entry' hentry'
      · intro key' hmarked
        obtain ⟨entry', hentry', hdegraded'⟩ := hknown.marked key' hmarked
        simp only [Threads.step, heq, lookup_erase_eq]
        rw [if_neg]
        · exact ⟨entry', hentry', hdegraded'⟩
        · rintro rfl
          rw [hentry] at hentry'
          cases hentry'
          rw [hdegraded] at hdegraded'
          cases hdegraded'
  | recordSuccess now key targetId messages id =>
    refine ⟨?_, ?_⟩
    · intro key' entry' hentry'
      simp only [Threads.step, recordSuccess, Table.lookup_insert_eq] at hentry' ⊢
      by_cases hkey : key' = key
      · subst hkey
        rw [if_pos rfl] at hentry'
        cases hentry'
        exact ⟨messages, by simp, rfl, hall⟩
      · rw [if_neg hkey] at hentry'
        rw [Function.update_of_ne hkey]
        exact hknown.entry key' entry' hentry'
    · intro key' hmarked
      obtain ⟨entry', hentry', hdegraded'⟩ := hknown.marked key' hmarked
      simp only [Threads.step, recordSuccess, Table.lookup_insert_eq]
      rw [if_neg]
      · exact ⟨entry', hentry', hdegraded'⟩
      · rintro rfl
        rw [hallowed entry' hentry'] at hdegraded'
        cases hdegraded'
  | invalidate key =>
    refine ⟨?_, ?_⟩
    · intro key' entry' hentry'
      simp only [Threads.step, invalidate, lookup_erase_eq] at hentry'
      split_ifs at hentry' with hkey
      exact hknown.entry key' entry' hentry'
    · intro key' hmarked
      simp only [Threads.step, Function.update_apply] at hmarked
      split_ifs at hmarked with hkey
      simp only [Threads.step, invalidate, lookup_erase_eq, if_neg hkey]
      exact hknown.marked key' hmarked
  | markStateless key =>
    refine ⟨?_, ?_⟩
    · intro key' entry' hentry'
      simp only [Threads.step, lookup_markStateless] at hentry' ⊢
      split_ifs at hentry' with hkey
      · rw [Option.map_eq_some_iff] at hentry'
        obtain ⟨entry, hentry, rfl⟩ := hentry'
        exact hknown.entry key' entry (hkey ▸ hentry)
      · exact hknown.entry key' entry' hentry'
    · intro key' hmarked
      simp only [Threads.step, Function.update_apply] at hmarked
      simp only [Threads.step, lookup_markStateless]
      split_ifs at hmarked ⊢ with hkey
      · rw [Bool.or_eq_true] at hmarked
        rcases hmarked with hmarked | hmarked
        · obtain ⟨entry, hentry, -⟩ := hknown.marked key hmarked
          exact ⟨{ entry with degradedToStateless := true }, by rw [hentry]; rfl, rfl⟩
        · obtain ⟨entry, hentry⟩ := Option.isSome_iff_exists.mp hmarked
          exact ⟨{ entry with degradedToStateless := true }, by rw [hentry]; rfl, rfl⟩
      · exact hknown.marked key' hmarked

/-- Without collisions, equal digests are digests of what reads the same. -/
theorem CollisionFree.hashed_eq (hfree : CollisionFree digest all) {stored messages : List OpenAIMessage}
    (hstored : stored ⊆ all) (hmessages : messages ⊆ all)
    (h : stored.map (hashMessage digest) = messages.map (hashMessage digest)) :
    stored.map hashed = messages.map hashed := by
  induction stored generalizing messages with
  | nil =>
    rw [List.map_nil, eq_comm, List.map_eq_nil_iff] at h
    rw [h]
  | cons msg stored ih =>
    cases messages with
    | nil => cases h
    | cons msg' messages =>
      rw [List.map_cons, List.map_cons, List.cons.injEq] at h
      rw [List.cons_subset] at hstored hmessages
      rw [List.map_cons, List.map_cons, hfree msg hstored.1 msg' hmessages.1 h.1, ih hstored.2 hmessages.2 h.2]

theorem Known.right (hknown : Known digest all s) (hfree : CollisionFree digest all) (call : Call)
    (hall : call.messages ⊆ all) (hallowed : Allowed s call) : Right digest s call := by
  cases call with
  | planContinuation now key messages =>
    refine ⟨?_, ?_⟩
    · intro id k hplan
      obtain ⟨entry, hentry, hdegraded, hlive, hid, hk, hlonger, hhashes⟩ := planContinuation_eq_some hplan
      obtain ⟨stored, hrecorded, hstored, hsub⟩ := hknown.entry key entry hentry
      have hlength : stored.length = k := by rw [← hk, hstored, List.length_map]
      rw [hid] at hrecorded
      refine ⟨stored, hrecorded, hlength, ?_⟩
      subst hlength
      have hread : stored.map hashed = (messages.take stored.length).map hashed := by
        apply hfree.hashed_eq hsub (fun m hm => hall (List.mem_of_mem_take hm))
        rw [← hstored, ← hhashes, List.map_take, Call.messages]
      exact forall₂_sameMessage hread (hallowed entry stored id hentry hdegraded hlive hrecorded hlonger hread)
    · intro hmarked
      obtain ⟨entry, hentry, hdegraded⟩ := hknown.marked key hmarked
      simp [planContinuation, hentry, hdegraded]
  | recordSuccess | invalidate | markStateless => trivial

/-- What a request with a synthetic thread sends is what the upstream has not seen. -/
theorem resolveSyntheticThreadPlan_continue {now : Nat} {key : Text} {messages sent : List OpenAIMessage}
    {synthetic : Bool} {entries : Registry} {id : Text} (hright : Right digest s (.planContinuation now key messages))
    (h : resolveSyntheticThreadPlan digest s.entries now synthetic key messages = (entries, sent, some (.continue id))) :
    ∃ stored, s.recorded key = some (stored, id) ∧
      List.Forall₂ SameMessage stored (messages.take stored.length) ∧ sent = messages.drop stored.length := by
  unfold resolveSyntheticThreadPlan at h
  split at h
  · cases h
  · dsimp only at h
    split at h
    · rename_i prevMsgId sliceFrom hplan
      split_ifs at h with hlonger
      · cases h
        obtain ⟨stored, hrecorded, hlength, hsame⟩ := hright.1 id sliceFrom hplan
        subst hlength
        exact ⟨stored, hrecorded, hsame, rfl⟩
      · cases h
    · cases h

end

/-- In a run in which what the digest does not read stays the same, and in which no session is marked before a success,
every plan continues the messages of the last success, and there is none for a session that is marked. -/
theorem run_right (digest : List Text → UInt64) (calls : List Call)
    (hfree : CollisionFree digest (calls.flatMap Call.messages)) (h : AllSteps (step digest) Allowed start calls) :
    AllSteps (step digest) (Right digest) start calls := by
  refine h.imp (fun s call hcall (hknown : Known digest (calls.flatMap Call.messages) s) hallowed => ?_)
    (known_start digest _)
  have hall : call.messages ⊆ calls.flatMap Call.messages := fun m hm => List.mem_flatMap.mpr ⟨call, hcall, hm⟩
  exact ⟨hknown.right hfree call hall hallowed, hknown.step call hall hallowed⟩

/-- A digest that tells the messages of the runs below apart. -/
def totalLength (texts : List Text) : UInt64 := UInt64.ofNat texts.flatten.length

def userMessage (content : Json) : OpenAIMessage := ⟨Role.user, some content, none, none, none, []⟩

/-- A session with one success and a request that goes on. -/
def greeting : List Call :=
  [.recordSuccess 0 "s".toList none [userMessage (string "hi".toList)] "r".toList,
    .planContinuation 1 "s".toList [userMessage (string "hi".toList), userMessage (string "more".toList)]]

theorem run_right_greeting : AllSteps (step totalLength) (Right totalLength) start greeting := by
  apply run_right totalLength greeting
  · unfold CollisionFree
    decide +kernel
  · refine ⟨?_, ?_, trivial⟩
    · intro entry hentry
      cases hentry
    · intro entry stored id _ _ _ hrecorded _ _
      obtain ⟨rfl, -⟩ := Prod.mk.inj (Option.some_inj.mp hrecorded)
      exact List.Forall₂.cons ⟨rfl, rfl, Or.inl rfl⟩ List.Forall₂.nil

/-- The image behind a path. -/
def image (path : String) : Json := array [object [("image_url".toList, string path.toList)]]

/-- A session whose first message has another image in the second request. -/
def otherImage : List Call :=
  [.recordSuccess 0 "s".toList none [userMessage (image "cat.png")] "r".toList,
    .planContinuation 1 "s".toList [userMessage (image "dog.png"), userMessage (string "more".toList)]]

/-- The second request is taken for a continuation. -/
theorem not_right_otherImage :
    CollisionFree totalLength (otherImage.flatMap Call.messages) ∧
      ¬ AllSteps (step totalLength) (Right totalLength) start otherImage := by
  refine ⟨by unfold CollisionFree; decide +kernel, ?_⟩
  intro h
  have hplan := h.2.1.1 "r".toList 1 (by decide +kernel)
  obtain ⟨stored, hrecorded, -, hsame⟩ := hplan
  obtain ⟨rfl, -⟩ := Prod.mk.inj (Option.some_inj.mp hrecorded)
  have hcontent := (List.forall₂_cons.mp hsame).1.content
  simp [userMessage, image] at hcontent

end OpenProxy.Threads
