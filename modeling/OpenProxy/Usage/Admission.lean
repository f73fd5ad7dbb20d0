import OpenProxy.Data.Machine
import OpenProxy.Usage.Journal

/-!
# Admission to the journal in groups

`admit` puts a payload into a queue.  The first producer of an idle queue becomes the leader, which takes the payloads
of one connection in batches, commits a batch with one `append_batch` and answers the producers, until it finds the
queue empty and gives up the role in the same lock section.  A leader that panics, or whose task is dropped, answers
nobody of its batch and clears the queue.

Every lock section and every answer is one step.  The state keeps the calls of `append_batch` and the answers for the
statements.
-/

namespace OpenProxy.Usage

/-- An entry of the queue; the ticket stands for the channel on which the producer waits. -/
structure Admission where
  ticket : Nat
  conn : Nat
  payload : Text
  deriving DecidableEq

def maxAdmissionBatch : Nat := 512

/-- The result of an append, as the producer receives it. -/
abbrev Reply := Except JournalError Nat

/-- Where a leader is in `drain`, or in its `Drop`. -/
inductive LeaderPc
  | gone
  | top
  | batch (items : List Admission)
  | replying (rest : List (Admission × Reply))
  | unwinding

/-- What happens to the journals: a call of `append_batch`, which may fail as a whole, or a change by others. -/
inductive JournalEvent
  | call (conn : Nat) (items : List Admission) (fault : Bool)
  | other (conn : Nat) (journal : Journal)

structure AdmissionState where
  pending : List Admission
  leaderActive : Bool
  leaders : Nat → LeaderPc
  spawned : Nat
  journals : Nat → Journal
  admitted : List Admission
  events : List JournalEvent
  replies : List (Nat × Reply)
  dropped : List Nat

inductive AdmissionLabel
  | admitPayload (conn : Nat) (payload : Text)
  /-- The next lock section or answer of a leader; the fault is one of the database. -/
  | drain (leader : Nat) (fault : Bool)
  | abort (leader : Nat)
  | other (conn : Nat) (journal : Journal)

/-- The connection and the payload that a step admits. -/
def AdmissionLabel.admission : AdmissionLabel → Option (Nat × Text)
  | admitPayload conn payload => some (conn, payload)
  | _ => none

namespace AdmissionState

def start (journals : Nat → Journal) : AdmissionState :=
  ⟨[], false, fun _ => .gone, 0, journals, [], [], [], []⟩

def goto (s : AdmissionState) (leader : Nat) (pc : LeaderPc) : AdmissionState :=
  { s with leaders := fun i => if i = leader then pc else s.leaders i }

/-- The loop of `drain` that splits the queue, with the length of the batch so far. -/
def takeBatch (first : Nat) : Nat → List Admission → List Admission × List Admission
  | _, [] => ([], [])
  | length, item :: items =>
    if length < maxAdmissionBatch ∧ item.conn = first then
      let split := takeBatch first (length + 1) items
      (item :: split.1, split.2)
    else
      let split := takeBatch first length items
      (split.1, item :: split.2)

/-- The lock section of `admit`. -/
def admitPayload (s : AdmissionState) (conn : Nat) (payload : Text) : AdmissionState :=
  let item : Admission := ⟨s.admitted.length, conn, payload⟩
  let queued := { s with pending := s.pending ++ [item], admitted := s.admitted ++ [item] }
  if s.leaderActive then queued
  else { queued.goto s.spawned .top with leaderActive := true, spawned := s.spawned + 1 }

/-- The results of a batch: of `append_batch`, or the same error for all. -/
def batchResults (journal : Journal) (items : List Admission) (fault : Bool) : Journal × List Reply :=
  if fault then (journal, items.map fun _ => .error .database)
  else journal.appendBatch (items.map Admission.payload)

/-- The commit of a batch on the connection of its first item. -/
def commit (s : AdmissionState) (leader : Nat) (items : List Admission) (fault : Bool) : AdmissionState :=
  let conn := (items.head?.map Admission.conn).getD 0
  let outcome := batchResults (s.journals conn) items fault
  { s.goto leader (.replying (items.zip outcome.2)) with
    journals := fun c => if c = conn then outcome.1 else s.journals c
    events := s.events ++ [.call conn items fault] }

def drainStep (s : AdmissionState) (leader : Nat) (fault : Bool) : AdmissionState :=
  match s.leaders leader with
  | .gone => s
  | .top =>
    match s.pending with
    | [] => { s.goto leader .gone with leaderActive := false }
    | item :: items =>
      let split := takeBatch item.conn 0 (item :: items)
      { s.goto leader (.batch split.1) with pending := split.2 }
  | .batch items => s.commit leader items fault
  | .replying [] => s.goto leader .top
  | .replying ((item, reply) :: rest) =>
    { s.goto leader (.replying rest) with replies := s.replies ++ [(item.ticket, reply)] }
  | .unwinding =>
    { s.goto leader .gone with
      pending := [], leaderActive := false, dropped := s.dropped ++ s.pending.map Admission.ticket }

/-- The leader panics, or its task is dropped before it runs: the channels of its batch are closed. -/
def abortStep (s : AdmissionState) (leader : Nat) : AdmissionState :=
  match s.leaders leader with
  | .gone => s
  | .unwinding => s
  | .top => s.goto leader .unwinding
  | .batch items => { s.goto leader .unwinding with dropped := s.dropped ++ items.map Admission.ticket }
  | .replying rest =>
    { s.goto leader .unwinding with dropped := s.dropped ++ rest.map fun r => r.1.ticket }

def step (s : AdmissionState) : AdmissionLabel → AdmissionState × Unit
  | .admitPayload conn payload => (s.admitPayload conn payload, ())
  | .drain leader fault => (s.drainStep leader fault, ())
  | .abort leader => (s.abortStep leader, ())
  | .other conn journal =>
    ({ s with
      journals := fun c => if c = conn then journal else s.journals c
      events := s.events ++ [.other conn journal] }, ())

end AdmissionState

/-! ### One append after the other -/

/-- The items are appended one by one, each with its own answer. -/
def appendEach (journal : Journal) (fault : Bool) : List Admission → Journal × List (Nat × Reply)
  | [] => (journal, [])
  | item :: items =>
    let first := if fault then (journal, .error .database) else journal.append item.payload
    let rest := appendEach first.1 fault items
    (rest.1, (item.ticket, first.2) :: rest.2)

/-- The journals and the answers, if every item of a call is appended by itself. -/
def sequentialEvent (state : (Nat → Journal) × List (Nat × Reply)) : JournalEvent → (Nat → Journal) × List (Nat × Reply)
  | .call conn items fault =>
    let appended := appendEach (state.1 conn) fault items
    (fun c => if c = conn then appended.1 else state.1 c, state.2 ++ appended.2)
  | .other conn journal => (fun c => if c = conn then journal else state.1 c, state.2)

def sequential (journals : Nat → Journal) (events : List JournalEvent) : (Nat → Journal) × List (Nat × Reply) :=
  events.foldl sequentialEvent (journals, [])

/-- The items of an event. -/
def JournalEvent.items : JournalEvent → List Admission
  | .call _ items _ => items
  | .other _ _ => []

/-- The items that were part of a call, in order. -/
def calledItems (events : List JournalEvent) : List Admission := events.flatMap JournalEvent.items

open AdmissionState (batchResults takeBatch)

/-- A batch answers as single appends do. -/
theorem appendEach_eq (journal : Journal) (items : List Admission) (fault : Bool) :
    appendEach journal fault items =
      ((batchResults journal items fault).1,
        (items.zip (batchResults journal items fault).2).map fun r => (r.1.ticket, r.2)) := by
  unfold batchResults
  cases fault with
  | true =>
    simp only [if_true]
    induction items with
    | nil => rfl
    | cons item items ih => simp [appendEach, ih]
  | false =>
    simp only [Bool.false_eq_true, if_false, Journal.appendBatch_eq]
    induction items generalizing journal with
    | nil => rfl
    | cons item items ih =>
      rw [appendEach, ih]
      rfl

private theorem appendEach_tickets (journal : Journal) (fault : Bool) (items : List Admission) :
    (appendEach journal fault items).2.map Prod.fst = items.map Admission.ticket := by
  induction items generalizing journal with
  | nil => rfl
  | cons item items ih => rw [appendEach, List.map_cons, List.map_cons, ih]

theorem sequential_append (journals : Nat → Journal) (events : List JournalEvent) (event : JournalEvent) :
    sequential journals (events ++ [event]) = sequentialEvent (sequential journals events) event := by
  rw [sequential, List.foldl_append]
  rfl

/-- The answers are for the items of the calls, in order. -/
theorem sequential_tickets (journals : Nat → Journal) (events : List JournalEvent) :
    (sequential journals events).2.map Prod.fst = (calledItems events).map Admission.ticket := by
  induction events using List.reverseRecOn with
  | nil => rfl
  | append_singleton events event ih =>
    rw [sequential_append, calledItems, List.flatMap_append, List.map_append, ← calledItems, ← ih]
    cases event with
    | call conn items fault => simp [sequentialEvent, appendEach_tickets, JournalEvent.items]
    | other conn journal => simp [sequentialEvent, JournalEvent.items]

/-! ### Splitting the queue -/

private theorem takeBatch_full {first length : Nat} (h : maxAdmissionBatch ≤ length) (items : List Admission) :
    takeBatch first length items = ([], items) := by
  induction items with
  | nil => rfl
  | cons item items ih => rw [takeBatch, if_neg (fun hlt => by omega), ih]

private theorem takeBatch_conn (first length : Nat) (items : List Admission) :
    ∀ item ∈ (takeBatch first length items).1, item.conn = first := by
  induction items generalizing length with
  | nil => exact fun _ h => (List.not_mem_nil h).elim
  | cons item items ih =>
    rw [takeBatch]
    split
    · rename_i h
      intro other hother
      rcases List.mem_cons.mp hother with rfl | hother
      · exact h.2
      · exact ih _ other hother
    · exact ih length

private theorem takeBatch_perm (first length : Nat) (items : List Admission) :
    ((takeBatch first length items).1 ++ (takeBatch first length items).2).Perm items := by
  induction items generalizing length with
  | nil => exact List.Perm.nil
  | cons item items ih =>
    rw [takeBatch]
    split
    · exact (ih (length + 1)).cons item
    · exact List.perm_middle.trans ((ih length).cons item)

/-- The items of one connection keep their order. -/
private theorem takeBatch_filter (first length : Nat) (items : List Admission) (conn : Nat) :
    (takeBatch first length items).1.filter (fun item => item.conn == conn) ++
      (takeBatch first length items).2.filter (fun item => item.conn == conn) =
        items.filter fun item => item.conn == conn := by
  induction items generalizing length with
  | nil => rfl
  | cons item items ih =>
    rw [takeBatch]
    split
    · by_cases hconn : item.conn = conn
      · simp [hconn, ih]
      · simp [hconn, ih]
    · rename_i hnot
      by_cases hconn : item.conn = conn
      · -- Nothing of this connection has been taken behind the item.
        have hnone : (takeBatch first length items).1.filter (fun item => item.conn == conn) = [] := by
          rw [List.filter_eq_nil_iff]
          intro other hother hsame
          rw [beq_iff_eq] at hsame
          rcases Nat.lt_or_ge length maxAdmissionBatch with hlength | hlength
          · exact hnot ⟨hlength, by rw [hconn, ← hsame, takeBatch_conn first length items other hother]⟩
          · rw [takeBatch_full hlength] at hother
            exact List.not_mem_nil hother
        have hrest := ih length
        rw [hnone, List.nil_append] at hrest
        simp [hconn, hnone, hrest]
      · simp [hconn, ih]

/-! ### The invariant -/

namespace LeaderPc

/-- The items whose producers the leader has still to answer. -/
def inHand : LeaderPc → List Admission
  | batch items => items
  | replying rest => rest.map Prod.fst
  | _ => []

/-- The items that were taken from the queue and not yet passed to `append_batch`. -/
def uncommitted : LeaderPc → List Admission
  | batch items => items
  | _ => []

end LeaderPc

namespace AdmissionState

/-- Nobody has the role, or one leader has it and is at the given place. -/
def Role (s : AdmissionState) (pc : LeaderPc) : Prop :=
  pc = .gone ∧ s.leaderActive = false ∧ (∀ i, s.leaders i = .gone) ∨
    pc ≠ .gone ∧ s.leaderActive = true ∧ ∃ i < s.spawned, s.leaders i = pc ∧ ∀ j, j ≠ i → s.leaders j = .gone

/-- The items that were called, then those that are to be called, then those that wait. -/
def line (s : AdmissionState) (pc : LeaderPc) : List Admission :=
  calledItems s.events ++ (pc.uncommitted ++ s.pending)

structure Queue (journals₀ : Nat → Journal) (s : AdmissionState) (pc : LeaderPc) : Prop where
  idle : pc = .gone → s.pending = []
  batch : ∀ items, pc = .batch items → ∀ item ∈ items, item.conn = (items.head?.map Admission.conn).getD 0
  tickets : (s.replies.map Prod.fst ++ (s.dropped ++ (pc.inHand ++ s.pending).map Admission.ticket)).Perm
    (List.range s.admitted.length)
  numbered : s.admitted.map Admission.ticket = List.range s.admitted.length
  known : ∀ item ∈ s.line pc, item ∈ s.admitted
  unique : ((s.line pc).map Admission.ticket).Nodup
  order : ∀ conn, (((s.line pc).filter fun item => item.conn == conn).map Admission.ticket).Pairwise (· < ·)
  own : ∀ conn items fault, JournalEvent.call conn items fault ∈ s.events → ∀ item ∈ items, item.conn = conn
  journals : s.journals = (sequential journals₀ s.events).1
  replied : ∀ p ∈ s.replies, p ∈ (sequential journals₀ s.events).2
  replying : ∀ rest, pc = .replying rest → ∀ r ∈ rest, (r.1.ticket, r.2) ∈ (sequential journals₀ s.events).2

def Inv (journals₀ : Nat → Journal) (s : AdmissionState) : Prop := ∃ pc, s.Role pc ∧ Queue journals₀ s pc

variable {journals₀ : Nat → Journal} {s : AdmissionState} {pc : LeaderPc}

theorem inv_start (journals₀ : Nat → Journal) : Inv journals₀ (start journals₀) := by
  refine ⟨.gone, Or.inl ⟨rfl, rfl, fun _ => rfl⟩, ?_⟩
  refine ⟨fun _ => rfl, fun _ h => ?_, List.Perm.nil, rfl, fun _ h => ?_, List.nodup_nil, fun _ => List.Pairwise.nil,
    fun _ _ _ h => ?_, rfl, fun _ h => ?_, fun _ h => ?_⟩
  all_goals cases h

/-- A leader that is at some place is the one that has the role. -/
theorem Role.eq_of_leaders (h : s.Role pc) {leader : Nat} (hleader : s.leaders leader ≠ .gone) :
    s.leaders leader = pc ∧ pc ≠ .gone ∧ s.leaderActive = true ∧ leader < s.spawned ∧
      ∀ j, j ≠ leader → s.leaders j = .gone := by
  rcases h with ⟨-, -, hgone⟩ | ⟨hpc, hactive, i, hi, hat, hothers⟩
  · exact absurd (hgone leader) hleader
  · have heq : leader = i := by
      by_contra hne
      exact hleader (hothers leader hne)
    subst heq
    exact ⟨hat, hpc, hactive, hi, hothers⟩

/-- The leader goes on and keeps the role. -/
theorem Role.goto (h : s.Role pc) {leader : Nat} (hleader : s.leaders leader ≠ .gone) {pc' : LeaderPc}
    (hpc' : pc' ≠ .gone) : (s.goto leader pc').Role pc' := by
  obtain ⟨-, -, hactive, hlt, hothers⟩ := h.eq_of_leaders hleader
  refine Or.inr ⟨hpc', hactive, leader, hlt, ?_, ?_⟩
  · simp [AdmissionState.goto]
  · intro j hj
    simpa [AdmissionState.goto, hj] using hothers j hj

/-- The leader gives up the role. -/
theorem Role.release (h : s.Role pc) {leader : Nat} (hleader : s.leaders leader ≠ .gone) (pending : List Admission)
    (dropped : List Nat) :
    Role { s.goto leader .gone with pending := pending, leaderActive := false, dropped := dropped } .gone := by
  obtain ⟨-, -, -, -, hothers⟩ := h.eq_of_leaders hleader
  refine Or.inl ⟨rfl, rfl, ?_⟩
  intro i
  by_cases hi : i = leader
  · simp [AdmissionState.goto, hi]
  · simpa [AdmissionState.goto, hi] using hothers i hi

/-! ### The steps -/

private theorem Queue.ticket_lt (h : Queue journals₀ s pc) {item : Admission} (hitem : item ∈ s.line pc) :
    item.ticket < s.admitted.length := by
  rw [← List.mem_range, ← h.numbered]
  exact List.mem_map_of_mem (h.known item hitem)

/-- What an item at the end of the line does to the account. -/
private theorem Queue.enqueue (h : Queue journals₀ s pc) (item : Admission) (hitem : item.ticket = s.admitted.length)
    {pc' : LeaderPc} (hgone : pc' ≠ .gone) (hhand : pc'.inHand = pc.inHand) (hleft : pc'.uncommitted = pc.uncommitted)
    (hbatch : ∀ items, pc' = .batch items → pc = .batch items)
    (hreplying : ∀ rest, pc' = .replying rest → pc = .replying rest) {s' : AdmissionState}
    (hpending : s'.pending = s.pending ++ [item]) (hadmitted : s'.admitted = s.admitted ++ [item])
    (hevents : s'.events = s.events) (hjournals : s'.journals = s.journals) (hreplies : s'.replies = s.replies)
    (hdropped : s'.dropped = s.dropped) : Queue journals₀ s' pc' := by
  have hline : s'.line pc' = s.line pc ++ [item] := by
    rw [line, line, hevents, hleft, hpending]
    simp
  have hlength : s'.admitted.length = s.admitted.length + 1 := by
    rw [hadmitted]
    simp
  refine ⟨fun hpc' => absurd hpc' hgone, fun items hitems => h.batch items (hbatch items hitems), ?_, ?_, ?_, ?_, ?_,
    ?_, ?_, ?_, ?_⟩
  · rw [hreplies, hdropped, hhand, hpending, hlength, List.range_succ]
    have htickets := h.tickets.append_right [s.admitted.length]
    simpa [hitem] using htickets
  · rw [hlength, List.range_succ, ← h.numbered, hadmitted, List.map_append, List.map_singleton, hitem]
  · intro other hother
    rw [hline] at hother
    rw [hadmitted]
    rcases List.mem_append.mp hother with hother | hother
    · exact List.mem_append_left _ (h.known other hother)
    · exact List.mem_append_right _ hother
  · rw [hline, List.map_append, List.nodup_append]
    refine ⟨h.unique, List.nodup_singleton _, ?_⟩
    intro a ha b hb
    obtain ⟨other, hother, rfl⟩ := List.mem_map.mp ha
    rw [List.map_singleton, List.mem_singleton] at hb
    have hlt := h.ticket_lt hother
    omega
  · intro c
    rw [hline, List.filter_append, List.map_append, List.pairwise_append]
    refine ⟨h.order c, ?_, ?_⟩
    · exact ((List.pairwise_singleton _ _).filter _).map _ fun _ _ hlt => hlt
    · intro a ha b hb
      obtain ⟨other, hother, rfl⟩ := List.mem_map.mp ha
      obtain ⟨new, hnew, rfl⟩ := List.mem_map.mp hb
      obtain rfl := List.mem_singleton.mp (List.mem_filter.mp hnew).1
      rw [hitem]
      exact h.ticket_lt (List.mem_filter.mp hother).1
  · rw [hevents]
    exact h.own
  · rw [hjournals, hevents]
    exact h.journals
  · rw [hreplies, hevents]
    exact h.replied
  · intro rest hrest
    rw [hevents]
    exact h.replying rest (hreplying rest hrest)

theorem admitPayload_inv (h : Inv journals₀ s) (conn : Nat) (payload : Text) :
    Inv journals₀ (s.admitPayload conn payload) := by
  obtain ⟨pc, hrole, hqueue⟩ := h
  unfold admitPayload
  dsimp only
  rcases hrole with ⟨rfl, hactive, hgone⟩ | ⟨hpc, hactive, i, hi, hat, hothers⟩
  · rw [if_neg (by rw [hactive]; exact Bool.false_ne_true)]
    refine ⟨.top, Or.inr ⟨nofun, rfl, s.spawned, Nat.lt_succ_self _, by simp [AdmissionState.goto], ?_⟩, ?_⟩
    · intro j hj
      simpa [AdmissionState.goto, hj] using hgone j
    · apply hqueue.enqueue ⟨s.admitted.length, conn, payload⟩ rfl
      case hgone => nofun
      case hbatch => nofun
      case hreplying => nofun
      all_goals rfl
  · rw [if_pos hactive]
    refine ⟨pc, Or.inr ⟨hpc, hactive, i, hi, hat, hothers⟩, ?_⟩
    apply hqueue.enqueue ⟨s.admitted.length, conn, payload⟩ rfl hpc
    case hbatch => exact fun _ hitems => hitems
    case hreplying => exact fun _ hrest => hrest
    all_goals rfl

/-- A step that changes neither the queue nor the journals nor the answers, and leaves the leader the same items. -/
private theorem Queue.move (h : Queue journals₀ s pc) (pc' : LeaderPc) (hidle : pc' ≠ .gone)
    (hhand : pc'.inHand = pc.inHand) (hleft : pc'.uncommitted = pc.uncommitted)
    (hbatch : ∀ items, pc' = .batch items → pc = .batch items)
    (hreplying : ∀ rest, pc' = .replying rest → pc = .replying rest) (leader : Nat) :
    Queue journals₀ (s.goto leader pc') pc' := by
  have hline : (s.goto leader pc').line pc' = s.line pc := by
    rw [line, line, hleft]
    rfl
  refine ⟨fun hpc' => absurd hpc' hidle, fun items hitems => h.batch items (hbatch items hitems), ?_, h.numbered, ?_,
    ?_, ?_, h.own, h.journals, h.replied, fun rest hrest => h.replying rest (hreplying rest hrest)⟩
  · rw [hhand]
    exact h.tickets
  · rw [hline]
    exact h.known
  · rw [hline]
    exact h.unique
  · rw [hline]
    exact h.order

/-- The leader takes a batch. -/
private theorem Queue.take (h : Queue journals₀ s .top) (leader : Nat) {item : Admission} {items : List Admission}
    (hpending : s.pending = item :: items) :
    Queue journals₀
      { s.goto leader (.batch (takeBatch item.conn 0 (item :: items)).1) with
        pending := (takeBatch item.conn 0 (item :: items)).2 }
      (.batch (takeBatch item.conn 0 (item :: items)).1) := by
  have hperm := takeBatch_perm item.conn 0 (item :: items)
  have hfirst : (((takeBatch item.conn 0 (item :: items)).1).head?.map Admission.conn).getD 0 = item.conn := by
    rw [takeBatch, if_pos ⟨by decide, rfl⟩]
    rfl
  have hline : s.line .top = calledItems s.events ++ (item :: items) := by
    rw [line, hpending]
    rfl
  have hlinePerm : (calledItems s.events ++ ((takeBatch item.conn 0 (item :: items)).1 ++
      (takeBatch item.conn 0 (item :: items)).2)).Perm (s.line .top) := by
    rw [hline]
    exact hperm.append_left _
  refine ⟨nofun, ?_, ?_, h.numbered, ?_, ?_, ?_, h.own, h.journals, h.replied, nofun⟩
  · intro batch hbatch other hother
    obtain rfl := LeaderPc.batch.inj hbatch
    rw [hfirst]
    exact takeBatch_conn item.conn 0 (item :: items) other hother
  · refine List.Perm.trans ?_ h.tickets
    rw [hpending]
    exact ((hperm.map Admission.ticket).append_left _).append_left _
  · intro other hother
    exact h.known other (hlinePerm.mem_iff.mp hother)
  · exact (hlinePerm.map Admission.ticket).nodup_iff.mpr h.unique
  · intro conn
    have horder := h.order conn
    rw [hline, List.filter_append, ← takeBatch_filter item.conn 0 (item :: items) conn, ← List.filter_append,
      ← List.filter_append] at horder
    exact horder

private theorem calledItems_append (events : List JournalEvent) (event : JournalEvent) :
    calledItems (events ++ [event]) = calledItems events ++ event.items := by
  simp [calledItems, List.flatMap_append]

/-- The leader commits its batch. -/
private theorem Queue.commit {items : List Admission} (h : Queue journals₀ s (.batch items)) (leader : Nat)
    (fault : Bool) :
    Queue journals₀ (s.commit leader items fault)
      (.replying (items.zip (batchResults (s.journals ((items.head?.map Admission.conn).getD 0)) items fault).2)) := by
  have hconn := h.batch items rfl
  unfold AdmissionState.commit
  dsimp only
  generalize (items.head?.map Admission.conn).getD 0 = conn at hconn ⊢
  have hseq : sequential journals₀ (s.events ++ [.call conn items fault]) =
      (fun c => if c = conn then (batchResults (s.journals conn) items fault).1 else s.journals c,
        (sequential journals₀ s.events).2 ++
          (items.zip (batchResults (s.journals conn) items fault).2).map fun r => (r.1.ticket, r.2)) := by
    rw [sequential_append, sequentialEvent]
    simp only [← h.journals, appendEach_eq]
  have hzip : ((items.zip (batchResults (s.journals conn) items fault).2).map Prod.fst).map Admission.ticket =
      items.map Admission.ticket := by
    have htickets := appendEach_tickets (s.journals conn) fault items
    rw [appendEach_eq, List.map_map] at htickets
    rw [← htickets, List.map_map]
    rfl
  have hline : line { s.goto leader (.replying (items.zip (batchResults (s.journals conn) items fault).2)) with
      journals := fun c => if c = conn then (batchResults (s.journals conn) items fault).1 else s.journals c
      events := s.events ++ [.call conn items fault] }
      (.replying (items.zip (batchResults (s.journals conn) items fault).2)) = s.line (.batch items) := by
    rw [line, line, calledItems_append, List.append_assoc]
    rfl
  refine ⟨nofun, nofun, ?_, h.numbered, ?_, ?_, ?_, ?_, ?_, ?_, ?_⟩
  · have htickets := h.tickets
    rw [List.map_append] at htickets ⊢
    rw [LeaderPc.inHand, hzip]
    exact htickets
  · rw [hline]
    exact h.known
  · rw [hline]
    exact h.unique
  · rw [hline]
    exact h.order
  · intro c items' fault' hmem
    rcases List.mem_append.mp hmem with hmem | hmem
    · exact h.own c items' fault' hmem
    · rw [List.mem_singleton] at hmem
      obtain ⟨rfl, rfl, rfl⟩ := JournalEvent.call.inj hmem
      exact hconn
  · rw [hseq]
  · intro p hp
    rw [hseq]
    exact List.mem_append_left _ (h.replied p hp)
  · intro rest hrest r hr
    obtain rfl := LeaderPc.replying.inj hrest
    rw [hseq]
    exact List.mem_append_right _ (List.mem_map_of_mem hr)

/-- The leader answers one producer. -/
private theorem Queue.answer {item : Admission} {reply : Reply} {rest : List (Admission × Reply)}
    (h : Queue journals₀ s (.replying ((item, reply) :: rest))) (leader : Nat) :
    Queue journals₀ { s.goto leader (.replying rest) with replies := s.replies ++ [(item.ticket, reply)] }
      (.replying rest) := by
  have hreplying := h.replying _ rfl
  refine ⟨nofun, nofun, ?_, h.numbered, h.known, h.unique, h.order, h.own, h.journals, ?_, ?_⟩
  · refine List.Perm.trans ?_ h.tickets
    simp only [List.map_append, LeaderPc.inHand, List.map_cons, List.map_nil, List.append_assoc, List.cons_append,
      List.nil_append]
    exact (List.perm_middle.symm).append_left _
  · intro p hp
    rcases List.mem_append.mp hp with hp | hp
    · exact h.replied p hp
    · rw [List.mem_singleton] at hp
      subst hp
      exact hreplying (item, reply) List.mem_cons_self
  · intro rest' hrest' r hr
    obtain rfl := LeaderPc.replying.inj hrest'
    exact hreplying r (List.mem_cons_of_mem _ hr)

/-- The items that the leader holds are dropped. -/
private theorem Queue.abort (h : Queue journals₀ s pc) (leader : Nat) :
    Queue journals₀
      { s.goto leader .unwinding with dropped := s.dropped ++ pc.inHand.map Admission.ticket } .unwinding := by
  have hsub : (s.line .unwinding).Sublist (s.line pc) :=
    (List.Sublist.refl _).append ((List.nil_sublist _).append (List.Sublist.refl _))
  refine ⟨nofun, nofun, ?_, h.numbered, ?_, ?_, ?_, h.own, h.journals, h.replied, nofun⟩
  · have htickets := h.tickets
    rw [List.map_append] at htickets
    rw [List.append_assoc]
    exact htickets
  · exact fun item hitem => h.known item (hsub.subset hitem)
  · exact h.unique.sublist (hsub.map _)
  · exact fun conn => (h.order conn).sublist ((hsub.filter _).map _)

/-- The queue is cleared, and the role is given up. -/
private theorem Queue.clear (h : Queue journals₀ s .unwinding) (leader : Nat) :
    Queue journals₀
      { s.goto leader .gone with
        pending := [], leaderActive := false, dropped := s.dropped ++ s.pending.map Admission.ticket } .gone := by
  have hsub : (calledItems s.events ++ ([] ++ [])).Sublist (s.line .unwinding) :=
    (List.Sublist.refl _).append (List.nil_sublist _)
  refine ⟨fun _ => rfl, nofun, ?_, h.numbered, ?_, ?_, ?_, h.own, h.journals, h.replied, nofun⟩
  · refine List.Perm.trans (List.Perm.of_eq ?_) h.tickets
    simp [LeaderPc.inHand, AdmissionState.goto]
  · exact fun item hitem => h.known item (hsub.subset hitem)
  · exact h.unique.sublist (hsub.map _)
  · exact fun conn => (h.order conn).sublist ((hsub.filter _).map _)

/-- The leader finds the queue empty and gives up the role. -/
private theorem Queue.finish (h : Queue journals₀ s .top) (leader : Nat) (hpending : s.pending = []) :
    Queue journals₀ { s.goto leader .gone with leaderActive := false } .gone :=
  ⟨fun _ => hpending, nofun, h.tickets, h.numbered, h.known, h.unique, h.order, h.own, h.journals, h.replied, nofun⟩

/-- What is still to be done, in steps of the leader. -/
def remaining (s : AdmissionState) : LeaderPc → Nat
  | .gone => 4 * s.pending.length
  | .top => 4 * s.pending.length + 1
  | .batch items => 4 * s.pending.length + (items.length + 3)
  | .replying rest => 4 * s.pending.length + (rest.length + 2)
  | .unwinding => 4 * s.pending.length + 1

/-- A step of the leader that has the role keeps the account and brings the leader nearer to its end. -/
theorem drainStep_queue (hrole : s.Role pc) (hqueue : Queue journals₀ s pc) {leader : Nat}
    (hleader : s.leaders leader ≠ .gone) (fault : Bool) :
    ∃ pc', (s.drainStep leader fault).Role pc' ∧ Queue journals₀ (s.drainStep leader fault) pc' ∧
      (s.drainStep leader fault).remaining pc' < s.remaining pc := by
  obtain ⟨hpc, -⟩ := hrole.eq_of_leaders hleader
  unfold drainStep
  rw [hpc]
  cases pc with
  | gone => exact absurd hpc hleader
  | top =>
    cases hpending : s.pending with
    | nil =>
      refine ⟨.gone, hrole.release hleader s.pending s.dropped, hqueue.finish leader hpending, ?_⟩
      simp [remaining, AdmissionState.goto, hpending]
    | cons item items =>
      refine ⟨_, hrole.goto hleader nofun, hqueue.take leader hpending, ?_⟩
      have hlength := (takeBatch_perm item.conn 0 (item :: items)).length_eq
      have hfirst : 0 < (takeBatch item.conn 0 (item :: items)).1.length := by
        rw [takeBatch, if_pos ⟨by decide, rfl⟩]
        exact Nat.succ_pos _
      rw [List.length_append] at hlength
      simp only [remaining, hpending]
      omega
  | batch items =>
    refine ⟨_, hrole.goto hleader nofun, hqueue.commit leader fault, ?_⟩
    simp only [remaining, AdmissionState.commit, AdmissionState.goto, List.length_zip]
    omega
  | replying rest =>
    cases rest with
    | nil =>
      refine ⟨.top, hrole.goto hleader nofun, hqueue.move .top nofun rfl rfl nofun nofun leader, ?_⟩
      simp only [remaining, AdmissionState.goto]
      omega
    | cons first rest =>
      refine ⟨_, hrole.goto hleader nofun, hqueue.answer leader, ?_⟩
      simp only [remaining, AdmissionState.goto, List.length_cons]
      omega
  | unwinding =>
    refine ⟨.gone, hrole.release hleader [] _, hqueue.clear leader, ?_⟩
    simp only [remaining, List.length_nil]
    omega

theorem drainStep_inv (h : Inv journals₀ s) (leader : Nat) (fault : Bool) :
    Inv journals₀ (s.drainStep leader fault) := by
  obtain ⟨pc, hrole, hqueue⟩ := h
  by_cases hgone : s.leaders leader = .gone
  · rw [drainStep, hgone]
    exact ⟨pc, hrole, hqueue⟩
  · obtain ⟨pc', hrole', hqueue', -⟩ := drainStep_queue hrole hqueue hgone fault
    exact ⟨pc', hrole', hqueue'⟩

theorem abortStep_inv (h : Inv journals₀ s) (leader : Nat) : Inv journals₀ (s.abortStep leader) := by
  obtain ⟨pc, hrole, hqueue⟩ := h
  by_cases hgone : s.leaders leader = .gone
  · rw [abortStep, hgone]
    exact ⟨pc, hrole, hqueue⟩
  · obtain ⟨hpc, -⟩ := hrole.eq_of_leaders hgone
    unfold abortStep
    rw [hpc]
    cases pc with
    | gone => exact absurd hpc hgone
    | unwinding => exact ⟨_, hrole, hqueue⟩
    | top => exact ⟨.unwinding, hrole.goto hgone nofun, hqueue.move .unwinding nofun rfl rfl nofun nofun leader⟩
    | batch items => exact ⟨.unwinding, hrole.goto hgone nofun, hqueue.abort leader⟩
    | replying rest =>
      refine ⟨.unwinding, hrole.goto hgone nofun, ?_⟩
      have habort := hqueue.abort leader
      rw [LeaderPc.inHand, List.map_map] at habort
      exact habort

theorem step_inv (h : Inv journals₀ s) (l : AdmissionLabel) : Inv journals₀ (s.step l).1 := by
  cases l with
  | admitPayload conn payload => exact admitPayload_inv h conn payload
  | drain leader fault => exact drainStep_inv h leader fault
  | abort leader => exact abortStep_inv h leader
  | other conn journal =>
    obtain ⟨pc, hrole, hqueue⟩ := h
    refine ⟨pc, hrole, ?_⟩
    have hseq : sequential journals₀ (s.events ++ [.other conn journal]) =
        (fun c => if c = conn then journal else s.journals c, (sequential journals₀ s.events).2) := by
      rw [sequential_append, sequentialEvent, ← hqueue.journals]
    have hline : ∀ journals, line { s with journals := journals, events := s.events ++ [.other conn journal] } pc =
        s.line pc := by
      intro journals
      rw [line, line, calledItems_append, JournalEvent.items, List.append_nil]
    refine ⟨hqueue.idle, hqueue.batch, hqueue.tickets, hqueue.numbered, ?_, ?_, ?_, ?_, ?_, ?_, ?_⟩
    · rw [step, hline]
      exact hqueue.known
    · rw [step, hline]
      exact hqueue.unique
    · rw [step, hline]
      exact hqueue.order
    · intro c items fault hmem
      rcases List.mem_append.mp hmem with hmem | hmem
      · exact hqueue.own c items fault hmem
      · rw [List.mem_singleton] at hmem
        cases hmem
    · rw [step, hseq]
    · rw [step, hseq]
      exact hqueue.replied
    · rw [step, hseq]
      exact hqueue.replying

/-! ### Whole runs -/

theorem drainStep_admitted (s : AdmissionState) (leader : Nat) (fault : Bool) :
    (s.drainStep leader fault).admitted = s.admitted := by
  unfold drainStep
  split
  · rfl
  · split <;> rfl
  all_goals rfl

/-- Left alone, the leader comes to the end of the queue and gives up the role. -/
theorem drains (hrole : s.Role pc) (hqueue : Queue journals₀ s pc) :
    ∃ more : List AdmissionLabel, (∀ l ∈ more, ∃ leader, l = .drain leader false) ∧
      (runState step s more).leaderActive = false ∧ (runState step s more).admitted = s.admitted := by
  induction hremaining : s.remaining pc using Nat.strongRecOn generalizing s pc with
  | ind n ih =>
    rcases hrole with ⟨-, hactive, -⟩ | ⟨hpc, hactive, leader, hlt, hat, hothers⟩
    · exact ⟨[], nofun, hactive, rfl⟩
    · have hrole : s.Role pc := Or.inr ⟨hpc, hactive, leader, hlt, hat, hothers⟩
      obtain ⟨pc', hrole', hqueue', hless⟩ := drainStep_queue hrole hqueue (hat ▸ hpc) false
      obtain ⟨more, hmore, hdone, hadmitted⟩ := ih _ (hremaining ▸ hless) hrole' hqueue' rfl
      refine ⟨.drain leader false :: more, ?_, hdone, hadmitted.trans (drainStep_admitted s leader false)⟩
      intro l hl
      rcases List.mem_cons.mp hl with rfl | hl
      · exact ⟨leader, rfl⟩
      · exact hmore l hl

/-- No leader unwinds in a run without an abort, so nobody is dropped. -/
theorem step_dropped {l : AdmissionLabel} (hl : ∀ leader, l ≠ .abort leader)
    (h : s.dropped = [] ∧ ∀ i, s.leaders i ≠ .unwinding) :
    (s.step l).1.dropped = [] ∧ ∀ i, (s.step l).1.leaders i ≠ .unwinding := by
  have hgoto : ∀ leader pc, pc ≠ .unwinding → ∀ i, (s.goto leader pc).leaders i ≠ .unwinding := by
    intro leader pc hpc i
    unfold AdmissionState.goto
    dsimp only
    split
    · exact hpc
    · exact h.2 i
  cases l with
  | admitPayload conn payload =>
    simp only [step, admitPayload]
    split
    · exact h
    · exact ⟨h.1, hgoto s.spawned .top nofun⟩
  | abort leader => exact absurd rfl (hl leader)
  | other conn journal => exact h
  | drain leader fault =>
    simp only [step, drainStep]
    split
    · exact h
    · split
      · exact ⟨h.1, hgoto leader .gone nofun⟩
      · exact ⟨h.1, hgoto leader _ nofun⟩
    · exact ⟨h.1, hgoto leader _ nofun⟩
    · exact ⟨h.1, hgoto leader .top nofun⟩
    · exact ⟨h.1, hgoto leader _ nofun⟩
    · rename_i hpc
      exact absurd hpc (h.2 leader)

/-- What holds in every state. -/
structure Admitted (journals₀ : Nat → Journal) (s : AdmissionState) : Prop where
  /-- Whenever something waits in the queue, a leader has the role. -/
  leader : s.pending ≠ [] → s.leaderActive = true ∧ ∃ i, s.leaders i ≠ .gone
  /-- Nobody is answered twice. -/
  once : (s.replies.map Prod.fst ++ s.dropped).Nodup
  /-- When there is no leader, everybody has been answered or dropped. -/
  answered : s.leaderActive = false →
    (s.replies.map Prod.fst ++ s.dropped).Perm (s.admitted.map Admission.ticket)
  /-- The payloads of the calls are those that were admitted, each in one call, and on its own connection. -/
  admitted : ∀ item ∈ calledItems s.events, item ∈ s.admitted
  called : ((calledItems s.events).map Admission.ticket).Nodup
  own : ∀ conn items fault, JournalEvent.call conn items fault ∈ s.events → ∀ item ∈ items, item.conn = conn
  /-- The payloads of a connection are committed in the order in which they were queued. -/
  order : ∀ conn, (((calledItems s.events).filter fun item => item.conn == conn).map Admission.ticket).Pairwise (· < ·)
  /-- A reply is for an item that is part of a call, and is the one that single appends give. -/
  replied : ∀ p ∈ s.replies, p.1 ∈ (calledItems s.events).map Admission.ticket ∧ p ∈ (sequential journals₀ s.events).2
  /-- The journals are those that single appends leave. -/
  journals : s.journals = (sequential journals₀ s.events).1

theorem Inv.admitted (h : Inv journals₀ s) : Admitted journals₀ s := by
  obtain ⟨pc, hrole, hqueue⟩ := h
  have hnodup : (s.replies.map Prod.fst ++ s.dropped).Nodup := by
    have hall := hqueue.tickets.nodup_iff.mpr List.nodup_range
    rw [← List.append_assoc] at hall
    exact hall.sublist (List.sublist_append_left _ _)
  have hsub : (calledItems s.events).Sublist (s.line pc) := List.sublist_append_left _ _
  refine ⟨?_, hnodup, ?_, fun item hitem => hqueue.known item (hsub.subset hitem), hqueue.unique.sublist (hsub.map _),
    hqueue.own, fun conn => (hqueue.order conn).sublist ((hsub.filter _).map _), ?_, hqueue.journals⟩
  · intro hpending
    rcases hrole with ⟨hpc, -, -⟩ | ⟨hpc, hactive, i, -, hat, -⟩
    · exact absurd (hqueue.idle hpc) hpending
    · exact ⟨hactive, i, hat ▸ hpc⟩
  · intro hactive
    rcases hrole with ⟨rfl, -, -⟩ | ⟨-, htrue, -⟩
    · have htickets := hqueue.tickets
      rw [hqueue.idle rfl, ← hqueue.numbered] at htickets
      simpa [LeaderPc.inHand] using htickets
    · rw [hactive] at htrue
      cases htrue
  · intro p hp
    have hmem := hqueue.replied p hp
    refine ⟨?_, hmem⟩
    rw [← sequential_tickets journals₀]
    exact List.mem_map_of_mem hmem

/-- Only `admit` adds to the items that were admitted. -/
theorem step_admitted (s : AdmissionState) (l : AdmissionLabel) :
    (s.step l).1.admitted.map (fun item => (item.conn, item.payload)) =
      s.admitted.map (fun item => (item.conn, item.payload)) ++ l.admission.toList := by
  cases l with
  | admitPayload conn payload =>
    have hadmitted : (s.admitPayload conn payload).admitted = s.admitted ++ [⟨s.admitted.length, conn, payload⟩] := by
      unfold admitPayload
      dsimp only
      split <;> rfl
    rw [step, hadmitted, List.map_append]
    rfl
  | drain leader fault =>
    have hadmitted : (s.drainStep leader fault).admitted = s.admitted := by
      unfold drainStep
      split
      · rfl
      · split <;> rfl
      all_goals rfl
    rw [step, hadmitted]
    exact (List.append_nil _).symm
  | abort leader =>
    have hadmitted : (s.abortStep leader).admitted = s.admitted := by
      unfold abortStep
      split <;> rfl
    rw [step, hadmitted]
    exact (List.append_nil _).symm
  | other conn journal => exact (List.append_nil _).symm

/-- The items that were admitted are those of the run. -/
theorem runState_admitted (s : AdmissionState) (labels : List AdmissionLabel) :
    (runState step s labels).admitted.map (fun item => (item.conn, item.payload)) =
      s.admitted.map (fun item => (item.conn, item.payload)) ++ labels.filterMap AdmissionLabel.admission := by
  induction labels generalizing s with
  | nil => exact (List.append_nil _).symm
  | cons l labels ih =>
    rw [runState, ih, step_admitted, List.append_assoc]
    congr 1
    cases hadmission : l.admission with
    | none => rw [List.filterMap_cons_none hadmission, Option.toList_none, List.nil_append]
    | some item => rw [List.filterMap_cons_some hadmission, Option.toList_some, List.singleton_append]

end AdmissionState

open AdmissionState in
/-- In every run of admissions, of steps of leaders and of aborts: nobody is lost, and the batches answer as single
appends do; the items are those that the run admits.  Without an abort nobody is dropped, and from every state the leader
comes to an end, in which everybody has been answered or dropped. -/
theorem admission_run (journals₀ : Nat → Journal) (labels : List AdmissionLabel) :
    Admitted journals₀ (runState step (start journals₀) labels) ∧
      ((runState step (start journals₀) labels).admitted.map fun item => (item.conn, item.payload)) =
        labels.filterMap AdmissionLabel.admission ∧
      ((∀ leader, .abort leader ∉ labels) → (runState step (start journals₀) labels).dropped = []) ∧
      ∃ more : List AdmissionLabel, (∀ l ∈ more, ∃ leader, l = .drain leader false) ∧
        (runState step (start journals₀) (labels ++ more)).leaderActive = false ∧
        (runState step (start journals₀) (labels ++ more)).admitted =
          (runState step (start journals₀) labels).admitted := by
  have hinv : Inv journals₀ (runState step (start journals₀) labels) :=
    runState_invariant labels (fun s l h => step_inv h l) (inv_start journals₀)
  refine ⟨hinv.admitted, runState_admitted _ labels, ?_, ?_⟩
  · intro hlabels
    have hall : ∀ (labels : List AdmissionLabel) (s : AdmissionState), (∀ leader, .abort leader ∉ labels) →
        (s.dropped = [] ∧ ∀ i, s.leaders i ≠ .unwinding) → (runState step s labels).dropped = [] := by
      intro labels
      induction labels with
      | nil => exact fun s _ h => h.1
      | cons l labels ih =>
        intro s hlabels h
        refine ih _ (fun leader hmem => hlabels leader (List.mem_cons_of_mem _ hmem)) (step_dropped ?_ h)
        rintro leader rfl
        exact hlabels leader List.mem_cons_self
    exact hall labels _ hlabels ⟨rfl, fun _ => nofun⟩
  · obtain ⟨pc, hrole, hqueue⟩ := hinv
    obtain ⟨more, hmore, hdone, hadmitted⟩ := drains hrole hqueue
    refine ⟨more, hmore, ?_, ?_⟩
    · rw [runState_append]
      exact hdone
    · rw [runState_append]
      exact hadmitted

end OpenProxy.Usage
