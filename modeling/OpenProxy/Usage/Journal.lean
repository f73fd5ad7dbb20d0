import OpenProxy.Text.Basic

/-!
# The usage journal

The table `usage_journal` keeps the jobs that are still to be done, in the order of their ids.  An id is one more than
the largest one that was ever given (`AUTOINCREMENT`).  Appending several payloads in one transaction does what appending
them one after the other does (`appendBatch_eq`).
-/

namespace OpenProxy.Usage

def maxPendingJobs : Nat := 100000

/-- A row of `usage_journal`. -/
structure Entry where
  id : Nat
  payload : Text
  deriving DecidableEq

/-- The table, with the largest id that was given. -/
structure Journal where
  rows : List Entry
  sequence : Nat
  deriving DecidableEq

/-- `CoreError::JournalCapacityExhausted`, or an error of the database. -/
inductive JournalError
  | capacityExhausted
  | database
  deriving DecidableEq

namespace Journal

/-- `depth`. -/
def depth (journal : Journal) : Nat := journal.rows.length

/-- The row that is inserted next. -/
def nextEntry (journal : Journal) (payload : Text) : Entry := ⟨journal.sequence + 1, payload⟩

/-- `INSERT INTO usage_journal(payload)`. -/
def insert (journal : Journal) (payload : Text) : Journal :=
  ⟨journal.rows ++ [journal.nextEntry payload], journal.sequence + 1⟩

def append (journal : Journal) (payload : Text) : Journal × Except JournalError Nat :=
  if journal.depth ≥ maxPendingJobs then (journal, .error .capacityExhausted)
  else (journal.insert payload, .ok (journal.nextEntry payload).id)

/-- The loop of `append_batch` from the payload with the given index on. -/
def appendFrom (free : Nat) : Nat → Journal → List Text → Journal × List (Except JournalError Nat)
  | _, journal, [] => (journal, [])
  | index, journal, payload :: payloads =>
    if index ≥ free then
      let rest := appendFrom free (index + 1) journal payloads
      (rest.1, .error .capacityExhausted :: rest.2)
    else
      let rest := appendFrom free (index + 1) (journal.insert payload) payloads
      (rest.1, .ok (journal.nextEntry payload).id :: rest.2)

def appendBatch (journal : Journal) (payloads : List Text) : Journal × List (Except JournalError Nat) :=
  appendFrom (maxPendingJobs - journal.depth) 0 journal payloads

/-- `SELECT .. ORDER BY id LIMIT ..`; the rows are kept in the order of their ids. -/
def pending (journal : Journal) (limit : Nat) : List Entry := journal.rows.take limit

/-- `DELETE FROM usage_journal WHERE id = ..`. -/
def acknowledge (journal : Journal) (id : Nat) : Journal :=
  { journal with rows := journal.rows.filter fun entry => entry.id != id }

def contains (journal : Journal) (id : Nat) : Bool := journal.rows.any fun entry => entry.id == id

/-! ### One transaction for several payloads -/

/-- Appending the payloads one after the other. -/
def appendAll (journal : Journal) : List Text → Journal × List (Except JournalError Nat)
  | [] => (journal, [])
  | payload :: payloads =>
    let first := journal.append payload
    let rest := first.1.appendAll payloads
    (rest.1, first.2 :: rest.2)

theorem depth_insert (journal : Journal) (payload : Text) : (journal.insert payload).depth = journal.depth + 1 := by
  simp [depth, insert]

private theorem appendFrom_eq (journal : Journal) (payloads : List Text) {free index : Nat}
    (h : free - index = maxPendingJobs - journal.depth) :
    appendFrom free index journal payloads = journal.appendAll payloads := by
  induction payloads generalizing index journal with
  | nil => rfl
  | cons payload payloads ih =>
    unfold appendFrom appendAll append
    by_cases hfull : index ≥ free
    · have hdepth : journal.depth ≥ maxPendingJobs := by omega
      have hnext : free - (index + 1) = maxPendingJobs - journal.depth := by omega
      simp only [if_pos hfull, if_pos hdepth, ih journal hnext]
    · have hdepth : ¬ journal.depth ≥ maxPendingJobs := by omega
      have hnext : free - (index + 1) = maxPendingJobs - (journal.insert payload).depth := by
        rw [depth_insert]
        omega
      simp only [if_neg hfull, if_neg hdepth, ih _ hnext]

/-- A batch has the effect and the results of single appends. -/
theorem appendBatch_eq (journal : Journal) (payloads : List Text) :
    journal.appendBatch payloads = journal.appendAll payloads :=
  appendFrom_eq journal payloads rfl

end Journal

end OpenProxy.Usage
