import OpenProxy.Data.Encoding

/-!
# Framing of an event stream

`SseParser` keeps the bytes of a stream that have not been taken yet, and how far it has looked for the end of a line.
Lines and whole frames may be taken in any order between pushes.  In every state that a run of such calls leads to, the
part that has been looked at holds no newline, and what was taken, followed by what is left, is what was pushed
(`framing_lossless`).
-/

namespace OpenProxy.Streaming

/-- The errors of `CoreError` that the framing raises. -/
inductive CoreError
  | upstreamConnection (message : Text)
  deriving DecidableEq

def newlineByte : UInt8 := 10

def carriageReturnByte : UInt8 := 13

/-- `usize::MAX`, where `saturating_add` stops. -/
def maxLength : Nat := 2 ^ 64 - 1

/-- `SseParser`. -/
structure SseParser where
  buffer : Bytes
  maxLineBytes : Nat
  scanned : Nat

namespace SseParser

def new (maxLineBytes : Nat) : SseParser := ⟨[], maxLineBytes, 0⟩

def exceeded (maxLineBytes : Nat) : CoreError :=
  .upstreamConnection ("SSE line buffer exceeded ".toList ++ Nat.toDigits 10 maxLineBytes ++
    " bytes (memory-DoS guard)".toList)

def pushBytes (p : SseParser) (chunk : Bytes) : SseParser × Except CoreError Unit :=
  let len := min (p.buffer.length + chunk.length) maxLength
  if len > p.maxLineBytes then (p, .error (exceeded p.maxLineBytes))
  else if p.buffer.isEmpty then ({ p with buffer := chunk }, .ok ())
  else if !chunk.isEmpty then ({ p with buffer := p.buffer ++ chunk }, .ok ())
  else (p, .ok ())

/-- `push`, which copies the bytes of the chunk first. -/
def push (p : SseParser) (chunk : Bytes) : SseParser × Except CoreError Unit := p.pushBytes chunk

/-- The search for a newline goes on where the last one has stopped. -/
def newline (p : SseParser) : SseParser × Option Nat :=
  if p.scanned ≤ p.buffer.length then
    match memchr newlineByte (p.buffer.drop p.scanned) with
    | some relative => ({ p with scanned := 0 }, some (p.scanned + relative))
    | none => ({ p with scanned := p.buffer.length }, none)
  else (p, none)

def nextLine (p : SseParser) : SseParser × Option Bytes :=
  match p.newline with
  | (p, none) => (p, none)
  | (p, some pos) => ({ p with buffer := (p.buffer.drop pos).drop 1 }, some (p.buffer.take pos))

def nextOpenaiFrame (p : SseParser) : SseParser × Option Bytes :=
  match p.newline with
  | (p, none) => (p, none)
  | (p, some pos) =>
    let lineEnd := pos + 1
    let tail := p.buffer.drop lineEnd
    let delimiter :=
      if [newlineByte].isPrefixOf tail then 1
      else if [carriageReturnByte, newlineByte].isPrefixOf tail then 2
      else 0
    ({ p with buffer := p.buffer.drop (lineEnd + delimiter) }, some (p.buffer.take (lineEnd + delimiter)))

def isEmpty (p : SseParser) : Bool := p.buffer.isEmpty

def remainingBytes (p : SseParser) : Bytes := p.buffer

/-! ### Runs -/

/-- A call on the parser. -/
inductive Call
  | push (chunk : Bytes)
  | pushBytes (chunk : Bytes)
  | nextLine
  | nextOpenaiFrame

/-- What a call returns. -/
inductive Returned
  | pushed (result : Except CoreError Unit)
  | line (line : Option Bytes)
  | frame (frame : Option Bytes)

def step (p : SseParser) : Call → SseParser × Returned
  | .push chunk => let (p, result) := p.push chunk; (p, .pushed result)
  | .pushBytes chunk => let (p, result) := p.pushBytes chunk; (p, .pushed result)
  | .nextLine => let (p, line) := p.nextLine; (p, .line line)
  | .nextOpenaiFrame => let (p, frame) := p.nextOpenaiFrame; (p, .frame frame)

/-- The bytes that a call brings in: those of a chunk that was accepted. -/
def broughtIn : Call × Returned → Bytes
  | (.push chunk, .pushed (.ok _)) => chunk
  | (.pushBytes chunk, .pushed (.ok _)) => chunk
  | _ => []

/-- The bytes that a call takes out: those of a frame, and those of a line with its newline. -/
def takenOut : Call × Returned → Bytes
  | (_, .line (some line)) => line ++ [newlineByte]
  | (_, .frame (some frame)) => frame
  | _ => []

/-- The calls of a run from a fresh parser, each with what it has returned. -/
def history (maxLineBytes : Nat) (calls : List Call) : List (Call × Returned) :=
  calls.zip (outputs step (new maxLineBytes) calls)

/-! ### The scan offset -/

/-- The offset is inside of the buffer, and no newline stands before it. -/
structure Scanned (p : SseParser) : Prop where
  le : p.scanned ≤ p.buffer.length
  clear : newlineByte ∉ p.buffer.take p.scanned

theorem scanned_of_zero {p : SseParser} (h : p.scanned = 0) : p.Scanned := by
  constructor
  · omega
  · simp [h]

/-- A newline behind the offset is the first one of the buffer. -/
private theorem Scanned.memchr_drop {p : SseParser} (h : p.Scanned) :
    (memchr newlineByte (p.buffer.drop p.scanned)).map (p.scanned + ·) = memchr newlineByte p.buffer := by
  have hnone := h.clear
  have hsplit : p.buffer = p.buffer.take p.scanned ++ p.buffer.drop p.scanned := (List.take_append_drop _ _).symm
  have hlen : (p.buffer.take p.scanned).length = p.scanned := by
    rw [List.length_take]
    have := h.le
    omega
  have hfirst : (p.buffer.take p.scanned).findIdx? (· == newlineByte) = none := by
    rw [← memchr_eq_none] at hnone
    exact hnone
  conv_rhs => rw [hsplit]
  unfold memchr
  rw [List.findIdx?_append, hfirst, hlen, Option.none_or]
  congr 1
  funext n
  exact Nat.add_comm _ _

/-- What the search finds, and where it leaves the offset. -/
theorem Scanned.newline_spec {p : SseParser} (h : p.Scanned) :
    p.newline.2 = memchr newlineByte p.buffer ∧
      p.newline.1 = { p with scanned := if newlineByte ∈ p.buffer then 0 else p.buffer.length } := by
  rw [← h.memchr_drop]
  have hiff : memchr newlineByte (p.buffer.drop p.scanned) = none ↔ newlineByte ∉ p.buffer := by
    rw [← memchr_eq_none, ← h.memchr_drop, Option.map_eq_none_iff]
  unfold newline
  rw [if_pos h.le]
  cases hfind : memchr newlineByte (p.buffer.drop p.scanned) with
  | none => simp [hiff.mp hfind]
  | some relative =>
    have hmem : newlineByte ∈ p.buffer := by
      by_contra hno
      rw [hiff.mpr hno] at hfind
      exact absurd hfind (by simp)
    simp [hmem]

/-! ### The calls -/

/-- A push leaves the parser as it is, or appends the chunk to the buffer. -/
theorem pushBytes_cases (p : SseParser) (chunk : Bytes) :
    p.pushBytes chunk = (p, .error (exceeded p.maxLineBytes)) ∨
      p.pushBytes chunk = ({ p with buffer := p.buffer ++ chunk }, .ok ()) := by
  unfold pushBytes
  dsimp only
  split
  · exact Or.inl rfl
  · split
    · rename_i hempty
      have hnil : p.buffer = [] := List.isEmpty_iff.mp hempty
      right
      simp [hnil]
    · split
      · exact Or.inr rfl
      · rename_i hchunk
        have hnil : chunk = [] := by simpa using hchunk
        right
        simp [hnil]

/-- A push is accepted exactly if the buffer does not outgrow its limit. -/
theorem pushBytes_ok_iff (p : SseParser) (chunk : Bytes) :
    (p.pushBytes chunk).2 = .ok () ↔ min (p.buffer.length + chunk.length) maxLength ≤ p.maxLineBytes := by
  unfold pushBytes
  dsimp only
  split
  · rename_i hexceeded
    exact iff_of_false (by simp) (by omega)
  · rename_i hfits
    refine iff_of_true ?_ (by omega)
    split
    · rfl
    · split <;> rfl

theorem Scanned.append {p : SseParser} (h : p.Scanned) (chunk : Bytes) :
    Scanned { p with buffer := p.buffer ++ chunk } := by
  have hle := h.le
  constructor
  · simp only [List.length_append]
    omega
  · dsimp only
    rw [List.take_append_of_le_length hle]
    exact h.clear

theorem Scanned.pushBytes {p : SseParser} (h : p.Scanned) (chunk : Bytes) : (p.pushBytes chunk).1.Scanned := by
  rcases pushBytes_cases p chunk with hcase | hcase <;> rw [hcase]
  · exact h
  · exact h.append chunk

/-- The offset behind a buffer without a newline. -/
private theorem scanned_length {p : SseParser} (h : newlineByte ∉ p.buffer) :
    Scanned { p with scanned := p.buffer.length } := by
  constructor
  · exact le_rfl
  · simpa using h

/-- A line is what stands before the first newline. -/
theorem Scanned.nextLine_spec {p : SseParser} (h : p.Scanned) :
    (newlineByte ∉ p.buffer ∧ p.nextLine = ({ p with scanned := p.buffer.length }, none)) ∨
      ∃ line rest, p.buffer = line ++ newlineByte :: rest ∧ newlineByte ∉ line ∧
        p.nextLine = ({ p with buffer := rest, scanned := 0 }, some line) := by
  obtain ⟨hfound, hstate⟩ := h.newline_spec
  by_cases hmem : newlineByte ∈ p.buffer
  · right
    obtain ⟨pos, hpos⟩ : ∃ pos, memchr newlineByte p.buffer = some pos := by
      rw [← Option.isSome_iff_exists, Option.isSome_iff_ne_none]
      intro hno
      exact memchr_eq_none.mp hno hmem
    obtain ⟨hsplit, -, hbefore⟩ := memchr_eq_some.mp hpos
    refine ⟨p.buffer.take pos, p.buffer.drop (pos + 1), hsplit, hbefore, ?_⟩
    have hnewline : p.newline = ({ p with scanned := 0 }, some pos) := by
      rw [Prod.ext_iff, hfound, hstate, hpos, if_pos hmem]
      exact ⟨rfl, rfl⟩
    unfold nextLine
    rw [hnewline]
    simp [List.drop_drop]
  · left
    have hnewline : p.newline = ({ p with scanned := p.buffer.length }, none) := by
      rw [Prod.ext_iff, hfound, hstate, memchr_eq_none.mpr hmem, if_neg hmem]
      exact ⟨rfl, rfl⟩
    unfold nextLine
    rw [hnewline]
    exact ⟨hmem, rfl⟩

/-- A frame is a line with its newline and, where it is there already, the empty line behind it. -/
theorem Scanned.nextOpenaiFrame_spec {p : SseParser} (h : p.Scanned) :
    (newlineByte ∉ p.buffer ∧ p.nextOpenaiFrame = ({ p with scanned := p.buffer.length }, none)) ∨
      newlineByte ∈ p.buffer ∧ ∃ frame rest, p.buffer = frame ++ rest ∧
        p.nextOpenaiFrame = ({ p with buffer := rest, scanned := 0 }, some frame) := by
  obtain ⟨hfound, hstate⟩ := h.newline_spec
  by_cases hmem : newlineByte ∈ p.buffer
  · right
    obtain ⟨pos, hpos⟩ : ∃ pos, memchr newlineByte p.buffer = some pos := by
      rw [← Option.isSome_iff_exists, Option.isSome_iff_ne_none]
      intro hno
      exact memchr_eq_none.mp hno hmem
    have hnewline : p.newline = ({ p with scanned := 0 }, some pos) := by
      rw [Prod.ext_iff, hfound, hstate, hpos, if_pos hmem]
      exact ⟨rfl, rfl⟩
    unfold nextOpenaiFrame
    rw [hnewline]
    exact ⟨hmem, _, _, (List.take_append_drop _ _).symm, rfl⟩
  · left
    have hnewline : p.newline = ({ p with scanned := p.buffer.length }, none) := by
      rw [Prod.ext_iff, hfound, hstate, memchr_eq_none.mpr hmem, if_neg hmem]
      exact ⟨rfl, rfl⟩
    unfold nextOpenaiFrame
    rw [hnewline]
    exact ⟨hmem, rfl⟩

/-- One call keeps the offset right, and what it takes out and leaves is what was there and what it brings in. -/
theorem Scanned.step {p : SseParser} (h : p.Scanned) (c : Call) :
    (p.step c).1.Scanned ∧
      p.buffer ++ broughtIn (c, (p.step c).2) = takenOut (c, (p.step c).2) ++ (p.step c).1.buffer := by
  have hpush : ∀ chunk : Bytes, (p.pushBytes chunk).1.Scanned ∧
      p.buffer ++ broughtIn (.pushBytes chunk, .pushed (p.pushBytes chunk).2) = (p.pushBytes chunk).1.buffer := by
    intro chunk
    refine ⟨h.pushBytes chunk, ?_⟩
    rcases pushBytes_cases p chunk with hcase | hcase <;> rw [hcase]
    · exact List.append_nil _
    · rfl
  cases c with
  | push chunk =>
    obtain ⟨hnext, hbytes⟩ := hpush chunk
    refine ⟨hnext, ?_⟩
    rcases hresult : (p.pushBytes chunk).2 with e | u <;> simpa [SseParser.step, push, broughtIn, takenOut, hresult] using hbytes
  | pushBytes chunk =>
    obtain ⟨hnext, hbytes⟩ := hpush chunk
    exact ⟨hnext, hbytes⟩
  | nextLine =>
    simp only [SseParser.step, broughtIn, List.append_nil]
    rcases h.nextLine_spec with ⟨hno, hline⟩ | ⟨line, rest, hbuffer, -, hline⟩ <;> rw [hline]
    · exact ⟨scanned_length hno, rfl⟩
    · exact ⟨scanned_of_zero rfl, by simp [takenOut, hbuffer]⟩
  | nextOpenaiFrame =>
    simp only [SseParser.step, broughtIn, List.append_nil]
    rcases h.nextOpenaiFrame_spec with ⟨hno, hframe⟩ | ⟨-, frame, rest, hbuffer, hframe⟩ <;> rw [hframe]
    · exact ⟨scanned_length hno, rfl⟩
    · exact ⟨scanned_of_zero rfl, by simp [takenOut, hbuffer]⟩

/-- So does a run. -/
theorem Scanned.run {p : SseParser} (h : p.Scanned) (calls : List Call) :
    (runState SseParser.step p calls).Scanned ∧
      p.buffer ++ (calls.zip (outputs SseParser.step p calls)).flatMap broughtIn =
        (calls.zip (outputs SseParser.step p calls)).flatMap takenOut ++ (runState SseParser.step p calls).buffer := by
  induction calls generalizing p with
  | nil => exact ⟨h, by simp [outputs, runState]⟩
  | cons c calls ih =>
    obtain ⟨hnext, hstep⟩ := h.step c
    obtain ⟨hlast, hrest⟩ := ih hnext
    refine ⟨hlast, ?_⟩
    simp only [outputs, runState, List.zip_cons_cons, List.flatMap_cons]
    rw [← List.append_assoc, hstep, List.append_assoc, hrest, ← List.append_assoc]

theorem newline_maxLineBytes (p : SseParser) : p.newline.1.maxLineBytes = p.maxLineBytes := by
  unfold newline
  split
  · split <;> rfl
  · rfl

/-- No call changes the limit. -/
theorem step_maxLineBytes (p : SseParser) (c : Call) : (p.step c).1.maxLineBytes = p.maxLineBytes := by
  have hpush : ∀ chunk, (p.pushBytes chunk).1.maxLineBytes = p.maxLineBytes := by
    intro chunk
    rcases pushBytes_cases p chunk with hcase | hcase <;> rw [hcase]
  have hnewline := p.newline_maxLineBytes
  cases c with
  | push chunk => exact hpush chunk
  | pushBytes chunk => exact hpush chunk
  | nextLine =>
    simp only [SseParser.step, nextLine]
    rcases hfound : p.newline with ⟨p', found⟩
    rw [hfound] at hnewline
    cases found <;> exact hnewline
  | nextOpenaiFrame =>
    simp only [SseParser.step, nextOpenaiFrame]
    rcases hfound : p.newline with ⟨p', found⟩
    rw [hfound] at hnewline
    cases found <;> exact hnewline

theorem runState_maxLineBytes (p : SseParser) (calls : List Call) :
    (runState SseParser.step p calls).maxLineBytes = p.maxLineBytes := by
  induction calls generalizing p with
  | nil => rfl
  | cons c calls ih => exact (ih _).trans (p.step_maxLineBytes c)

/-- Framing loses nothing: in the state that any run of calls leads to, the part that has been looked at is a part of the
buffer and holds no newline, the frames that were returned and the remaining bytes are the bytes of the accepted chunks,
the next line and the next frame are there exactly when the buffer holds a newline, a line holds none, a push is accepted
exactly when the buffer does not outgrow its limit, and a push that is rejected changes nothing. -/
theorem framing_lossless (maxLineBytes : Nat) (calls : List Call) :
    let p := runState step (new maxLineBytes) calls
    p.scanned ≤ p.buffer.length ∧ newlineByte ∉ p.buffer.take p.scanned ∧
      (history maxLineBytes calls).flatMap broughtIn = (history maxLineBytes calls).flatMap takenOut ++ p.remainingBytes ∧
      (p.nextLine.2 = none ↔ newlineByte ∉ p.buffer) ∧ (p.nextOpenaiFrame.2 = none ↔ newlineByte ∉ p.buffer) ∧
      (∀ line, p.nextLine.2 = some line → newlineByte ∉ line) ∧
      (∀ chunk : Bytes, let fits := min (p.buffer.length + chunk.length) maxLength ≤ maxLineBytes
        ((p.push chunk).2 = .ok () ↔ fits) ∧ ((p.pushBytes chunk).2 = .ok () ↔ fits)) ∧
      ∀ chunk e, ((p.push chunk).2 = .error e → (p.push chunk).1 = p) ∧
        ((p.pushBytes chunk).2 = .error e → (p.pushBytes chunk).1 = p) := by
  intro p
  obtain ⟨hscanned, hbytes⟩ := (scanned_of_zero (p := new maxLineBytes) rfl).run calls
  have hrejected : ∀ chunk e, (p.pushBytes chunk).2 = .error e → (p.pushBytes chunk).1 = p := by
    intro chunk e he
    rcases pushBytes_cases p chunk with hcase | hcase <;> rw [hcase] at he ⊢
    exact absurd he (by simp)
  have haccepted : ∀ chunk : Bytes,
      (p.pushBytes chunk).2 = .ok () ↔ min (p.buffer.length + chunk.length) maxLength ≤ maxLineBytes := by
    intro chunk
    rw [pushBytes_ok_iff, runState_maxLineBytes]
    rfl
  refine ⟨hscanned.le, hscanned.clear, ?_, ?_, ?_, ?_, fun chunk => ⟨haccepted chunk, haccepted chunk⟩,
    fun chunk e => ⟨hrejected chunk e, hrejected chunk e⟩⟩
  · exact hbytes
  · rcases hscanned.nextLine_spec with ⟨hno, hline⟩ | ⟨line, rest, hbuffer, -, hline⟩
    · simp [p, hline, hno]
    · simp [p, hline, hbuffer]
  · rcases hscanned.nextOpenaiFrame_spec with ⟨hno, hframe⟩ | ⟨hmem, frame, rest, -, hframe⟩
    · simp [p, hframe, hno]
    · simp [p, hframe, hmem]
  · intro line hline
    rcases hscanned.nextLine_spec with ⟨-, hnone⟩ | ⟨line', rest, -, hclear, hsome⟩
    · rw [hnone] at hline
      cases hline
    · rw [hsome] at hline
      cases hline
      exact hclear

end SseParser

end OpenProxy.Streaming
