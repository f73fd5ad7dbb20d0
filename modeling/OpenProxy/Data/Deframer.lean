import OpenProxy.Data.Encoding

/-!
# Deframers

A deframer takes frames from the front of a buffer to which chunks are appended.  If more bytes do not change what has been
read, then it does not matter in which chunks the bytes come (`run_eq`), and a sequence of encoded frames is read back
(`drain_flatMap`).
-/

namespace OpenProxy

/-- A reader that takes the next frame from the front of a buffer: a frame, an error, or nothing where too few bytes have
come, and what is left of the buffer. -/
structure Deframer (ε φ : Type) where
  next : Bytes → Except ε (Option φ) × Bytes
  shrinks : ∀ {buf rest frame}, next buf = (.ok (some frame), rest) → rest.length < buf.length
  stable : ∀ buf more, next buf = (.ok none, buf) ∨
    ∃ result rest, next buf = (result, rest) ∧ next (buf ++ more) = (result, rest ++ more) ∧ result ≠ .ok none
  empty : next [] = (.ok none, [])

namespace Deframer

variable {ε φ α : Type}

/-- Some frames, and then an error or the bytes that are left. -/
abbrev Drained (ε φ : Type) := List φ × Except ε Bytes

/-- What comes after the frames, unless there was an error. -/
def Drained.andThen (r : Drained ε φ) (k : Bytes → Drained ε φ) : Drained ε φ :=
  match r.2 with
  | .error e => (r.1, .error e)
  | .ok rest => (r.1 ++ (k rest).1, (k rest).2)

variable (d : Deframer ε φ)

/-- `next` until there is no frame any more. -/
def drain (buf : Bytes) : Drained ε φ :=
  match _h : d.next buf with
  | (.error e, _) => ([], .error e)
  | (.ok none, rest) => ([], .ok rest)
  | (.ok (some frame), rest) => (frame :: (drain rest).1, (drain rest).2)
termination_by buf.length
decreasing_by all_goals exact d.shrinks _h

/-- The chunks are pushed one after the other, and the buffer is drained after each of them. -/
def run (buf : Bytes) : List Bytes → Drained ε φ
  | [] => ([], .ok buf)
  | chunk :: chunks => Drained.andThen (d.drain (buf ++ chunk)) fun rest => run rest chunks

/-- The bytes end inside a frame. -/
inductive EndsInside : Bytes → Prop
  | part {buf : Bytes} (h : d.next buf = (.ok none, buf)) (hne : buf ≠ []) : EndsInside buf
  | frame {buf rest : Bytes} {frame : φ} (h : d.next buf = (.ok (some frame), rest)) (hrest : EndsInside rest) :
    EndsInside buf

section

variable {d} {buf rest : Bytes}

theorem drain_error {e : ε} (h : d.next buf = (.error e, rest)) : d.drain buf = ([], .error e) := by
  rw [drain]
  split <;> rename_i heq <;> rw [h] at heq <;> cases heq
  rfl

theorem drain_none (h : d.next buf = (.ok none, rest)) : d.drain buf = ([], .ok rest) := by
  rw [drain]
  split <;> rename_i heq <;> rw [h] at heq <;> cases heq
  rfl

theorem drain_some {frame : φ} (h : d.next buf = (.ok (some frame), rest)) :
    d.drain buf = (frame :: (d.drain rest).1, (d.drain rest).2) := by
  rw [drain]
  split <;> rename_i heq <;> rw [h] at heq <;> cases heq
  rfl

/-- Where there is no frame, nothing is taken. -/
theorem eq_of_next_none (h : d.next buf = (.ok none, rest)) : rest = buf := by
  rcases d.stable buf [] with hsame | ⟨result, rest', hresult, -, hne⟩
  · exact (Prod.mk.inj (h.symm.trans hsame)).2
  · exact absurd (Prod.mk.inj (h.symm.trans hresult)).1.symm hne

/-- What is left has no frame at its front. -/
theorem next_of_drain {frames : List φ} (h : d.drain buf = (frames, .ok rest)) : d.next rest = (.ok none, rest) := by
  fun_induction drain d buf generalizing frames with
  | case1 => cases (Prod.mk.inj h).2
  | case2 buf rest' hnone =>
    obtain rfl := Except.ok.inj (Prod.mk.inj h).2
    obtain rfl := eq_of_next_none hnone
    exact hnone
  | case3 buf frame rest' hsome ih => exact ih (Prod.ext rfl (Prod.mk.inj h).2)

/-- More bytes are drained after those that have come. -/
theorem drain_append (buf more : Bytes) :
    d.drain (buf ++ more) = Drained.andThen (d.drain buf) fun rest => d.drain (rest ++ more) := by
  fun_induction drain d buf with
  | case1 buf e rest herror =>
    rcases d.stable buf more with hnone | ⟨result, rest', hresult, hmore, -⟩
    · rw [herror] at hnone
      cases (Prod.mk.inj hnone).1
    · rw [herror] at hresult
      rw [← (Prod.mk.inj hresult).1] at hmore
      exact drain_error hmore
  | case2 buf rest hnone =>
    rw [eq_of_next_none hnone]
    rfl
  | case3 buf frame rest hsome ih =>
    rcases d.stable buf more with hnone | ⟨result, rest', hresult, hmore, -⟩
    · rw [hsome] at hnone
      cases (Prod.mk.inj hnone).1
    · rw [hsome] at hresult
      obtain ⟨rfl, rfl⟩ := Prod.mk.inj hresult
      rw [drain_some hmore, ih]
      unfold Drained.andThen
      dsimp only
      cases (d.drain rest).2 with
      | error e => rfl
      | ok left => rfl

/-- It does not matter in which chunks the bytes come. -/
theorem run_eq (hbuf : d.next buf = (.ok none, buf)) (chunks : List Bytes) :
    d.run buf chunks = d.drain (buf ++ chunks.flatten) := by
  induction chunks generalizing buf with
  | nil =>
    rw [List.flatten_nil, List.append_nil, drain_none hbuf]
    rfl
  | cons chunk chunks ih =>
    rw [run, List.flatten_cons, ← List.append_assoc, drain_append (buf ++ chunk)]
    cases hdrained : d.drain (buf ++ chunk) with
    | mk frames left =>
      unfold Drained.andThen
      cases left with
      | error e => rfl
      | ok rest =>
        dsimp only
        rw [ih (next_of_drain hdrained)]

/-- Frames that are read as they were written are read back, one after the other. -/
theorem drain_flatMap {encode : α → Bytes} {event : α → φ} {l : List α}
    (h : ∀ a ∈ l, ∀ rest, d.next (encode a ++ rest) = (.ok (some (event a)), rest)) :
    d.drain (l.flatMap encode) = (l.map event, .ok []) := by
  induction l with
  | nil => exact drain_none d.empty
  | cons a l ih =>
    rw [List.flatMap_cons, drain_some (h a List.mem_cons_self _), ih fun a' ha' => h a' (List.mem_cons_of_mem _ ha')]
    rfl

/-- Bytes are left if and only if the bytes end inside a frame. -/
theorem endsInside_iff : d.EndsInside buf ↔ ∃ rest, rest ≠ [] ∧ (d.drain buf).2 = .ok rest := by
  constructor
  · intro h
    induction h with
    | part h hne => exact ⟨_, hne, by rw [drain_none h]⟩
    | frame h _ ih =>
      rw [drain_some h]
      exact ih
  · rintro ⟨rest, hne, h⟩
    fun_induction drain d buf with
    | case1 => cases h
    | case2 buf rest' hnone =>
      obtain rfl := Except.ok.inj h
      obtain rfl := eq_of_next_none hnone
      exact .part hnone hne
    | case3 buf frame rest' hsome ih => exact .frame hsome (ih h)

end

end Deframer

end OpenProxy
