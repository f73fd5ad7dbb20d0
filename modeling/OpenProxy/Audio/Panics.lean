import OpenProxy.Audio.Probe

/-!
# Panics of the probe

Of the readers in `Audio.Probe` two can panic.  `find_box` adds the size of a box to its offset with a check, but not the
eight bytes of the next header to the sum; and the estimate for an MPEG stream without a count of frames multiplies the
number of its bytes by 8000.  `probeDurationMs_noPanic_iff` says for which slices neither happens.
-/

namespace OpenProxy.Audio

open Checked

/-- A slice of bytes: Rust has none with more than `isize::MAX` bytes. -/
structure Slice where
  bytes : Bytes
  fits : bytes.length < 2 ^ 63

/-! ### Reading numbers -/

/-- The four bytes at an offset. -/
def fourAt (b : Bytes) (off : Nat) : Bytes := (b.take (off + 4)).drop off

/-- The big-endian number in them. -/
def number (b : Bytes) (off : Nat) : Nat := fromBeBytes (fourAt b off)

theorem number_lt (b : Bytes) (off : Nat) : number b off < 2 ^ 32 := by
  have hlt := fromBeBytes_lt (fourAt b off)
  have hlen : (fourAt b off).length ≤ 4 := by
    rw [fourAt, List.length_drop, List.length_take]
    omega
  have hpow : (256 : Nat) ^ (fourAt b off).length ≤ 256 ^ 4 := Nat.pow_le_pow_right (by omega) hlen
  unfold number
  omega

section

variable {b : Bytes} (hb : b.length < 2 ^ 63)

include hb in
/-- Four bytes are read at an offset if there are as many. -/
theorem readFour_eq (off : Nat) (f : Bytes → Nat) :
    (checkedAdd off 4 >>= fun stop => ofOption (getRange b off stop) >>= fun s => indices s 4 >>= fun s => value (f s)) =
      if off + 4 ≤ b.length then value (f (fourAt b off)) else missing := by
  split
  · rename_i hle
    rw [checkedAdd_of_le (by unfold max64; omega), value_bind, getRange_of_le (by omega) hle, ofOption_some, value_bind,
      indices_of_le, value_bind, List.take_of_length_le]
    · rfl
    · rw [List.length_drop, List.length_take]
      omega
    · rw [List.length_drop, List.length_take]
      omega
  · rename_i hlt
    unfold checkedAdd
    split
    · rw [value_bind, getRange_of_lt (by omega), ofOption_none, missing_bind]
    · rw [missing_bind]

include hb in
theorem beU32_eq (off : Nat) : beU32 b off = if off + 4 ≤ b.length then value (number b off) else missing :=
  readFour_eq hb off fromBeBytes

include hb in
theorem leU32_eq (off : Nat) :
    leU32 b off = if off + 4 ≤ b.length then value (fromBeBytes (fourAt b off).reverse) else missing :=
  readFour_eq hb off fun s => fromBeBytes s.reverse

end

theorem safe_beU32 (b : Bytes) (off : Nat) : Safe (beU32 b off) (· < 2 ^ 32) := by
  unfold beU32
  simp only [safe_bind, safe_checkedAdd, safe_ofOption, safe_value]
  intro _ s hs
  have hlen := length_of_getRange hs
  refine safe_indices (by omega) ?_
  have hlt := fromBeBytes_lt (s.take 4)
  rwa [List.length_take, show min 4 s.length = 4 by omega] at hlt

theorem safe_leU32 (b : Bytes) (off : Nat) : Safe (leU32 b off) (· < 2 ^ 32) := by
  unfold leU32
  simp only [safe_bind, safe_checkedAdd, safe_ofOption, safe_value]
  intro _ s hs
  have hlen := length_of_getRange hs
  refine safe_indices (by omega) ?_
  have hlt := fromBeBytes_lt (s.take 4).reverse
  rwa [List.length_reverse, List.length_take, show min 4 s.length = 4 by omega] at hlt

theorem noPanic_positive32 (ms : Nat) : NoPanic (positive32 ms) := safe_ofOption.mpr fun _ _ => trivial

theorem noPanic_msFromFrames (frames rate : Nat) : NoPanic (msFromFrames frames rate) := by
  unfold msFromFrames
  split
  · exact safe_missing
  · rename_i hrate
    exact safe_bind.mpr (safe_div64.mpr ⟨hrate, noPanic_positive32 _⟩)

/-! ### WAV, Ogg and FLAC -/

/-- A length that the walk keeps fits into 32 bits. -/
theorem dataLength_le {b : Bytes} {body size len : Nat} (h : dataLength b body size = some len) : len ≤ max32 := by
  unfold dataLength tryFrom32 at h
  dsimp only at h
  rw [Option.ite_none_right_eq_some] at h
  obtain ⟨hle, heq⟩ := h
  cases heq
  exact hle

theorem safe_wavChunks {b : Bytes} (hb : b.length < 2 ^ 63) {off : Nat} (hoff : off + 8 ≤ max64)
    (byteRate : Option Nat) {dataLen : Option Nat} (hlen : ∀ len, dataLen = some len → len ≤ max32) :
    Safe (wavChunks b off byteRate dataLen) fun r => ∀ len, r.2 = some len → len ≤ max32 := by
  induction hleft : b.length - off using Nat.strongRecOn generalizing off byteRate dataLen with
  | ind left ih =>
    rw [wavChunks]
    simp only [safe_bind, safe_add64]
    refine ⟨hoff, ?_⟩
    split
    · rename_i hle
      simp only [safe_bind, safe_add64, safe_ofOption]
      refine ⟨by omega, fun id _ => (safe_leU32 b _).mono fun size _ hsize => ?_⟩
      -- The next step of the walk, with what this chunk says.
      have hnext : ∀ rate len, (∀ n, len = some n → n ≤ max32) →
          Safe (if Option.isSome rate = true ∧ Option.isSome len = true then value (rate, len)
            else do
              let _ ← checkedAdd size 8
              let _ ← checkedAdd (size + 8) ((size + 8) % 2)
              let _ ← checkedAdd off (paddedSize size)
              wavChunks b (off + paddedSize size) rate len) fun r => ∀ len, r.2 = some len → len ≤ max32 := by
        intro rate len hn
        split
        · exact hn
        · simp only [safe_bind, safe_checkedAdd]
          intro _ _ _
          refine ih _ ?_ ?_ _ hn rfl
          · unfold paddedSize
            omega
          · unfold paddedSize max64
            omega
      have hdata : ∀ n, (if id = ascii "data" then dataLength b (off + 8) size else dataLen) = some n → n ≤ max32 := by
        intro n hn
        split at hn
        · exact dataLength_le hn
        · exact hlen n hn
      split
      · simp only [safe_bind, safe_add64]
        refine ⟨by unfold max64; omega, ?_⟩
        exact Safe.attempt ((safe_leU32 b _).mono fun rate _ _ => hnext _ _ hdata) (hnext _ _ hdata)
      · exact hnext _ _ hdata
    · exact hlen

theorem noPanic_wavDurationMs {b : Bytes} (hb : b.length < 2 ^ 63) : NoPanic (wavDurationMs b) := by
  refine safe_bind.mpr ((safe_wavChunks hb (by decide) none (by simp)).mono ?_)
  rintro ⟨byteRate, dataLen⟩ - hlen
  simp only [safe_bind, safe_ofOption]
  intro rate _ len hdata
  have hle := hlen len hdata
  split
  · exact safe_missing
  · rename_i hrate
    simp only [safe_bind, safe_mul64, safe_div64]
    exact ⟨by unfold max64 max32 at *; omega, hrate, noPanic_positive32 _⟩

theorem noPanic_oggSampleRate {b : Bytes} : NoPanic (oggSampleRate b) := by
  unfold oggSampleRate NoPanic
  simp only [safe_bind, safe_ofOption, safe_checkedAdd, safe_add64]
  intro segments _ _
  have hlt := segments.toNat_lt
  refine ⟨by unfold max64; omega, fun magic _ => ?_⟩
  split
  · trivial
  · split
    · simp only [safe_bind, safe_add64]
      exact ⟨by unfold max64; omega, (safe_leU32 b _).noPanic⟩
    · split
      · simp only [safe_bind, safe_add64]
        exact ⟨by unfold max64; omega, (safe_leU32 b _).noPanic⟩
      · trivial

theorem safe_lastPage {b : Bytes} {i : Nat} (hi : i + 4 ≤ max64) :
    Safe (lastPage b i) fun last => ∀ page, last = some page → page ≤ i := by
  induction i with
  | zero =>
    rw [lastPage]
    simp only [safe_bind, safe_add64, safe_ofOption]
    refine ⟨hi, fun s _ => ?_⟩
    split
    · simp
    · simp
  | succ i ih =>
    rw [lastPage]
    simp only [safe_bind, safe_add64, safe_ofOption]
    refine ⟨hi, fun s _ => ?_⟩
    split
    · simp
    · exact (ih (by omega)).mono fun last _ hlast page hpage => (hlast page hpage).trans (Nat.le_succ i)

theorem noPanic_oggDurationMs {b : Bytes} (hb : b.length < 2 ^ 63) : NoPanic (oggDurationMs b) := by
  refine safe_bind.mpr (noPanic_oggSampleRate.mono fun rate _ _ => ?_)
  refine safe_bind.mpr ((safe_lastPage (by unfold max64; omega)).mono fun last _ hlast => ?_)
  simp only [safe_bind, safe_ofOption, safe_add64]
  intro page hpage
  have hle := hlast page hpage
  refine ⟨by unfold max64; omega, by unfold max64; omega, fun granule hgranule => ?_⟩
  have hlen := length_of_getRange hgranule
  refine safe_indices (by omega) ?_
  split
  · exact safe_missing
  · exact noPanic_msFromFrames _ _

theorem noPanic_flacDurationMs (b : Bytes) : NoPanic (flacDurationMs b) := by
  unfold flacDurationMs NoPanic
  simp only [safe_bind, safe_ofOption]
  intro info hinfo
  have hlen := length_of_getRange hinfo
  exact safe_indices (by omega) (noPanic_msFromFrames _ _)

/-! ### MP4 -/

/-- What happens on the way through the boxes of a file, in the order of a depth-first search: a box is looked at, or it is
left for the offset behind it. -/
inductive BoxEvent
  | enter (off : Nat) (ty : Bytes)
  | leave (next : Nat)
  deriving DecidableEq

/-- The size of a box; a box of size 0 goes to the end, and one of size 1 has its size behind its type. -/
def boxSize (b : Bytes) (off stop : Nat) : Option Nat :=
  if number b off = 0 then some (stop - off)
  else if number b off = 1 then
    if off + 16 ≤ b.length then some (number b (off + 8) * 2 ^ 32 + number b (off + 12)) else none
  else some (number b off)

/-- The boxes from an offset on.  A box smaller than its header ends them, and so does one that goes beyond all offsets. -/
def boxEvents (b : Bytes) (off stop : Nat) : List BoxEvent :=
  if _h : off + 8 ≤ stop then
    .enter off (fourAt b (off + 4)) ::
      match boxSize b off stop with
      | none => []
      | some size =>
        if _hsize : 8 ≤ size ∧ off + size ≤ max64 then
          (if isContainer (fourAt b (off + 4)) then boxEvents b (off + 8) (min (off + size) stop) else []) ++
            .leave (off + size) :: boxEvents b (off + size) stop
        else []
  else []
termination_by stop - off

/-- The search for a box of a kind among the events. -/
def search (kind : Bytes) : List BoxEvent → Checked Nat
  | [] => missing
  | .enter off ty :: es => if ty = kind then value off else search kind es
  | .leave next :: es => do
    let _ ← add64 next 8
    search kind es

theorem search_append (kind : Bytes) (es es' : List BoxEvent) :
    search kind (es ++ es') = (attempt (search kind es) >>= fun found =>
      match found with
      | some off => value off
      | none => search kind es') := by
  induction es with
  | nil => rfl
  | cons e es ih =>
    cases e with
    | enter off ty =>
      rw [List.cons_append, search, search]
      split
      · rfl
      · exact ih
    | leave next =>
      rw [List.cons_append, search, search]
      unfold add64 fit
      split
      · exact ih
      · rfl

/-- The sizes are read as `boxSize` says. -/
theorem boxAdvance_eq {b : Bytes} (hb : b.length < 2 ^ 63) {off stop : Nat} (hoff : off + 8 ≤ stop)
    (hstop : stop ≤ b.length) : boxAdvance b off stop (number b off) = ofOption (boxSize b off stop) := by
  unfold boxAdvance boxSize
  split
  · exact if_pos (by omega)
  · split
    · rw [add64_of_le (by unfold max64; omega), value_bind, beU32_eq hb]
      by_cases hlong : off + 16 ≤ b.length
      · rw [if_pos (by omega), value_bind, add64_of_le (by unfold max64; omega), value_bind, beU32_eq hb,
          if_pos (by omega), value_bind, if_pos hlong]
        rfl
      · rw [if_neg hlong, ofOption_none]
        split
        · rw [value_bind, add64_of_le (by unfold max64; omega), value_bind, beU32_eq hb, if_neg (by omega), missing_bind]
        · rfl
    · rfl

/-- `find_box` is the search among the events. -/
theorem findBox_eq {b : Bytes} (hb : b.length < 2 ^ 63) (kind : Bytes) {off stop : Nat} (hoff : off + 8 ≤ max64)
    (hstop : stop ≤ b.length) : findBox b kind off stop = search kind (boxEvents b off stop) := by
  induction hleft : stop - off using Nat.strongRecOn generalizing off stop with
  | ind left ih =>
    rw [findBox, boxEvents, add64_of_le hoff, value_bind]
    split
    · rename_i hle
      have hty : getRange b (off + 4) (off + 8) = some (fourAt b (off + 4)) := getRange_of_le (by omega) (by omega)
      rw [beU32_eq hb, if_pos (by omega), value_bind, add64_of_le (by omega), value_bind, hty, ofOption_some, value_bind,
        boxAdvance_eq hb hle hstop, search]
      split
      · rfl
      · cases hsize : boxSize b off stop with
        | none => rfl
        | some size =>
          rw [ofOption_some, value_bind]
          dsimp only
          by_cases hsmall : size < 8
          · rw [dif_pos hsmall, dif_neg (by omega)]
            rfl
          · rw [dif_neg hsmall]
            by_cases hfits : off + size ≤ max64
            · -- Behind the box the search goes on, or the next offset is too great to add a header to.
              have hafter : findBox b kind (off + size) stop =
                  search kind (.leave (off + size) :: boxEvents b (off + size) stop) := by
                rw [search]
                by_cases hnext : off + size + 8 ≤ max64
                · rw [add64_of_le hnext, value_bind]
                  exact ih _ (by omega) hnext hstop rfl
                · rw [findBox]
                  unfold add64 fit
                  rw [if_neg hnext]
                  rfl
              have hinside : (if isContainer (fourAt b (off + 4)) then do
                    let innerEnd ← checkedAdd off size
                    attempt (findBox b kind (off + 8) (min innerEnd stop))
                  else value none) =
                  attempt (search kind
                    (if isContainer (fourAt b (off + 4)) then boxEvents b (off + 8) (min (off + size) stop) else [])) := by
                split
                · rw [checkedAdd_of_le hfits, value_bind, ih _ (by omega) (by unfold max64; omega) (by omega) rfl]
                · rfl
              rw [hinside, dif_pos ⟨by omega, hfits⟩, search_append, checkedAdd_of_le hfits, ← hafter]
              rfl
            · have hmissing : checkedAdd off size = missing := if_neg hfits
              rw [hmissing, dif_neg (by omega)]
              split
              · rfl
              · rfl
    · rfl

/-- The event is that a box of the kind is looked at. -/
def BoxEvent.isBox (kind : Bytes) : BoxEvent → Bool
  | enter _ ty => ty = kind
  | leave _ => false

theorem noPanic_search_iff {kind : Bytes} {es : List BoxEvent} :
    NoPanic (search kind es) ↔
      ∀ next, .leave next ∈ es.takeWhile (fun e => !e.isBox kind) → next + 8 ≤ max64 := by
  induction es with
  | nil => simp [search, NoPanic]
  | cons e es ih =>
    cases e with
    | enter off ty =>
      rw [search, List.takeWhile_cons]
      by_cases hty : ty = kind
      · simp [hty, BoxEvent.isBox, NoPanic]
      · simp [hty, BoxEvent.isBox, ih]
    | leave next =>
      rw [search, List.takeWhile_cons]
      unfold NoPanic at ih ⊢
      simp [BoxEvent.isBox, ih]

theorem mem_of_search {kind : Bytes} {es : List BoxEvent} {off : Nat} (h : search kind es = value off) :
    .enter off kind ∈ es := by
  induction es with
  | nil => cases h
  | cons e es ih =>
    cases e with
    | enter off' ty =>
      rw [search] at h
      split at h
      · rename_i hty
        cases h
        rw [hty]
        exact List.mem_cons_self
      · exact List.mem_cons_of_mem _ (ih h)
    | leave next =>
      rw [search] at h
      obtain ⟨_, -, h⟩ := bind_eq_value.mp h
      exact List.mem_cons_of_mem _ (ih h)

theorem le_of_mem_boxEvents {b : Bytes} {off stop off' : Nat} {ty : Bytes} (h : .enter off' ty ∈ boxEvents b off stop) :
    off' + 8 ≤ stop := by
  induction hleft : stop - off using Nat.strongRecOn generalizing off stop with
  | ind left ih =>
    rw [boxEvents] at h
    split at h
    · rename_i hle
      rcases List.mem_cons.mp h with heq | h
      · cases heq
        exact hle
      · split at h
        · cases h
        · split at h
          · rename_i size _ hsize
            rcases List.mem_append.mp h with h | h
            · split at h
              · have := ih _ (by omega) h rfl
                omega
              · cases h
            · rcases List.mem_cons.mp h with heq | h
              · cases heq
              · exact ih _ (by omega) h rfl
          · cases h
    · cases h

/-- Where `mp4_duration_ms` looks for boxes. -/
def searched (b : Bytes) : Nat := min b.length (2 ^ 20)

theorem findBox_searched {b : Bytes} (hb : b.length < 2 ^ 63) (kind : Bytes) :
    findBox b kind 0 (searched b) = search kind (boxEvents b 0 (searched b)) :=
  findBox_eq hb kind (by decide) (Nat.min_le_left _ _)

theorem noPanic_mp4DurationMs_iff {b : Bytes} (hb : b.length < 2 ^ 63) :
    NoPanic (mp4DurationMs b) ↔
      ∀ next, .leave next ∈ (boxEvents b 0 (searched b)).takeWhile (fun e => !e.isBox (ascii "mvhd")) →
        next + 8 ≤ max64 := by
  have hfind := findBox_searched hb (ascii "mvhd")
  rw [← noPanic_search_iff, ← hfind]
  unfold mp4DurationMs NoPanic
  rw [safe_bind]
  constructor
  · exact fun h => h.mono fun _ _ _ => trivial
  · intro h
    refine Safe.mono h fun mvhd hmvhd _ => ?_
    -- the box begins in the first mebibyte, so that the offsets of its fields do not overflow
    have hle := le_of_mem_boxEvents (mem_of_search (hfind.symm.trans hmvhd))
    have hsearched : searched b ≤ 2 ^ 20 := Nat.min_le_right _ _
    have hrest : ∀ n ≤ 100, mvhd + n ≤ max64 := by
      intro n hn
      unfold max64
      omega
    simp only [safe_bind, safe_add64, safe_ofOption]
    refine ⟨hrest 8 (by omega), fun version _ => ?_⟩
    split
    · simp only [safe_bind, safe_add64]
      refine ⟨hrest 28 (by omega), (safe_beU32 b _).mono fun timescale _ _ => ⟨hrest 32 (by omega), ?_⟩⟩
      refine (safe_beU32 b _).mono fun hi _ _ => ⟨hrest 36 (by omega), ?_⟩
      exact (safe_beU32 b _).mono fun lo _ _ => noPanic_msFromFrames _ _
    · simp only [safe_bind, safe_add64]
      refine ⟨hrest 20 (by omega), (safe_beU32 b _).mono fun timescale _ _ => ⟨hrest 24 (by omega), ?_⟩⟩
      exact (safe_beU32 b _).mono fun dur _ _ => noPanic_msFromFrames _ _

/-! ### MPEG -/

theorem frameSamples_le (layer version : Nat) : frameSamples layer version ≤ 1152 := by
  unfold frameSamples
  split_ifs <;> omega

theorem noPanic_versionRate (version baseRate : Nat) : NoPanic (versionRate version baseRate) := by
  unfold versionRate
  split_ifs <;> trivial

/-- The tables have an entry for every index of four bits. -/
theorem bitrateTables_bounds (layer : Nat) :
    ∀ table ∈ [(bitrateTables layer).1, (bitrateTables layer).2], table.length = 16 ∧ ∀ kbps ∈ table, kbps ≤ 448 := by
  unfold bitrateTables
  split_ifs <;> decide

theorem safe_parseMpegHeader (h : Nat) :
    Safe (parseMpegHeader h) fun header => header.samplesPerFrame ≤ 1152 ∧ header.bitrate ≠ 0 := by
  unfold parseMpegHeader
  split
  · exact safe_missing
  · dsimp only
    split
    · exact safe_missing
    · rename_i hfields
      have hrate : h >>> 10 &&& 3 ≤ 3 := Nat.and_le_right
      have hbitrate : h >>> 12 &&& 15 ≤ 15 := Nat.and_le_right
      simp only [not_or] at hfields
      simp only [safe_bind]
      refine safe_index (by simp only [List.length_cons, List.length_nil]; omega) fun baseRate _ => ?_
      refine (noPanic_versionRate _ _).mono fun rate _ _ => ?_
      have htable : (if h >>> 19 &&& 3 = 3 then (bitrateTables (h >>> 17 &&& 3)).1
          else (bitrateTables (h >>> 17 &&& 3)).2) ∈
          [(bitrateTables (h >>> 17 &&& 3)).1, (bitrateTables (h >>> 17 &&& 3)).2] := by
        split
        · exact List.mem_cons_self
        · exact List.mem_cons_of_mem _ List.mem_cons_self
      obtain ⟨hlen, hkbps⟩ := bitrateTables_bounds _ _ htable
      refine safe_index (by omega) fun kbps hmem => ?_
      have := hkbps kbps hmem
      split
      · exact safe_missing
      · simp only [safe_bind, safe_mul32, safe_value]
        exact ⟨by unfold max32; omega, frameSamples_le _ _, by omega⟩

/-- What the four bytes at an offset say of a frame. -/
theorem safe_frameAt {b : Bytes} {i : Nat} (hi : i + 4 ≤ b.length) (hb : b.length < 2 ^ 63) :
    ∃ found, frameAt b i = value found := by
  have hparse : ∃ parsed, attempt (parseMpegHeader (number b i)) = value parsed := by
    cases hparsed : parseMpegHeader (number b i) with
    | value header => exact ⟨some header, rfl⟩
    | missing => exact ⟨none, rfl⟩
    | panic p =>
      have := safe_parseMpegHeader (number b i)
      rw [hparsed] at this
      exact this.elim
  obtain ⟨parsed, hparsed⟩ := hparse
  unfold frameAt
  rw [index_of_lt (by omega), value_bind]
  split
  · exact ⟨_, rfl⟩
  · rw [add64_of_le (by unfold max64; omega), value_bind]
    split
    · exact ⟨_, rfl⟩
    · rw [beU32_eq hb, if_pos hi, attempt_value, value_bind]
      dsimp only
      rw [hparsed, value_bind]
      exact ⟨_, rfl⟩

/-- The first frame from an offset on. -/
structure FirstFrame (b : Bytes) (start frame : Nat) : Prop where
  le : start ≤ frame
  fits : frame + 4 ≤ b.length
  found : frameAt b frame = value true
  first : ∀ i, start ≤ i → i < frame → frameAt b i = value false

theorem firstFrame_of_true {b : Bytes} {start frame : Nat} (hfits : start + 4 ≤ b.length)
    (h : frameAt b start = value true) : FirstFrame b start frame ↔ frame = start := by
  constructor
  · intro hframe
    by_contra hne
    have hlt : start < frame := by
      have := hframe.le
      omega
    have hfalse := hframe.first start (le_refl _) hlt
    rw [h] at hfalse
    cases hfalse
  · rintro rfl
    exact ⟨le_refl _, hfits, h, fun i hi hi' => by omega⟩

theorem firstFrame_of_false {b : Bytes} {start frame : Nat} (h : frameAt b start = value false) :
    FirstFrame b start frame ↔ FirstFrame b (start + 1) frame := by
  constructor
  · intro hframe
    have hne : frame ≠ start := by
      rintro rfl
      have hfound := hframe.found
      rw [h] at hfound
      cases hfound
    have := hframe.le
    exact ⟨by omega, hframe.fits, hframe.found, fun i hi hi' => hframe.first i (by omega) hi'⟩
  · intro hframe
    have := hframe.le
    refine ⟨by omega, hframe.fits, hframe.found, fun i hi hi' => ?_⟩
    rcases Nat.eq_or_lt_of_le hi with rfl | hi
    · exact h
    · exact hframe.first i hi hi'

theorem findMpegFrame_spec {b : Bytes} (hb : b.length < 2 ^ 63) {start : Nat} (hstart : start + 4 ≤ max64) :
    NoPanic (findMpegFrame b start) ∧
      ∀ frame, findMpegFrame b start = value frame ↔ FirstFrame b start frame := by
  induction hleft : b.length - start using Nat.strongRecOn generalizing start with
  | ind left ih =>
    rw [findMpegFrame, add64_of_le hstart, value_bind]
    split
    · rename_i hle
      obtain ⟨found, hfound⟩ := safe_frameAt hle hb
      rw [hfound, value_bind]
      cases found with
      | true =>
        refine ⟨trivial, fun frame => ?_⟩
        rw [firstFrame_of_true hle hfound, if_pos rfl, value.injEq, eq_comm]
      | false =>
        rw [if_neg (by simp), add64_of_le (by unfold max64; omega), value_bind]
        have hnext : start + 1 + 4 ≤ max64 := by
          unfold max64
          omega
        obtain ⟨hsafe, hiff⟩ := ih _ (by omega) hnext rfl
        exact ⟨hsafe, fun frame => (hiff frame).trans (firstFrame_of_false hfound).symm⟩
    · rename_i hlt
      refine ⟨trivial, fun frame => ?_⟩
      constructor
      · intro h
        cases h
      · intro hframe
        have := hframe.le
        have := hframe.fits
        omega

/-- The end of the ID3v2 tag, 0 when there is none. -/
def tagEnd (b : Bytes) : Nat := if (ascii "ID3").isPrefixOf b then 10 + syncsafe (fourAt b 6) else 0

theorem syncsafe_lt (size : Bytes) : syncsafe size < 2 ^ (7 * size.length) := by
  induction size using List.reverseRecOn with
  | nil => simp [syncsafe]
  | append_singleton size x ih =>
    unfold syncsafe at ih ⊢
    rw [List.foldl_append, List.foldl_cons, List.foldl_nil, List.length_append, List.length_singleton, Nat.mul_add,
      Nat.pow_add]
    omega

theorem length_fourAt {b : Bytes} {off : Nat} (h : off + 4 ≤ b.length) : (fourAt b off).length = 4 := by
  rw [fourAt, List.length_drop, List.length_take]
  omega

theorem tagEnd_lt {b : Bytes} (h : 10 ≤ b.length) : tagEnd b < 2 ^ 29 := by
  unfold tagEnd
  split
  · have hlt := syncsafe_lt (fourAt b 6)
    rw [length_fourAt (by omega)] at hlt
    omega
  · omega

theorem audioStart_eq {b : Bytes} (h : 10 ≤ b.length) : audioStart b = value (tagEnd b) := by
  have hlt := tagEnd_lt h
  have hget : getRange b 6 10 = some (fourAt b 6) := getRange_of_le (by omega) h
  have hlen := length_fourAt (show 6 + 4 ≤ b.length by omega)
  unfold audioStart
  unfold tagEnd at hlt ⊢
  split
  · rename_i hid
    rw [if_pos hid] at hlt
    rw [hget, ofOption_some, value_bind, indices_of_le (by omega), value_bind, List.take_of_length_le (by omega)]
    exact checkedAdd_of_le (by unfold max64; omega)
  · rfl

/-- A tag of frames begins at the offset. -/
def IsTag (b : Bytes) (off : Nat) : Prop :=
  off + 4 ≤ b.length ∧ (fourAt b off = ascii "Xing" ∨ fourAt b off = ascii "Info")

instance (b : Bytes) (off : Nat) : Decidable (IsTag b off) := inferInstanceAs (Decidable (_ ∧ _))

/-- There is no tag at the offset, or one without the number of frames. -/
def NoCount (b : Bytes) (off : Nat) : Prop :=
  IsTag b off → off + 8 ≤ b.length ∧ number b (off + 4) &&& 1 = 0

theorem taggedFrames_eq {b : Bytes} (hb : b.length < 2 ^ 63) {off : Nat} (hoff : off + 12 ≤ max64) :
    taggedFrames b off =
      if IsTag b off then
        if off + 8 ≤ b.length then
          if number b (off + 4) &&& 1 ≠ 0 then
            if off + 12 ≤ b.length then value (some (number b (off + 8))) else missing
          else value none
        else missing
      else value none := by
  unfold taggedFrames IsTag
  rw [add64_of_le (by omega), value_bind]
  by_cases hfits : off + 4 ≤ b.length
  · rw [getRange_of_le (by omega) hfits]
    dsimp only
    change (if fourAt b off = ascii "Xing" ∨ fourAt b off = ascii "Info" then _ else _) = _
    simp only [hfits, true_and]
    split
    · rw [value_bind, beU32_eq hb]
      by_cases hflags : off + 8 ≤ b.length
      · rw [if_pos (by omega), if_pos hflags, value_bind]
        split
        · rw [add64_of_le (by omega), value_bind, beU32_eq hb]
          by_cases hframes : off + 12 ≤ b.length
          · rw [if_pos (by omega), if_pos hframes, value_bind]
          · rw [if_neg (by omega), if_neg hframes, missing_bind]
        · rfl
      · rw [if_neg (by omega), if_neg hflags, missing_bind]
    · rfl
  · rw [getRange_of_lt (by omega)]
    simp [hfits]

theorem exists_header {b : Bytes} (hb : b.length < 2 ^ 63) {i : Nat} (hi : i + 4 ≤ b.length)
    (h : frameAt b i = value true) : ∃ header, parseMpegHeader (number b i) = value header := by
  unfold frameAt at h
  rw [index_of_lt (by omega), value_bind] at h
  split at h
  · cases h
  · rw [add64_of_le (by unfold max64; omega), value_bind] at h
    split at h
    · cases h
    · rw [beU32_eq hb, if_pos hi, attempt_value, value_bind] at h
      dsimp only at h
      cases hparsed : parseMpegHeader (number b i) with
      | value header => exact ⟨header, rfl⟩
      | missing =>
        rw [hparsed] at h
        cases h
      | panic p =>
        rw [hparsed] at h
        cases h

theorem saturatingMul_le_iff (n : Nat) : saturatingMul n 8 * 1000 ≤ max64 ↔ n * 8000 ≤ max64 := by
  unfold saturatingMul max64
  omega

theorem noPanic_estimatedMs_iff {b : Bytes} {frame bitrate : Nat} (hbitrate : bitrate ≠ 0) :
    NoPanic (estimatedMs b frame bitrate) ↔ (b.length - frame) * 8000 ≤ max64 := by
  unfold estimatedMs NoPanic
  rw [if_neg hbitrate]
  simp only [safe_bind, safe_mul64, safe_div64]
  rw [saturatingMul_le_iff]
  exact and_iff_left ⟨hbitrate, noPanic_positive32 _⟩

/-- The offset at which a tag of frames is looked for. -/
def xingOffset (b : Bytes) (frame : Nat) : Nat := frame + 4 + sideInfo (number b frame)

theorem sideInfo_le (header : Nat) : sideInfo header ≤ 17 := by
  unfold sideInfo
  split <;> omega

/-- What comes after the first frame has been found. -/
theorem mp3DurationMs_eq {b : Bytes} (hb : b.length < 2 ^ 63) (hlen : 10 ≤ b.length) {frame : Nat} {header : MpegHeader}
    (hframe : FirstFrame b (tagEnd b) frame) (hheader : parseMpegHeader (number b frame) = value header) :
    mp3DurationMs b = (taggedFrames b (xingOffset b frame) >>= fun tagged =>
      match tagged with
      | some frames => mul64 frames header.samplesPerFrame >>= fun totalSamples => msFromFrames totalSamples header.rate
      | none => estimatedMs b frame header.bitrate) := by
  have hend := tagEnd_lt hlen
  have hfind := ((findMpegFrame_spec hb (by unfold max64; omega)).2 frame).mpr hframe
  have hside := sideInfo_le (number b frame)
  have hfits := hframe.fits
  unfold mp3DurationMs xingOffset
  rw [audioStart_eq hlen, value_bind, hfind, value_bind, beU32_eq hb, if_pos hfits, value_bind, hheader, value_bind,
    add64_of_le (by unfold max64; omega)]
  dsimp only
  rw [value_bind, add64_of_le (by unfold max64; omega)]
  exact value_bind _ _

theorem noPanic_mp3DurationMs_iff {b : Bytes} (hb : b.length < 2 ^ 63) (hlen : 10 ≤ b.length) :
    NoPanic (mp3DurationMs b) ↔
      ∀ frame, FirstFrame b (tagEnd b) frame → NoCount b (xingOffset b frame) → (b.length - frame) * 8000 ≤ max64 := by
  have hend := tagEnd_lt hlen
  have hstart : tagEnd b + 4 ≤ max64 := by
    unfold max64
    omega
  obtain ⟨hsafe, hiff⟩ := findMpegFrame_spec hb hstart
  cases hfind : findMpegFrame b (tagEnd b) with
  | panic p =>
    rw [hfind] at hsafe
    exact hsafe.elim
  | missing =>
    refine iff_of_true ?_ fun frame hframe => ?_
    · unfold mp3DurationMs
      rw [audioStart_eq hlen, value_bind, hfind]
      trivial
    · have hvalue := (hiff frame).mpr hframe
      rw [hfind] at hvalue
      cases hvalue
  | value frame =>
    have hframe := (hiff frame).mp hfind
    -- the search finds the one first frame there is, so the condition is about this frame
    have honly : ∀ frame', FirstFrame b (tagEnd b) frame' → frame' = frame := by
      intro frame' hframe'
      have hvalue := (hiff frame').mpr hframe'
      rw [hfind] at hvalue
      cases hvalue
      rfl
    obtain ⟨header, hheader⟩ := exists_header hb hframe.fits hframe.found
    obtain ⟨hsamples, hbitrate⟩ := (safe_parseMpegHeader _).of_value hheader
    have hside := sideInfo_le (number b frame)
    have hfits := hframe.fits
    rw [mp3DurationMs_eq hb hlen hframe hheader, taggedFrames_eq hb (by unfold xingOffset max64; omega)]
    have hcond : (∀ frame', FirstFrame b (tagEnd b) frame' → NoCount b (xingOffset b frame') →
        (b.length - frame') * 8000 ≤ max64) ↔
          (NoCount b (xingOffset b frame) → (b.length - frame) * 8000 ≤ max64) := by
      constructor
      · exact fun h => h frame hframe
      · intro h frame' hframe'
        rw [honly frame' hframe']
        exact h
    rw [hcond, ← noPanic_estimatedMs_iff hbitrate]
    unfold NoCount
    by_cases htag : IsTag b (xingOffset b frame)
    · rw [if_pos htag]
      simp only [htag, forall_const]
      by_cases hflags : xingOffset b frame + 8 ≤ b.length
      · rw [if_pos hflags]
        by_cases hcount : number b (xingOffset b frame + 4) &&& 1 = 0
        · rw [if_neg (by simpa using hcount), value_bind]
          simp [hflags, hcount]
        · rw [if_pos hcount]
          refine iff_of_true ?_ fun h => absurd h.2 hcount
          split
          · have hlt := number_lt b (xingOffset b frame + 8)
            have hproduct : number b (xingOffset b frame + 8) * header.samplesPerFrame ≤ 2 ^ 32 * 1152 :=
              Nat.mul_le_mul hlt.le hsamples
            rw [value_bind]
            refine safe_bind.mpr (safe_mul64.mpr ⟨by unfold max64; omega, noPanic_msFromFrames _ _⟩)
          · exact trivial
      · rw [if_neg hflags]
        exact iff_of_true trivial (by simp [hflags])
    · rw [if_neg htag, value_bind]
      simp [htag]

/-! ### All containers -/

/-- The containers that are told apart. -/
inductive Format
  | wav
  | ogg
  | flac
  | mp4
  | mpeg
  deriving DecidableEq, Repr

/-- The container that the first bytes announce. -/
def format (b : Bytes) : Option Format :=
  if b.length < 12 then none
  else if (ascii "RIFF").isPrefixOf b ∧ fourAt b 8 = ascii "WAVE" then some .wav
  else if (ascii "OggS").isPrefixOf b then some .ogg
  else if (ascii "fLaC").isPrefixOf b then some .flac
  else if fourAt b 4 = ascii "ftyp" then some .mp4
  else if (ascii "ID3").isPrefixOf b ∨ looksLikeMpegAudio b then some .mpeg
  else none

/-- The reader of a container. -/
def durationMs (b : Bytes) : Format → Checked Nat
  | .wav => wavDurationMs b
  | .ogg => oggDurationMs b
  | .flac => flacDurationMs b
  | .mp4 => mp4DurationMs b
  | .mpeg => mp3DurationMs b

theorem probeDurationMs_eq (b : Bytes) : probeDurationMs b = ofOption (format b) >>= durationMs b := by
  unfold probeDurationMs format
  split
  · rfl
  · rename_i hlen
    have hslice : ∀ s, s + 4 ≤ 12 → sliceRange b s (s + 4) = value (fourAt b s) := fun s hs => if_pos (by omega)
    rw [hslice 8 (by omega), hslice 4 (by omega)]
    have hwave : (if (ascii "RIFF").isPrefixOf b then do
          let form ← value (fourAt b 8)
          value (form = ascii "WAVE" : Bool)
        else value false) = value (decide ((ascii "RIFF").isPrefixOf b ∧ fourAt b 8 = ascii "WAVE")) := by
      split
      · rename_i hriff
        simp [hriff]
      · rename_i hriff
        simp [hriff]
    rw [hwave, value_bind, value_bind]
    simp only [decide_eq_true_eq]
    split_ifs <;> rfl

/-- What keeps the probe from a panic: in an MP4 file, no box before the `mvhd` box is left for an offset to which a header
cannot be added; in an MPEG stream without the number of its frames, 8000 times the bytes from the first frame on fit into
64 bits. -/
structure Harmless (b : Bytes) : Prop where
  boxes : format b = some .mp4 → ∀ next,
    .leave next ∈ (boxEvents b 0 (searched b)).takeWhile (fun e => !e.isBox (ascii "mvhd")) → next + 8 ≤ max64
  estimate : format b = some .mpeg → ∀ frame,
    FirstFrame b (tagEnd b) frame → NoCount b (xingOffset b frame) → (b.length - frame) * 8000 ≤ max64

theorem length_of_format {b : Bytes} {f : Format} (h : format b = some f) : 12 ≤ b.length := by
  unfold format at h
  split at h
  · cases h
  · omega

/-- The probe panics on exactly the slices that are not harmless. -/
theorem probeDurationMs_noPanic_iff (s : Slice) : NoPanic (probeDurationMs s.bytes) ↔ Harmless s.bytes := by
  rw [probeDurationMs_eq]
  cases hformat : format s.bytes with
  | none => exact iff_of_true trivial ⟨by simp [hformat], by simp [hformat]⟩
  | some f =>
    have hlen := length_of_format hformat
    rw [ofOption_some, value_bind]
    cases f with
    | wav => exact iff_of_true (noPanic_wavDurationMs s.fits) ⟨by simp [hformat], by simp [hformat]⟩
    | ogg => exact iff_of_true (noPanic_oggDurationMs s.fits) ⟨by simp [hformat], by simp [hformat]⟩
    | flac => exact iff_of_true (noPanic_flacDurationMs _) ⟨by simp [hformat], by simp [hformat]⟩
    | mp4 =>
      refine (noPanic_mp4DurationMs_iff s.fits).trans ?_
      constructor
      · exact fun h => ⟨fun _ => h, by simp [hformat]⟩
      · exact fun h => h.boxes hformat
    | mpeg =>
      refine (noPanic_mp3DurationMs_iff s.fits (by omega)).trans ?_
      constructor
      · exact fun h => ⟨by simp [hformat], fun _ => h⟩
      · exact fun h => h.estimate hformat

/-- A box of type `ftyp` whose 64-bit size is the greatest one. -/
def hugeBox : Slice := ⟨[0, 0, 0, 1] ++ ascii "ftyp" ++ List.replicate 8 0xFF, by decide⟩

theorem probeDurationMs_hugeBox : probeDurationMs hugeBox.bytes = panic .overflow := by
  have hsize : boxSize hugeBox.bytes 0 16 = some max64 := by decide
  have hevents : boxEvents hugeBox.bytes 0 16 = [.enter 0 (ascii "ftyp"), .leave max64] := by
    rw [boxEvents, dif_pos (by omega), hsize]
    dsimp only
    rw [dif_pos (by decide), if_neg (by decide), boxEvents, dif_neg (by decide)]
    rfl
  have hfind : findBox hugeBox.bytes (ascii "mvhd") 0 16 = panic .overflow := by
    rw [findBox_eq hugeBox.fits _ (by decide) (by decide), hevents]
    rfl
  rw [probeDurationMs_eq]
  change (findBox hugeBox.bytes (ascii "mvhd") 0 16 >>= _) = panic .overflow
  rw [hfind, panic_bind]

theorem not_noPanic_hugeBox : ¬ NoPanic (probeDurationMs hugeBox.bytes) := by
  rw [probeDurationMs_hugeBox]
  exact not_safe_panic _

end OpenProxy.Audio
