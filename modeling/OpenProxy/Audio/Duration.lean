import OpenProxy.Audio.Files
import OpenProxy.Audio.Panics

/-!
# Exact durations

The probe returns the duration that a well-formed WAV file states.  For an MP3 file it looks for the tag behind side
information of the length that a mono frame has, so that it is exact for mono frames, and for others by coincidence only
(`probeDurationMs_exact_iff`).
-/

namespace OpenProxy.Audio

open Checked

theorem positive32_eq_value_iff {ms e : Nat} (hpos : 0 < e) (hlt : e < 2 ^ 32) : positive32 ms = value e ↔ ms = e := by
  unfold positive32 tryFrom32
  constructor
  · intro h
    split at h
    · rw [Option.filter_some] at h
      split at h
      · cases h
        rfl
      · cases h
    · cases h
  · rintro rfl
    rw [if_pos (by unfold max32; omega), Option.filter_some, if_pos (by simpa using hpos)]
    rfl

/-- Four bytes of a file, between what comes before and what comes behind. -/
theorem fourAt_append {b : Bytes} (pre four post : Bytes) {off : Nat} (hb : b = pre ++ (four ++ post)) (hfour : four.length = 4)
    (hoff : off = pre.length) : fourAt b off = four := by
  rw [fourAt, List.drop_take, hb, hoff, List.drop_left, Nat.add_sub_cancel_left, ← hfour, List.take_left]

/-! ### WAV -/

theorem Chunk.length_encode (c : Chunk) : c.encode.length = paddedSize c.body.length := by
  unfold Chunk.encode paddedSize
  have hid := c.length_id
  have haligned : c.aligned.length = (c.body.length + 8) % 2 := by
    unfold Chunk.aligned
    split
    · rw [List.length_singleton]
      omega
    · rw [List.length_nil]
      omega
  simp only [List.length_append, List.length_reverse, length_toBeBytes]
  omega

/-- What a chunk says of the byte rate and of the length of the data. -/
def Chunk.rateAfter (c : Chunk) (rate : Option Nat) : Option Nat := if c.isFormat then some c.byteRate else rate

def Chunk.lenAfter (c : Chunk) (len : Option Nat) : Option Nat := if c.isData then some c.body.length else len

/-- One step of the walk. -/
theorem wavChunks_encode {b pre post : Bytes} {c : Chunk} (hb : b.length < 2 ^ 63) (hsplit : b = pre ++ (c.encode ++ post))
    (hformat : c.isFormat → 12 ≤ c.body.length) (hdata : c.isData → c.body ≠ []) (rate len : Option Nat) :
    wavChunks b pre.length rate len =
      if (c.rateAfter rate).isSome ∧ (c.lenAfter len).isSome then value (c.rateAfter rate, c.lenAfter len)
      else wavChunks b (pre ++ c.encode).length (c.rateAfter rate) (c.lenAfter len) := by
  have hlen : b.length = pre.length + (paddedSize c.body.length + post.length) := by
    rw [hsplit, List.length_append, List.length_append, c.length_encode]
  have hpadded : c.body.length + 8 ≤ paddedSize c.body.length := Nat.le_add_right _ _
  have hbody := c.length_body
  have hid : fourAt b pre.length = c.id := by
    refine fourAt_append pre _ ((toBeBytes 4 c.body.length).reverse ++ c.body ++ c.aligned ++ post) ?_ c.length_id rfl
    rw [hsplit, Chunk.encode]
    simp only [List.append_assoc]
  have hsize : leU32 b (pre.length + 4) = value c.body.length := by
    have hfour : fourAt b (pre.length + 4) = (toBeBytes 4 c.body.length).reverse := by
      refine fourAt_append (pre ++ c.id) _ (c.body ++ c.aligned ++ post) ?_ (by simp) ?_
      · rw [hsplit, Chunk.encode]
        simp only [List.append_assoc]
      · rw [List.length_append, c.length_id]
    rw [leU32_eq hb, if_pos (by omega), hfour, List.reverse_reverse, fromBeBytes_toBeBytes (by omega)]
  have hrate : c.isFormat → leU32 b (pre.length + 8 + 8) = value c.byteRate := by
    intro hc
    have hcomplete := hformat hc
    have hfour : fourAt b (pre.length + 8 + 8) = (c.body.drop 8).take 4 := by
      refine fourAt_append (pre ++ c.id ++ (toBeBytes 4 c.body.length).reverse ++ c.body.take 8) _
        (c.body.drop 12 ++ c.aligned ++ post) ?_ ?_ ?_
      · have hparts : c.body = c.body.take 8 ++ ((c.body.drop 8).take 4 ++ c.body.drop 12) := by
          rw [show c.body.drop 12 = (c.body.drop 8).drop 4 by rw [List.drop_drop], List.take_append_drop,
            List.take_append_drop]
        have hencode : c.encode = c.id ++ (toBeBytes 4 c.body.length).reverse ++
            (c.body.take 8 ++ ((c.body.drop 8).take 4 ++ c.body.drop 12)) ++ c.aligned := by
          rw [← hparts]
          rfl
        rw [hsplit, hencode]
        simp only [List.append_assoc]
      · rw [List.length_take, List.length_drop]
        omega
      · simp only [List.length_append, List.length_reverse, length_toBeBytes, List.length_take, c.length_id]
        omega
    rw [leU32_eq hb, if_pos (by omega), hfour]
    rfl
  have hdataLength : c.isData → dataLength b (pre.length + 8) c.body.length = some c.body.length := by
    intro hc
    have hpos := List.length_pos_of_ne_nil (hdata hc)
    unfold dataLength
    dsimp only
    rw [if_neg (by omega)]
    exact if_pos (by unfold max32; omega)
  have hget : getRange b pre.length (pre.length + 4) = some c.id := hid ▸ getRange_of_le (by omega) (by omega)
  have hrateAfter : (if c.id = ascii "fmt " then do
        let _ ← add64 (pre.length + 8) 8
        attempt (leU32 b (pre.length + 8 + 8))
      else value rate) = value (c.rateAfter rate) := by
    unfold Chunk.rateAfter
    by_cases hc : c.id = ascii "fmt "
    · have hisFormat : c.isFormat = true := decide_eq_true hc
      rw [if_pos hc, if_pos hisFormat, add64_of_le (by unfold max64; omega), value_bind, hrate hisFormat]
      rfl
    · have hnot : ¬ c.isFormat = true := by simpa [Chunk.isFormat] using hc
      rw [if_neg hc, if_neg hnot]
  have hlenAfter : (if c.id = ascii "data" then dataLength b (pre.length + 8) c.body.length else len) =
      c.lenAfter len := by
    unfold Chunk.lenAfter
    by_cases hc : c.id = ascii "data"
    · have hisData : c.isData = true := decide_eq_true hc
      rw [if_pos hc, if_pos hisData, hdataLength hisData]
    · have hnot : ¬ c.isData = true := by simpa [Chunk.isData] using hc
      rw [if_neg hc, if_neg hnot]
  rw [wavChunks, add64_of_le (by unfold max64; omega), value_bind, dif_pos (by omega),
    add64_of_le (by unfold max64; omega), value_bind, hget, ofOption_some, value_bind, hsize, value_bind, hrateAfter,
    value_bind]
  dsimp only
  rw [hlenAfter]
  split
  · rfl
  · rw [checkedAdd_of_le (by unfold max64; omega), value_bind, checkedAdd_of_le (by unfold max64; omega), value_bind,
      checkedAdd_of_le (by unfold max64; omega), value_bind, List.length_append, c.length_encode]

/-- What is found in a chunk was not known before. -/
theorem toList_append_of_cons {o : Option Nat} {x y : Nat} {xs : List Nat} (h : o.toList ++ x :: xs = [y]) :
    (some x).toList ++ xs = [y] := by
  cases o with
  | none => exact h
  | some z => simp at h

theorem eq_of_toList_append {o : Option Nat} {y : Nat} {xs : List Nat} (h : o.toList ++ xs = [y]) (ho : o.isSome) :
    o = some y := by
  cases o with
  | none => cases ho
  | some z =>
    rw [Option.toList_some, List.singleton_append, List.cons.injEq] at h
    rw [h.1]

/-- The walk finds the byte rate and the length when every chunk that is left to find comes once. -/
theorem wavChunks_flatMap {b : Bytes} (hb : b.length < 2 ^ 63) {r n : Nat} (chunks : List Chunk) {pre : Bytes}
    (hsplit : b = pre ++ chunks.flatMap Chunk.encode) {rate len : Option Nat}
    (hformat : ∀ c ∈ chunks, c.isFormat → 12 ≤ c.body.length) (hdata : ∀ c ∈ chunks, c.isData → c.body ≠ [])
    (hrate : rate.toList ++ (chunks.filter Chunk.isFormat).map Chunk.byteRate = [r])
    (hlen : len.toList ++ (chunks.filter Chunk.isData).map (·.body.length) = [n]) :
    wavChunks b pre.length rate len = value (some r, some n) := by
  -- what is known and what the chunks still say is one rate and one length, in front of every chunk
  induction chunks generalizing pre rate len with
  | nil =>
    have hsome : ∀ {o : Option Nat} {y : Nat}, o.toList ++ [] = [y] → o = some y := by
      intro o y ho
      refine eq_of_toList_append ho ?_
      cases o with
      | none => cases ho
      | some z => rfl
    rw [List.flatMap_nil, List.append_nil] at hsplit
    rw [wavChunks, ← hsplit, add64_of_le (by unfold max64; omega), value_bind, dif_neg (by omega), hsome hrate, hsome hlen]
  | cons c cs ih =>
    rw [List.flatMap_cons] at hsplit
    rw [wavChunks_encode hb hsplit (hformat c List.mem_cons_self) (hdata c List.mem_cons_self)]
    have hrate' : (c.rateAfter rate).toList ++ (cs.filter Chunk.isFormat).map Chunk.byteRate = [r] := by
      unfold Chunk.rateAfter
      rw [List.filter_cons] at hrate
      split
      · rename_i hc
        rw [if_pos hc, List.map_cons] at hrate
        exact toList_append_of_cons hrate
      · rename_i hc
        rwa [if_neg hc] at hrate
    have hlen' : (c.lenAfter len).toList ++ (cs.filter Chunk.isData).map (·.body.length) = [n] := by
      unfold Chunk.lenAfter
      rw [List.filter_cons] at hlen
      split
      · rename_i hc
        rw [if_pos hc, List.map_cons] at hlen
        exact toList_append_of_cons hlen
      · rename_i hc
        rwa [if_neg hc] at hlen
    split
    · rename_i hfound
      rw [eq_of_toList_append hrate' hfound.1, eq_of_toList_append hlen' hfound.2]
    · refine ih ?_ (fun d hd => hformat d (List.mem_cons_of_mem _ hd)) (fun d hd => hdata d (List.mem_cons_of_mem _ hd))
        hrate' hlen'
      rw [hsplit, List.append_assoc]

/-- A WAV file is probed exactly. -/
theorem probeDurationMs_wav {f : WavFile} (hb : f.encode.length < 2 ^ 63) (hpos : 0 < f.durationMs)
    (hlt : f.durationMs < 2 ^ 32) : probeDurationMs f.encode = value f.durationMs := by
  have hlen12 : (ascii "RIFF" ++ f.size ++ ascii "WAVE").length = 12 := by
    rw [List.length_append, List.length_append, f.length_size]
    rfl
  have hformat : format f.encode = some .wav := by
    have hwave : fourAt f.encode 8 = ascii "WAVE" := by
      refine fourAt_append (ascii "RIFF" ++ f.size) _ (f.chunks.flatMap Chunk.encode) ?_ rfl ?_
      · rw [WavFile.encode, List.append_assoc]
      · rw [List.length_append, f.length_size]
        rfl
    have hriff : (ascii "RIFF").isPrefixOf f.encode = true := by
      rw [List.isPrefixOf_iff_prefix, WavFile.encode, List.append_assoc, List.append_assoc]
      exact List.prefix_append _ _
    unfold format
    rw [if_neg (by rw [WavFile.encode, List.length_append, hlen12]; omega), if_pos ⟨hriff, hwave⟩]
  have hdurationMs : f.data.body.length * 1000 / f.format.byteRate = f.durationMs := rfl
  have hrate : f.format.byteRate ≠ 0 := by
    intro hzero
    rw [WavFile.durationMs, hzero, Nat.div_zero] at hpos
    omega
  have hdata : f.data.body ≠ [] := by
    intro hnil
    rw [WavFile.durationMs, hnil, List.length_nil, Nat.zero_mul, Nat.zero_div] at hpos
    omega
  have hwalk : wavChunks f.encode 12 none none = value (some f.format.byteRate, some f.data.body.length) := by
    rw [← hlen12]
    refine wavChunks_flatMap hb f.chunks rfl ?_ ?_ (by rw [f.one_format]; rfl) (by rw [f.one_data]; rfl)
    · intro c hc hformat
      have hmem : c ∈ f.chunks.filter Chunk.isFormat := List.mem_filter.mpr ⟨hc, hformat⟩
      rw [f.one_format, List.mem_singleton] at hmem
      rw [hmem]
      exact f.length_format
    · intro c hc hdata'
      have hmem : c ∈ f.chunks.filter Chunk.isData := List.mem_filter.mpr ⟨hc, hdata'⟩
      rw [f.one_data, List.mem_singleton] at hmem
      rw [hmem]
      exact hdata
  have hbody := f.data.length_body
  rw [probeDurationMs_eq, hformat, ofOption_some, value_bind]
  change wavDurationMs f.encode = _
  unfold wavDurationMs
  rw [hwalk, value_bind]
  dsimp only
  rw [ofOption_some, value_bind, ofOption_some, value_bind, if_neg hrate, mul64_of_le (by unfold max64; omega), value_bind,
    div64_of_ne_zero hrate, value_bind, hdurationMs]
  exact (positive32_eq_value_iff hpos hlt).mpr rfl

/-! ### MP3 -/

namespace FrameHeader

theorem bits_lt (h : FrameHeader) : h.version.bits ≤ 3 ∧ h.mode.bits ≤ 3 := by
  constructor
  · cases h.version <;> decide
  · cases h.mode <;> decide

theorem toNat_lt (h : FrameHeader) : h.toNat < 2 ^ 32 := by
  have := h.bits_lt
  unfold toNat
  omega

/-- The fields, as they are read. -/
theorem fields (h : FrameHeader) :
    h.toNat >>> 21 &&& 0x7FF = 0x7FF ∧ h.toNat >>> 19 &&& 0x3 = h.version.bits ∧ h.toNat >>> 17 &&& 0x3 = 1 ∧
      h.toNat >>> 12 &&& 0xF = h.bitrate + 1 ∧ h.toNat >>> 10 &&& 0x3 = h.rate := by
  have hand : ∀ n k, n &&& (2 ^ k - 1) = n % 2 ^ k := Nat.and_two_pow_sub_one_eq_mod
  have h2 : ∀ n : Nat, n &&& 0x3 = n % 2 ^ 2 := fun n => hand n 2
  have h4 : ∀ n : Nat, n &&& 0xF = n % 2 ^ 4 := fun n => hand n 4
  have h11 : ∀ n : Nat, n &&& 0x7FF = n % 2 ^ 11 := fun n => hand n 11
  have hbits := h.bits_lt
  simp only [h2, h4, h11, Nat.shiftRight_eq_div_pow]
  unfold toNat
  refine ⟨?_, ?_, ?_, ?_, ?_⟩ <;> omega

/-- The code reads the header as it was written. -/
theorem parse_toNat (h : FrameHeader) :
    parseMpegHeader h.toNat = value ⟨h.sampleRate, h.bitsPerSecond, h.version.samplesPerFrame⟩ := by
  obtain ⟨hsync, hversion, hlayer, hbitrate, hrate⟩ := h.fields
  unfold parseMpegHeader
  rw [hsync, hversion, hlayer, hbitrate, hrate]
  clear hsync hversion hlayer hbitrate hrate
  obtain ⟨version, protection, bitrate, rate, padding, mode, trailing⟩ := h
  unfold sampleRate bitsPerSecond
  dsimp only
  revert bitrate rate
  cases version with
  | mpeg1 => decide
  | mpeg2 => decide
  | mpeg25 => decide

theorem bitsPerSecond_ne_zero (h : FrameHeader) : h.bitsPerSecond ≠ 0 := by
  obtain ⟨version, protection, bitrate, rate, padding, mode, trailing⟩ := h
  unfold bitsPerSecond
  dsimp only
  revert bitrate
  cases version with
  | mpeg1 => decide
  | mpeg2 => decide
  | mpeg25 => decide

theorem samplesPerFrame_le (h : FrameHeader) : h.version.samplesPerFrame ≤ 1152 := by
  cases h.version <;> decide

theorem sideInfo_toNat (h : FrameHeader) : sideInfo h.toNat = if h.version = .mpeg1 then 17 else 9 := by
  have hversion := h.fields.2.1
  unfold sideInfo
  rw [hversion]
  cases h.version <;> rfl

/-- A header begins with eleven bits that are set. -/
theorem bytes_eq (h : FrameHeader) :
    ∃ second third fourth, toBeBytes 4 h.toNat = [0xFF, second, third, fourth] ∧ second &&& 0xE0 = 0xE0 := by
  have hbits := h.bits_lt
  have hmask : ∀ k < 256, 224 ≤ k → UInt8.ofNat k &&& 0xE0 = 0xE0 := by decide +kernel
  refine ⟨UInt8.ofNat (h.toNat / 256 / 256 % 256), UInt8.ofNat (h.toNat / 256 % 256), UInt8.ofNat (h.toNat % 256), ?_,
    hmask _ (by omega) ?_⟩
  · have hfirst : h.toNat / 256 / 256 / 256 % 256 = 255 := by
      unfold toNat
      omega
    change [UInt8.ofNat (h.toNat / 256 / 256 / 256 % 256), _, _, _] = _
    rw [hfirst]
    rfl
  · unfold toNat
    omega

end FrameHeader

theorem frameAt_of_ne {b : Bytes} {i : Nat} {x : UInt8} (hx : b[i]? = some x) (hne : x ≠ 0xFF) :
    frameAt b i = value false := by
  unfold frameAt index
  rw [hx]
  exact if_pos hne

/-- A header is found where it stands. -/
theorem frameAt_header {b pre post : Bytes} {h : FrameHeader} (hb : b.length < 2 ^ 63)
    (hsplit : b = pre ++ (toBeBytes 4 h.toNat ++ post)) :
    number b pre.length = h.toNat ∧ frameAt b pre.length = value true := by
  obtain ⟨second, third, fourth, hbytes, hmask⟩ := h.bytes_eq
  have hnumber : number b pre.length = h.toNat := by
    rw [number, fourAt_append pre _ post hsplit (length_toBeBytes _ _) rfl, fromBeBytes_toBeBytes h.toNat_lt]
  have hlen : b.length = pre.length + (4 + post.length) := by
    rw [hsplit, List.length_append, List.length_append, length_toBeBytes]
  have hfirst : b[pre.length]? = some 0xFF := by
    rw [hsplit, hbytes]
    simp
  have hsecond : b[pre.length + 1]? = some second := by
    rw [hsplit, hbytes]
    simp
  refine ⟨hnumber, ?_⟩
  unfold frameAt index
  rw [hfirst, value_bind, if_neg (by simp), add64_of_le (by unfold max64; omega), value_bind, hsecond, Option.any_some,
    if_neg (by simpa using hmask), beU32_eq hb, if_pos (by omega), attempt_value, value_bind, hnumber]
  dsimp only
  rw [h.parse_toNat]
  rfl

theorem syncsafe_toSyncsafe {n : Nat} (h : n < 2 ^ 28) : syncsafe (toSyncsafe n) = n := by
  have hbyte : ∀ x : Nat, (UInt8.ofNat (x % 2 ^ 7)).toNat % 2 ^ 7 = x % 2 ^ 7 := by
    intro x
    rw [UInt8.toNat_ofNat']
    omega
  unfold syncsafe toSyncsafe
  simp only [List.map_cons, List.map_nil, List.foldl_cons, List.foldl_nil, hbyte]
  omega

namespace Id3Tag

theorem length_fields (t : Id3Tag) : t.fields.length = 7 := rfl

theorem length_encode (t : Id3Tag) : t.encode.length = 10 + t.content.length + t.trailer.length := by
  unfold encode
  rw [List.length_append, List.length_append, List.length_append, t.length_fields]
  rfl

/-- No byte of a footer begins a frame. -/
theorem ne_of_mem_trailer {t : Id3Tag} {x : UInt8} (hx : x ∈ t.trailer) : x ≠ 0xFF := by
  have hbyte : ∀ n : Nat, UInt8.ofNat (n % 2 ^ 7) ≠ 0xFF := by
    intro n h
    have := congrArg UInt8.toNat h
    rw [UInt8.toNat_ofNat'] at this
    change n % 2 ^ 7 % 256 = 255 at this
    omega
  unfold trailer at hx
  split at hx
  · have hmagic : (ascii "3DI").all (· != 0xFF) = true := by decide
    rw [List.mem_append, fields, List.mem_append] at hx
    rcases hx with hx | hx | hx
    · simpa using List.all_eq_true.mp hmagic x hx
    · simp only [List.mem_cons, List.not_mem_nil, or_false] at hx
      rcases hx with rfl | rfl | rfl
      · exact t.version_ne.1
      · exact t.version_ne.2
      · exact t.flags_ne
    · unfold toSyncsafe at hx
      obtain ⟨n, -, rfl⟩ := List.mem_map.mp hx
      exact hbyte n
  · cases hx

end Id3Tag

/-! ### The first frame -/

namespace Mp3File

variable (f : Mp3File)

/-- What comes behind the header of the first frame. -/
def behind : Bytes :=
  f.side ++ ascii (if f.info then "Info" else "Xing") ++ toBeBytes 4 f.flags ++ toBeBytes 4 f.frames ++ f.rest

theorem encode_eq : f.encode = f.front ++ (toBeBytes 4 f.header.toNat ++ f.behind) := by
  unfold encode behind
  simp only [List.append_assoc]

theorem length_magic : (ascii (if f.info then "Info" else "Xing")).length = 4 := by
  split <;> rfl

theorem length_encode : f.encode.length = f.front.length + f.header.sideInfoLength + 16 + f.rest.length := by
  unfold encode
  simp only [List.length_append, length_toBeBytes, f.length_magic, f.length_side]
  omega

/-- A file begins with its tag or with a header. -/
theorem encode_begins :
    (∃ rest, f.encode = ascii "ID3" ++ rest) ∨
      f.tag = none ∧ ∃ second rest, f.encode = 0xFF :: second :: rest ∧ second &&& 0xE0 = 0xE0 := by
  rw [encode_eq]
  unfold front
  cases f.tag with
  | some t =>
    left
    refine ⟨t.fields ++ t.content ++ t.trailer ++ (toBeBytes 4 f.header.toNat ++ f.behind), ?_⟩
    simp only [Id3Tag.encode, List.append_assoc]
  | none =>
    right
    obtain ⟨second, third, fourth, hbytes, hmask⟩ := f.header.bytes_eq
    refine ⟨rfl, second, third :: fourth :: f.behind, ?_, hmask⟩
    rw [hbytes]
    rfl

/-- An MP3 file is not taken for a file of another kind, unless its bytes 4 to 7 are those of an MP4 file. -/
theorem format_eq : format f.encode = if fourAt f.encode 4 = ascii "ftyp" then some .mp4 else some .mpeg := by
  have hlen : ¬ f.encode.length < 12 := by
    rw [length_encode]
    omega
  have hothers : (ascii "RIFF").isPrefixOf f.encode = false ∧ (ascii "OggS").isPrefixOf f.encode = false ∧
      (ascii "fLaC").isPrefixOf f.encode = false := by
    rcases f.encode_begins with ⟨rest, hrest⟩ | ⟨-, second, rest, hrest, -⟩
    · rw [hrest]
      exact ⟨rfl, rfl, rfl⟩
    · rw [hrest]
      exact ⟨rfl, rfl, rfl⟩
  have hmpeg : (ascii "ID3").isPrefixOf f.encode = true ∨ looksLikeMpegAudio f.encode = true := by
    rcases f.encode_begins with ⟨rest, hrest⟩ | ⟨-, second, rest, hrest, hmask⟩
    · left
      rw [List.isPrefixOf_iff_prefix, hrest]
      exact List.prefix_append _ _
    · right
      rw [hrest]
      simp [looksLikeMpegAudio, hmask]
  obtain ⟨hriff, hogg, hflac⟩ := hothers
  unfold format
  rw [if_neg hlen, if_neg (by simp [hriff]), if_neg (by simp [hogg]), if_neg (by simp [hflac]), if_pos hmpeg]

/-- Where the tag ends, and the bytes up to the first frame. -/
theorem tagEnd_eq :
    tagEnd f.encode ≤ f.front.length ∧
      ∀ i, tagEnd f.encode ≤ i → i < f.front.length → ∃ x, f.encode[i]? = some x ∧ x ≠ 0xFF := by
  unfold tagEnd
  cases htag : f.tag with
  | none =>
    have hfront : f.front = [] := by
      unfold front
      rw [htag]
    have hid : (ascii "ID3").isPrefixOf f.encode = false := by
      obtain ⟨second, third, fourth, hbytes, -⟩ := f.header.bytes_eq
      rw [encode_eq, hfront, hbytes]
      rfl
    rw [hid, hfront]
    exact ⟨le_refl _, fun i _ hi => by cases hi⟩
  | some t =>
    have hfront : f.front = t.encode := by
      unfold front
      rw [htag]
    have hid : (ascii "ID3").isPrefixOf f.encode = true := by
      rw [List.isPrefixOf_iff_prefix, encode_eq, hfront, Id3Tag.encode]
      simp only [List.append_assoc]
      exact List.prefix_append _ _
    have hsize : fourAt f.encode 6 = toSyncsafe t.content.length := by
      refine fourAt_append (ascii "ID3" ++ [t.major, t.revision, t.flags]) _
        (t.content ++ t.trailer ++ (toBeBytes 4 f.header.toNat ++ f.behind)) ?_ rfl rfl
      rw [encode_eq, hfront, Id3Tag.encode, Id3Tag.fields]
      simp only [List.append_assoc]
    rw [if_pos hid, hsize, syncsafe_toSyncsafe t.length_content, hfront, t.length_encode]
    refine ⟨by omega, fun i hi hi' => ?_⟩
    have hi'' : i - (10 + t.content.length) < t.trailer.length := by omega
    refine ⟨t.trailer[i - (10 + t.content.length)], ?_, Id3Tag.ne_of_mem_trailer (List.getElem_mem hi'')⟩
    have hbefore : (ascii "ID3" ++ t.fields ++ t.content).length = 10 + t.content.length := by
      rw [List.length_append, List.length_append, t.length_fields]
      rfl
    rw [encode_eq, hfront, Id3Tag.encode, List.append_assoc, List.getElem?_append_right (by omega), hbefore,
      List.getElem?_append_left hi'', List.getElem?_eq_getElem hi'']

theorem firstFrame (hb : f.encode.length < 2 ^ 63) :
    number f.encode f.front.length = f.header.toNat ∧ FirstFrame f.encode (tagEnd f.encode) f.front.length := by
  obtain ⟨hnumber, hfound⟩ := frameAt_header hb f.encode_eq
  obtain ⟨hle, hbetween⟩ := f.tagEnd_eq
  refine ⟨hnumber, hle, ?_, hfound, fun i hi hi' => ?_⟩
  · rw [length_encode]
    omega
  · obtain ⟨x, hx, hne⟩ := hbetween i hi hi'
    exact frameAt_of_ne hx hne

/-! ### The tag -/

/-- Where the code looks for the tag: behind side information of the length that it has in a mono frame. -/
def codePlace : Nat := f.front.length + 4 + if f.header.version = .mpeg1 then 17 else 9

/-- The code gets the duration from somewhere else: from a tag in the side information, or from the number of bytes. -/
def Coincides : Prop :=
  if IsTag f.encode f.codePlace ∧ number f.encode (f.codePlace + 4) % 2 = 1 then
    number f.encode (f.codePlace + 8) * f.header.version.samplesPerFrame * 1000 / f.header.sampleRate = f.durationMs
  else
    (f.encode.length - f.front.length) * 8000 ≤ max64 ∧
      (f.encode.length - f.front.length) * 8000 / f.header.bitsPerSecond = f.durationMs

theorem codePlace_le : f.codePlace + 12 ≤ f.encode.length := by
  rw [length_encode]
  unfold codePlace FrameHeader.sideInfoLength
  cases f.header.version with
  | mpeg1 => cases f.header.mode <;> simp <;> omega
  | mpeg2 => cases f.header.mode <;> simp <;> omega
  | mpeg25 => cases f.header.mode <;> simp <;> omega

theorem coincides_of_mono (h : f.header.mode = .mono) : f.Coincides := by
  have hside : f.codePlace = (f.front ++ toBeBytes 4 f.header.toNat ++ f.side).length := by
    rw [List.length_append, List.length_append, length_toBeBytes, f.length_side, codePlace, FrameHeader.sideInfoLength, h]
    cases f.header.version <;> rfl
  have hmagic : fourAt f.encode f.codePlace = ascii (if f.info then "Info" else "Xing") := by
    refine fourAt_append _ _ (toBeBytes 4 f.flags ++ toBeBytes 4 f.frames ++ f.rest) ?_ ?_ hside
    · simp only [encode, List.append_assoc]
    · exact f.length_magic
  have hflags : number f.encode (f.codePlace + 4) = f.flags := by
    refine (congrArg fromBeBytes ?_).trans (fromBeBytes_toBeBytes (show f.flags < 256 ^ 4 from f.flags_lt))
    refine fourAt_append (f.front ++ toBeBytes 4 f.header.toNat ++ f.side ++ ascii (if f.info then "Info" else "Xing")) _
      (toBeBytes 4 f.frames ++ f.rest) ?_ (length_toBeBytes _ _) ?_
    · simp only [encode, List.append_assoc]
    · rw [List.length_append, ← hside, f.length_magic]
  have hframes : number f.encode (f.codePlace + 8) = f.frames := by
    refine (congrArg fromBeBytes ?_).trans (fromBeBytes_toBeBytes (show f.frames < 256 ^ 4 from f.frames_lt))
    refine fourAt_append (f.front ++ toBeBytes 4 f.header.toNat ++ f.side ++ ascii (if f.info then "Info" else "Xing") ++
      toBeBytes 4 f.flags) _ f.rest ?_ (length_toBeBytes _ _) ?_
    · simp only [encode, List.append_assoc]
    · rw [List.length_append, List.length_append, ← hside, f.length_magic, length_toBeBytes]
  have hplace := f.codePlace_le
  have htag : IsTag f.encode f.codePlace := by
    refine ⟨by omega, ?_⟩
    rw [hmagic]
    cases f.info with
    | true => exact Or.inr rfl
    | false => exact Or.inl rfl
  unfold Coincides
  rw [if_pos ⟨htag, by rw [hflags]; exact f.flags_odd⟩, hframes]
  rfl

end Mp3File

theorem msFromFrames_eq {total rate : Nat} (hrate : rate ≠ 0) (htotal : total * 1000 ≤ max64) :
    msFromFrames total rate = positive32 (total * 1000 / rate) := by
  unfold msFromFrames saturatingMul
  rw [if_neg hrate, Nat.min_eq_left htotal, div64_of_ne_zero hrate, value_bind]

theorem estimatedMs_eq_iff {b : Bytes} {frame bitrate e : Nat} (hbitrate : bitrate ≠ 0) (hpos : 0 < e) (hlt : e < 2 ^ 32) :
    estimatedMs b frame bitrate = value e ↔
      (b.length - frame) * 8000 ≤ max64 ∧ (b.length - frame) * 8000 / bitrate = e := by
  unfold estimatedMs
  rw [if_neg hbitrate]
  by_cases hfits : (b.length - frame) * 8000 ≤ max64
  · have hproduct : saturatingMul (b.length - frame) 8 * 1000 = (b.length - frame) * 8000 := by
      unfold saturatingMul
      rw [Nat.min_eq_left (by omega)]
      omega
    rw [mul64_of_le (hproduct.trans_le hfits), value_bind, hproduct, div64_of_ne_zero hbitrate, value_bind,
      positive32_eq_value_iff hpos hlt]
    exact (and_iff_right hfits).symm
  · have hpanic : mul64 (saturatingMul (b.length - frame) 8) 1000 = panic .overflow :=
      if_neg (mt (saturatingMul_le_iff _).mp hfits)
    rw [hpanic, panic_bind]
    refine iff_of_false (by simp) fun h => hfits h.1

theorem le_number_cons {x : UInt8} {rest : Bytes} (h : 3 ≤ rest.length) : x.toNat * 2 ^ 24 ≤ number (x :: rest) 0 := by
  match rest, h with
  | y :: z :: w :: rest, _ =>
    change x.toNat * 2 ^ 24 ≤ (((0 * 256 + x.toNat) * 256 + y.toNat) * 256 + z.toNat) * 256 + w.toNat
    omega

namespace Mp3File

variable (f : Mp3File)

/-- The reader of MPEG streams is exact for mono frames and by coincidence. -/
theorem mp3DurationMs_eq_iff (hb : f.encode.length < 2 ^ 63) (hpos : 0 < f.durationMs) (hlt : f.durationMs < 2 ^ 32) :
    mp3DurationMs f.encode = value f.durationMs ↔ f.header.mode = .mono ∨ f.Coincides := by
  obtain ⟨hnumber, hframe⟩ := f.firstFrame hb
  have hplace := f.codePlace_le
  have hxing : xingOffset f.encode f.front.length = f.codePlace := by
    rw [xingOffset, hnumber, FrameHeader.sideInfo_toNat, codePlace]
  have hrate : f.header.sampleRate ≠ 0 := by
    intro hzero
    rw [durationMs, hzero, Nat.div_zero] at hpos
    omega
  have hbitrate := f.header.bitsPerSecond_ne_zero
  have hheader := f.header.parse_toNat
  rw [← hnumber] at hheader
  have hfits : f.codePlace + 12 ≤ max64 := by
    unfold max64
    omega
  rw [mp3DurationMs_eq hb (by omega) hframe hheader, hxing, taggedFrames_eq hb hfits, if_pos (show _ + 8 ≤ _ by omega),
    if_pos hplace, or_iff_right_of_imp f.coincides_of_mono, Nat.and_one_is_mod]
  unfold Coincides
  by_cases htag : IsTag f.encode f.codePlace
  · rw [if_pos htag]
    by_cases hcount : number f.encode (f.codePlace + 4) % 2 = 1
    · have hlt' := number_lt f.encode (f.codePlace + 8)
      have hsamples := f.header.samplesPerFrame_le
      have hproduct : number f.encode (f.codePlace + 8) * f.header.version.samplesPerFrame ≤ 2 ^ 32 * 1152 :=
        Nat.mul_le_mul hlt'.le hsamples
      rw [if_pos (by omega), value_bind, if_pos ⟨htag, hcount⟩]
      dsimp only
      rw [mul64_of_le (by unfold max64; omega), value_bind, msFromFrames_eq hrate (by unfold max64; omega),
        positive32_eq_value_iff hpos hlt]
    · rw [if_neg (by omega), value_bind, if_neg fun h => hcount h.2]
      exact estimatedMs_eq_iff hbitrate hpos hlt
  · rw [if_neg htag, value_bind, if_neg fun h => htag h.1]
    exact estimatedMs_eq_iff hbitrate hpos hlt

/-- A file that is taken for an MP4 file has no duration: its first box would go beyond what is searched. -/
theorem mp4DurationMs_encode (hb : f.encode.length < 2 ^ 63) (h : fourAt f.encode 4 = ascii "ftyp") :
    mp4DurationMs f.encode = missing := by
  -- read as the size of a box, the beginning of a tag or of a frame is more than what is searched
  have hsize : 2 ^ 20 ≤ number f.encode 0 := by
    have hlen := f.length_encode
    rcases f.encode_begins with ⟨rest, hrest⟩ | ⟨-, second, rest, hrest, -⟩
    · change f.encode = 0x49 :: (0x44 :: 0x33 :: rest) at hrest
      have hrest' : 3 ≤ (0x44 :: 0x33 :: rest : Bytes).length := by
        rw [hrest, List.length_cons] at hlen
        omega
      rw [hrest]
      exact le_trans (by decide) (le_number_cons hrest')
    · have hrest' : 3 ≤ (second :: rest).length := by
        rw [hrest, List.length_cons] at hlen
        omega
      rw [hrest]
      exact le_trans (by decide) (le_number_cons hrest')
  have hlt := number_lt f.encode 0
  have hsearched : searched f.encode ≤ 2 ^ 20 := Nat.min_le_right _ _
  have hbox : boxSize f.encode 0 (searched f.encode) = some (number f.encode 0) := by
    unfold boxSize
    rw [if_neg (by omega), if_neg (by omega)]
  have hfind : findBox f.encode (ascii "mvhd") 0 (searched f.encode) = missing := by
    rw [findBox_searched hb, boxEvents]
    split
    · rw [hbox]
      dsimp only
      rw [dif_pos ⟨by omega, by unfold max64; omega⟩, Nat.zero_add, h, if_neg (by decide), boxEvents, dif_neg (by omega),
        List.nil_append, search, if_neg (by decide), search, add64_of_le (by unfold max64; omega), value_bind]
      rfl
    · rfl
  unfold mp4DurationMs
  change (findBox f.encode (ascii "mvhd") 0 (searched f.encode) >>= _) = missing
  rw [hfind, missing_bind]

/-- When the probe is exact for an MP3 file. -/
structure Exact : Prop where
  notMp4 : fourAt f.encode 4 ≠ ascii "ftyp"
  place : f.header.mode = .mono ∨ f.Coincides

theorem probeDurationMs_eq_iff (hb : f.encode.length < 2 ^ 63) (hpos : 0 < f.durationMs) (hlt : f.durationMs < 2 ^ 32) :
    probeDurationMs f.encode = value f.durationMs ↔ f.Exact := by
  rw [Audio.probeDurationMs_eq, format_eq]
  by_cases hmp4 : fourAt f.encode 4 = ascii "ftyp"
  · rw [if_pos hmp4, ofOption_some, value_bind]
    refine iff_of_false ?_ fun h => h.notMp4 hmp4
    change mp4DurationMs f.encode ≠ _
    rw [f.mp4DurationMs_encode hb hmp4]
    simp
  · rw [if_neg hmp4, ofOption_some, value_bind]
    refine (f.mp3DurationMs_eq_iff hb hpos hlt).trans ?_
    constructor
    · exact fun h => ⟨hmp4, h⟩
    · exact Exact.place

end Mp3File

/-- When the probe is exact for a file. -/
def AudioFile.Exact : AudioFile → Prop
  | wav _ => True
  | mp3 f => f.Exact

/-- The probe returns the duration that a well-formed file states exactly when it is a WAV file, or an MP3 file with a mono
frame or a coincidence. -/
theorem probeDurationMs_exact_iff (f : AudioFile) (hb : f.encode.length < 2 ^ 63) (hpos : 0 < f.durationMs)
    (hlt : f.durationMs < 2 ^ 32) : probeDurationMs f.encode = value f.durationMs ↔ f.Exact := by
  cases f with
  | wav f => exact iff_of_true (probeDurationMs_wav hb hpos hlt) trivial
  | mp3 f => exact f.probeDurationMs_eq_iff hb hpos hlt

/-- A file without a tag in front, whose first frame (MPEG-1, 128 kbit/s, 44.1 kHz) says that there are 1000 frames. -/
def thousandFrames (mode : ChannelMode) : Mp3File where
  tag := none
  header := ⟨.mpeg1, 1, 8, 0, 0, mode, 0⟩
  side := List.replicate (FrameHeader.sideInfoLength ⟨.mpeg1, 1, 8, 0, 0, mode, 0⟩) 0
  info := false
  flags := 1
  frames := 1000
  rest := []
  length_side := List.length_replicate
  flags_lt := by decide
  flags_odd := rfl
  frames_lt := by decide

theorem probeDurationMs_mono : probeDurationMs (thousandFrames .mono).encode = value 26122 :=
  (probeDurationMs_exact_iff (.mp3 (thousandFrames .mono)) (by decide) (by decide) (by decide)).mpr ⟨by decide, Or.inl rfl⟩

/-- In a stereo frame the tag is not found. -/
theorem probeDurationMs_stereo :
    (thousandFrames .stereo).durationMs = 26122 ∧ probeDurationMs (thousandFrames .stereo).encode ≠ value 26122 := by
  refine ⟨by decide, fun h => ?_⟩
  have hexact := (Mp3File.probeDurationMs_eq_iff (thousandFrames .stereo) (by decide) (by decide) (by decide)).mp h
  have hnot : ¬ (thousandFrames .stereo).Coincides := by
    unfold Mp3File.Coincides
    rw [if_neg (by decide)]
    decide
  rcases hexact.place with hmono | hcoincides
  · cases hmono
  · exact hnot hcoincides

end OpenProxy.Audio
