import OpenProxy.Data.Checked
import OpenProxy.Data.Encoding

/-!
# The duration of audio files

`probeDurationMs` reads the duration of an audio file out of the headers of its container: the chunks of a WAV file, the
last page of an Ogg file, the `STREAMINFO` of a FLAC file, the `mvhd` box of an MP4 file, and the first frame of an MPEG
stream.  Every sum, product, quotient, index and slice is checked, and every loop is a recursion on what is left to read.
-/

namespace OpenProxy.Audio

open Checked

/-- A byte string of the source. -/
def ascii (s : String) : Bytes := s.toList.map fun c => UInt8.ofNat c.toNat

/-! ### Numbers -/

/-- `be_u32`. -/
def beU32 (b : Bytes) (off : Nat) : Checked Nat := do
  let stop ← checkedAdd off 4
  let s ← ofOption (getRange b off stop)
  let s ← indices s 4
  value (fromBeBytes s)

/-- `le_u32`. -/
def leU32 (b : Bytes) (off : Nat) : Checked Nat := do
  let stop ← checkedAdd off 4
  let s ← ofOption (getRange b off stop)
  let s ← indices s 4
  value (fromBeBytes s.reverse)

/-- `u32::try_from(ms).ok().filter(|m| *m > 0)`. -/
def positive32 (ms : Nat) : Checked Nat := ofOption ((tryFrom32 ms).filter (0 < ·))

/-- `ms_from_frames`. -/
def msFromFrames (frames rate : Nat) : Checked Nat :=
  if rate = 0 then missing
  else do
    let ms ← div64 (saturatingMul frames 1000) rate
    positive32 ms

/-! ### WAV -/

/-- The length of the data of a chunk that declares `size` bytes. -/
def dataLength (b : Bytes) (body size : Nat) : Option Nat :=
  let available := b.length - body
  tryFrom32 (if size = 0 ∨ available < size then available else size)

/-- The size of a chunk with its header and its padding. -/
def paddedSize (size : Nat) : Nat := size + 8 + (size + 8) % 2

/-- The loop of `wav_duration_ms`, from a chunk on: the byte rate and the length of the data. -/
def wavChunks (b : Bytes) (off : Nat) (byteRate dataLen : Option Nat) : Checked (Option Nat × Option Nat) := do
  let _ ← add64 off 8
  if _h : off + 8 ≤ b.length then do
    let _ ← add64 off 4
    let id ← ofOption (getRange b off (off + 4))
    let size ← leU32 b (off + 4)
    let rate ← (if id = ascii "fmt " then do
        let _ ← add64 (off + 8) 8
        attempt (leU32 b (off + 8 + 8))
      else value byteRate)
    let len := if id = ascii "data" then dataLength b (off + 8) size else dataLen
    if rate.isSome ∧ len.isSome then value (rate, len)
    else do
      let _ ← checkedAdd size 8
      let _ ← checkedAdd (size + 8) ((size + 8) % 2)
      let _ ← checkedAdd off (paddedSize size)
      wavChunks b (off + paddedSize size) rate len
  else value (byteRate, dataLen)
termination_by b.length - off
decreasing_by
  unfold paddedSize
  omega

/-- `wav_duration_ms`. -/
def wavDurationMs (b : Bytes) : Checked Nat := do
  let (byteRate, dataLen) ← wavChunks b 12 none none
  let rate ← ofOption byteRate
  let len ← ofOption dataLen
  if rate = 0 then missing
  else do
    let product ← mul64 len 1000
    let ms ← div64 product rate
    positive32 ms

/-! ### Ogg -/

/-- `ogg_sample_rate`. -/
def oggSampleRate (b : Bytes) : Checked Nat := do
  let segments ← ofOption b[26]?
  let payload ← checkedAdd 27 segments.toNat
  let stop ← add64 payload 8
  let magic ← ofOption (getRange b payload stop)
  if (ascii "OpusHead").isPrefixOf magic then value 48000
  else if (1 :: ascii "vorbis").isPrefixOf magic then do
    let off ← add64 payload 12
    leU32 b off
  else if (ascii "Speex   ").isPrefixOf magic then do
    let off ← add64 payload 36
    leU32 b off
  else missing

/-- The loop of `ogg_duration_ms`, which looks backwards for the last page. -/
def lastPage (b : Bytes) (i : Nat) : Checked (Option Nat) := do
  let stop ← add64 i 4
  let s ← ofOption (getRange b i stop)
  if s = ascii "OggS" then value (some i)
  else
    match i with
    | 0 => value none
    | i + 1 => lastPage b i

/-- `ogg_duration_ms`. -/
def oggDurationMs (b : Bytes) : Checked Nat := do
  let rate ← oggSampleRate b
  let last ← lastPage b (b.length - 4)
  let page ← ofOption last
  let start ← add64 page 6
  let stop ← add64 page 14
  let granule ← ofOption (getRange b start stop)
  let granule ← indices granule 8
  let granule := fromBeBytes granule.reverse
  if granule = max64 then missing else msFromFrames granule rate

/-! ### FLAC -/

/-- `flac_duration_ms`. -/
def flacDurationMs (b : Bytes) : Checked Nat := do
  let info ← ofOption (getRange b 18 26)
  let info ← indices info 8
  let byte (i : Nat) : Nat := (info.getD i 0).toNat
  -- The fields do not share bits, so that they are put together by addition.
  let rate := byte 0 * 2 ^ 12 + byte 1 * 2 ^ 4 + byte 2 / 2 ^ 4
  let total := byte 3 % 2 ^ 4 * 2 ^ 32 + byte 4 * 2 ^ 24 + byte 5 * 2 ^ 16 + byte 6 * 2 ^ 8 + byte 7
  msFromFrames total rate

/-! ### MP4 -/

/-- The boxes that are searched, too. -/
def isContainer (ty : Bytes) : Bool := ty = ascii "moov" || ty = ascii "trak" || ty = ascii "mdia"

/-- The number of bytes from a box to the next one. -/
def boxAdvance (b : Bytes) (off stop size : Nat) : Checked Nat :=
  if size = 0 then sub64 stop off
  else if size = 1 then do
    let offHi ← add64 off 8
    let hi ← beU32 b offHi
    let offLo ← add64 off 12
    let lo ← beU32 b offLo
    value (hi * 2 ^ 32 + lo)
  else value size

/-- `find_box`. -/
def findBox (b kind : Bytes) (off stop : Nat) : Checked Nat := do
  let _ ← add64 off 8
  if _h : off + 8 ≤ stop then do
    let size ← beU32 b off
    let _ ← add64 off 4
    let ty ← ofOption (getRange b (off + 4) (off + 8))
    if ty = kind then value off
    else do
      let advance ← boxAdvance b off stop size
      if _hadvance : advance < 8 then missing
      else do
        let found ← (if isContainer ty then do
            let innerEnd ← checkedAdd off advance
            attempt (findBox b kind (off + 8) (min innerEnd stop))
          else value none)
        match found with
        | some found => value found
        | none => do
          let _ ← checkedAdd off advance
          findBox b kind (off + advance) stop
  else missing
termination_by stop - off

/-- `mp4_duration_ms`. -/
def mp4DurationMs (b : Bytes) : Checked Nat := do
  let mvhd ← findBox b (ascii "mvhd") 0 (min b.length (2 ^ 20))
  let body ← add64 mvhd 8
  let version ← ofOption b[body]?
  if version = 1 then do
    let off ← add64 body 20
    let timescale ← beU32 b off
    let off ← add64 body 24
    let hi ← beU32 b off
    let off ← add64 body 28
    let lo ← beU32 b off
    msFromFrames (hi * 2 ^ 32 + lo) timescale
  else do
    let off ← add64 body 12
    let timescale ← beU32 b off
    let off ← add64 body 16
    let dur ← beU32 b off
    msFromFrames dur timescale

/-! ### MPEG -/

/-- What `parse_mpeg_header` returns. -/
structure MpegHeader where
  rate : Nat
  bitrate : Nat
  samplesPerFrame : Nat
  deriving DecidableEq, Repr

/-- The bitrates of a layer, in thousands, for version 1 and for the others. -/
def bitrateTables (layer : Nat) : List Nat × List Nat :=
  if layer = 3 then
    ([0, 32, 64, 96, 128, 160, 192, 224, 256, 288, 320, 352, 384, 416, 448, 0],
      [0, 32, 48, 56, 64, 80, 96, 112, 128, 144, 160, 176, 192, 224, 256, 0])
  else if layer = 2 then
    ([0, 32, 48, 56, 64, 80, 96, 112, 128, 160, 192, 224, 256, 320, 384, 0],
      [0, 8, 16, 24, 32, 40, 48, 56, 64, 80, 96, 112, 128, 144, 160, 0])
  else
    ([0, 32, 40, 48, 56, 64, 80, 96, 112, 128, 160, 192, 224, 256, 320, 0],
      [0, 8, 16, 24, 32, 40, 48, 56, 64, 80, 96, 112, 128, 144, 160, 0])

/-- The sample rate of a version. -/
def versionRate (version baseRate : Nat) : Checked Nat :=
  if version = 3 then value baseRate
  else if version = 2 then value (baseRate / 2)
  else if version = 0 then value (baseRate / 4)
  else missing

/-- The number of samples in a frame. -/
def frameSamples (layer version : Nat) : Nat :=
  if layer = 3 then 384 else if layer = 2 then 1152 else if version = 3 then 1152 else 576

/-- `parse_mpeg_header`. -/
def parseMpegHeader (h : Nat) : Checked MpegHeader :=
  if h >>> 21 &&& 0x7FF ≠ 0x7FF then missing
  else
    let version := h >>> 19 &&& 0x3
    let layer := h >>> 17 &&& 0x3
    let bitrateIdx := h >>> 12 &&& 0xF
    let rateIdx := h >>> 10 &&& 0x3
    if version = 1 ∨ layer = 0 ∨ bitrateIdx = 0 ∨ bitrateIdx = 0xF ∨ rateIdx = 3 then missing
    else do
      let baseRate ← index [44100, 48000, 32000] rateIdx
      let rate ← versionRate version baseRate
      let kbps ← index (if version = 3 then (bitrateTables layer).1 else (bitrateTables layer).2) bitrateIdx
      if kbps = 0 then missing
      else do
        let bitrate ← mul32 kbps 1000
        value ⟨rate, bitrate, frameSamples layer version⟩

/-- The bytes at an offset begin a frame. -/
def frameAt (b : Bytes) (i : Nat) : Checked Bool := do
  let first ← index b i
  if first ≠ 0xFF then value false
  else do
    let next ← add64 i 1
    if !(b[next]?.any fun v => v &&& 0xE0 = 0xE0) then value false
    else do
      let header ← attempt (beU32 b i)
      match header with
      | none => value false
      | some h => do
        let parsed ← attempt (parseMpegHeader h)
        value parsed.isSome

/-- `find_mpeg_frame`. -/
def findMpegFrame (b : Bytes) (i : Nat) : Checked Nat := do
  let _ ← add64 i 4
  if _h : i + 4 ≤ b.length then do
    let found ← frameAt b i
    if found then value i
    else do
      let _ ← add64 i 1
      findMpegFrame b (i + 1)
  else missing
termination_by b.length - i

/-- `looks_like_mpeg_audio`. -/
def looksLikeMpegAudio (b : Bytes) : Bool := b.head? = some 0xFF && b[1]?.any fun v => v &&& 0xE0 = 0xE0

/-- The size in the header of an ID3v2 tag: seven bits of each of its four bytes. -/
def syncsafe (size : Bytes) : Nat := size.foldl (fun n x => n * 2 ^ 7 + x.toNat % 2 ^ 7) 0

/-- Where the frames of an MPEG stream may begin: behind the ID3v2 tag, if there is one. -/
def audioStart (b : Bytes) : Checked Nat :=
  if (ascii "ID3").isPrefixOf b then do
    let size ← ofOption (getRange b 6 10)
    let size ← indices size 4
    checkedAdd 10 (syncsafe size)
  else value 0

/-- The size that the side information is taken to have. -/
def sideInfo (header : Nat) : Nat := if header >>> 19 &&& 0x3 = 3 then 17 else 9

/-- The number of frames in the tag at an offset, if there is a tag with such a number. -/
def taggedFrames (b : Bytes) (xingOff : Nat) : Checked (Option Nat) := do
  let stop ← add64 xingOff 4
  match getRange b xingOff stop with
  | none => value none
  | some tag =>
    if tag = ascii "Xing" ∨ tag = ascii "Info" then do
      let off ← add64 xingOff 4
      let flags ← beU32 b off
      if flags &&& 0x1 ≠ 0 then do
        let off ← add64 xingOff 8
        let frames ← beU32 b off
        value (some frames)
      else value none
    else value none

/-- The duration at a constant bitrate. -/
def estimatedMs (b : Bytes) (frame bitrate : Nat) : Checked Nat :=
  if bitrate = 0 then missing
  else do
    let product ← mul64 (saturatingMul (b.length - frame) 8) 1000
    let ms ← div64 product bitrate
    positive32 ms

/-- `mp3_duration_ms`. -/
def mp3DurationMs (b : Bytes) : Checked Nat := do
  let start ← audioStart b
  let frame ← findMpegFrame b start
  let header ← beU32 b frame
  let ⟨rate, bitrate, samplesPerFrame⟩ ← parseMpegHeader header
  let off ← add64 frame 4
  let xingOff ← add64 off (sideInfo header)
  let tagged ← taggedFrames b xingOff
  match tagged with
  | some frames => do
    let totalSamples ← mul64 frames samplesPerFrame
    msFromFrames totalSamples rate
  | none => estimatedMs b frame bitrate

/-! ### All containers -/

/-- `probe_duration_ms`. -/
def probeDurationMs (b : Bytes) : Checked Nat :=
  if b.length < 12 then missing
  else do
    let isWave ← (if (ascii "RIFF").isPrefixOf b then do
        let form ← sliceRange b 8 12
        value (form = ascii "WAVE" : Bool)
      else value false)
    if isWave then wavDurationMs b
    else if (ascii "OggS").isPrefixOf b then oggDurationMs b
    else if (ascii "fLaC").isPrefixOf b then flacDurationMs b
    else do
      let ty ← sliceRange b 4 8
      if ty = ascii "ftyp" then mp4DurationMs b
      else if (ascii "ID3").isPrefixOf b ∨ looksLikeMpegAudio b then mp3DurationMs b
      else missing

end OpenProxy.Audio
