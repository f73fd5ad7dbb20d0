import OpenProxy.Audio.Probe

/-!
# Well-formed audio files

WAV files and MP3 files as they are written, put together from their parts, with the duration that they state: a WAV file
has a `fmt ` chunk with its byte rate and a `data` chunk, and an MP3 file has the number of its frames in a tag behind the
side information of its first frame.
-/

namespace OpenProxy.Audio

/-! ### WAV -/

/-- A chunk, with the byte that aligns it when its body has an odd length. -/
structure Chunk where
  id : Bytes
  body : Bytes
  padding : UInt8
  length_id : id.length = 4
  length_body : body.length < 2 ^ 32

/-- What aligns a chunk to words. -/
def Chunk.aligned (c : Chunk) : Bytes := if c.body.length % 2 = 1 then [c.padding] else []

/-- A chunk in a file. -/
def Chunk.encode (c : Chunk) : Bytes := c.id ++ (toBeBytes 4 c.body.length).reverse ++ c.body ++ c.aligned

def Chunk.isFormat (c : Chunk) : Bool := c.id = ascii "fmt "

def Chunk.isData (c : Chunk) : Bool := c.id = ascii "data"

/-- The byte rate in the body of a `fmt ` chunk. -/
def Chunk.byteRate (c : Chunk) : Nat := fromBeBytes ((c.body.drop 8).take 4).reverse

/-- A RIFF/WAVE file: its size field and its chunks, one of which is the `fmt ` chunk and one the `data` chunk. -/
structure WavFile where
  size : Bytes
  chunks : List Chunk
  format : Chunk
  data : Chunk
  length_size : size.length = 4
  one_format : chunks.filter Chunk.isFormat = [format]
  one_data : chunks.filter Chunk.isData = [data]
  length_format : 12 ≤ format.body.length

def WavFile.encode (f : WavFile) : Bytes := ascii "RIFF" ++ f.size ++ ascii "WAVE" ++ f.chunks.flatMap Chunk.encode

def WavFile.durationMs (f : WavFile) : Nat := f.data.body.length * 1000 / f.format.byteRate

/-! ### MP3 -/

inductive MpegVersion
  | mpeg1
  | mpeg2
  | mpeg25
  deriving DecidableEq, Repr

inductive ChannelMode
  | stereo
  | jointStereo
  | dualChannel
  | mono
  deriving DecidableEq, Repr

/-- The two bits of a version. -/
def MpegVersion.bits : MpegVersion → Nat
  | mpeg1 => 3
  | mpeg2 => 2
  | mpeg25 => 0

/-- The two bits of a channel mode. -/
def ChannelMode.bits : ChannelMode → Nat
  | stereo => 0
  | jointStereo => 1
  | dualChannel => 2
  | mono => 3

def MpegVersion.sampleRates : MpegVersion → List Nat
  | mpeg1 => [44100, 48000, 32000]
  | mpeg2 => [22050, 24000, 16000]
  | mpeg25 => [11025, 12000, 8000]

/-- The bitrates of Layer III, in thousands. -/
def MpegVersion.bitrates : MpegVersion → List Nat
  | mpeg1 => [32, 40, 48, 56, 64, 80, 96, 112, 128, 160, 192, 224, 256, 320]
  | _ => [8, 16, 24, 32, 40, 48, 56, 64, 80, 96, 112, 128, 144, 160]

/-- The number of samples in a frame of Layer III. -/
def MpegVersion.samplesPerFrame : MpegVersion → Nat
  | mpeg1 => 1152
  | _ => 576

/-- The header of a frame of Layer III.  `padding` is the padding bit with the private bit, and `trailing` are the bits from
the mode extension on. -/
structure FrameHeader where
  version : MpegVersion
  protection : Fin 2
  bitrate : Fin 14
  rate : Fin 3
  padding : Fin 4
  mode : ChannelMode
  trailing : Fin 64
  deriving DecidableEq

namespace FrameHeader

def sampleRate (h : FrameHeader) : Nat := h.version.sampleRates.getD h.rate 0

def bitsPerSecond (h : FrameHeader) : Nat := h.version.bitrates.getD h.bitrate 0 * 1000

/-- The length of the side information. -/
def sideInfoLength (h : FrameHeader) : Nat :=
  match h.version, h.mode with
  | .mpeg1, .mono => 17
  | .mpeg1, _ => 32
  | _, .mono => 9
  | _, _ => 17

/-- The 32 bits of a header. -/
def toNat (h : FrameHeader) : Nat :=
  0x7FF * 2 ^ 21 + h.version.bits * 2 ^ 19 + 2 ^ 17 + h.protection * 2 ^ 16 + (h.bitrate + 1) * 2 ^ 12 + h.rate * 2 ^ 10 +
    h.padding * 2 ^ 8 + h.mode.bits * 2 ^ 6 + h.trailing

end FrameHeader

/-- A number of 28 bits in four bytes of seven bits. -/
def toSyncsafe (n : Nat) : Bytes := [n / 2 ^ 21, n / 2 ^ 14, n / 2 ^ 7, n].map fun x => UInt8.ofNat (x % 2 ^ 7)

/-- An ID3v2 tag: its two version bytes, its flags and its content.  A tag may have a footer. -/
structure Id3Tag where
  major : UInt8
  revision : UInt8
  flags : UInt8
  content : Bytes
  footer : Bool
  version_ne : major ≠ 0xFF ∧ revision ≠ 0xFF
  flags_ne : flags ≠ 0xFF
  length_content : content.length < 2 ^ 28

/-- What comes behind the identifier of a tag, in its header and in its footer. -/
def Id3Tag.fields (t : Id3Tag) : Bytes := [t.major, t.revision, t.flags] ++ toSyncsafe t.content.length

def Id3Tag.trailer (t : Id3Tag) : Bytes := if t.footer then ascii "3DI" ++ t.fields else []

def Id3Tag.encode (t : Id3Tag) : Bytes := ascii "ID3" ++ t.fields ++ t.content ++ t.trailer

/-- An MP3 file whose first frame has a tag `Xing` or `Info` with the number of frames. -/
structure Mp3File where
  tag : Option Id3Tag
  header : FrameHeader
  side : Bytes
  info : Bool
  flags : Nat
  frames : Nat
  rest : Bytes
  length_side : side.length = header.sideInfoLength
  flags_lt : flags < 2 ^ 32
  flags_odd : flags % 2 = 1
  frames_lt : frames < 2 ^ 32

namespace Mp3File

/-- What comes before the first frame. -/
def front (f : Mp3File) : Bytes :=
  match f.tag with
  | some t => t.encode
  | none => []

def encode (f : Mp3File) : Bytes :=
  f.front ++ toBeBytes 4 f.header.toNat ++ f.side ++ ascii (if f.info then "Info" else "Xing") ++ toBeBytes 4 f.flags ++
    toBeBytes 4 f.frames ++ f.rest

def durationMs (f : Mp3File) : Nat := f.frames * f.header.version.samplesPerFrame * 1000 / f.header.sampleRate

end Mp3File

/-- A well-formed file of one of the two kinds. -/
inductive AudioFile
  | wav (f : WavFile)
  | mp3 (f : Mp3File)

def AudioFile.encode : AudioFile → Bytes
  | wav f => f.encode
  | mp3 f => f.encode

/-- The duration that a file states. -/
def AudioFile.durationMs : AudioFile → Nat
  | wav f => f.durationMs
  | mp3 f => f.durationMs

end OpenProxy.Audio
