import Mathlib.Data.List.GetD
import OpenProxy.Data.Checked
import OpenProxy.Data.Encoding

/-!
# The inpainting mask of a PNG file

The model of `images/png_mask.rs`.  `extract_png_alpha_mask` walks over the chunks of the file, undoes the filters of the rows
and writes a grayscale file with the mask.  Arithmetic of `usize` and indices are checked; whatever the file is, none of them
fails (`noPanic_extractPngAlphaMask`).  The compression is a parameter.
-/

namespace OpenProxy.Images

open Checked

/-- `compress_to_vec_zlib` at level 6 and `decompress_to_vec_zlib`: they undo each other, and what is decompressed is a vector
of bytes; a stream has at least its header, and it is never much longer than the data. -/
structure Zlib where
  compress : Bytes → Bytes
  decompress : Bytes → Option Bytes
  decompress_compress : ∀ data, data.length < 2 ^ 63 → decompress (compress data) = some data
  length_decompress : ∀ stream data, decompress stream = some data → data.length < 2 ^ 63
  decompress_nil : decompress [] = none
  length_compress : ∀ data, (compress data).length ≤ 2 * data.length + 64

/-! ### Chunks -/

def paethPredictor (a b c : UInt8) : UInt8 :=
  let p : Int := a.toNat + b.toNat - c.toNat
  let pa := (p - a.toNat).natAbs
  let pb := (p - b.toNat).natAbs
  let pc := (p - c.toNat).natAbs
  if pa ≤ pb ∧ pa ≤ pc then a else if pb ≤ pc then b else c

/-- One of the eight steps for a byte. -/
def crcShift (crc : BitVec 32) : BitVec 32 := if crc &&& 1 ≠ 0 then (crc >>> 1) ^^^ 0xEDB88320 else crc >>> 1

def pngCrc32Chunk (chunkType data : Bytes) : BitVec 32 :=
  ~~~((chunkType ++ data).foldl (fun crc b => crcShift^[8] (crc ^^^ b.toBitVec.setWidth 32)) 0xFFFFFFFF)

def writePngChunk (buf chunkType data : Bytes) : Bytes :=
  buf ++ toBeBytes 4 (data.length % 2 ^ 32) ++ chunkType ++ data ++ toBeBytes 4 (pngCrc32Chunk chunkType data).toNat

def pngSig : Bytes := [0x89, 0x50, 0x4E, 0x47, 0x0D, 0x0A, 0x1A, 0x0A]

/-- `b"IHDR"`, `b"IDAT"` and `b"IEND"`. -/
def ihdrType : Bytes := [0x49, 0x48, 0x44, 0x52]

def idatType : Bytes := [0x49, 0x44, 0x41, 0x54]

def iendType : Bytes := [0x49, 0x45, 0x4E, 0x44]

structure PngHeader where
  width : Nat
  height : Nat
  colorType : UInt8
  idatData : Bytes

def isValidIhdrFormat (bitDepth compression filter interlace colorType : UInt8) : Bool :=
  bitDepth == 8 && compression == 0 && filter == 0 && interlace == 0 && (colorType == 4 || colorType == 6)

/-- `u32::from_be_bytes` of four bytes, each by its index. -/
def u32At (b : Bytes) (offset : Nat) : Checked Nat := do
  let b0 ← index b offset
  let b1 ← index b (offset + 1)
  let b2 ← index b (offset + 2)
  let b3 ← index b (offset + 3)
  value (fromBeBytes [b0, b1, b2, b3])

def parseIhdrChunk (data : Bytes) : Checked (Nat × Nat × UInt8) :=
  if data.length < 13 then missing
  else do
    let width ← u32At data 0
    let height ← u32At data 4
    let bitDepth ← index data 8
    let colorType ← index data 9
    let compression ← index data 10
    let filter ← index data 11
    let interlace ← index data 12
    if !isValidIhdrFormat bitDepth compression filter interlace colorType then missing
    else value (width, height, colorType)

/-- The loop of `parse_png_chunks`. -/
def chunkLoop (b : Bytes) (offset : Nat) (acc : PngHeader) : Checked PngHeader := do
  let _ ← add64 offset 8
  if _h : offset + 8 ≤ b.length then do
    let chunkLen ← u32At b offset
    let chunkType ← sliceRange b (offset + 4) (offset + 8)
    let dataEnd ← add64 (offset + 8) chunkLen
    let _ ← add64 dataEnd 4
    if b.length < dataEnd + 4 then missing
    else if chunkType = ihdrType then do
      let data ← sliceRange b (offset + 8) dataEnd
      let (width, height, colorType) ← parseIhdrChunk data
      chunkLoop b (offset + 8 + chunkLen + 4) { acc with width := width, height := height, colorType := colorType }
    else if chunkType = idatType then do
      let data ← sliceRange b (offset + 8) dataEnd
      chunkLoop b (offset + 8 + chunkLen + 4) { acc with idatData := acc.idatData ++ data }
    else if chunkType = iendType then value acc
    else chunkLoop b (offset + 8 + chunkLen + 4) acc
  else value acc
termination_by b.length - offset

def parsePngChunks (imageBytes : Bytes) : Checked PngHeader :=
  if !pngSig.isPrefixOf imageBytes then missing
  else do
    let header ← chunkLoop imageBytes 8 ⟨0, 0, 0, []⟩
    if header.width = 0 ∨ header.height = 0 ∨ header.idatData.isEmpty then missing else value header

/-! ### Rows -/

/-- What the filter adds to a byte whose neighbours are `a`, `b` and `c`. -/
def prediction (filterType a b c : UInt8) : UInt8 :=
  if filterType = 1 then a
  else if filterType = 2 then b
  else if filterType = 3 then UInt8.ofNat ((a.toNat + b.toNat) / 2)
  else if filterType = 4 then paethPredictor a b c
  else 0

/-- The byte at the distance of a pixel to the left. -/
def leftIndex (row : Bytes) (i bpp : Nat) : Checked UInt8 := if bpp ≤ i then index row (i - bpp) else value 0

def unfilterStep (filterType : UInt8) (prevRow : Bytes) (bpp : Nat) (currRow : Bytes) (entry : UInt8 × Nat) :
    Checked Bytes := do
  let a ← leftIndex currRow entry.2 bpp
  let b ← index prevRow entry.2
  let c ← leftIndex prevRow entry.2 bpp
  setIndex currRow entry.2 (entry.1 + prediction filterType a b c)

def unfilterPngScanline (filterType : UInt8) (rawData prevRow currRow : Bytes) (bpp : Nat) : Checked Bytes :=
  rawData.zipIdx.foldlM (unfilterStep filterType prevRow bpp) currRow

/-- The mask that is written, and `has_transparency`. -/
abbrev MaskState := Bytes × Bool

def alphaIndex (colorType : UInt8) (px : Nat) : Checked Nat := do
  let start ← mul64 px (if colorType = 6 then 4 else 2)
  add64 start (if colorType = 6 then 3 else 1)

def pixelStep (colorType : UInt8) (currRow : Bytes) (s : MaskState) (px : Nat) : Checked MaskState := do
  let i ← alphaIndex colorType px
  let alpha ← index currRow i
  if alpha < 255 then value (s.1 ++ [255], true) else value (s.1 ++ [0], s.2)

structure RowState where
  prevRow : Bytes
  currRow : Bytes
  mask : MaskState

/-- `copy_from_slice`. -/
def copyFromSlice (dst src : Bytes) : Checked Bytes := if dst.length = src.length then value src else panic .outOfRange

def rowStep (decompressed : Bytes) (width stride bpp : Nat) (colorType : UInt8) (s : RowState) (y : Nat) :
    Checked RowState := do
  let start ← mul64 y stride
  let filterType ← index decompressed start
  let dataStart ← add64 start 1
  let next ← add64 y 1
  let stop ← mul64 next stride
  let rawData ← sliceRange decompressed dataStart stop
  let currRow ← unfilterPngScanline filterType rawData s.prevRow s.currRow bpp
  let mask ← (List.range width).foldlM (pixelStep colorType currRow) (s.mask.1 ++ [0], s.mask.2)
  let prevRow ← copyFromSlice s.prevRow currRow
  value ⟨prevRow, currRow, mask⟩

def bytesPerPixel (colorType : UInt8) : Nat := if colorType = 6 then 4 else 2

def extractMaskScanlines (decompressed : Bytes) (width height : Nat) (colorType : UInt8) : Checked Bytes := do
  let lineLen ← checkedMul width (bytesPerPixel colorType)
  let stride ← add64 1 lineLen
  let expectedLen ← checkedMul height stride
  if decompressed.length ≠ expectedLen then missing
  else do
    let maskStride ← add64 1 width
    let _ ← mul64 height maskStride
    let zeros := List.replicate lineLen 0
    let s ← (List.range height).foldlM (rowStep decompressed width stride (bytesPerPixel colorType) colorType)
      ⟨zeros, zeros, [], false⟩
    if s.mask.2 then value s.mask.1 else missing

/-! ### The mask -/

def encodeGrayscalePng (codec : Zlib) (width height : Nat) (maskScanlines : Bytes) : Bytes :=
  let ihdr := toBeBytes 4 width ++ toBeBytes 4 height ++ [8, 0, 0, 0, 0]
  let out := writePngChunk pngSig ihdrType ihdr
  let out := writePngChunk out idatType (codec.compress maskScanlines)
  writePngChunk out iendType []

def extractPngAlphaMask (codec : Zlib) (imageBytes : Bytes) : Checked Bytes := do
  let header ← parsePngChunks imageBytes
  let decompressed ← ofOption (codec.decompress header.idatData)
  let mask ← extractMaskScanlines decompressed header.width header.height header.colorType
  value (encodeGrayscalePng codec header.width header.height mask)

/-! ### The walk over the chunks does not fail -/

theorem safe_u32At {b : Bytes} {offset : Nat} (h : offset + 4 ≤ b.length) : Safe (u32At b offset) fun n => n < 2 ^ 32 := by
  unfold u32At
  rw [index_of_lt (by omega), value_bind, index_of_lt (by omega), value_bind, index_of_lt (by omega), value_bind,
    index_of_lt (by omega), value_bind, safe_value]
  exact (fromBeBytes_lt _).trans_le (show 256 ^ 4 ≤ 2 ^ 32 by decide)

theorem safe_parseIhdrChunk (data : Bytes) :
    Safe (parseIhdrChunk data) fun p => p.1 < 2 ^ 32 ∧ p.2.1 < 2 ^ 32 := by
  unfold parseIhdrChunk
  split
  · exact trivial
  · simp only [safe_bind]
    refine (safe_u32At (by omega)).mono fun width _ hwidth => (safe_u32At (by omega)).mono fun height _ hheight => ?_
    rw [index_of_lt (by omega), index_of_lt (by omega), index_of_lt (by omega), index_of_lt (by omega),
      index_of_lt (by omega)]
    simp only [safe_value]
    split
    · exact trivial
    · exact ⟨hwidth, hheight⟩

def PngHeader.Fits (h : PngHeader) : Prop := h.width < 2 ^ 32 ∧ h.height < 2 ^ 32

theorem safe_chunkLoop {b : Bytes} (hb : b.length < 2 ^ 63) {offset : Nat} (hoffset : offset + 8 ≤ max64)
    {acc : PngHeader} (hacc : acc.Fits) : Safe (chunkLoop b offset acc) PngHeader.Fits := by
  induction hleft : b.length - offset using Nat.strongRecOn generalizing offset acc with
  | ind left ih =>
    rw [chunkLoop]
    simp only [safe_bind, safe_add64]
    refine ⟨hoffset, ?_⟩
    split
    · rename_i hle
      refine safe_bind.mpr ((safe_u32At (by omega)).mono fun chunkLen _ hlen => ?_)
      rw [sliceRange_of_le (by omega) hle, value_bind]
      simp only [safe_bind, safe_add64]
      refine ⟨by unfold max64; omega, by unfold max64; omega, ?_⟩
      split
      · exact trivial
      · rename_i hstop
        have hnext : offset + 8 + chunkLen + 4 + 8 ≤ max64 := by unfold max64; omega
        have hshrinks : b.length - (offset + 8 + chunkLen + 4) < left := by omega
        split
        · rw [sliceRange_of_le (by omega) (by omega), value_bind]
          refine safe_bind.mpr ((safe_parseIhdrChunk _).mono fun p _ hp => ?_)
          exact ih _ hshrinks hnext ⟨hp.1, hp.2⟩ rfl
        · split
          · rw [sliceRange_of_le (by omega) (by omega), value_bind]
            exact ih _ hshrinks hnext hacc rfl
          · split
            · exact hacc
            · exact ih _ hshrinks hnext hacc rfl
    · exact hacc

theorem safe_parsePngChunks {b : Bytes} (hb : b.length < 2 ^ 63) : Safe (parsePngChunks b) PngHeader.Fits := by
  unfold parsePngChunks
  split
  · exact trivial
  · refine safe_bind.mpr ((safe_chunkLoop hb (by decide) ⟨by decide, by decide⟩).mono fun header _ hheader => ?_)
    split
    · exact trivial
    · exact hheader

/-! ### The loops over the rows do not fail -/

/-- The byte at the distance of a pixel to the left, or zero. -/
def left (row : Bytes) (i bpp : Nat) : UInt8 := if bpp ≤ i then row.getD (i - bpp) 0 else 0

theorem index_eq_getD {row : Bytes} {i : Nat} (h : i < row.length) : index row i = value (row.getD i 0) := by
  rw [index_of_lt h, List.getD_eq_getElem _ _ h]

theorem leftIndex_eq {row : Bytes} {i : Nat} (h : i < row.length) (bpp : Nat) :
    leftIndex row i bpp = value (left row i bpp) := by
  unfold leftIndex left
  split
  · exact index_eq_getD (by omega)
  · rfl

/-- The byte that the step for one byte writes. -/
def unfiltered (filterType : UInt8) (prevRow currRow : Bytes) (bpp i : Nat) (x : UInt8) : UInt8 :=
  x + prediction filterType (left currRow i bpp) (prevRow.getD i 0) (left prevRow i bpp)

theorem unfilterStep_eq {filterType : UInt8} {prevRow currRow : Bytes} {bpp i : Nat} {x : UInt8}
    (hprev : i < prevRow.length) (hcurr : i < currRow.length) :
    unfilterStep filterType prevRow bpp currRow (x, i) =
      value (currRow.set i (unfiltered filterType prevRow currRow bpp i x)) := by
  unfold unfilterStep unfiltered
  rw [leftIndex_eq hcurr, value_bind, index_eq_getD hprev, value_bind, leftIndex_eq hprev, value_bind, setIndex_of_lt hcurr]

theorem returns_unfilterPngScanline (filterType : UInt8) {rawData prevRow currRow : Bytes} (bpp : Nat)
    (hprev : prevRow.length = rawData.length) (hcurr : currRow.length = rawData.length) :
    Returns (unfilterPngScanline filterType rawData prevRow currRow bpp) fun row => row.length = rawData.length := by
  refine returns_foldlM (fun _ (row : Bytes) => row.length = rawData.length) hcurr fun i row entry hentry hrow => ?_
  obtain ⟨x, j⟩ := entry
  have hj := List.mem_zipIdx' (List.mem_of_getElem? hentry)
  exact ⟨_, unfilterStep_eq (by omega) (by omega), List.length_set.trans hrow⟩

theorem bytesPerPixel_cases (colorType : UInt8) :
    (colorType = 6 ∧ bytesPerPixel colorType = 4) ∨ (colorType ≠ 6 ∧ bytesPerPixel colorType = 2) := by
  unfold bytesPerPixel
  split
  · exact Or.inl ⟨‹_›, rfl⟩
  · exact Or.inr ⟨‹_›, rfl⟩

theorem alphaIndex_eq {colorType : UInt8} {px : Nat} (h : px < 2 ^ 32) :
    alphaIndex colorType px = value (px * bytesPerPixel colorType + (bytesPerPixel colorType - 1)) := by
  unfold alphaIndex
  rcases bytesPerPixel_cases colorType with ⟨hcolor, hbpp⟩ | ⟨hcolor, hbpp⟩
  · rw [if_pos hcolor, if_pos hcolor, hbpp, mul64_of_le (by unfold max64; omega), value_bind,
      add64_of_le (by unfold max64; omega)]
  · rw [if_neg hcolor, if_neg hcolor, hbpp, mul64_of_le (by unfold max64; omega), value_bind,
      add64_of_le (by unfold max64; omega)]

/-- The place of the alpha of a pixel is in the row. -/
theorem alpha_lt {width px bpp : Nat} (h : px < width) (hbpp : 0 < bpp) : px * bpp + (bpp - 1) < width * bpp := by
  have hle : (px + 1) * bpp ≤ width * bpp := Nat.mul_le_mul_right _ h
  rw [Nat.add_mul] at hle
  omega

def maskByte (alpha : UInt8) : UInt8 := if alpha < 255 then 255 else 0

theorem pixelStep_eq {colorType : UInt8} {currRow : Bytes} {width px : Nat} (hwidth : width < 2 ^ 32) (hpx : px < width)
    (hcurr : currRow.length = width * bytesPerPixel colorType) (s : MaskState) {alpha : UInt8}
    (halpha : currRow.getD (px * bytesPerPixel colorType + (bytesPerPixel colorType - 1)) 0 = alpha) :
    pixelStep colorType currRow s px = value (s.1 ++ [maskByte alpha], s.2 || decide (alpha < 255)) := by
  have hpos : 0 < bytesPerPixel colorType := by
    rcases bytesPerPixel_cases colorType with ⟨-, hbpp⟩ | ⟨-, hbpp⟩ <;> omega
  unfold pixelStep maskByte
  rw [alphaIndex_eq (by omega), value_bind, index_eq_getD (by rw [hcurr]; exact alpha_lt hpx hpos), value_bind, halpha]
  split
  · rename_i hlt
    rw [decide_eq_true hlt, Bool.or_true]
  · rename_i hlt
    rw [decide_eq_false hlt, Bool.or_false]

/-- The row with its filter byte lies in the decompressed data. -/
theorem row_le {y height k : Nat} (h : y < height) : y * k + k ≤ height * k := by
  rw [← Nat.succ_mul]
  exact Nat.mul_le_mul_right _ h

theorem rowStep_eq {decompressed : Bytes} {width height stride : Nat} {colorType : UInt8} {s : RowState} {y : Nat}
    {raw : Bytes} (hfits : decompressed.length < 2 ^ 63) (hlen : decompressed.length = height * stride) (hy : y < height)
    (hstride : 0 < stride) (hraw : (decompressed.drop (y * stride + 1)).take (stride - 1) = raw) :
    rowStep decompressed width stride (bytesPerPixel colorType) colorType s y = (do
      let currRow ← unfilterPngScanline (decompressed.getD (y * stride) 0) raw s.prevRow s.currRow (bytesPerPixel colorType)
      let mask ← (List.range width).foldlM (pixelStep colorType currRow) (s.mask.1 ++ [0], s.mask.2)
      let prevRow ← copyFromSlice s.prevRow currRow
      value ⟨prevRow, currRow, mask⟩) := by
  have hrow := row_le (k := stride) hy
  have hstop : (y + 1) * stride = y * stride + stride := Nat.succ_mul _ _
  have hyle : y ≤ y * stride := Nat.le_mul_of_pos_right _ hstride
  have hslice : ((decompressed.take (y * stride + stride)).drop (y * stride + 1)) = raw := by
    rw [List.drop_take, show y * stride + stride - (y * stride + 1) = stride - 1 by omega, hraw]
  unfold rowStep
  rw [mul64_of_le (by unfold max64; omega), value_bind, index_eq_getD (by omega), value_bind,
    add64_of_le (by unfold max64; omega), value_bind, add64_of_le (by unfold max64; omega), value_bind,
    mul64_of_le (by rw [hstop]; unfold max64; omega), value_bind, hstop, sliceRange_of_le (by omega) (by omega), value_bind,
    hslice]

theorem returns_rowStep {decompressed : Bytes} {width height lineLen : Nat} {colorType : UInt8} {s : RowState} {y : Nat}
    (hfits : decompressed.length < 2 ^ 63) (hwidth : width < 2 ^ 32) (hline : lineLen = width * bytesPerPixel colorType)
    (hlen : decompressed.length = height * (1 + lineLen)) (hy : y < height) (hprev : s.prevRow.length = lineLen)
    (hcurr : s.currRow.length = lineLen) :
    Returns (rowStep decompressed width (1 + lineLen) (bytesPerPixel colorType) colorType s y) fun t =>
      t.prevRow.length = lineLen ∧ t.currRow.length = lineLen := by
  have hrow := row_le (k := 1 + lineLen) hy
  generalize hraw : (decompressed.drop (y * (1 + lineLen) + 1)).take (1 + lineLen - 1) = raw
  have hlraw : raw.length = lineLen := by
    rw [← hraw, List.length_take, List.length_drop]
    omega
  rw [rowStep_eq hfits hlen hy (by omega) hraw]
  obtain ⟨row, hrow', hlrow⟩ := returns_unfilterPngScanline (decompressed.getD (y * (1 + lineLen)) 0)
    (bytesPerPixel colorType) (hprev.trans hlraw.symm) (hcurr.trans hlraw.symm)
  rw [hrow', value_bind]
  obtain ⟨mask, hmask, -⟩ := returns_foldlM_range (n := width) (f := pixelStep colorType row)
    (s := (s.mask.1 ++ [0], s.mask.2)) (fun _ _ => True) trivial fun px t hpx _ =>
      ⟨_, pixelStep_eq hwidth hpx (by omega) t rfl, trivial⟩
  rw [hmask, value_bind, copyFromSlice, if_pos (by omega), value_bind]
  exact ⟨_, rfl, by dsimp only; omega, by dsimp only; omega⟩

theorem noPanic_extractMaskScanlines {decompressed : Bytes} (hfits : decompressed.length < 2 ^ 63) {width height : Nat}
    (hwidth : width < 2 ^ 32) (hheight : height < 2 ^ 32) (colorType : UInt8) :
    NoPanic (extractMaskScanlines decompressed width height colorType) := by
  have hbpp : bytesPerPixel colorType ≤ 4 := by
    rcases bytesPerPixel_cases colorType with ⟨-, hbpp⟩ | ⟨-, hbpp⟩ <;> omega
  have hline : width * bytesPerPixel colorType ≤ 2 ^ 32 * 4 := Nat.mul_le_mul hwidth.le hbpp
  have hmask : height * (1 + width) ≤ max64 := by
    have hmul : height * (1 + width) ≤ (2 ^ 32 - 1) * 2 ^ 32 := Nat.mul_le_mul (by omega) (by omega)
    exact hmul.trans (by decide)
  unfold NoPanic extractMaskScanlines
  simp only [safe_bind, safe_checkedMul, safe_add64]
  refine fun _ => ⟨by unfold max64; omega, fun _ => ?_⟩
  split
  · exact trivial
  · rename_i hlen
    rw [ne_eq, not_not] at hlen
    simp only [safe_bind, safe_add64, safe_mul64]
    refine ⟨by unfold max64; omega, hmask, ?_⟩
    refine (returns_foldlM_range (fun _ (s : RowState) => s.prevRow.length = width * bytesPerPixel colorType ∧
      s.currRow.length = width * bytesPerPixel colorType) ⟨List.length_replicate, List.length_replicate⟩ ?_).safe.mono ?_
    · intro y s hy hs
      exact returns_rowStep hfits hwidth rfl hlen hy hs.1 hs.2
    · intro s _ _
      split <;> exact trivial

/-- No index of the walk over the chunks and of the loops over the rows is out of range, and no arithmetic overflows. -/
theorem noPanic_extractPngAlphaMask (codec : Zlib) {imageBytes : Bytes} (h : imageBytes.length < 2 ^ 63) :
    NoPanic (extractPngAlphaMask codec imageBytes) := by
  unfold NoPanic extractPngAlphaMask
  simp only [safe_bind, safe_ofOption, safe_value]
  refine (safe_parsePngChunks h).mono fun header _ hheader data hdata => ?_
  exact noPanic_extractMaskScanlines (codec.length_decompress _ _ hdata) hheader.1 hheader.2 header.colorType

end OpenProxy.Images
