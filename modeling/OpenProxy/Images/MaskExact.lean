import OpenProxy.Images.PngMask
import Mathlib.Data.Fintype.BigOperators
import Mathlib.Data.List.MinMax

/-!
# The mask is exact

PNG files as the standard describes them: chunks with their checksums, the filters of the rows, and an image with an alpha
channel in a file with any filters, any split of its stream into `IDAT` chunks and any other chunks between them.  The mask
of such a file has the alpha below 255 exactly, as long as its stream fits into one chunk (`maskExact_iff_of_isEncoded`).
-/

namespace OpenProxy.Images

open Checked

/-! ### The standard -/

inductive FilterType
  | none
  | sub
  | up
  | average
  | paeth
  deriving DecidableEq

def FilterType.code : FilterType → UInt8
  | none => 0
  | sub => 1
  | up => 2
  | average => 3
  | paeth => 4

/-- The neighbour that is nearest to `a + b - c`, the first of them in a tie. -/
def nearest (a b c : UInt8) : UInt8 :=
  ([a, b, c].argmin fun x => ((a.toNat + b.toNat - c.toNat : Int) - x.toNat).natAbs).getD 0

def FilterType.predict (a b c : UInt8) : FilterType → UInt8
  | none => 0
  | sub => a
  | up => b
  | average => UInt8.ofNat ((a.toNat + b.toNat) / 2)
  | paeth => nearest a b c

/-- A row as it is filtered, with the row above it. -/
def filterRow (t : FilterType) (bpp : Nat) (above row : Bytes) : Bytes :=
  (List.range row.length).map fun i => row.getD i 0 - t.predict (left row i bpp) (above.getD i 0) (left above i bpp)

/-- The row above; there is nothing above the first row. -/
def above (rows : List Bytes) (y : Nat) : Bytes := if y = 0 then [] else rows.getD (y - 1) []

def scanline (filters : Nat → FilterType) (bpp : Nat) (rows : List Bytes) (y : Nat) : Bytes :=
  (filters y).code :: filterRow (filters y) bpp (above rows y) (rows.getD y [])

def scanlines (filters : Nat → FilterType) (bpp : Nat) (rows : List Bytes) : Bytes :=
  (List.range rows.length).flatMap (scanline filters bpp rows)

/-- A bit goes into the register of the checksum. -/
def crcBit (crc : BitVec 32) (bit : Bool) : BitVec 32 :=
  if crc.getLsbD 0 ^^ bit then (crc >>> 1) ^^^ 0xEDB88320 else crc >>> 1

/-- The bits of a byte, the least significant one first. -/
def bitsOf (b : UInt8) : List Bool := (List.range 8).map b.toBitVec.getLsbD

def crc32 (data : Bytes) : BitVec 32 := ~~~((data.flatMap bitsOf).foldl crcBit 0xFFFFFFFF)

structure Chunk where
  type : Bytes
  data : Bytes
  length_type : type.length = 4
  length_data : data.length < 2 ^ 31

def Chunk.encode (c : Chunk) : Bytes :=
  toBeBytes 4 c.data.length ++ c.type ++ c.data ++ toBeBytes 4 (crc32 (c.type ++ c.data)).toNat

/-- The header of an image with eight bits for each sample, without interlacing. -/
def ihdrChunk (width height : Nat) (colorType : UInt8) : Chunk where
  type := ihdrType
  data := toBeBytes 4 width ++ toBeBytes 4 height ++ [8, colorType, 0, 0, 0]
  length_type := rfl
  length_data := by simp

def idatChunk (data : Bytes) (h : data.length < 2 ^ 31) : Chunk := ⟨idatType, data, rfl, h⟩

def iendChunk : Chunk := ⟨iendType, [], rfl, Nat.two_pow_pos 31⟩

/-- The stream in the chunks. -/
def idatOf (chunks : List Chunk) : Bytes := (chunks.filter fun c => c.type = idatType).flatMap Chunk.data

/-! ### Images -/

inductive ColorType
  | grayAlpha
  | rgba
  deriving DecidableEq

def ColorType.code : ColorType → UInt8
  | grayAlpha => 4
  | rgba => 6

structure Pixel where
  colors : Bytes
  alpha : UInt8
  deriving DecidableEq

def Pixel.bytes (p : Pixel) : Bytes := p.colors ++ [p.alpha]

structure Image where
  colorType : ColorType
  width : Nat
  rows : List (List Pixel)
  width_pos : 0 < width
  width_lt : width < 2 ^ 31
  height_pos : 0 < rows.length
  height_lt : rows.length < 2 ^ 31
  length_row : ∀ row ∈ rows, row.length = width
  length_bytes : ∀ row ∈ rows, ∀ p ∈ row, p.bytes.length = bytesPerPixel colorType.code

namespace Image

def rowBytes (image : Image) : List Bytes := image.rows.map fun row => row.flatMap Pixel.bytes

/-- A file of the image. -/
def IsEncoded (image : Image) (codec : Zlib) (file : Bytes) : Prop :=
  file.length < 2 ^ 63 ∧ ∃ (chunks : List Chunk) (filters : Nat → FilterType),
    file = pngSig ++ ((ihdrChunk image.width image.rows.length image.colorType.code).encode ++
      (chunks.flatMap Chunk.encode ++ iendChunk.encode)) ∧
    (∀ c ∈ chunks, c.type ≠ ihdrType ∧ c.type ≠ iendType) ∧
    codec.decompress (idatOf chunks) =
      some (scanlines filters (bytesPerPixel image.colorType.code) image.rowBytes)

def IsOpaque (image : Image) : Prop := ∀ row ∈ image.rows, ∀ p ∈ row, p.alpha = 255

def mask (image : Image) : List Bytes := image.rows.map fun row => row.map fun p => if p.alpha < 255 then 255 else 0

/-- A grayscale file with these rows. -/
def IsGrayPng (codec : Zlib) (file : Bytes) (width : Nat) (rows : List Bytes) : Prop :=
  ∃ (data : Bytes) (h : data.length < 2 ^ 31) (filters : Nat → FilterType),
    file = pngSig ++ (ihdrChunk width rows.length 0).encode ++ (idatChunk data h).encode ++ iendChunk.encode ∧
    codec.decompress data = some (scanlines filters 1 rows)

/-- There is no mask for an opaque image, and for any other the mask is a grayscale file of the same size. -/
def MaskExact (image : Image) (codec : Zlib) (file : Bytes) : Prop :=
  (image.IsOpaque → extractPngAlphaMask codec file = missing) ∧
    (¬ image.IsOpaque → ∃ out, extractPngAlphaMask codec file = value out ∧ IsGrayPng codec out image.width image.mask)

end Image

/-! ### Filters -/

theorem argmin_three {α : Type} (f : α → Nat) (a b c : α) :
    [a, b, c].argmin f = some (if f a ≤ f b ∧ f a ≤ f c then a else if f b ≤ f c then b else c) := by
  have hargmin : [a, b, c].argmin f = List.argAux (fun b c => f b < f c)
      (if f b < f a then some b else some a) c := rfl
  rw [hargmin]
  by_cases hba : f b < f a
  · rw [if_pos hba, if_neg (by omega)]
    show (if f c < f b then some c else some b) = _
    split <;> split <;> first | rfl | omega
  · rw [if_neg hba]
    show (if f c < f a then some c else some a) = _
    by_cases hca : f c < f a
    · rw [if_pos hca, if_neg (by omega), if_neg (by omega)]
    · rw [if_neg hca, if_pos (by omega)]

theorem prediction_code (t : FilterType) (a b c : UInt8) : prediction t.code a b c = t.predict a b c := by
  cases t with
  | paeth =>
    show paethPredictor a b c = nearest a b c
    unfold nearest
    rw [argmin_three]
    rfl
  | _ => rfl

theorem getD_take {row : Bytes} {i j : Nat} (h : j < i) : (row.take i).getD j 0 = row.getD j 0 := by
  rw [List.getD_eq_getElem?_getD, List.getD_eq_getElem?_getD, List.getElem?_take_of_lt h]

/-- The bytes to the left are those of the part that is there. -/
theorem left_congr {row currRow : Bytes} {i bpp : Nat} (hbpp : 0 < bpp) (hpos : bpp ≤ i → 0 < i)
    (h : currRow.take i = row.take i) : left currRow i bpp = left row i bpp := by
  unfold left
  split
  · rename_i hle
    have hlt : i - bpp < i := Nat.sub_lt (hpos hle) hbpp
    rw [← getD_take hlt, h, getD_take hlt]
  · rfl

/-- Undoing a filter brings the row back, byte by byte. -/
theorem unfilterPngScanline_filterRow (t : FilterType) {bpp : Nat} (hbpp : 0 < bpp) {above row prevRow currRow : Bytes}
    (hprev : prevRow.length = row.length) (hcurr : currRow.length = row.length)
    (habove : ∀ i, prevRow.getD i 0 = above.getD i 0) :
    unfilterPngScanline t.code (filterRow t bpp above row) prevRow currRow bpp = value row := by
  have hlen : (filterRow t bpp above row).length = row.length := by
    rw [filterRow, List.length_map, List.length_range]
  obtain ⟨result, hresult, hlength, htake⟩ := returns_foldlM (l := (filterRow t bpp above row).zipIdx)
    (f := unfilterStep t.code prevRow bpp)
    (fun i (curr : Bytes) => curr.length = row.length ∧ curr.take i = row.take i) ⟨hcurr, rfl⟩
    (by
      intro i curr entry hentry ⟨hlcurr, htake⟩
      obtain ⟨x, j⟩ := entry
      rw [List.getElem?_zipIdx, Option.map_eq_some_iff] at hentry
      obtain ⟨y, hy, heq⟩ := hentry
      obtain ⟨rfl, rfl⟩ := Prod.mk.inj heq
      have hi : i < row.length := hlen ▸ (List.getElem?_eq_some_iff.mp hy).1
      rw [filterRow, List.getElem?_map, List.getElem?_range hi] at hy
      have hy := Option.some.inj hy
      rw [Nat.zero_add]
      have hleft : left prevRow i bpp = left above i bpp := by
        unfold left
        rw [habove]
      have hbyte : unfiltered t.code prevRow curr bpp i y = row[i] := by
        unfold unfiltered
        rw [prediction_code, left_congr hbpp (fun h => by omega) htake, habove, hleft, ← hy, UInt8.sub_add_cancel,
          List.getD_eq_getElem _ _ hi]
      refine ⟨_, unfilterStep_eq (by omega) (by omega), List.length_set.trans hlcurr, ?_⟩
      rw [hbyte, List.take_add_one, List.take_add_one, List.take_set_of_le (le_refl i), htake,
        List.getElem?_set_self (by omega), List.getElem?_eq_getElem hi])
  rw [List.length_zipIdx, hlen, List.take_of_length_le (by omega), List.take_of_length_le (le_refl _)] at htake
  rw [unfilterPngScanline, hresult, htake]

/-! ### Checksums -/

theorem crcShift_xor (crc x : BitVec 32) : crcShift (crc ^^^ x) = crcBit crc (x.getLsbD 0) ^^^ x >>> 1 := by
  have hone : (crc ^^^ x) &&& 1 ≠ 0 ↔ (crc.getLsbD 0 ^^ x.getLsbD 0) = true := by
    rw [show (1 : BitVec 32) = 1#32 from rfl, BitVec.and_one_eq_setWidth_ofBool_getLsbD, BitVec.getLsbD_xor]
    cases crc.getLsbD 0 <;> cases x.getLsbD 0 <;> decide
  unfold crcShift crcBit
  rw [BitVec.ushiftRight_xor_distrib]
  split <;> split <;> simp_all [BitVec.xor_assoc, BitVec.xor_comm (0xEDB88320#32)]

theorem iterate_crcShift (crc x : BitVec 32) (n : Nat) :
    crcShift^[n] (crc ^^^ x) = ((List.range n).map x.getLsbD).foldl crcBit crc ^^^ x >>> n := by
  induction n with
  | zero => rfl
  | succ n ih =>
    rw [Function.iterate_succ_apply', ih, crcShift_xor, List.range_succ, List.map_append, List.foldl_append,
      BitVec.getLsbD_ushiftRight, BitVec.shiftRight_add]
    rfl

theorem pngCrc32Chunk_eq (chunkType data : Bytes) : pngCrc32Chunk chunkType data = crc32 (chunkType ++ data) := by
  unfold pngCrc32Chunk crc32
  rw [List.foldl_flatMap]
  congr 2
  funext crc b
  have hshift : b.toBitVec.setWidth 32 >>> 8 = 0#32 := by
    refine BitVec.eq_of_getLsbD_eq fun i _ => ?_
    rw [BitVec.getLsbD_ushiftRight, BitVec.getLsbD_setWidth, BitVec.getLsbD_of_ge _ _ (by omega), Bool.and_false,
      BitVec.getLsbD_zero]
  have hbits : (List.range 8).map (b.toBitVec.setWidth 32).getLsbD = bitsOf b := by
    refine List.map_congr_left fun i hi => ?_
    rw [BitVec.getLsbD_setWidth, decide_eq_true (by have := List.mem_range.mp hi; omega), Bool.true_and]
  rw [iterate_crcShift, hshift, hbits, BitVec.xor_zero]

/-! ### The walk over the chunks of a file -/

theorem length_encode (c : Chunk) : c.encode.length = 12 + c.data.length := by
  simp only [Chunk.encode, List.length_append, length_toBeBytes, c.length_type]
  omega

theorem sliceRange_append {b p mid q : Bytes} (hb : b = p ++ (mid ++ q)) {s e : Nat} (hs : s = p.length)
    (he : e = p.length + mid.length) : sliceRange b s e = value mid := by
  rw [sliceRange_of_le (by omega) (by rw [hb, List.length_append, List.length_append]; omega), hb, hs, he,
    List.drop_take, List.drop_left, Nat.add_sub_cancel_left, List.take_left]

theorem u32At_append {b p q : Bytes} {n : Nat} (hn : n < 2 ^ 32) (hb : b = p ++ (toBeBytes 4 n ++ q))
    {offset : Nat} (hoffset : offset = p.length) : u32At b offset = value n := by
  have hbytes : ∃ b0 b1 b2 b3, toBeBytes 4 n = [b0, b1, b2, b3] := ⟨_, _, _, _, rfl⟩
  obtain ⟨b0, b1, b2, b3, hbytes⟩ := hbytes
  have hindex : ∀ i (h : i < 4), index b (offset + i) = value ([b0, b1, b2, b3].get ⟨i, h⟩) := by
    intro i hi
    rw [index, hb, hoffset, List.getElem?_append_right (by omega), Nat.add_sub_cancel_left, hbytes,
      List.getElem?_append_left hi, List.getElem?_eq_getElem hi]
    rfl
  unfold u32At
  rw [show index b offset = value b0 from hindex 0 (by decide), value_bind, hindex 1 (by decide), value_bind,
    hindex 2 (by decide), value_bind, hindex 3 (by decide), value_bind]
  show value (fromBeBytes [b0, b1, b2, b3]) = value n
  rw [← hbytes, fromBeBytes_toBeBytes hn]

/-- The step of the walk at a chunk. -/
theorem chunkLoop_encode {b p q : Bytes} {c : Chunk} (hb : b.length < 2 ^ 63) (hsplit : b = p ++ (c.encode ++ q))
    (acc : PngHeader) :
    chunkLoop b p.length acc =
      if c.type = ihdrType then (do
        let (width, height, colorType) ← parseIhdrChunk c.data
        chunkLoop b (p ++ c.encode).length { acc with width := width, height := height, colorType := colorType })
      else if c.type = idatType then
        chunkLoop b (p ++ c.encode).length { acc with idatData := acc.idatData ++ c.data }
      else if c.type = iendType then value acc
      else chunkLoop b (p ++ c.encode).length acc := by
  have hlen : b.length = p.length + (12 + c.data.length + q.length) := by
    rw [hsplit, List.length_append, List.length_append, length_encode]
  have hdata := c.length_data
  have hnumber : u32At b p.length = value c.data.length := by
    refine u32At_append (q := c.type ++ c.data ++ toBeBytes 4 (crc32 (c.type ++ c.data)).toNat ++ q) (by omega) ?_ rfl
    rw [hsplit, Chunk.encode]
    simp only [List.append_assoc]
  have htype : sliceRange b (p.length + 4) (p.length + 8) = value c.type := by
    refine sliceRange_append (p := p ++ toBeBytes 4 c.data.length)
      (q := c.data ++ toBeBytes 4 (crc32 (c.type ++ c.data)).toNat ++ q) ?_ (by simp) (by simp [c.length_type])
    rw [hsplit, Chunk.encode]
    simp only [List.append_assoc]
  have hslice : sliceRange b (p.length + 8) (p.length + 8 + c.data.length) = value c.data := by
    refine sliceRange_append (p := p ++ toBeBytes 4 c.data.length ++ c.type)
      (q := toBeBytes 4 (crc32 (c.type ++ c.data)).toNat ++ q) ?_ (by simp [c.length_type]) (by simp [c.length_type])
    rw [hsplit, Chunk.encode]
    simp only [List.append_assoc]
  have hnext : p.length + 8 + c.data.length + 4 = (p ++ c.encode).length := by
    rw [List.length_append, length_encode]
    omega
  rw [chunkLoop, add64_of_le (by unfold max64; omega), value_bind, dif_pos (by omega), hnumber, value_bind, htype,
    value_bind, add64_of_le (by unfold max64; omega), value_bind, add64_of_le (by unfold max64; omega), value_bind,
    if_neg (by omega), hslice, hnext]
  rfl

/-- The chunks between the first and the last one: the stream is put together. -/
theorem chunkLoop_flatMap {b : Bytes} (hb : b.length < 2 ^ 63) {q : Bytes} {chunks : List Chunk}
    (hchunks : ∀ c ∈ chunks, c.type ≠ ihdrType ∧ c.type ≠ iendType) {p : Bytes}
    (hsplit : b = p ++ (chunks.flatMap Chunk.encode ++ (iendChunk.encode ++ q))) (acc : PngHeader) :
    chunkLoop b p.length acc = value { acc with idatData := acc.idatData ++ idatOf chunks } := by
  induction chunks generalizing p acc with
  | nil =>
    rw [chunkLoop_encode (c := iendChunk) hb hsplit, if_neg (by decide), if_neg (by decide),
      if_pos (show iendChunk.type = iendType from rfl)]
    show value acc = value { acc with idatData := acc.idatData ++ [] }
    rw [List.append_nil]
  | cons c chunks ih =>
    obtain ⟨hihdr, hiend⟩ := hchunks c List.mem_cons_self
    rw [List.flatMap_cons, List.append_assoc] at hsplit
    rw [chunkLoop_encode hb hsplit, if_neg hihdr]
    rw [← List.append_assoc] at hsplit
    have hrest := ih (fun c hc => hchunks c (List.mem_cons_of_mem _ hc)) hsplit
    by_cases hidat : c.type = idatType
    · rw [if_pos hidat, hrest, idatOf, idatOf, List.filter_cons_of_pos (by rw [hidat]; rfl), List.flatMap_cons, List.append_assoc]
    · rw [if_neg hidat, if_neg hiend, hrest, idatOf, idatOf, List.filter_cons_of_neg (by simpa using hidat)]

theorem parseIhdrChunk_ihdrChunk {width height : Nat} (hwidth : width < 2 ^ 31) (hheight : height < 2 ^ 31)
    (colorType : ColorType) :
    parseIhdrChunk (ihdrChunk width height colorType.code).data = value (width, height, colorType.code) := by
  have hdata : (ihdrChunk width height colorType.code).data =
      toBeBytes 4 width ++ (toBeBytes 4 height ++ [8, colorType.code, 0, 0, 0]) := List.append_assoc _ _ _
  have hindex : ∀ i (h : i < 5), index (toBeBytes 4 width ++ (toBeBytes 4 height ++ [8, colorType.code, 0, 0, 0])) (8 + i) =
      value ([8, colorType.code, 0, 0, 0].get ⟨i, h⟩) := by
    intro i hi
    rw [index, List.getElem?_append_right (by rw [length_toBeBytes]; omega), length_toBeBytes,
      List.getElem?_append_right (by rw [length_toBeBytes]; omega), length_toBeBytes,
      show 8 + i - 4 - 4 = i by omega, List.getElem?_eq_getElem (by exact hi)]
    rfl
  have hfirst : u32At (toBeBytes 4 width ++ (toBeBytes 4 height ++ [8, colorType.code, 0, 0, 0])) 0 = value width :=
    u32At_append (p := []) (by omega) rfl rfl
  have hsecond : u32At (toBeBytes 4 width ++ (toBeBytes 4 height ++ [8, colorType.code, 0, 0, 0])) 4 = value height :=
    u32At_append (p := toBeBytes 4 width) (by omega) rfl (length_toBeBytes _ _).symm
  unfold parseIhdrChunk
  rw [hdata, if_neg (by simp), hfirst, value_bind, hsecond, value_bind, hindex 0 (by decide), value_bind,
    hindex 1 (by decide), value_bind, hindex 2 (by decide), value_bind, hindex 3 (by decide), value_bind,
    hindex 4 (by decide), value_bind]
  cases colorType <;> rfl

/-! ### The rows of an image -/

section

variable {α β : Type} {f : α → List β} {k : Nat} {l : List α}

theorem length_flatMap_of_length (h : ∀ a ∈ l, (f a).length = k) : (l.flatMap f).length = l.length * k := by
  induction l with
  | nil => simp
  | cons a l ih =>
    rw [List.flatMap_cons, List.length_append, h a List.mem_cons_self, ih fun b hb => h b (List.mem_cons_of_mem _ hb),
      List.length_cons, Nat.succ_mul, Nat.add_comm]

theorem drop_flatMap_of_length (h : ∀ a ∈ l, (f a).length = k) (n : Nat) : (l.flatMap f).drop (n * k) = (l.drop n).flatMap f := by
  induction n generalizing l with
  | zero => rw [Nat.zero_mul, List.drop_zero, List.drop_zero]
  | succ n ih =>
    cases l with
    | nil => simp
    | cons a l =>
      rw [List.flatMap_cons, List.drop_succ_cons, ← ih fun b hb => h b (List.mem_cons_of_mem _ hb), Nat.succ_mul,
        Nat.add_comm, ← List.drop_drop, List.drop_left' (h a List.mem_cons_self)]

end

theorem length_filterRow (t : FilterType) (bpp : Nat) (above row : Bytes) :
    (filterRow t bpp above row).length = row.length := by
  rw [filterRow, List.length_map, List.length_range]

section

variable {filters : Nat → FilterType} {bpp lineLen : Nat} {rows : List Bytes}

theorem length_getD (h : ∀ r ∈ rows, r.length = lineLen) {y : Nat} (hy : y < rows.length) :
    (rows.getD y []).length = lineLen := by
  rw [List.getD_eq_getElem _ _ hy]
  exact h _ (List.getElem_mem hy)

theorem length_scanline (h : ∀ r ∈ rows, r.length = lineLen) {y : Nat} (hy : y ∈ List.range rows.length) :
    (scanline filters bpp rows y).length = 1 + lineLen := by
  rw [scanline, List.length_cons, length_filterRow, length_getD h (List.mem_range.mp hy), Nat.add_comm]

theorem length_scanlines (h : ∀ r ∈ rows, r.length = lineLen) :
    (scanlines filters bpp rows).length = rows.length * (1 + lineLen) := by
  rw [scanlines, length_flatMap_of_length fun y hy => length_scanline h hy, List.length_range]

theorem drop_scanlines (h : ∀ r ∈ rows, r.length = lineLen) {y : Nat} (hy : y < rows.length) :
    ∃ rest, (scanlines filters bpp rows).drop (y * (1 + lineLen)) = scanline filters bpp rows y ++ rest := by
  rw [scanlines, drop_flatMap_of_length fun y hy => length_scanline h hy,
    List.drop_eq_getElem_cons (by rwa [List.length_range]), List.getElem_range, List.flatMap_cons]
  exact ⟨_, rfl⟩

theorem scanlines_none (rows : List Bytes) : scanlines (fun _ => .none) bpp rows = rows.flatMap (0 :: ·) := by
  have hrow : ∀ above row, filterRow .none bpp above row = row := by
    intro above row
    refine List.ext_getElem (length_filterRow _ _ _ _) fun i _ hi => ?_
    simp [filterRow, FilterType.predict, hi]
  have hmap : rows = (List.range rows.length).map fun y => rows.getD y [] := by
    refine List.ext_getElem (by simp) fun y hy _ => ?_
    rw [List.getElem_map, List.getElem_range, List.getD_eq_getElem _ _ hy]
  conv_rhs => rw [hmap, List.flatMap_map]
  unfold scanlines scanline
  simp only [hrow]
  rfl

end

/-- The alpha of a pixel in the bytes of its row. -/
theorem getD_alpha {row : List Pixel} {bpp px : Nat} (h : ∀ p ∈ row, p.bytes.length = bpp) (hpx : px < row.length) :
    (row.flatMap Pixel.bytes).getD (px * bpp + (bpp - 1)) 0 = row[px].alpha := by
  have hlen := h _ (List.getElem_mem hpx)
  rw [Pixel.bytes, List.length_append, List.length_singleton] at hlen
  rw [List.getD_eq_getElem?_getD, ← List.getElem?_drop, drop_flatMap_of_length h, List.drop_eq_getElem_cons hpx,
    List.flatMap_cons, Pixel.bytes, List.append_assoc, List.getElem?_append_right (by omega),
    show bpp - 1 - row[px].colors.length = 0 by omega]
  rfl

theorem getD_replicate_zero (n i : Nat) : (List.replicate n (0 : UInt8)).getD i 0 = ([] : Bytes).getD i 0 := by
  rw [List.getD_eq_getElem?_getD, List.getElem?_replicate]
  split <;> rfl

def maskRow (row : List Pixel) : Bytes := row.map fun p => maskByte p.alpha

def isTransparent (row : List Pixel) : Bool := row.any fun p => p.alpha < 255

theorem foldlM_pixelStep {colorType : UInt8} {row : List Pixel} {width : Nat} (hwidth : width < 2 ^ 32)
    (hrow : row.length = width) (hbytes : ∀ p ∈ row, p.bytes.length = bytesPerPixel colorType) (s : MaskState) :
    (List.range width).foldlM (pixelStep colorType (row.flatMap Pixel.bytes)) s =
      value (s.1 ++ maskRow row, s.2 || isTransparent row) := by
  have hlen : (row.flatMap Pixel.bytes).length = width * bytesPerPixel colorType := by
    rw [length_flatMap_of_length hbytes, hrow]
  obtain ⟨t, ht, hinv⟩ := returns_foldlM_range (n := width) (f := pixelStep colorType (row.flatMap Pixel.bytes))
    (fun n (t : MaskState) => t = (s.1 ++ maskRow (row.take n), s.2 || isTransparent (row.take n)))
    (show s = _ by simp [maskRow, isTransparent])
    (by
      rintro n t hlt rfl
      refine ⟨_, pixelStep_eq hwidth hlt hlen _ (getD_alpha hbytes (by omega)), ?_⟩
      have htake : row.take (n + 1) = row.take n ++ [row[n]] := by
        rw [List.take_add_one, List.getElem?_eq_getElem (by omega)]
        rfl
      simp only [maskRow, isTransparent, htake, List.map_append, List.any_append, List.append_assoc, Bool.or_assoc]
      simp)
  rw [List.take_of_length_le (by omega)] at hinv
  rw [ht, hinv]

namespace Image

variable {image : Image}

/-- The bytes of a row. -/
def lineLen (image : Image) : Nat := image.width * bytesPerPixel image.colorType.code

theorem length_rowBytes : ∀ r ∈ image.rowBytes, r.length = image.lineLen := by
  intro r hr
  obtain ⟨row, hrow, rfl⟩ := List.mem_map.mp hr
  rw [length_flatMap_of_length (image.length_bytes row hrow), image.length_row row hrow]
  rfl

theorem bytesPerPixel_pos (colorType : UInt8) : 0 < bytesPerPixel colorType := by
  rcases bytesPerPixel_cases colorType with ⟨-, hbpp⟩ | ⟨-, hbpp⟩ <;> omega

/-- The state of the loop before the row `y`. -/
structure RowInv (image : Image) (y : Nat) (s : RowState) : Prop where
  length_prevRow : s.prevRow.length = image.lineLen
  length_currRow : s.currRow.length = image.lineLen
  above : ∀ i, s.prevRow.getD i 0 = (above image.rowBytes y).getD i 0
  mask : s.mask = ((image.rows.take y).flatMap fun row => 0 :: maskRow row, (image.rows.take y).any isTransparent)

theorem returns_rowStep_scanlines {filters : Nat → FilterType} {decompressed : Bytes}
    (hdecompressed : decompressed = scanlines filters (bytesPerPixel image.colorType.code) image.rowBytes)
    (hfits : decompressed.length < 2 ^ 63) {s : RowState} {y : Nat} (hy : y < image.rows.length) (hs : image.RowInv y s) :
    Returns (rowStep decompressed image.width (1 + image.lineLen) (bytesPerPixel image.colorType.code) image.colorType.code
      s y) (image.RowInv (y + 1)) := by
  have hlines : image.rowBytes.length = image.rows.length := List.length_map _
  have hrow : image.rowBytes.getD y [] = image.rows[y].flatMap Pixel.bytes := by
    rw [List.getD_eq_getElem _ _ (by omega)]
    exact List.getElem_map _
  have hmem : image.rows[y] ∈ image.rows := List.getElem_mem hy
  have hline : (image.rows[y].flatMap Pixel.bytes).length = image.lineLen := by
    rw [← hrow]
    exact length_getD length_rowBytes (by omega)
  have hlen : decompressed.length = image.rows.length * (1 + image.lineLen) := by
    rw [hdecompressed, length_scanlines length_rowBytes, hlines]
  obtain ⟨rest, hdrop⟩ : ∃ rest,
      (scanlines filters (bytesPerPixel image.colorType.code) image.rowBytes).drop (y * (1 + image.lineLen)) =
        scanline filters (bytesPerPixel image.colorType.code) image.rowBytes y ++ rest :=
    drop_scanlines length_rowBytes (by omega)
  rw [← hdecompressed, scanline, hrow, List.cons_append] at hdrop
  have hfilter : decompressed.getD (y * (1 + image.lineLen)) 0 = (filters y).code := by
    rw [← Nat.add_zero (y * _), List.getD_eq_getElem?_getD, ← List.getElem?_drop, hdrop]
    rfl
  have hraw : (decompressed.drop (y * (1 + image.lineLen) + 1)).take (1 + image.lineLen - 1) =
      filterRow (filters y) (bytesPerPixel image.colorType.code) (Images.above image.rowBytes y)
        (image.rows[y].flatMap Pixel.bytes) := by
    rw [← List.drop_drop, hdrop, List.drop_succ_cons, List.drop_zero, Nat.add_sub_cancel_left]
    exact List.take_left' (by rw [length_filterRow, hline])
  have hwidth := image.width_lt
  rw [rowStep_eq hfits hlen hy (by omega) hraw, hfilter,
    unfilterPngScanline_filterRow _ (bytesPerPixel_pos _) (hs.length_prevRow.trans hline.symm)
      (hs.length_currRow.trans hline.symm) hs.above, value_bind,
    foldlM_pixelStep (by omega) (image.length_row _ hmem) (image.length_bytes _ hmem), value_bind, copyFromSlice,
    if_pos (hs.length_prevRow.trans hline.symm), value_bind]
  refine ⟨_, rfl, hline, hline, fun i => ?_, ?_⟩
  · rw [Images.above, if_neg (Nat.succ_ne_zero y), Nat.add_sub_cancel, hrow]
  · have htake : image.rows.take (y + 1) = image.rows.take y ++ [image.rows[y]] := by
      rw [List.take_add_one, List.getElem?_eq_getElem hy]
      rfl
    rw [hs.mask, htake, List.flatMap_append, List.any_append, List.flatMap_singleton, List.append_assoc]
    simp

theorem flatMap_mask : (image.rows.flatMap fun row => 0 :: maskRow row) = scanlines (fun _ => .none) 1 image.mask := by
  rw [scanlines_none, mask, List.flatMap_map]
  rfl

theorem any_isTransparent : image.rows.any isTransparent = true ↔ ¬ image.IsOpaque := by
  have halpha : ∀ a : UInt8, a < 255 ↔ ¬ a = 255 := by
    intro a
    rw [UInt8.lt_iff_toNat_lt, ← UInt8.toNat_inj]
    have := a.toNat_lt
    simp
    omega
  simp [IsOpaque, isTransparent, halpha]

theorem extractMaskScanlines_scanlines {filters : Nat → FilterType} {decompressed : Bytes}
    (hdecompressed : decompressed = scanlines filters (bytesPerPixel image.colorType.code) image.rowBytes)
    (hfits : decompressed.length < 2 ^ 63) :
    extractMaskScanlines decompressed image.width image.rows.length image.colorType.code =
      if image.rows.any isTransparent then value (scanlines (fun _ => .none) 1 image.mask) else missing := by
  have hlen : decompressed.length = image.rows.length * (1 + image.lineLen) := by
    rw [hdecompressed, length_scanlines length_rowBytes, rowBytes, List.length_map]
  have hheight := image.height_pos
  have hone : 1 + image.lineLen ≤ image.rows.length * (1 + image.lineLen) := Nat.le_mul_of_pos_left _ hheight
  have hmask : image.rows.length * (1 + image.width) ≤ image.rows.length * (1 + image.lineLen) :=
    Nat.mul_le_mul_left _ (Nat.add_le_add_left (Nat.le_mul_of_pos_right _ (bytesPerPixel_pos _)) 1)
  have hwidth := image.width_lt
  obtain ⟨s, hs, hinv⟩ := returns_foldlM_range (n := image.rows.length)
    (f := rowStep decompressed image.width (1 + image.lineLen) (bytesPerPixel image.colorType.code) image.colorType.code)
    (s := ⟨List.replicate image.lineLen 0, List.replicate image.lineLen 0, [], false⟩) (RowInv image)
    ⟨List.length_replicate, List.length_replicate, getD_replicate_zero _, rfl⟩
    fun y s hy hinv => returns_rowStep_scanlines hdecompressed hfits hy hinv
  have hmaskState := hinv.mask
  rw [List.take_length, flatMap_mask] at hmaskState
  have hcheck : checkedMul image.width (bytesPerPixel image.colorType.code) = value image.lineLen :=
    checkedMul_of_le (by unfold max64; unfold lineLen at hone hlen; omega)
  unfold extractMaskScanlines
  rw [hcheck, value_bind, add64_of_le (by unfold max64; omega), value_bind, checkedMul_of_le (by unfold max64; omega),
    value_bind, if_neg (not_not.mpr hlen), add64_of_le (by unfold max64; omega), value_bind,
    mul64_of_le (by unfold max64; omega), value_bind]
  dsimp only
  rw [hs, value_bind, hmaskState]

/-- What the code makes of a file of an image. -/
theorem IsEncoded.extract_eq {codec : Zlib} {file : Bytes} (h : image.IsEncoded codec file) :
    extractPngAlphaMask codec file =
      if image.rows.any isTransparent then
        value (encodeGrayscalePng codec image.width image.rows.length (scanlines (fun _ => .none) 1 image.mask))
      else missing := by
  obtain ⟨hfits, chunks, filters, hfile, hchunks, hstream⟩ := h
  have hnotEmpty : (idatOf chunks).isEmpty = false := by
    rw [List.isEmpty_eq_false_iff]
    intro hempty
    rw [hempty, codec.decompress_nil] at hstream
    cases hstream
  have hwidth := image.width_pos
  have hheight := image.height_pos
  have hihdr := parseIhdrChunk_ihdrChunk image.width_lt image.height_lt image.colorType
  have hwalk : chunkLoop file 8 ⟨0, 0, 0, []⟩ =
      value ⟨image.width, image.rows.length, image.colorType.code, idatOf chunks⟩ := by
    have hsplit := hfile
    rw [← List.append_assoc] at hsplit
    refine (chunkLoop_encode (p := pngSig) hfits hfile _).trans ?_
    rw [if_pos (show (ihdrChunk image.width image.rows.length image.colorType.code).type = ihdrType from rfl), hihdr,
      value_bind]
    exact chunkLoop_flatMap hfits (q := []) hchunks (by rw [List.append_nil]; exact hsplit) _
  have hheader : ¬ (image.width = 0 ∨ image.rows.length = 0 ∨ (idatOf chunks).isEmpty = true) := by
    rw [hnotEmpty]
    rintro (h | h | h)
    · omega
    · omega
    · cases h
  have hparse : parsePngChunks file = value ⟨image.width, image.rows.length, image.colorType.code, idatOf chunks⟩ := by
    unfold parsePngChunks
    rw [if_neg (by rw [hfile, List.isPrefixOf_iff_prefix.mpr (List.prefix_append _ _)]; decide), hwalk, value_bind,
      if_neg hheader]
  unfold extractPngAlphaMask
  rw [hparse, value_bind, hstream, ofOption_some, value_bind,
    extractMaskScanlines_scanlines rfl (codec.length_decompress _ _ hstream)]
  split <;> rfl

end Image

/-! ### The file with the mask -/

theorem writePngChunk_eq (buf : Bytes) (c : Chunk) : writePngChunk buf c.type c.data = buf ++ c.encode := by
  have hdata := c.length_data
  unfold writePngChunk Chunk.encode
  rw [pngCrc32Chunk_eq, Nat.mod_eq_of_lt (by omega)]
  simp only [List.append_assoc]

theorem length_writePngChunk (buf : Bytes) {type : Bytes} (htype : type.length = 4) (data : Bytes) :
    (writePngChunk buf type data).length = buf.length + (12 + data.length) := by
  simp only [writePngChunk, List.length_append, length_toBeBytes, htype]
  omega

theorem encodeGrayscalePng_eq (codec : Zlib) (width height : Nat) {mask : Bytes}
    (h : (codec.compress mask).length < 2 ^ 31) :
    encodeGrayscalePng codec width height mask =
      pngSig ++ (ihdrChunk width height 0).encode ++ (idatChunk (codec.compress mask) h).encode ++ iendChunk.encode := by
  rw [← writePngChunk_eq, ← writePngChunk_eq, ← writePngChunk_eq]
  rfl

namespace Image

variable {image : Image} {codec : Zlib} {file : Bytes}

/-- The rows of the mask, each with its filter byte. -/
def maskScanlines (image : Image) : Bytes := scanlines (fun _ => .none) 1 image.mask

theorem IsEncoded.length_maskScanlines_lt (h : image.IsEncoded codec file) : image.maskScanlines.length < 2 ^ 63 := by
  obtain ⟨-, chunks, filters, -, -, hstream⟩ := h
  have hlt := codec.length_decompress _ _ hstream
  rw [length_scanlines length_rowBytes, rowBytes, List.length_map] at hlt
  have hrows : ∀ r ∈ image.mask, r.length = image.width := by
    intro r hr
    obtain ⟨row, hrow, rfl⟩ := List.mem_map.mp hr
    rw [List.length_map, image.length_row row hrow]
  have hle : image.rows.length * (1 + image.width) ≤ image.rows.length * (1 + image.lineLen) :=
    Nat.mul_le_mul_left _ (Nat.add_le_add_left (Nat.le_mul_of_pos_right _ (bytesPerPixel_pos _)) 1)
  rw [maskScanlines, length_scanlines hrows, mask, List.length_map]
  omega

/-- The output is a grayscale file exactly if the length of its stream fits into a chunk. -/
theorem isGrayPng_iff (h : image.IsEncoded codec file) :
    IsGrayPng codec (encodeGrayscalePng codec image.width image.rows.length image.maskScanlines) image.width image.mask ↔
      (codec.compress image.maskScanlines).length < 2 ^ 31 := by
  have hmask : image.mask.length = image.rows.length := List.length_map _
  constructor
  · rintro ⟨data, hdata, filters, heq, -⟩
    have hlen := congrArg List.length heq
    unfold encodeGrayscalePng at hlen
    dsimp only at hlen
    rw [length_writePngChunk _ (by rfl), length_writePngChunk _ (by rfl), length_writePngChunk _ (by rfl)] at hlen
    simp only [List.length_append, length_encode, ihdrChunk, idatChunk, iendChunk, length_toBeBytes, List.length_cons,
      List.length_nil] at hlen
    omega
  · intro hlt
    refine ⟨_, hlt, fun _ => .none, ?_, codec.decompress_compress _ h.length_maskScanlines_lt⟩
    rw [encodeGrayscalePng_eq codec _ _ hlt, hmask]

theorem maskExact_iff_of_isEncoded (h : image.IsEncoded codec file) :
    image.MaskExact codec file ↔ image.IsOpaque ∨ (codec.compress image.maskScanlines).length < 2 ^ 31 := by
  unfold MaskExact
  rw [h.extract_eq]
  by_cases hopaque : image.IsOpaque
  · have hnot : ¬ image.rows.any isTransparent = true := fun hany => any_isTransparent.mp hany hopaque
    rw [if_neg hnot]
    exact iff_of_true ⟨fun _ => rfl, fun hne => absurd hopaque hne⟩ (Or.inl hopaque)
  · rw [if_pos (any_isTransparent.mpr hopaque), ← isGrayPng_iff h]
    constructor
    · rintro ⟨-, hmask⟩
      obtain ⟨out, hout, hgray⟩ := hmask hopaque
      cases hout
      exact Or.inr hgray
    · rintro (hyes | hgray)
      · exact absurd hyes hopaque
      · exact ⟨fun hyes => absurd hyes hopaque, fun _ => ⟨_, rfl, hgray⟩⟩

end Image

/-- No file makes an index or an addition fail, and the mask of a file of an image is exact if and only if there is none to
write or its stream is shorter than `2 ^ 31` bytes. -/
theorem extractPngAlphaMask_exact_iff (codec : Zlib) :
    (∀ file : Bytes, file.length < 2 ^ 63 → NoPanic (extractPngAlphaMask codec file)) ∧
      ∀ (image : Image) (file : Bytes), image.IsEncoded codec file →
        (image.MaskExact codec file ↔ image.IsOpaque ∨ (codec.compress image.maskScanlines).length < 2 ^ 31) :=
  ⟨fun _ => noPanic_extractPngAlphaMask codec, fun _ _ => Image.maskExact_iff_of_isEncoded⟩

/-! ### Streams that do not fit into a chunk -/

namespace Image

theorem exists_isEncoded {image : Image} (codec : Zlib) (h : image.rows.length * (1 + image.lineLen) < 2 ^ 50) :
    ∃ file, image.IsEncoded codec file := by
  let raw := scanlines (fun _ => .none) (bytesPerPixel image.colorType.code) image.rowBytes
  have hraw : raw.length < 2 ^ 50 := by
    rwa [length_scanlines length_rowBytes, rowBytes, List.length_map]
  let chunks := (codec.compress raw).map fun b => idatChunk [b] (by simp)
  have hstream : idatOf chunks = codec.compress raw := by
    have hall : ∀ stream : Bytes, idatOf (stream.map fun b => idatChunk [b] (by simp)) = stream := by
      intro stream
      induction stream with
      | nil => rfl
      | cons b stream ih =>
        rw [List.map_cons, idatOf, List.filter_cons_of_pos rfl, List.flatMap_cons]
        exact congrArg (b :: ·) ih
    exact hall _
  have hchunks : ∀ c ∈ chunks, c.encode.length = 13 := by
    intro c hc
    obtain ⟨b, -, rfl⟩ := List.mem_map.mp hc
    exact length_encode _
  have hlen := codec.length_compress raw
  refine ⟨_, ?_, chunks, fun _ => .none, rfl, ?_, ?_⟩
  · rw [List.length_append, List.length_append, List.length_append, length_encode, length_encode,
      length_flatMap_of_length hchunks, List.length_map]
    simp only [ihdrChunk, iendChunk, pngSig, List.length_append, length_toBeBytes, List.length_cons, List.length_nil]
    omega
  · intro c hc
    obtain ⟨b, -, rfl⟩ := List.mem_map.mp hc
    exact ⟨show idatType ≠ ihdrType by decide, show idatType ≠ iendType by decide⟩
  · rw [hstream]
    exact codec.decompress_compress _ (by omega)

section

variable {h w : Nat}

/-- A transparent pixel, and pixels that are transparent or opaque as `g` says. -/
def noiseRow (g : Fin w → Bool) : List Pixel := ⟨[0], 0⟩ :: List.ofFn fun x => ⟨[0], if g x then 0 else 255⟩

def noise (hh : 0 < h) (hh' : h < 2 ^ 31) (hw : w + 1 < 2 ^ 31) (f : Fin h → Fin w → Bool) : Image where
  colorType := .grayAlpha
  width := w + 1
  rows := List.ofFn fun y => noiseRow (f y)
  width_pos := Nat.succ_pos w
  width_lt := hw
  height_pos := by rwa [List.length_ofFn]
  height_lt := by rwa [List.length_ofFn]
  length_row row hrow := by
    obtain ⟨y, rfl⟩ := List.mem_ofFn.mp hrow
    rw [noiseRow, List.length_cons, List.length_ofFn]
  length_bytes row hrow p hp := by
    obtain ⟨y, rfl⟩ := List.mem_ofFn.mp hrow
    rcases List.mem_cons.mp hp with rfl | hp
    · rfl
    · obtain ⟨x, rfl⟩ := List.mem_ofFn.mp hp
      rfl

theorem length_rows_noise (hh : 0 < h) (hh' : h < 2 ^ 31) (hw : w + 1 < 2 ^ 31) (f : Fin h → Fin w → Bool) :
    (noise hh hh' hw f).rows.length * (1 + (noise hh hh' hw f).lineLen) = h * (1 + (w + 1) * 2) := by
  have hrows : (noise hh hh' hw f).rows.length = h := List.length_ofFn
  rw [hrows]
  rfl

theorem not_isOpaque_noise (hh : 0 < h) (hh' : h < 2 ^ 31) (hw : w + 1 < 2 ^ 31) (f : Fin h → Fin w → Bool) :
    ¬ (noise hh hh' hw f).IsOpaque := by
  intro hopaque
  have halpha := hopaque (noiseRow (f ⟨0, hh⟩)) (List.mem_ofFn.mpr ⟨_, rfl⟩) _ List.mem_cons_self
  exact absurd halpha (by decide)

/-- The mask of noise tells all its bits. -/
theorem maskScanlines_noise_injective (hh : 0 < h) (hh' : h < 2 ^ 31) (hw : w + 1 < 2 ^ 31) :
    Function.Injective fun f : Fin h → Fin w → Bool => (noise hh hh' hw f).maskScanlines := by
  have hget : ∀ (f : Fin h → Fin w → Bool) (y : Fin h) (x : Fin w),
      (noise hh hh' hw f).maskScanlines[y * (w + 2) + (x + 2)]? = some (if f y x then 255 else 0) := by
    intro f y x
    have hlen : ∀ row ∈ (noise hh hh' hw f).rows, (0 :: maskRow row).length = w + 2 := by
      intro row hrow
      rw [List.length_cons, maskRow, List.length_map, (noise hh hh' hw f).length_row row hrow]
      rfl
    have hy : y.val < (noise hh hh' hw f).rows.length := by
      show y.val < (List.ofFn fun y => noiseRow (f y)).length
      rw [List.length_ofFn]
      exact y.isLt
    have hrow : (noise hh hh' hw f).rows[y.val] = noiseRow (f y) := List.getElem_ofFn _
    rw [maskScanlines, ← flatMap_mask, ← List.getElem?_drop, drop_flatMap_of_length hlen, List.drop_eq_getElem_cons hy,
      List.flatMap_cons, hrow, List.getElem?_append_left (by simp [maskRow, noiseRow]), maskRow, noiseRow,
      List.map_cons, List.getElem?_cons_succ, List.getElem?_cons_succ, List.getElem?_map, List.getElem?_ofFn, dif_pos x.isLt]
    cases f y x <;> simp [maskByte]
  intro f g hfg
  funext y x
  have hbits := (hget f y x).symm.trans ((congrArg (fun mask => mask[_]?) hfg).trans (hget g y x))
  cases hf : f y x <;> cases hg : g y x <;> simp_all

/-- There are more masks than streams of fewer than `L` bytes. -/
theorem exists_long_noise {L : Nat} (hL : 0 < L) (hwh : w * h = 9 * L) (compress : Bytes → Bytes)
    (hinj : ∀ a b : Bytes, a.length < 2 ^ 63 → b.length < 2 ^ 63 → compress a = compress b → a = b)
    (hh : 0 < h) (hh' : h < 2 ^ 31) (hw : w + 1 < 2 ^ 31) (hsize : ∀ f, (noise hh hh' hw f).maskScanlines.length < 2 ^ 63) :
    ∃ f, L ≤ (compress (noise hh hh' hw f).maskScanlines).length := by
  by_contra hall
  push Not at hall
  have hinjective : Function.Injective fun (f : Fin h → Fin w → Bool) (i : Fin L) =>
      ((compress (noise hh hh' hw f).maskScanlines)[i.val]?).map UInt8.toFin := by
    intro f g hfg
    refine maskScanlines_noise_injective hh hh' hw (hinj _ _ (hsize f) (hsize g) (List.ext_getElem? fun i => ?_))
    by_cases hi : i < L
    · exact Option.map_injective (fun _ _ => UInt8.toFin_inj.mp) (congrFun hfg ⟨i, hi⟩)
    · rw [List.getElem?_eq_none ((hall f).le.trans (Nat.le_of_not_lt hi)),
        List.getElem?_eq_none ((hall g).le.trans (Nat.le_of_not_lt hi))]
  have hcard := Fintype.card_le_of_injective _ hinjective
  simp only [Fintype.card_fun, Fintype.card_bool, Fintype.card_fin, Fintype.card_option] at hcard
  rw [← pow_mul, hwh, pow_mul] at hcard
  exact absurd hcard (not_le.mpr (Nat.pow_lt_pow_left (by decide) hL.ne'))

end

end Image

def plainDecompress : Bytes → Option Bytes
  | [] => none
  | _ :: data => if data.length < 2 ^ 63 then some data else none

theorem length_plainDecompress {stream data : Bytes} (h : plainDecompress stream = some data) : data.length < 2 ^ 63 := by
  cases stream with
  | nil => cases h
  | cons b stream =>
    obtain ⟨hlt, heq⟩ := Option.ite_none_right_eq_some.mp h
    rwa [← Option.some.inj heq]

theorem length_cons_le (data : Bytes) : ((0x78 : UInt8) :: data).length ≤ 2 * data.length + 64 := by
  rw [List.length_cons]
  omega

/-- The data behind a byte. -/
def plainZlib : Zlib where
  compress data := 0x78 :: data
  decompress := plainDecompress
  decompress_compress _ h := if_pos h
  length_decompress _ _ := length_plainDecompress
  decompress_nil := rfl
  length_compress := length_cons_le

/-- Whatever the compression is, some image of `9 * 2 ^ 11` rows of `2 ^ 20 + 1` pixels has a mask that is not exact. -/
theorem not_exact_noise : Nonempty Zlib ∧ ¬ ∃ codec : Zlib, ∀ (image : Image) (file : Bytes),
    image.IsEncoded codec file → image.MaskExact codec file := by
  refine ⟨⟨plainZlib⟩, fun ⟨codec, hexact⟩ => ?_⟩
  have hh : 0 < 9 * 2 ^ 11 := by decide
  have hh' : 9 * 2 ^ 11 < 2 ^ 31 := by decide
  have hw : 2 ^ 20 + 1 < 2 ^ 31 := by decide
  have hencoded : ∀ f, ∃ file, (Image.noise hh hh' hw f).IsEncoded codec file := by
    intro f
    refine Image.exists_isEncoded codec ?_
    rw [Image.length_rows_noise]
    decide
  have hsize : ∀ f, (Image.noise hh hh' hw f).maskScanlines.length < 2 ^ 63 := by
    intro f
    obtain ⟨file, hfile⟩ := hencoded f
    exact hfile.length_maskScanlines_lt
  have hinj : ∀ a b : Bytes, a.length < 2 ^ 63 → b.length < 2 ^ 63 → codec.compress a = codec.compress b → a = b := by
    intro a b ha hb heq
    have hdecompress := congrArg codec.decompress heq
    rw [codec.decompress_compress a ha, codec.decompress_compress b hb] at hdecompress
    exact Option.some.inj hdecompress
  obtain ⟨f, hlong⟩ := Image.exists_long_noise (L := 2 ^ 31) (by decide) (by decide) codec.compress hinj hh hh' hw hsize
  obtain ⟨file, hfile⟩ := hencoded f
  rcases (Image.maskExact_iff_of_isEncoded hfile).mp (hexact _ _ hfile) with hopaque | hshort
  · exact Image.not_isOpaque_noise hh hh' hw f hopaque
  · omega

end OpenProxy.Images
