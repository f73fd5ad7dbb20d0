import OpenProxy.Devin.Protobuf
import OpenProxy.Upstream.Responses

/-!
# Connect envelopes

The model of `adapters/devin/wire.rs` as far as it reads, and of `parse_devin_trailer_error`: the gzip container, the
envelopes of a body, the trailer, and the names that the ids of calls get.  An envelope is read as it was written, whatever
stands behind it (`nextFrame_encode`), and what has arrived of a body is read in the same way when more of it arrives
(`nextFrame_append`).  The id of a call is told from its name, and a name has portable characters only.
-/

namespace OpenProxy.Devin

open Upstream.Responses (strMember)

/-- `DevinWireError`, without the errors that no reader gives. -/
inductive DevinWireError
  | truncated
  | badFlag (flag : UInt8)
  | frameTooLarge (len : Nat)
  | gzip (message : Text)
  | decompressedTooLarge (len : Nat)
  deriving DecidableEq, Repr

/-- `{:#04x}` of a byte. -/
def hexByte (b : UInt8) : Text := ['0', 'x', hexDigit (b.toNat / 16), hexDigit (b.toNat % 16)]

/-- The text of an error. -/
def DevinWireError.message : DevinWireError → Text
  | truncated => "truncated protobuf payload".toList
  | badFlag flag => "invalid connect frame flag ".toList ++ hexByte flag
  | frameTooLarge len => "connect frame too large: ".toList ++ Nat.toDigits 10 len ++ " bytes".toList
  | gzip message => "gzip decode failed: ".toList ++ message
  | decompressedTooLarge len => "decompressed frame exceeds cap: ".toList ++ Nat.toDigits 10 len ++ " bytes".toList

def maxCompressedFrame : Nat := 16 * 1024 * 1024

def maxDecompressedFrame : Nat := 64 * 1024 * 1024

/-! ### The gzip container -/

/-- How `decompress_to_vec_with_limit` fails. -/
inductive InflateError
  | hasMoreOutput
  | other (message : Text)
  deriving DecidableEq, Repr

/-- The offset behind the extra field; an offset that is greater than `usize::MAX` does not occur. -/
def skipExtra (input : Bytes) (flags : UInt8) (pos : Nat) : Except DevinWireError Nat :=
  if flags &&& 0x04 = 0 then .ok pos
  else if input.length < pos + 2 then .error (.gzip "truncated FEXTRA length".toList)
  else .ok (pos + 2 + fromLeBytes ((input.drop pos).take 2))

/-- The offset behind the name or the comment. -/
def skipName (flag : UInt8) (input : Bytes) (flags : UInt8) (pos : Nat) : Except DevinWireError Nat :=
  if flags &&& flag = 0 then .ok pos
  else if input.length < pos then .error (.gzip "truncated name/comment".toList)
  else
    match (input.drop pos).findIdx? (· = 0) with
    | some nul => .ok (pos + nul + 1)
    | none => .error (.gzip "unterminated name/comment".toList)

section

-- `decompress_to_vec_with_limit`.
variable (inflate : Bytes → Nat → Except InflateError Bytes)

/-- `gunzip`. -/
def gunzip (input : Bytes) : Except DevinWireError Bytes := do
  if input.length < 10 then throw (.gzip "truncated header".toList)
  if input.take 2 ≠ [0x1f, 0x8b] then throw (.gzip "bad magic".toList)
  let method := input.getD 2 0
  if method ≠ 8 then throw (.gzip ("unsupported compression method ".toList ++ Nat.toDigits 10 method.toNat))
  let flags := input.getD 3 0
  if flags &&& 0xe0 ≠ 0 then throw (.gzip ("reserved FLG bits set: ".toList ++ hexByte flags))
  let pos ← skipExtra input flags 10
  let pos ← skipName 0x08 input flags pos
  let pos ← skipName 0x10 input flags pos
  let pos := if flags &&& 0x02 = 0 then pos else pos + 2
  if input.length < pos then throw (.gzip "header exceeds input".toList)
  match inflate (input.drop pos) maxDecompressedFrame with
  | .ok bytes => .ok bytes
  | .error .hasMoreOutput => .error (.decompressedTooLarge maxDecompressedFrame)
  | .error (.other message) => .error (.gzip message)

/-! ### Envelopes -/

structure DevinFrameEvent where
  flag : UInt8
  payload : Bytes
  deriving DecidableEq, Repr

/-- `is_end_stream`. -/
def DevinFrameEvent.isEndStream (frame : DevinFrameEvent) : Bool := frame.flag &&& 0x02 != 0

/-- The event of an envelope. -/
def eventOf (flag : UInt8) (payload : Bytes) : Except DevinWireError DevinFrameEvent :=
  if flag &&& 0x01 ≠ 0 then (gunzip inflate payload).map (⟨flag, ·⟩) else .ok ⟨flag, payload⟩

/-- `DevinDeframer::next_frame`, with the bytes that are left in the buffer. -/
def nextFrame (buf : Bytes) : Except DevinWireError (Option DevinFrameEvent) × Bytes :=
  if buf.length < 5 then (.ok none, buf)
  else
    let flag := buf.getD 0 0
    if 0x03 < flag then (.error (.badFlag flag), buf)
    else
      let len := fromBeBytes ((buf.drop 1).take 4)
      if maxCompressedFrame < len then (.error (.frameTooLarge len), buf)
      else if buf.length < 5 + len then (.ok none, buf)
      else
        let payload := (buf.drop 5).take len
        ((eventOf inflate flag payload).map some, buf.drop (5 + len))

variable {inflate : Bytes → Nat → Except InflateError Bytes}

/-- An envelope takes bytes from the buffer. -/
theorem length_nextFrame {buf rest : Bytes} {frame : DevinFrameEvent}
    (h : nextFrame inflate buf = (.ok (some frame), rest)) : rest.length < buf.length := by
  unfold nextFrame at h
  split at h
  · cases h
  · dsimp only at h
    split at h
    · cases h
    · split at h
      · cases h
      · split at h
        · cases h
        · rw [← (Prod.mk.inj h).2, List.length_drop]
          omega

variable (inflate) in
/-- More bytes do not change what has been read, and where too few have arrived nothing is taken. -/
theorem nextFrame_append (buf more : Bytes) :
    nextFrame inflate buf = (.ok none, buf) ∨
      ∃ result rest, nextFrame inflate buf = (result, rest) ∧
        nextFrame inflate (buf ++ more) = (result, rest ++ more) ∧ result ≠ .ok none := by
  unfold nextFrame
  rw [List.length_append]
  by_cases hshort : buf.length < 5
  · left
    rw [if_pos hshort]
  · have hflag : (buf ++ more).getD 0 0 = buf.getD 0 0 := by
      cases buf with
      | nil => exact absurd (Nat.zero_lt_succ 4) hshort
      | cons b buf => rfl
    have hlen : ((buf ++ more).drop 1).take 4 = (buf.drop 1).take 4 := by
      rw [List.drop_append_of_le_length (by omega), List.take_append_of_le_length (by rw [List.length_drop]; omega)]
    have hlong : ¬ buf.length + more.length < 5 := by omega
    rw [if_neg hshort, if_neg hlong, hflag, hlen]
    by_cases hbad : 0x03 < buf.getD 0 0
    · right
      simp only [if_pos hbad]
      exact ⟨_, _, rfl, rfl, by simp⟩
    · simp only [if_neg hbad]
      by_cases hlarge : maxCompressedFrame < fromBeBytes ((buf.drop 1).take 4)
      · right
        simp only [if_pos hlarge]
        exact ⟨_, _, rfl, rfl, by simp⟩
      · simp only [if_neg hlarge]
        by_cases hpart : buf.length < 5 + fromBeBytes ((buf.drop 1).take 4)
        · left
          rw [if_pos hpart]
        · right
          have hwhole : ¬ buf.length + more.length < 5 + fromBeBytes ((buf.drop 1).take 4) := by omega
          rw [if_neg hpart, if_neg hwhole]
          have hpayload : ((buf ++ more).drop 5).take (fromBeBytes ((buf.drop 1).take 4)) =
              (buf.drop 5).take (fromBeBytes ((buf.drop 1).take 4)) := by
            rw [List.drop_append_of_le_length (by omega),
              List.take_append_of_le_length (by rw [List.length_drop]; omega)]
          have hrest : (buf ++ more).drop (5 + fromBeBytes ((buf.drop 1).take 4)) =
              buf.drop (5 + fromBeBytes ((buf.drop 1).take 4)) ++ more :=
            List.drop_append_of_le_length (by omega)
          rw [hpayload, hrest]
          refine ⟨_, _, rfl, rfl, ?_⟩
          cases eventOf inflate (buf.getD 0 0) ((buf.drop 5).take (fromBeBytes ((buf.drop 1).take 4))) with
          | error e => simp [Except.map]
          | ok frame => simp [Except.map]

/-- An envelope as it is written. -/
structure Envelope where
  flag : UInt8
  payload : Bytes
  fits : payload.length < 2 ^ 32

/-- The bytes of an envelope: its flag, its length, its payload. -/
def Envelope.encode (e : Envelope) : Bytes := e.flag :: (toBeBytes 4 e.payload.length ++ e.payload)

variable (inflate) in
/-- What a reader finds in an envelope. -/
def Envelope.event (e : Envelope) : Except DevinWireError DevinFrameEvent :=
  if 0x03 < e.flag then .error (.badFlag e.flag)
  else if maxCompressedFrame < e.payload.length then .error (.frameTooLarge e.payload.length)
  else eventOf inflate e.flag e.payload

variable (inflate) in
/-- An envelope is read as it was written, and what is behind it stays in the buffer. -/
theorem nextFrame_encode (e : Envelope) (rest : Bytes) :
    ∃ left, nextFrame inflate (e.encode ++ rest) = ((e.event inflate).map some, left) ∧
      ∀ frame, e.event inflate = .ok frame → left = rest := by
  have hfits := e.fits
  have hfour : (toBeBytes 4 e.payload.length).length = 4 := length_toBeBytes 4 _
  have hshape : e.encode ++ rest = e.flag :: (toBeBytes 4 e.payload.length ++ (e.payload ++ rest)) := by
    rw [Envelope.encode, List.cons_append, List.append_assoc]
  have htotal : (e.encode ++ rest).length = 5 + e.payload.length + rest.length := by
    rw [hshape, List.length_cons, List.length_append, hfour, List.length_append]
    omega
  have hflag : (e.encode ++ rest).getD 0 0 = e.flag := by
    rw [hshape]
    rfl
  have hlen : fromBeBytes (((e.encode ++ rest).drop 1).take 4) = e.payload.length := by
    rw [hshape, List.drop_one, List.tail_cons, List.take_left' hfour, fromBeBytes_toBeBytes (by omega)]
  have hbehind : (e.encode ++ rest).drop 5 = e.payload ++ rest := by
    rw [hshape, List.drop_succ_cons]
    exact List.drop_left' hfour
  unfold nextFrame Envelope.event
  rw [if_neg (by omega), hflag]
  by_cases hbad : 0x03 < e.flag
  · simp only [if_pos hbad]
    exact ⟨_, rfl, fun frame h => by cases h⟩
  · simp only [if_neg hbad, hlen]
    by_cases hlarge : maxCompressedFrame < e.payload.length
    · simp only [if_pos hlarge]
      exact ⟨_, rfl, fun frame h => by cases h⟩
    · simp only [if_neg hlarge]
      rw [if_neg (by omega), hbehind, List.take_left, ← List.drop_drop, hbehind, List.drop_left]
      exact ⟨rest, rfl, fun _ _ => rfl⟩

end

/-! ### The trailer -/

/-- `is_ascii_whitespace` of a byte. -/
def isAsciiWhitespace (b : UInt8) : Bool := b == 0x20 || b == 0x09 || b == 0x0a || b == 0x0c || b == 0x0d

/-- The bytes without the white space around them. -/
def trimAsciiWhitespace (b : Bytes) : Bytes :=
  ((b.dropWhile isAsciiWhitespace).reverse.dropWhile isAsciiWhitespace).reverse

/-- The status for the code of an error. -/
def trailerStatus (code lowerMsg : Text) : Nat :=
  let contains (needle : String) : Bool := (find lowerMsg needle.toList).isSome
  if code = "invalid_argument".toList then (if contains "internal error" then 502 else 400)
  else if code = "internal".toList then 502
  else if code = "unauthenticated".toList then 401
  else if code = "permission_denied".toList then (if contains "high demand" then 429 else 403)
  else if code = "resource_exhausted".toList then 429
  else if code = "unavailable".toList then 503
  else if code = "canceled".toList then 499
  else if code = "deadline_exceeded".toList then 504
  else if code = "failed_precondition".toList then
    (if ["quota", "credit", "acu", "exhausted", "limit"].any contains then 429 else 400)
  else 502

/-- `parse_devin_trailer_error`. -/
def parseDevinTrailerError (payload : Bytes) : Option (Nat × Text) :=
  let trimmed := trimAsciiWhitespace payload
  if trimmed = [] ∨ trimmed = asBytes "\x7b\x7d".toList then none
  else
    ((fromSlice trimmed).bind fun json => json.get "error".toList).map fun error =>
      let code := lower ((strMember error "code").getD [])
      let message := (strMember error "message").getD []
      (trailerStatus code (lower message),
        "devin upstream error (".toList ++ code ++ "): ".toList ++ message)

/-! ### The ids of calls -/

def devinToolIdPrefix : Text := "cpa_tid_v1_".toList

/-- A byte of an id that is passed on as it is. -/
def isPortableByte (b : UInt8) : Bool :=
  (0x30 ≤ b && b ≤ 0x39) || (0x41 ≤ b && b ≤ 0x5a) || (0x61 ≤ b && b ≤ 0x7a) || b == 0x5f || b == 0x2d

/-- `is_portable_tool_call_id`. -/
def isPortableToolCallId (id : Text) : Bool := !id.isEmpty && (asBytes id).all isPortableByte

/-- `encode_devin_tool_call_id`. -/
def encodeDevinToolCallId (id : Text) : Text :=
  if id.isEmpty || (isPortableToolCallId id && !devinToolIdPrefix.isPrefixOf id) then id
  else devinToolIdPrefix ++ encodeBase64 (asBytes id)

/-- `decode_devin_tool_call_id`. -/
def decodeDevinToolCallId (id : Text) : Text :=
  match devinToolIdPrefix.isPrefixOf id, decodeBase64 (id.drop devinToolIdPrefix.length) with
  | true, some decoded =>
    match fromUtf8 decoded with
    | some original =>
      if original.isEmpty || encodeDevinToolCallId original ≠ id then id else original
    | none => id
  | _, _ => id

/-- An id that is passed on does not begin like one that is not, and all its bytes are portable. -/
theorem encodeDevinToolCallId_cases (id : Text) :
    (encodeDevinToolCallId id = id ∧ ¬ devinToolIdPrefix <+: id ∧ (asBytes id).all isPortableByte) ∨
      (encodeDevinToolCallId id = devinToolIdPrefix ++ encodeBase64 (asBytes id) ∧ id ≠ []) := by
  unfold encodeDevinToolCallId
  by_cases h : (id.isEmpty || (isPortableToolCallId id && !devinToolIdPrefix.isPrefixOf id)) = true
  · left
    rw [if_pos h]
    rw [Bool.or_eq_true, Bool.and_eq_true, Bool.not_eq_true', ← Bool.not_eq_true, List.isPrefixOf_iff_prefix,
      List.isEmpty_iff] at h
    rcases h with rfl | ⟨hportable, hpre⟩
    · exact ⟨rfl, by decide, rfl⟩
    · exact ⟨rfl, hpre, (Bool.and_eq_true _ _ ▸ hportable).2⟩
  · right
    rw [if_neg h]
    refine ⟨rfl, ?_⟩
    rintro rfl
    exact h rfl

/-- The id of a call comes back. -/
theorem decode_encodeDevinToolCallId (id : Text) : decodeDevinToolCallId (encodeDevinToolCallId id) = id := by
  rcases encodeDevinToolCallId_cases id with ⟨hid, hpre, -⟩ | ⟨hid, hne⟩
  · have hfalse : devinToolIdPrefix.isPrefixOf id = false := by
      rw [← Bool.not_eq_true, List.isPrefixOf_iff_prefix]
      exact hpre
    rw [hid]
    unfold decodeDevinToolCallId
    rw [hfalse]
  · have htrue : devinToolIdPrefix.isPrefixOf (encodeDevinToolCallId id) = true := by
      rw [List.isPrefixOf_iff_prefix, hid]
      exact List.prefix_append _ _
    have hdecoded : decodeBase64 ((encodeDevinToolCallId id).drop devinToolIdPrefix.length) = some (asBytes id) := by
      rw [hid, List.drop_left, decodeBase64_encodeBase64]
    unfold decodeDevinToolCallId
    rw [htrue, hdecoded]
    dsimp only
    rw [fromUtf8_asBytes]
    dsimp only
    rw [if_neg]
    simp [hne]

theorem encodeDevinToolCallId_injective : Function.Injective encodeDevinToolCallId :=
  Function.LeftInverse.injective decode_encodeDevinToolCallId

/-- An id that is not returned as it is was made by the encoding. -/
theorem encode_decodeDevinToolCallId {x : Text} (h : decodeDevinToolCallId x ≠ x) :
    encodeDevinToolCallId (decodeDevinToolCallId x) = x := by
  unfold decodeDevinToolCallId at h ⊢
  split at h
  · split at h
    · split at h
      · exact absurd rfl h
      · rename_i hcheck
        rw [Bool.not_eq_true, Bool.or_eq_false_iff, decide_eq_false_iff_not, not_not] at hcheck
        rw [if_neg (by simp [hcheck.1, hcheck.2])]
        exact hcheck.2
    · exact absurd rfl h
  · exact absurd rfl h

/-! ### The alphabet of the encoded ids -/

/-- An ASCII letter, a digit, an underscore or a dash. -/
def IsPortableChar (c : Char) : Prop := c.isAlphanum ∨ c = '_' ∨ c = '-'

instance (c : Char) : Decidable (IsPortableChar c) := inferInstanceAs (Decidable (_ ∨ _))

theorem isPortableChar_of_byte : ∀ n < 128, isPortableByte (UInt8.ofNat n) → IsPortableChar (Char.ofNat n) := by
  decide +kernel

/-- The first byte of a longer character is not portable. -/
theorem not_isPortableByte_of_le : ∀ n < 256, 128 ≤ n → isPortableByte (UInt8.ofNat n) = false := by
  decide +kernel

/-- A character whose bytes are portable is. -/
theorem isPortableChar_of_bytes {c : Char} (h : ∀ b ∈ String.utf8EncodeChar c, isPortableByte b) : IsPortableChar c := by
  have hlong : ∀ n, n < 256 → 128 ≤ n → UInt8.ofNat n ∈ String.utf8EncodeChar c → IsPortableChar c := by
    intro n hlt hle hmem
    have hportable := h _ hmem
    rw [not_isPortableByte_of_le n hlt hle] at hportable
    cases hportable
  unfold String.utf8EncodeChar at h hlong
  dsimp only at h hlong
  by_cases hascii : c.val.toNat ≤ 0x7f
  · rw [if_pos hascii] at h
    have hbyte := isPortableChar_of_byte c.toNat (Nat.lt_succ_of_le hascii) (h _ (List.mem_singleton.mpr rfl))
    rwa [Char.ofNat_toNat] at hbyte
  · rw [if_neg hascii] at hlong
    split at hlong
    · exact hlong _ (by omega) (by omega) List.mem_cons_self
    · split at hlong
      · exact hlong _ (by omega) (by omega) List.mem_cons_self
      · exact hlong _ (by omega) (by omega) List.mem_cons_self

/-- The characters of a name are portable. -/
theorem isPortableChar_of_mem_encode {id : Text} {c : Char} (h : c ∈ encodeDevinToolCallId id) : IsPortableChar c := by
  rcases encodeDevinToolCallId_cases id with ⟨hid, -, hportable⟩ | ⟨hid, -⟩
  · rw [hid] at h
    apply isPortableChar_of_bytes
    intro b hb
    rw [List.all_eq_true] at hportable
    exact hportable b (List.mem_flatMap.mpr ⟨c, h, hb⟩)
  · rw [hid, List.mem_append] at h
    rcases h with h | h
    · have hall : devinToolIdPrefix.all (fun c => decide (IsPortableChar c)) = true := by decide +kernel
      exact of_decide_eq_true (List.all_eq_true.mp hall c h)
    · obtain ⟨d, hd, rfl⟩ := exists_base64Char_of_mem h
      exact base64Char_isAlphanum d hd

/-- The codec of the ids is a lossless injection. -/
theorem devinToolCallId_codec :
    (∀ id, decodeDevinToolCallId (encodeDevinToolCallId id) = id) ∧
      (∀ id id', id ≠ id' → encodeDevinToolCallId id ≠ encodeDevinToolCallId id') ∧
      (∀ id, ∀ c ∈ encodeDevinToolCallId id, IsPortableChar c) ∧
      (∀ x, decodeDevinToolCallId x ≠ x → x = encodeDevinToolCallId (decodeDevinToolCallId x)) := by
  refine ⟨decode_encodeDevinToolCallId, fun id id' hne h => hne (encodeDevinToolCallId_injective h), ?_, ?_⟩
  · intro id c hc
    exact isPortableChar_of_mem_encode hc
  · intro x hx
    exact (encode_decodeDevinToolCallId hx).symm

example : encodeDevinToolCallId "cpa_tid_v1_x".toList = "cpa_tid_v1_Y3BhX3RpZF92MV94".toList := by decide +kernel

end OpenProxy.Devin
