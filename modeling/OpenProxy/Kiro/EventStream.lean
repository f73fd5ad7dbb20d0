import OpenProxy.Data.Encoding
import OpenProxy.Data.Table
import OpenProxy.Upstream.Anthropic

/-!
# Event streams

The model of `adapters/kiro/eventstream.rs`.  A message has its length, the length of its headers and a checksum of both in
front, then the headers and the payload, and a checksum of all of it at the end; `crc` is `crc32fast::hash`.  A message
whose headers are strings is read as it was written (`nextFrame_encode`).
-/

namespace OpenProxy.Kiro

open Upstream (CoreError)

inductive KiroEventType
  | assistantResponse
  | toolUse
  | messageStop
  | contextUsage
  | metering
  | other (name : Text)
  deriving DecidableEq, Repr

structure KiroFrameEvent where
  eventType : KiroEventType
  payload : Bytes
  deriving DecidableEq, Repr

/-- The event of a name. -/
def KiroEventType.ofName (name : Text) : KiroEventType :=
  if name = "assistantResponseEvent".toList then assistantResponse
  else if name = "toolUseEvent".toList then toolUse
  else if name = "messageStopEvent".toList then messageStop
  else if name = "contextUsageEvent".toList then contextUsage
  else if name = "meteringEvent".toList then metering
  else other name

/-- The loop of `parse_eventstream_headers`, from an offset on. -/
def parseHeadersFrom (map : Table Text Text) : Bytes → Table Text Text
  | [] => map
  | nameLen :: bytes =>
    if bytes.length < nameLen.toNat then map
    else
      match fromUtf8 (bytes.take nameLen.toNat), (bytes.drop nameLen.toNat).head? with
      | some name, some 7 =>
        let bytes := bytes.drop (nameLen.toNat + 1)
        if bytes.length < 2 then map
        else
          let valLen := fromBeBytes (bytes.take 2)
          let bytes := bytes.drop 2
          if bytes.length < valLen then map
          else
            let map := match fromUtf8 (bytes.take valLen) with
              | some val => map.insert name val
              | none => map
            parseHeadersFrom map (bytes.drop valLen)
      -- A name that is not text, nothing behind the name, or a value that is not a string.
      | _, _ => map
termination_by bytes => bytes.length
decreasing_by
  simp only [List.length_drop, List.length_cons]
  omega

/-- `parse_eventstream_headers`. -/
def parseEventstreamHeaders (bytes : Bytes) : Table Text Text := parseHeadersFrom ∅ bytes

/-- The event type that the headers give. -/
def eventTypeOf (headers : Table Text Text) : KiroEventType :=
  .ofName ((headers.lookup ":event-type".toList).getD [])

/-- Two checksums differ. -/
def crcMismatch (what : String) (expected got : Nat) : CoreError :=
  .upstreamConnection ("kiro eventstream ".toList ++ what.toList ++ " crc mismatch: expected ".toList ++
    Nat.toDigits 10 expected ++ ", got ".toList ++ Nat.toDigits 10 got)

section

variable (crc : Bytes → UInt32)

/-- `KiroDeframer::next_frame`, with the bytes that are left in the buffer. -/
def nextFrame (buf : Bytes) : Except CoreError (Option KiroFrameEvent) × Bytes :=
  if buf.length < 12 then (.ok none, buf)
  else
    let totalLen := fromBeBytes (buf.take 4)
    let headerLen := fromBeBytes ((buf.drop 4).take 4)
    let preludeCrc := fromBeBytes ((buf.drop 8).take 4)
    let calcPreludeCrc := (crc (buf.take 8)).toNat
    if preludeCrc ≠ calcPreludeCrc then (.error (crcMismatch "prelude" preludeCrc calcPreludeCrc), buf)
    else if buf.length < totalLen then (.ok none, buf)
    else
      let frameBytes := buf.take totalLen
      let buf := buf.drop totalLen
      if totalLen < 4 then (.error (.upstreamConnection "kiro eventstream frame too small".toList), buf)
      else
        let msgLen := totalLen - 4
        let expectedMsgCrc := fromBeBytes (frameBytes.drop msgLen)
        let calcMsgCrc := (crc (frameBytes.take msgLen)).toNat
        if expectedMsgCrc ≠ calcMsgCrc then (.error (crcMismatch "message" expectedMsgCrc calcMsgCrc), buf)
        else if msgLen < 12 + headerLen then
          (.error (.upstreamConnection "kiro eventstream invalid header length".toList), buf)
        else
          let headers := parseEventstreamHeaders ((frameBytes.drop 12).take headerLen)
          let payload := (frameBytes.take msgLen).drop (12 + headerLen)
          (.ok (some ⟨eventTypeOf headers, payload⟩), buf)

/-- A message takes bytes from the buffer. -/
theorem length_nextFrame {buf rest : Bytes} {frame : KiroFrameEvent} (h : nextFrame crc buf = (.ok (some frame), rest)) :
    rest.length < buf.length := by
  unfold nextFrame at h
  split at h
  · cases h
  · rename_i hlen
    dsimp only at h
    split at h
    · cases h
    · split at h
      · cases h
      · split at h
        · cases h
        · split at h
          · cases h
          · split at h
            · cases h
            · rw [← (Prod.mk.inj h).2, List.length_drop]
              omega

/-- More bytes do not change what has been read, and where too few have arrived nothing is taken. -/
theorem nextFrame_append (buf more : Bytes) :
    nextFrame crc buf = (.ok none, buf) ∨
      ∃ result rest, nextFrame crc buf = (result, rest) ∧
        nextFrame crc (buf ++ more) = (result, rest ++ more) ∧ result ≠ .ok none := by
  unfold nextFrame
  rw [List.length_append]
  by_cases hshort : buf.length < 12
  · left
    rw [if_pos hshort]
  · have hfirst : ∀ n ≤ 12, (buf ++ more).take n = buf.take n :=
      fun n hn => List.take_append_of_le_length (by omega)
    have hnumber : ∀ n ≤ 8, ((buf ++ more).drop n).take 4 = (buf.drop n).take 4 := by
      intro n hn
      rw [List.drop_append_of_le_length (by omega), List.take_append_of_le_length (by rw [List.length_drop]; omega)]
    have hlong : ¬ buf.length + more.length < 12 := by omega
    rw [if_neg hshort, if_neg hlong, hfirst 4 (by omega), hfirst 8 (by omega), hnumber 4 (by omega),
      hnumber 8 (by omega)]
    dsimp only
    by_cases hprelude : fromBeBytes ((buf.drop 8).take 4) ≠ (crc (buf.take 8)).toNat
    · right
      rw [if_pos hprelude, if_pos hprelude]
      exact ⟨_, _, rfl, rfl, nofun⟩
    · rw [if_neg hprelude, if_neg hprelude]
      generalize fromBeBytes (buf.take 4) = totalLen
      by_cases hpart : buf.length < totalLen
      · left
        rw [if_pos hpart]
      · right
        have hwhole : ¬ buf.length + more.length < totalLen := by omega
        have hframe : (buf ++ more).take totalLen = buf.take totalLen := List.take_append_of_le_length (by omega)
        have hrest : (buf ++ more).drop totalLen = buf.drop totalLen ++ more := List.drop_append_of_le_length (by omega)
        rw [if_neg hpart, if_neg hwhole, hframe, hrest]
        split
        · exact ⟨_, _, rfl, rfl, nofun⟩
        · split
          · exact ⟨_, _, rfl, rfl, nofun⟩
          · split
            · exact ⟨_, _, rfl, rfl, nofun⟩
            · exact ⟨_, _, rfl, rfl, nofun⟩

end

/-! ### Messages -/

/-- A header with a string as its value. -/
def encodeHeader (header : Text × Text) : Bytes :=
  UInt8.ofNat (asBytes header.1).length :: (asBytes header.1 ++
    7 :: (toBeBytes 2 (asBytes header.2).length ++ asBytes header.2))

/-- The headers of a message as bytes. -/
def encodeHeaders (headers : List (Text × Text)) : Bytes := headers.flatMap encodeHeader

/-- The lengths fit into the bytes that they have. -/
def HeaderFits (header : Text × Text) : Prop := (asBytes header.1).length < 2 ^ 8 ∧ (asBytes header.2).length < 2 ^ 16

instance (header : Text × Text) : Decidable (HeaderFits header) := inferInstanceAs (Decidable (_ ∧ _))

/-- The two lengths of a message. -/
def preludeOf (headers payload : Bytes) : Bytes :=
  toBeBytes 4 (16 + headers.length + payload.length) ++ toBeBytes 4 headers.length

/-- What the checksum at the end of a message is about. -/
def checkedOf (crc : Bytes → UInt32) (headers payload : Bytes) : Bytes :=
  preludeOf headers payload ++ (toBeBytes 4 (crc (preludeOf headers payload)).toNat ++ (headers ++ payload))

/-- A message with its headers as bytes. -/
def encodeMessage (crc : Bytes → UInt32) (headers payload : Bytes) : Bytes :=
  checkedOf crc headers payload ++ toBeBytes 4 (crc (checkedOf crc headers payload)).toNat

theorem length_preludeOf (headers payload : Bytes) : (preludeOf headers payload).length = 8 := by
  rw [preludeOf, List.length_append, length_toBeBytes, length_toBeBytes]

theorem length_checkedOf (crc : Bytes → UInt32) (headers payload : Bytes) :
    (checkedOf crc headers payload).length + 4 = 16 + headers.length + payload.length := by
  rw [checkedOf, List.length_append, List.length_append, List.length_append, length_preludeOf, length_toBeBytes]
  omega

/-- A message whose headers have strings as their values. -/
structure Message where
  headers : List (Text × Text)
  payload : Bytes
  headersFit : ∀ header ∈ headers, HeaderFits header
  fits : 16 + (encodeHeaders headers).length + payload.length < 2 ^ 32

namespace Message

variable (m : Message)

def totalLen : Nat := 16 + (encodeHeaders m.headers).length + m.payload.length

/-- The two lengths. -/
def prelude : Bytes := toBeBytes 4 m.totalLen ++ toBeBytes 4 (encodeHeaders m.headers).length

/-- What the checksum at the end is about. -/
def checked (crc : Bytes → UInt32) : Bytes :=
  m.prelude ++ (toBeBytes 4 (crc m.prelude).toNat ++ (encodeHeaders m.headers ++ m.payload))

def encode (crc : Bytes → UInt32) : Bytes := m.checked crc ++ toBeBytes 4 (crc (m.checked crc)).toNat

/-- The event of a message; of two headers with one name the last one counts. -/
def event : KiroFrameEvent where
  eventType := eventTypeOf (m.headers.foldl (fun map header => map.insert header.1 header.2) ∅)
  payload := m.payload

end Message

/-! ### Reading a message -/

/-- A header is read as it was written. -/
theorem parseHeadersFrom_cons (map : Table Text Text) {header : Text × Text} (hfits : HeaderFits header) (bytes : Bytes) :
    parseHeadersFrom map (encodeHeader header ++ bytes) = parseHeadersFrom (map.insert header.1 header.2) bytes := by
  obtain ⟨name, value⟩ := header
  obtain ⟨hname, hvalue⟩ := hfits
  dsimp only at hname hvalue
  have hnameLen : (UInt8.ofNat (asBytes name).length).toNat = (asBytes name).length := by
    rw [UInt8.toNat_ofNat']
    omega
  have hvalueLen : fromBeBytes (toBeBytes 2 (asBytes value).length) = (asBytes value).length :=
    fromBeBytes_toBeBytes (by omega)
  have htwo : (toBeBytes 2 (asBytes value).length).length = 2 := length_toBeBytes 2 _
  have hshape : encodeHeader (name, value) ++ bytes = UInt8.ofNat (asBytes name).length :: (asBytes name ++
      7 :: (toBeBytes 2 (asBytes value).length ++ (asBytes value ++ bytes))) := by
    simp only [encodeHeader, List.cons_append, List.append_assoc]
  have hname' : (asBytes name ++ 7 :: (toBeBytes 2 (asBytes value).length ++ (asBytes value ++ bytes))).drop
      ((asBytes name).length + 1) = toBeBytes 2 (asBytes value).length ++ (asBytes value ++ bytes) := by
    rw [← List.drop_drop, List.drop_left, List.drop_one, List.tail_cons]
  rw [hshape, parseHeadersFrom, hnameLen, if_neg (by rw [List.length_append]; omega), List.take_left, List.drop_left,
    fromUtf8_asBytes, List.head?_cons]
  simp only [hname', List.take_left' htwo, List.drop_left' htwo, hvalueLen, List.take_left, List.drop_left,
    fromUtf8_asBytes]
  rw [if_neg (by rw [List.length_append, htwo]; omega), if_neg (by rw [List.length_append]; omega)]

/-- The headers of a message. -/
theorem parseEventstreamHeaders_encode {headers : List (Text × Text)} (hfits : ∀ header ∈ headers, HeaderFits header) :
    parseEventstreamHeaders (encodeHeaders headers) =
      headers.foldl (fun map header => map.insert header.1 header.2) ∅ := by
  have hfrom : ∀ map : Table Text Text, parseHeadersFrom map (encodeHeaders headers) =
      headers.foldl (fun map header => map.insert header.1 header.2) map := by
    induction headers with
    | nil =>
      intro map
      rw [encodeHeaders, List.flatMap_nil, parseHeadersFrom, List.foldl_nil]
    | cons header headers ih =>
      intro map
      have hrest := ih fun header' h => hfits header' (List.mem_cons_of_mem _ h)
      unfold encodeHeaders at hrest ⊢
      rw [List.flatMap_cons, parseHeadersFrom_cons map (hfits header List.mem_cons_self), hrest, List.foldl_cons]
  exact hfrom ∅

/-- A message is read as it was written, and what is behind it stays in the buffer. -/
theorem nextFrame_encodeMessage (crc : Bytes → UInt32) {headers payload : Bytes}
    (hfits : 16 + headers.length + payload.length < 2 ^ 32) (rest : Bytes) :
    nextFrame crc (encodeMessage crc headers payload ++ rest) =
      (.ok (some ⟨eventTypeOf (parseEventstreamHeaders headers), payload⟩), rest) := by
  have hprelude := length_preludeOf headers payload
  have hchecked := length_checkedOf crc headers payload
  have hmsg : 16 + headers.length + payload.length - 4 = (checkedOf crc headers payload).length := by omega
  have hcrc : ∀ b, fromBeBytes (toBeBytes 4 (crc b).toNat) = (crc b).toNat := by
    intro b
    have := (crc b).toNat_lt
    exact fromBeBytes_toBeBytes (by omega)
  have hencode : (encodeMessage crc headers payload).length = 16 + headers.length + payload.length := by
    rw [encodeMessage, List.length_append, length_toBeBytes]
    exact hchecked
  -- The parts of the buffer.
  have hlen : (encodeMessage crc headers payload ++ rest).length = 16 + headers.length + payload.length + rest.length := by
    rw [List.length_append, hencode]
  have hparts : encodeMessage crc headers payload ++ rest = toBeBytes 4 (16 + headers.length + payload.length) ++
      (toBeBytes 4 headers.length ++ (toBeBytes 4 (crc (preludeOf headers payload)).toNat ++ (headers ++ payload ++
        (toBeBytes 4 (crc (checkedOf crc headers payload)).toNat ++ rest)))) := by
    simp only [encodeMessage, checkedOf, preludeOf, List.append_assoc]
  have htotalLen : fromBeBytes ((encodeMessage crc headers payload ++ rest).take 4) =
      16 + headers.length + payload.length := by
    rw [hparts, List.take_left' (length_toBeBytes 4 _), fromBeBytes_toBeBytes (by omega)]
  have hheaderLen : fromBeBytes (((encodeMessage crc headers payload ++ rest).drop 4).take 4) = headers.length := by
    rw [hparts, List.drop_left' (length_toBeBytes 4 _), List.take_left' (length_toBeBytes 4 _),
      fromBeBytes_toBeBytes (by omega)]
  have hfirst : (encodeMessage crc headers payload ++ rest).take 8 = preludeOf headers payload := by
    simp only [encodeMessage, checkedOf, List.append_assoc]
    exact List.take_left' hprelude
  have hpreludeCrc : fromBeBytes (((encodeMessage crc headers payload ++ rest).drop 8).take 4) =
      (crc (preludeOf headers payload)).toNat := by
    simp only [encodeMessage, checkedOf, List.append_assoc]
    rw [List.drop_left' hprelude, List.take_left' (length_toBeBytes 4 _), hcrc]
  have hframe : (encodeMessage crc headers payload ++ rest).take (16 + headers.length + payload.length) =
      encodeMessage crc headers payload := List.take_left' hencode
  have hrest : (encodeMessage crc headers payload ++ rest).drop (16 + headers.length + payload.length) = rest :=
    List.drop_left' hencode
  have hlast : (encodeMessage crc headers payload).drop (16 + headers.length + payload.length - 4) =
      toBeBytes 4 (crc (checkedOf crc headers payload)).toNat := by
    rw [encodeMessage]
    exact List.drop_left' hmsg.symm
  have hbefore : (encodeMessage crc headers payload).take (16 + headers.length + payload.length - 4) =
      checkedOf crc headers payload := by
    rw [encodeMessage]
    exact List.take_left' hmsg.symm
  have htwelve : (preludeOf headers payload ++ toBeBytes 4 (crc (preludeOf headers payload)).toNat).length = 12 := by
    rw [List.length_append, hprelude, length_toBeBytes]
  have hbehind : (checkedOf crc headers payload).drop 12 = headers ++ payload := by
    rw [checkedOf, ← List.append_assoc]
    exact List.drop_left' htwelve
  have hheaders : ((encodeMessage crc headers payload).drop 12).take headers.length = headers := by
    rw [encodeMessage, List.drop_append_of_le_length (by omega), hbehind, List.append_assoc]
    exact List.take_left
  unfold nextFrame
  rw [if_neg (by omega)]
  simp only [htotalLen, hheaderLen, hpreludeCrc, hfirst, hframe, hrest, hlast, hbefore, hcrc, hheaders]
  rw [if_neg (by simp), if_neg (by omega), if_neg (by omega), if_neg (by simp), if_neg (by omega), ← List.drop_drop,
    hbehind, List.drop_left]

/-- A message whose headers are strings. -/
theorem nextFrame_encode (crc : Bytes → UInt32) (m : Message) (rest : Bytes) :
    nextFrame crc (m.encode crc ++ rest) = (.ok (some m.event), rest) := by
  have hread := nextFrame_encodeMessage crc m.fits rest
  rw [parseEventstreamHeaders_encode m.headersFit] at hread
  exact hread

end OpenProxy.Kiro
