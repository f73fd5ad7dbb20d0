import OpenProxy.Data.Encoding

/-!
# Protobuf messages and frames

The model of `adapters/devin/protoc.rs`, as far as it reads: variable-length numbers, tags, and the fields of a message one
after the other (`protoFields`).  From `adapters/devin/response.rs` there is what a frame of a stream has.  A field that
nothing looks at (`delta_tokens`, `signature`, `latency_ms` and so on) is passed over like one that is not known, which
reads the same bytes.
-/

namespace OpenProxy.Devin

/-- The turns of `varint`, from a shift on. -/
def varintFrom : Nat → Nat → Nat → Bytes → Option (Nat × Bytes)
  | 0, _, _, _ => none
  | _ + 1, _, _, [] => none
  | turns + 1, shift, value, b :: bytes =>
    let value := value ||| (b.toNat % 128) <<< shift % 2 ^ 64
    if b < 0x80 then some (value, bytes) else varintFrom turns (shift + 7) value bytes

/-- `varint`, with the bytes behind it; it has ten bytes at most. -/
def varint (bytes : Bytes) : Option (Nat × Bytes) := varintFrom 10 0 0 bytes

/-- `take`. -/
def takeBytes (n : Nat) (bytes : Bytes) : Option (Bytes × Bytes) :=
  if bytes.length < n then none else some (bytes.take n, bytes.drop n)

/-- `tag`: the number and the wire type of a field. -/
def tag (bytes : Bytes) : Option ((Nat × Nat) × Bytes) :=
  match varint bytes with
  | none => none
  | some (raw, bytes) =>
    let field := raw / 8
    if field = 0 ∨ 2 ^ 32 ≤ field then none else some ((field, raw % 8), bytes)

/-- The value of a field. -/
inductive WireValue
  | varint (value : Nat)
  | fixed64 (bytes : Bytes)
  | bytes (bytes : Bytes)
  | fixed32 (bytes : Bytes)
  deriving DecidableEq, Repr

/-- The value of a wire type: `varint`, `fixed64_value`, `bytes_value`, `fixed32_value`, and what `skip` passes over. -/
def wireValue (wire : Nat) (bytes : Bytes) : Option (WireValue × Bytes) :=
  match wire with
  | 0 => (varint bytes).map fun (value, bytes) => (.varint value, bytes)
  | 1 => (takeBytes 8 bytes).map fun (value, bytes) => (.fixed64 value, bytes)
  | 2 => (varint bytes).bind fun (len, bytes) => (takeBytes len bytes).map fun (value, bytes) => (.bytes value, bytes)
  | 5 => (takeBytes 4 bytes).map fun (value, bytes) => (.fixed32 value, bytes)
  | _ => none

theorem length_varintFrom {turns shift value n : Nat} {bytes rest : Bytes}
    (h : varintFrom turns shift value bytes = some (n, rest)) : rest.length < bytes.length := by
  induction turns generalizing shift value bytes with
  | zero => cases h
  | succ turns ih =>
    cases bytes with
    | nil => cases h
    | cons b bytes =>
      rw [varintFrom] at h
      split at h
      · cases h
        exact Nat.lt_succ_self _
      · exact Nat.lt_succ_of_lt (ih h)

theorem length_takeBytes {n : Nat} {bytes value rest : Bytes} (h : takeBytes n bytes = some (value, rest)) :
    rest.length ≤ bytes.length := by
  unfold takeBytes at h
  split at h
  · cases h
  · cases h
    rw [List.length_drop]
    omega

theorem length_tag {bytes rest : Bytes} {t : Nat × Nat} (h : tag bytes = some (t, rest)) : rest.length < bytes.length := by
  unfold tag at h
  split at h
  · cases h
  · rename_i raw bytes' hvarint
    dsimp only at h
    split at h
    · cases h
    · cases h
      exact length_varintFrom hvarint

theorem length_wireValue {wire : Nat} {bytes rest : Bytes} {value : WireValue}
    (h : wireValue wire bytes = some (value, rest)) : rest.length ≤ bytes.length := by
  unfold wireValue at h
  split at h
  · obtain ⟨⟨n, bytes'⟩, hn, heq⟩ := Option.map_eq_some_iff.mp h
    cases heq
    exact (length_varintFrom hn).le
  · obtain ⟨⟨n, bytes'⟩, hn, heq⟩ := Option.map_eq_some_iff.mp h
    cases heq
    exact length_takeBytes hn
  · obtain ⟨⟨len, bytes'⟩, hlen, hrest⟩ := Option.bind_eq_some_iff.mp h
    obtain ⟨⟨n, bytes''⟩, hn, heq⟩ := Option.map_eq_some_iff.mp hrest
    cases heq
    exact (length_takeBytes hn).trans (length_varintFrom hlen).le
  · obtain ⟨⟨n, bytes'⟩, hn, heq⟩ := Option.map_eq_some_iff.mp h
    cases heq
    exact length_takeBytes hn
  · cases h

/-- The fields of a message, up to the first tag that cannot be read; `none` where a value is missing behind its tag. -/
def protoFields (bytes : Bytes) : Option (List (Nat × WireValue)) :=
  match _h : tag bytes with
  | none => some []
  | some ((field, wire), rest) =>
    match _h' : wireValue wire rest with
    | none => none
    | some (value, rest) => (protoFields rest).map fun fields => (field, value) :: fields
termination_by bytes.length
decreasing_by exact (length_wireValue _h').trans_lt (length_tag _h)

theorem protoFields_end {bytes : Bytes} (h : tag bytes = none) : protoFields bytes = some [] := by
  rw [protoFields]
  split
  · rfl
  · rename_i heq
    rw [h] at heq
    cases heq

/-- The first field and the ones behind it. -/
theorem protoFields_cons {bytes rest rest' : Bytes} {field wire : Nat} {value : WireValue}
    (h : tag bytes = some ((field, wire), rest)) (hvalue : wireValue wire rest = some (value, rest')) :
    protoFields bytes = (protoFields rest').map fun fields => (field, value) :: fields := by
  rw [protoFields]
  split <;> rename_i heq <;> rw [h] at heq <;> cases heq
  split <;> rename_i heq <;> rw [hvalue] at heq <;> cases heq
  rfl

/-- `u32::from_le_bytes`. -/
def fromLeBytes (b : Bytes) : Nat := fromBeBytes b.reverse

/-! ### Frames -/

/-- `DevinToolCallDelta`. -/
structure DevinToolCallDelta where
  id : Text := []
  name : Text := []
  arguments : Text := []
  invalidJsonStr : Text := []
  deriving DecidableEq, Repr

/-- `DevinUsage`; the counts are `i64`. -/
structure DevinUsage where
  promptTokens : Int := 0
  completionTokens : Int := 0
  cachedTokens : Int := 0
  modelName : Text := []
  deriving DecidableEq, Repr

/-- `DevinFrame`. -/
structure DevinFrame where
  outputId : Text := []
  timestampSecs : Nat := 0
  text : Text := []
  stopReason : Nat := 0
  toolCallDeltas : List DevinToolCallDelta := []
  thinkingText : Text := []
  messageId : Text := []
  usage : Option DevinUsage := none
  dimPrompt : Int := 0
  dimCompletion : Int := 0
  dimCached : Int := 0
  dimFound : Bool := false
  deriving DecidableEq, Repr

/-! ### Machine numbers -/

/-- An `i64`, which wraps where overflows are not checked. -/
def i64 (z : Int) : Int := z.bmod (2 ^ 64)

/-- `as i64` of the `f32` with the given bits: the integral part, saturated, and zero for what is not a number. -/
def f32ToI64 (bits : Nat) : Int :=
  let exponent := bits / 2 ^ 23 % 2 ^ 8
  let mantissa := bits % 2 ^ 23
  let magnitude :=
    if exponent = 255 then (if mantissa = 0 then 2 ^ 63 else 0)
    else
      let digits := if exponent = 0 then mantissa else 2 ^ 23 + mantissa
      if 150 ≤ exponent then digits * 2 ^ (exponent - 150) else digits / 2 ^ (150 - exponent)
  if bits / 2 ^ 31 = 1 then -(min magnitude (2 ^ 63) : Nat) else (min magnitude (2 ^ 63 - 1) : Nat)

/-! ### Parts of a frame -/

/-- A step of `parse_tool_call_delta`. -/
def addDeltaField (delta : DevinToolCallDelta) : Nat × WireValue → DevinToolCallDelta
  | (1, .bytes b) => { delta with id := fromUtf8Lossy b }
  | (2, .bytes b) => { delta with name := fromUtf8Lossy b }
  | (3, .bytes b) => { delta with arguments := fromUtf8Lossy b }
  | (4, .bytes b) => { delta with invalidJsonStr := fromUtf8Lossy b }
  | _ => delta

/-- `parse_tool_call_delta`. -/
def parseToolCallDelta (payload : Bytes) : Option DevinToolCallDelta :=
  (protoFields payload).map fun fields => fields.foldl addDeltaField {}

/-- A step of `parse_usage`. -/
def addUsageField (usage : DevinUsage) : Nat × WireValue → DevinUsage
  | (2, .varint n) => { usage with promptTokens := i64 (usage.promptTokens + i64 n) }
  | (3, .varint n) => { usage with completionTokens := i64 n }
  | (5, .varint n) => { usage with cachedTokens := i64 n }
  | (9, .bytes b) => { usage with modelName := fromUtf8Lossy b }
  | _ => usage

/-- `parse_usage`. -/
def parseUsage (payload : Bytes) : Option DevinUsage :=
  (protoFields payload).map fun fields => fields.foldl addUsageField {}

/-- `DevinUsage::merge`. -/
def DevinUsage.merge (usage other : DevinUsage) : DevinUsage where
  promptTokens := i64 (usage.promptTokens + other.promptTokens)
  completionTokens := if other.completionTokens ≠ 0 then other.completionTokens else usage.completionTokens
  cachedTokens := if other.cachedTokens ≠ 0 then other.cachedTokens else usage.cachedTokens
  modelName := if other.modelName.isEmpty then usage.modelName else other.modelName

/-- A step of `parse_dim_metric`; the value is that of the last `fixed32` with the number 2 in a part. -/
def addMetricField (metric : Text × Int) : Nat × WireValue → Option (Text × Int)
  | (5, .bytes b) => some (fromUtf8Lossy b, metric.2)
  | (4, .bytes b) => (protoFields b).map fun fields =>
    (metric.1, fields.foldl (fun value field => match field with
      | (2, .fixed32 bits) => f32ToI64 (fromLeBytes bits)
      | _ => value) metric.2)
  | _ => some metric

/-- `parse_dim_metric`, with the value as the number that is made of it. -/
def parseDimMetric (payload : Bytes) : Option (Text × Int) :=
  (protoFields payload).bind fun fields => fields.foldlM addMetricField ([], 0)

/-- A metric of the group `Token Usage`. -/
def addMetric (frame : DevinFrame) (metric : Text × Int) : DevinFrame :=
  if metric.1 = "input_tokens".toList then { frame with dimPrompt := metric.2, dimFound := true }
  else if metric.1 = "output_tokens".toList then { frame with dimCompletion := metric.2, dimFound := true }
  else if metric.1 = "cached_input_tokens".toList then { frame with dimCached := metric.2, dimFound := true }
  else frame

/-- A step of the loop of `parse_dim_group`: the title and the metrics. -/
def addGroupField (group : Text × List (Text × Int)) : Nat × WireValue → Text × List (Text × Int)
  | (1, .bytes b) => (fromUtf8Lossy b, group.2)
  | (2, .bytes b) => (group.1, group.2 ++ (parseDimMetric b).toList)
  | _ => group

/-- `parse_dim_group`: the first group with a metric counts, and one that cannot be read does not. -/
def parseDimGroup (payload : Bytes) (frame : DevinFrame) : DevinFrame :=
  if frame.dimFound then frame
  else
    match protoFields payload with
    | none => frame
    | some fields =>
      let group := fields.foldl addGroupField ([], [])
      if group.1 ≠ "Token Usage".toList then frame else group.2.foldl addMetric frame

/-- The seconds of a timestamp that is a message. -/
def parseTimestamp (payload : Bytes) (secs : Nat) : Option Nat :=
  (protoFields payload).map fun fields => fields.foldl (fun secs field => match field with
    | (1, .varint n) => n
    | _ => secs) secs

/-- A step of `parse_devin_frame`. -/
def addFrameField (frame : DevinFrame) : Nat × WireValue → Option DevinFrame
  | (1, .bytes b) => some { frame with outputId := fromUtf8Lossy b }
  | (2, .varint n) => some { frame with timestampSecs := n }
  | (2, .bytes b) => (parseTimestamp b frame.timestampSecs).map fun secs => { frame with timestampSecs := secs }
  | (3, .bytes b) => some { frame with text := frame.text ++ fromUtf8Lossy b }
  | (5, .varint n) => some { frame with stopReason := n }
  | (6, .bytes b) => (parseToolCallDelta b).map fun delta =>
    { frame with toolCallDeltas := frame.toolCallDeltas ++ [delta] }
  | (7, .bytes b) => (parseUsage b).map fun usage =>
    { frame with usage := some (match frame.usage with
      | some existing => existing.merge usage
      | none => usage) }
  | (9, .bytes b) => some { frame with thinkingText := frame.thinkingText ++ fromUtf8Lossy b }
  | (17, .bytes b) => some { frame with messageId := fromUtf8Lossy b }
  | (28, .bytes b) => some (parseDimGroup b frame)
  | _ => some frame

/-- `parse_devin_frame`; the only error is `Truncated`. -/
def parseDevinFrame (payload : Bytes) : Option DevinFrame :=
  (protoFields payload).bind fun fields => fields.foldlM addFrameField {}

end OpenProxy.Devin
