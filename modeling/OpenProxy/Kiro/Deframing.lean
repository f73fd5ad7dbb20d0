import OpenProxy.Data.Deframer
import OpenProxy.Devin.Stream
import OpenProxy.Kiro.Stream

/-!
# Deframing

`DevinDeframer` and `KiroDeframer` as deframers, so that neither depends on the chunks in which a body comes.  A Connect
envelope is read as it was written, and so is a message of an event stream, except for its event type: the headers are read up
to the first one that is not a string (`eventTypeOf_encodeValues`).  The folds read a whole body; what is left of it is an
error in one of them only.
-/

namespace OpenProxy.Kiro

open Upstream (CoreError)
open Upstream.Responses (OpenAIResponse)

/-- `DevinDeframer`. -/
def devinDeframer (inflate : Bytes → Nat → Except Devin.InflateError Bytes) :
    Deframer Devin.DevinWireError Devin.DevinFrameEvent where
  next := Devin.nextFrame inflate
  shrinks h := Devin.length_nextFrame h
  stable buf more := Devin.nextFrame_append inflate buf more
  empty := rfl

/-- `KiroDeframer`. -/
def kiroDeframer (crc : Bytes → UInt32) : Deframer CoreError KiroFrameEvent where
  next := nextFrame crc
  shrinks h := length_nextFrame crc h
  stable buf more := nextFrame_append crc buf more
  empty := rfl

/-- `has_partial` of both. -/
def hasPartial (buf : Bytes) : Bool := !buf.isEmpty

/-! ### Headers of all types -/

/-- The values of the header types of an event stream; numbers, timestamps and identifiers as their bytes. -/
inductive HeaderValue
  | bool (value : Bool)
  | byte (value : UInt8)
  | short (value : BitVec 16)
  | integer (value : BitVec 32)
  | long (value : BitVec 64)
  | byteArray (value : Bytes)
  | string (value : Text)
  | timestamp (value : BitVec 64)
  | uuid (value : BitVec 128)
  deriving DecidableEq

/-- The type of a value, and its bytes. -/
def HeaderValue.encode : HeaderValue → Bytes
  | bool true => [0]
  | bool false => [1]
  | byte value => [2, value]
  | short value => 3 :: toBeBytes 2 value.toNat
  | integer value => 4 :: toBeBytes 4 value.toNat
  | long value => 5 :: toBeBytes 8 value.toNat
  | byteArray value => 6 :: (toBeBytes 2 value.length ++ value)
  | string value => 7 :: (toBeBytes 2 (asBytes value).length ++ asBytes value)
  | timestamp value => 8 :: toBeBytes 8 value.toNat
  | uuid value => 9 :: toBeBytes 16 value.toNat

/-- The value of a string. -/
def HeaderValue.string? : HeaderValue → Option Text
  | string value => some value
  | _ => none

/-- The length fits into the two bytes that it has. -/
def HeaderValue.Fits : HeaderValue → Prop
  | byteArray value => value.length < 2 ^ 16
  | string value => (asBytes value).length < 2 ^ 16
  | _ => True

abbrev Header := Text × HeaderValue

def Header.encode (header : Header) : Bytes :=
  UInt8.ofNat (asBytes header.1).length :: (asBytes header.1 ++ header.2.encode)

def Header.Fits (header : Header) : Prop := (asBytes header.1).length < 2 ^ 8 ∧ header.2.Fits

def encodeValues (headers : List Header) : Bytes := headers.flatMap Header.encode

def eventTypeName : Text := ":event-type".toList

/-- A message with a string for its event type among headers of any types. -/
structure EventMessage where
  before : List Header
  eventType : Text
  after : List Header
  payload : Bytes
  others : ∀ header ∈ before ++ after, header.1 ≠ eventTypeName
  headersFit : ∀ header ∈ before ++ (eventTypeName, .string eventType) :: after, header.Fits
  fits : 16 + (encodeValues (before ++ (eventTypeName, .string eventType) :: after)).length + payload.length < 2 ^ 32

namespace EventMessage

variable (m : EventMessage)

def headers : List Header := m.before ++ (eventTypeName, .string m.eventType) :: m.after

def encode (crc : Bytes → UInt32) : Bytes := encodeMessage crc (encodeValues m.headers) m.payload

/-- What the message says. -/
def event : KiroFrameEvent := ⟨.ofName m.eventType, m.payload⟩

/-- The headers in front of the event type are strings, or it has no name. -/
def TypeReadable : Prop := (∀ header ∈ m.before, header.2.string?.isSome = true) ∨ m.eventType = []

end EventMessage

/-! ### What is read of the headers -/

/-- The first byte of a value that is not a string is not that of a string. -/
theorem head_encode {value : HeaderValue} (h : value.string? = none) : ∃ b bytes, value.encode = b :: bytes ∧ b ≠ 7 := by
  cases value with
  | bool value => cases value <;> exact ⟨_, _, rfl, by decide⟩
  | string value => cases h
  | byte value => exact ⟨_, _, rfl, by decide⟩
  | short value => exact ⟨_, _, rfl, by decide⟩
  | integer value => exact ⟨_, _, rfl, by decide⟩
  | long value => exact ⟨_, _, rfl, by decide⟩
  | byteArray value => exact ⟨_, _, rfl, by decide⟩
  | timestamp value => exact ⟨_, _, rfl, by decide⟩
  | uuid value => exact ⟨_, _, rfl, by decide⟩

/-- A header that is not a string ends the reading. -/
theorem parseHeadersFrom_other (map : Table Text Text) {header : Header} (hfits : header.Fits)
    (h : header.2.string? = none) (bytes : Bytes) : parseHeadersFrom map (header.encode ++ bytes) = map := by
  obtain ⟨name, value⟩ := header
  obtain ⟨b, rest, hvalue, hb⟩ := head_encode h
  have hname : (asBytes name).length < 2 ^ 8 := hfits.1
  have hnameLen : (UInt8.ofNat (asBytes name).length).toNat = (asBytes name).length := by
    rw [UInt8.toNat_ofNat']
    omega
  have hshape : Header.encode (name, value) ++ bytes =
      UInt8.ofNat (asBytes name).length :: (asBytes name ++ b :: (rest ++ bytes)) := by
    dsimp only at hvalue
    simp only [Header.encode, hvalue, List.cons_append, List.append_assoc]
  rw [hshape, parseHeadersFrom, hnameLen, if_neg (by rw [List.length_append]; omega), List.take_left, List.drop_left,
    fromUtf8_asBytes, List.head?_cons]
  split
  · rename_i heq
    exact absurd (Option.some.inj heq) hb
  · rfl

/-- A header that is a string. -/
theorem parseHeadersFrom_string (map : Table Text Text) {name value : Text} (hfits : Header.Fits (name, .string value))
    (bytes : Bytes) : parseHeadersFrom map (Header.encode (name, .string value) ++ bytes) =
      parseHeadersFrom (map.insert name value) bytes :=
  @parseHeadersFrom_cons map (name, value) hfits bytes

theorem lookup_parseHeadersFrom (map : Table Text Text) {headers : List Header} (hfits : ∀ header ∈ headers, header.Fits)
    {name : Text} (hothers : ∀ header ∈ headers, header.1 ≠ name) :
    (parseHeadersFrom map (encodeValues headers)).lookup name = map.lookup name := by
  induction headers generalizing map with
  | nil =>
    rw [encodeValues, List.flatMap_nil, parseHeadersFrom]
  | cons header headers ih =>
    have hfit := hfits header List.mem_cons_self
    have ih := fun map => ih map (fun h hh => hfits h (List.mem_cons_of_mem _ hh))
      fun h hh => hothers h (List.mem_cons_of_mem _ hh)
    unfold encodeValues at ih ⊢
    rw [List.flatMap_cons]
    obtain ⟨headerName, value⟩ := header
    cases hvalue : value.string? with
    | none => rw [parseHeadersFrom_other map hfit hvalue]
    | some text =>
      obtain rfl : value = .string text := by
        cases value <;> cases hvalue
        rfl
      rw [parseHeadersFrom_string map hfit, ih, AList.lookup_insert_ne (Ne.symm (hothers _ List.mem_cons_self))]

/-- The event type is read if and only if only strings stand in front of it. -/
theorem lookup_eventType (map : Table Text Text) (hmap : map.lookup eventTypeName = none) {before after : List Header}
    {value : Text} (hothers : ∀ header ∈ before ++ after, header.1 ≠ eventTypeName)
    (hfits : ∀ header ∈ before ++ (eventTypeName, .string value) :: after, header.Fits) :
    (parseHeadersFrom map (encodeValues (before ++ (eventTypeName, .string value) :: after))).lookup eventTypeName =
      if ∀ header ∈ before, header.2.string?.isSome = true then some value else none := by
  induction before generalizing map with
  | nil =>
    rw [if_pos (fun header hheader => absurd hheader List.not_mem_nil), List.nil_append]
    have hlast := lookup_parseHeadersFrom (map.insert eventTypeName value)
      (fun header hheader => hfits header (List.mem_cons_of_mem _ hheader)) hothers
    unfold encodeValues at hlast ⊢
    rw [List.flatMap_cons, parseHeadersFrom_string map (hfits _ List.mem_cons_self), hlast, AList.lookup_insert]
  | cons header before ih =>
    obtain ⟨name, headerValue⟩ := header
    have hname : name ≠ eventTypeName := hothers _ List.mem_cons_self
    have hfit := hfits _ List.mem_cons_self
    cases hvalue : headerValue.string? with
    | none =>
      rw [if_neg (fun h => by simpa [hvalue] using h _ List.mem_cons_self)]
      unfold encodeValues
      rw [List.cons_append, List.flatMap_cons, parseHeadersFrom_other map hfit hvalue, hmap]
    | some text =>
      obtain rfl : headerValue = .string text := by
        cases headerValue <;> cases hvalue
        rfl
      have ih := ih (map.insert name text) (by rw [AList.lookup_insert_ne (Ne.symm hname), hmap])
        (fun h hh => hothers h (List.mem_cons_of_mem _ hh)) fun h hh => hfits h (List.mem_cons_of_mem _ hh)
      unfold encodeValues at ih ⊢
      rw [List.cons_append, List.flatMap_cons, parseHeadersFrom_string map hfit, ih]
      refine if_congr ?_ rfl rfl
      rw [List.forall_mem_cons]
      exact (and_iff_right rfl).symm

/-- An event type is known by its name. -/
theorem ofName_injective {name name' : Text} (h : KiroEventType.ofName name = .ofName name') : name = name' := by
  unfold KiroEventType.ofName at h
  split_ifs at h <;> simp_all

/-- What the deframer makes of a message. -/
theorem next_encode (crc : Bytes → UInt32) (m : EventMessage) (rest : Bytes) :
    nextFrame crc (m.encode crc ++ rest) =
      (.ok (some ⟨eventTypeOf (parseEventstreamHeaders (encodeValues m.headers)), m.payload⟩), rest) :=
  nextFrame_encodeMessage crc m.fits rest

theorem eventTypeOf_encodeValues (m : EventMessage) :
    eventTypeOf (parseEventstreamHeaders (encodeValues m.headers)) = .ofName m.eventType ↔ m.TypeReadable := by
  have hlookup : (parseEventstreamHeaders (encodeValues m.headers)).lookup eventTypeName =
      if ∀ header ∈ m.before, header.2.string?.isSome = true then some m.eventType else none :=
    lookup_eventType ∅ (AList.lookup_empty _) m.others m.headersFit
  unfold eventTypeOf EventMessage.TypeReadable
  rw [show ":event-type".toList = eventTypeName from rfl, hlookup]
  split
  · rename_i hstrings
    exact iff_of_true rfl (Or.inl hstrings)
  · rename_i hstrings
    rw [or_iff_right hstrings]
    constructor
    · exact fun h => (ofName_injective h).symm
    · intro hempty
      rw [hempty]
      rfl

/-! ### What is left -/

section

variable {inflate : Bytes → Nat → Except Devin.InflateError Bytes} {crc : Bytes → UInt32}

theorem drain_messages (messages : List EventMessage) :
    (kiroDeframer crc).drain (messages.flatMap fun m => m.encode crc) =
      (messages.map fun m => ⟨eventTypeOf (parseEventstreamHeaders (encodeValues m.headers)), m.payload⟩, .ok []) :=
  Deframer.drain_flatMap fun m _ rest => next_encode crc m rest

/-- The loop over the frames of a Devin body leaves what the deframer leaves. -/
theorem drain_of_foldFrames {modelName : Text} {fold fold' : Devin.DevinFold} {buf rest : Bytes}
    (h : Devin.foldFrames inflate modelName fold buf = .ok (fold', rest)) :
    ((devinDeframer inflate).drain buf).2 = .ok rest := by
  fun_induction Devin.foldFrames inflate modelName fold buf with
  | case1 => cases h
  | case2 fold buf rest' hnone =>
    obtain ⟨-, rfl⟩ := Prod.mk.inj (Except.ok.inj h)
    rw [Deframer.drain_none (d := devinDeframer inflate) hnone]
  | case3 => cases h
  | case4 fold buf event rest' hsome _ _ ih =>
    rw [Deframer.drain_some (d := devinDeframer inflate) hsome]
    exact ih h
  | case5 => cases h
  | case6 fold buf event rest' hsome _ frame _ ih =>
    rw [Deframer.drain_some (d := devinDeframer inflate) hsome]
    exact ih h

/-- The loop over the messages of a Kiro body ends without an error if and only if the deframer does. -/
theorem foldFrames_isOk_iff (fold : KiroFold) (buf : Bytes) :
    (∃ fold', foldFrames crc fold buf = .ok fold') ↔ ∃ rest, ((kiroDeframer crc).drain buf).2 = .ok rest := by
  fun_induction foldFrames crc fold buf with
  | case1 fold buf e rest herror =>
    rw [Deframer.drain_error (d := kiroDeframer crc) herror]
    exact iff_of_false nofun nofun
  | case2 fold buf rest hnone =>
    rw [Deframer.drain_none (d := kiroDeframer crc) hnone]
    exact iff_of_true ⟨fold, rfl⟩ ⟨rest, rfl⟩
  | case3 fold buf frame rest hsome ih =>
    rw [Deframer.drain_some (d := kiroDeframer crc) hsome]
    exact ih

theorem fold_isOk_iff (now : Nat) (uuid modelName : Text) (body : Bytes) :
    (∃ response, foldKiroBodyToOpenaiResponse crc now uuid body modelName = .ok response) ↔
      ∃ rest, ((kiroDeframer crc).drain body).2 = .ok rest := by
  rw [← foldFrames_isOk_iff ⟨[], .empty⟩ body]
  unfold foldKiroBodyToOpenaiResponse
  cases foldFrames crc ⟨[], .empty⟩ body with
  | error e => exact iff_of_false nofun nofun
  | ok fold => exact iff_of_true ⟨_, rfl⟩ ⟨fold, rfl⟩

/-- A Devin body is only accepted where nothing is left of it. -/
theorem drain_of_foldDevin {now : Nat} {uuid modelName : Text} {body : Bytes} {response : OpenAIResponse}
    (h : Devin.foldDevinBodyToOpenaiResponse inflate now uuid body modelName = .ok response) :
    ((devinDeframer inflate).drain body).2 = .ok [] := by
  unfold Devin.foldDevinBodyToOpenaiResponse at h
  cases hfold : Devin.foldFrames inflate modelName .new body with
  | error e =>
    rw [hfold] at h
    cases h
  | ok result =>
    obtain ⟨fold, rest⟩ := result
    have hdrain := drain_of_foldFrames hfold
    rw [hfold] at h
    cases rest with
    | nil => exact hdrain
    | cons b rest => cases h

end

/-- The deframers do not depend on the chunks, and read envelopes and messages back.  The event type of a message is read if
and only if nothing but strings stands in front of it or it has no name, and a Kiro body of which something is left is
refused if and only if it does not end inside a message. -/
theorem deframing_iff (inflate : Bytes → Nat → Except Devin.InflateError Bytes) (crc : Bytes → UInt32) :
    ((∀ chunks, (devinDeframer inflate).run [] chunks = (devinDeframer inflate).run [] [chunks.flatten]) ∧
        ∀ chunks, (kiroDeframer crc).run [] chunks = (kiroDeframer crc).run [] [chunks.flatten]) ∧
      ((∀ chunks (envelopes : List (Devin.Envelope × Devin.DevinFrameEvent)),
          chunks.flatten = envelopes.flatMap (fun e => e.1.encode) → (∀ e ∈ envelopes, e.1.event inflate = .ok e.2) →
          (devinDeframer inflate).run [] chunks = (envelopes.map Prod.snd, .ok [])) ∧
        ∀ chunks (messages : List EventMessage), chunks.flatten = messages.flatMap (fun m => m.encode crc) →
          ((kiroDeframer crc).run [] chunks = (messages.map EventMessage.event, .ok []) ↔
            ∀ m ∈ messages, m.TypeReadable)) ∧
      (∀ buf, hasPartial buf = true ↔ buf ≠ []) ∧
      (∀ now uuid body modelName response,
        Devin.foldDevinBodyToOpenaiResponse inflate now uuid body modelName = .ok response →
          ((devinDeframer inflate).run [] [body]).2 = .ok []) ∧
      ∀ now uuid body modelName,
        ((∀ response, foldKiroBodyToOpenaiResponse crc now uuid body modelName = .ok response →
          ((kiroDeframer crc).run [] [body]).2 = .ok []) ↔ ¬ (kiroDeframer crc).EndsInside body) := by
  have hdevin : ∀ chunks, (devinDeframer inflate).run [] chunks = (devinDeframer inflate).drain chunks.flatten :=
    fun chunks => Deframer.run_eq (devinDeframer inflate).empty chunks
  have hkiro : ∀ chunks, (kiroDeframer crc).run [] chunks = (kiroDeframer crc).drain chunks.flatten :=
    fun chunks => Deframer.run_eq (kiroDeframer crc).empty chunks
  have hone : ∀ body : Bytes, [body].flatten = body := fun body => List.append_nil body
  refine ⟨⟨fun chunks => ?_, fun chunks => ?_⟩, ⟨fun chunks envelopes hbytes hevents => ?_,
    fun chunks messages hbytes => ?_⟩, fun buf => ?_, fun now uuid body modelName response hok => ?_,
    fun now uuid body modelName => ?_⟩
  · rw [hdevin, hdevin, hone]
  · rw [hkiro, hkiro, hone]
  · rw [hdevin, hbytes]
    refine Deframer.drain_flatMap fun e he rest => ?_
    obtain ⟨left, hread, hleft⟩ := Devin.nextFrame_encode inflate e.1 rest
    have hevent := hevents e he
    rw [hleft e.2 hevent, hevent] at hread
    exact hread
  · rw [hkiro, hbytes]
    rw [drain_messages, Prod.mk.injEq, and_iff_left rfl, List.map_inj_left]
    refine forall₂_congr fun m _ => ?_
    rw [← eventTypeOf_encodeValues]
    unfold EventMessage.event
    rw [KiroFrameEvent.mk.injEq, and_iff_left rfl]
  · unfold hasPartial
    cases buf with
    | nil => exact iff_of_false Bool.false_ne_true fun h => h rfl
    | cons b buf => exact iff_of_true rfl (List.cons_ne_nil _ _)
  · rw [hdevin, hone]
    exact drain_of_foldDevin hok
  · rw [hkiro, hone, Deframer.endsInside_iff]
    constructor
    · rintro h ⟨rest, hne, hleft⟩
      obtain ⟨response, hok⟩ := (fold_isOk_iff now uuid modelName body).mpr ⟨rest, hleft⟩
      exact hne (Except.ok.inj (hleft.symm.trans (h response hok)))
    · intro h response hok
      obtain ⟨rest, hleft⟩ := (fold_isOk_iff now uuid modelName body).mp ⟨response, hok⟩
      by_cases hne : rest = []
      · rw [hleft, hne]
      · exact absurd ⟨rest, hne, hleft⟩ h

/-- A message with a timestamp in front of its event type. -/
def stampedMessage : EventMessage where
  before := [(":date".toList, .timestamp 0)]
  eventType := "messageStopEvent".toList
  after := []
  payload := []
  others := by decide
  headersFit := by
    intro header hheader
    rcases List.mem_cons.mp hheader with rfl | hheader
    · exact ⟨by decide, trivial⟩
    · rw [List.mem_singleton.mp hheader]
      exact ⟨by decide, show (asBytes "messageStopEvent".toList).length < 2 ^ 16 by decide⟩
  fits := by decide

/-- The event type of a message with a timestamp in front of it is lost, and a body of one byte is accepted. -/
theorem not_deframed_stamped : (¬ ∃ crc, (kiroDeframer crc).run [] [stampedMessage.encode crc] =
      ([stampedMessage.event], .ok [])) ∧
    ¬ ∃ crc, ∀ now uuid body modelName response,
      foldKiroBodyToOpenaiResponse crc now uuid body modelName = .ok response →
        ((kiroDeframer crc).run [] [body]).2 = .ok [] := by
  constructor
  · rintro ⟨crc, h⟩
    have hread := @drain_messages crc [stampedMessage]
    rw [Deframer.run_eq (kiroDeframer crc).empty, List.nil_append, List.flatten_singleton] at h
    rw [List.flatMap_singleton, h, List.map_singleton, Prod.mk.injEq, and_iff_left rfl, List.singleton_inj] at hread
    have htype : KiroEventType.ofName stampedMessage.eventType =
        eventTypeOf (parseEventstreamHeaders (encodeValues stampedMessage.headers)) := congrArg (·.eventType) hread
    rcases (eventTypeOf_encodeValues stampedMessage).mp htype.symm with hstrings | hempty
    · exact absurd (hstrings _ List.mem_cons_self) Bool.false_ne_true
    · cases hempty
  · rintro ⟨crc, h⟩
    have hpart : (kiroDeframer crc).drain [0] = ([], .ok [0]) := Deframer.drain_none rfl
    obtain ⟨response, hok⟩ := (fold_isOk_iff 0 [] [] [0]).mpr ⟨[0], congrArg Prod.snd hpart⟩
    have hleft := h 0 [] [0] [] response hok
    rw [Deframer.run_eq (kiroDeframer crc).empty, List.nil_append, List.flatten_singleton,
      hpart] at hleft
    cases Except.ok.inj hleft

end OpenProxy.Kiro
