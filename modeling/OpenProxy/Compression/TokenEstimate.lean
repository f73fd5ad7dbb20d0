import OpenProxy.Anthropic.Content
import OpenProxy.Upstream.Anthropic

/-!
# Estimates of prompt tokens

The model of `token_estimate.rs`, as far as the prompt is concerned.  Sums that the source does not guard wrap around, as
they do in a build without overflow checks.
-/

namespace OpenProxy.Compression

open Json

/-- `is_cjk`. -/
def isCjk (c : Char) : Bool :=
  let code := c.toNat
  (0x4E00 ≤ code && code ≤ 0x9FFF) || (0x3040 ≤ code && code ≤ 0x30FF) || (0xAC00 ≤ code && code ≤ 0xD7AF)

/-- `flush_whitespace_run`. -/
def flushWhitespaceRun (wsRun : Nat) : Nat := if 4 < wsRun then wsRun / 10 else wsRun

/-- The counters of `estimate_tokens_heuristic`. -/
structure CharCounts where
  cjkCount : Nat
  otherCount : Nat
  wsRun : Nat
  deriving DecidableEq, Repr

/-- The loop of `estimate_tokens_heuristic`. -/
def countChar (counts : CharCounts) (ch : Char) : CharCounts :=
  if isWhitespace ch then { counts with wsRun := counts.wsRun + 1 }
  else
    let flushed := counts.otherCount + flushWhitespaceRun counts.wsRun
    if isCjk ch then ⟨counts.cjkCount + 1, flushed, 0⟩ else ⟨counts.cjkCount, flushed + 1, 0⟩

/-- `estimate_tokens_heuristic`, which is `count_tokens`. -/
def estimateTokensHeuristic (text : Text) : Nat :=
  if text.isEmpty then 0
  else
    let counts := text.foldl countChar ⟨0, 0, 0⟩
    let otherCount := counts.otherCount + flushWhitespaceRun counts.wsRun
    max ((counts.cjkCount + 1) / 2 + (otherCount + 3) / 4) 1 % (Upstream.u32Max + 1)

/-- The arguments of a call, if they are a string. -/
def argumentsOfCall (tc : Json) : Option Text :=
  (tc.get "function".toList).bind fun f => (f.get "arguments".toList).bind asStr

/-- `message_content_to_text`. -/
def messageContentToText (msg : OpenAIMessage) : Text :=
  ((msg.toolCalls.getD []).filterMap argumentsOfCall).foldl
    (fun text args => (if text.isEmpty then text else text ++ ['\n']) ++ args) msg.extractText

/-- Whether a part of a message is an image. -/
def isImagePart (part : Json) : Bool :=
  (((part.get "type".toList).bind asStr).any fun t =>
    t = "image_url".toList || t = "input_image".toList || t = "image".toList) || (part.get "image_url".toList).isSome

/-- The parts of a content that is an array. -/
def contentParts : Option Json → List Json
  | some (array parts) => parts
  | _ => []

/-- What a message adds to `estimate_prompt_tokens`. -/
def messageTokens (msg : OpenAIMessage) : Nat :=
  estimateTokensHeuristic (messageContentToText msg) + 800 * (contentParts msg.content).countP isImagePart + 4

/-- `estimate_prompt_tokens`. -/
def estimatePromptTokens (messages : List OpenAIMessage) : Nat :=
  (messages.map messageTokens).sum % (Upstream.u32Max + 1)

end OpenProxy.Compression
