import OpenProxy.Upstream.Anthropic
import OpenProxy.Upstream.SseLine

/-!
# Lines of an OpenAI upstream

The model of `sse/openai.rs`.  A chunk is passed on as it is written; of its JSON only the usage, the finish reason and
the reasoning are read, and only if one of their names is found in the text.
-/

namespace OpenProxy.Upstream.Openai

open Json

/-! ### Structures with fields of several names -/

/-- The member of a field with aliases, if it is given once. -/
def aliasedMember (names : List String) (position count : Nat) (default : Bool) : Json → Option (Option Json)
  | object fields =>
    match fields.filter fun field => (names.map String.toList).contains field.1 with
    | [] => some none
    | [(_, v)] => some (some v)
    | _ => none
  | array items =>
    if items.length ≤ count ∧ (default = true ∨ position < items.length) then some items[position]? else none
  | _ => none

def aliasedField {α : Type} (decode : Json → Option α) (names : List String) (position count : Nat) (default : Bool)
    (v : Json) : Option (Option α) := (aliasedMember names position count default v).bind (asOptional decode)

/-- `OpenAiPromptTokensDetailsProbe`. -/
structure OpenAiPromptTokensDetailsProbe where
  cachedTokens : Option Nat
  cacheReadInputTokens : Option Nat
  promptCacheHitTokens : Option Nat

def OpenAiPromptTokensDetailsProbe.decode (v : Json) : Option OpenAiPromptTokensDetailsProbe := do
  let cachedTokens ← aliasedField decodeU64 ["cached_tokens", "cached_prompt_tokens"] 0 3 true v
  let cacheReadInputTokens ← aliasedField decodeU64 ["cache_read_input_tokens", "cache_read_tokens"] 1 3 true v
  let promptCacheHitTokens ← aliasedField decodeU64 ["prompt_cache_hit_tokens"] 2 3 true v
  return ⟨cachedTokens, cacheReadInputTokens, promptCacheHitTokens⟩

/-- `OpenAiUsageProbe`. -/
structure OpenAiUsageProbe where
  promptTokens : Option Nat
  completionTokens : Option Nat
  totalTokens : Option Nat
  promptTokensDetails : Option OpenAiPromptTokensDetailsProbe
  inputTokensDetails : Option OpenAiPromptTokensDetailsProbe
  promptCacheHitTokens : Option Nat
  cachedTokens : Option Nat
  cacheReadInputTokens : Option Nat

def OpenAiUsageProbe.decode (v : Json) : Option OpenAiUsageProbe := do
  let promptTokens ← aliasedField decodeU64 ["prompt_tokens", "input_tokens"] 0 8 false v
  let completionTokens ← aliasedField decodeU64 ["completion_tokens", "output_tokens"] 1 8 false v
  let totalTokens ← aliasedField decodeU64 ["total_tokens"] 2 8 false v
  let promptTokensDetails ←
    aliasedField OpenAiPromptTokensDetailsProbe.decode ["prompt_tokens_details", "prompt_token_details"] 3 8 true v
  let inputTokensDetails ←
    aliasedField OpenAiPromptTokensDetailsProbe.decode ["input_tokens_details", "input_token_details"] 4 8 true v
  let promptCacheHitTokens ← aliasedField decodeU64 ["prompt_cache_hit_tokens"] 5 8 true v
  let cachedTokens ← aliasedField decodeU64 ["cached_tokens", "cached_prompt_tokens"] 6 8 true v
  let cacheReadInputTokens ← aliasedField decodeU64 ["cache_read_input_tokens", "cache_read_tokens"] 7 8 true v
  return ⟨promptTokens, completionTokens, totalTokens, promptTokensDetails, inputTokensDetails, promptCacheHitTokens,
    cachedTokens, cacheReadInputTokens⟩

/-- `OpenAiChoiceProbe`, with the reasoning of its `OpenAiDeltaProbe`. -/
structure OpenAiChoiceProbe where
  finishReason : Option Text
  delta : Option (Option Text)

def OpenAiChoiceProbe.decode (v : Json) : Option OpenAiChoiceProbe := do
  let finishReason ← aliasedField asStr ["finish_reason"] 0 2 false v
  let delta ← aliasedField (aliasedField asStr ["reasoning_content"] 0 1 true) ["delta"] 1 2 true v
  return ⟨finishReason, delta⟩

/-- `OpenAiSseProbe`. -/
structure OpenAiSseProbe where
  usage : Option OpenAiUsageProbe
  choices : Option (List OpenAiChoiceProbe)

def OpenAiSseProbe.decode (v : Json) : Option OpenAiSseProbe := do
  let usage ← aliasedField OpenAiUsageProbe.decode ["usage"] 0 2 true v
  let choices ← aliasedField (decodeList OpenAiChoiceProbe.decode) ["choices"] 1 2 true v
  return ⟨usage, choices⟩

/-! ### Lines -/

/-- The count of cached tokens in the details of the prompt tokens. -/
def OpenAiPromptTokensDetailsProbe.cached (d : OpenAiPromptTokensDetailsProbe) : Option Nat :=
  (d.cachedTokens.or d.cacheReadInputTokens).or d.promptCacheHitTokens

/-- The usage of a chunk, with `build_openai_usage`. -/
def OpenAiUsageProbe.usage (u : OpenAiUsageProbe) : OpenAIUsage :=
  let cached := ((((u.promptTokensDetails.bind OpenAiPromptTokensDetailsProbe.cached).or
    (u.inputTokensDetails.bind OpenAiPromptTokensDetailsProbe.cached)).or u.promptCacheHitTokens).or u.cachedTokens).or
      u.cacheReadInputTokens
  ⟨clamp32 (u.promptTokens.getD 0), clamp32 (u.completionTokens.getD 0), clamp32 (u.totalTokens.getD 0),
    (cached.bind tryU32).map some⟩

/-- `UpstreamSseChunk` of a line: the end of the stream, or a payload as it is written. -/
inductive UpstreamSseChunk
  | done
  | raw (payload : Text) (usage : Option OpenAIUsage) (stopReason deltaReasoning : Option Text)

/-- The names that the probe looks for. -/
def probedNames : List Text := ["\"usage\"".toList, "\"finish_reason\"".toList, "\"reasoning_content\"".toList]

/-- `parse_openai_sse_line`. -/
def parseOpenaiSseLine (line : Text) : Except CoreError (Option UpstreamSseChunk) :=
  match parseSseDataOrDone line with
  | .done => .ok (some .done)
  | .skip => .ok none
  | .payload payload =>
    if !probedNames.any fun name => (find payload name).isSome then .ok (some (.raw payload none none none))
    else
      match (read payload).bind OpenAiSseProbe.decode with
      | none => .error (.parse "openai sse json".toList)
      | some probe =>
        let choice := probe.choices.bind List.getLast?
        .ok (some (.raw payload (probe.usage.map OpenAiUsageProbe.usage) (choice.bind (·.finishReason))
          ((choice.bind (·.delta)).bind id)))

end OpenProxy.Upstream.Openai
