import OpenProxy.Data.JsonText

/-!
# Lines of a stream of server-sent events

What `parse_sse_data_or_done` takes a line for.
-/

namespace OpenProxy.Upstream

/-- `parse_sse_data_line`. -/
def parseSseDataLine (line : Text) : Option Text :=
  let trimmed := (line.reverse.dropWhile fun c => c == '\r' || c == '\n').reverse
  if trimmed.isEmpty || trimmed.head? == some ':' then none
  else if "data:".toList.isPrefixOf trimmed then
    let payload := trimStart (trimmed.drop 5)
    if payload.isEmpty then none else some payload
  else none

/-- `SseDataOrDone`. -/
inductive SseDataOrDone
  | payload (data : Text)
  | done
  | skip
  deriving DecidableEq

/-- `parse_sse_data_or_done`. -/
def parseSseDataOrDone (line : Text) : SseDataOrDone :=
  match parseSseDataLine line with
  | none => .skip
  | some payload => if payload = "[DONE]".toList then .done else .payload payload

example : parseSseDataOrDone "data: {}\r\n".toList = .payload "{}".toList := by decide

/-- The line carries the document. -/
def IsDocumentLine (v : Json) (line : Text) : Prop :=
  ∃ data, parseSseDataOrDone line = .payload data ∧ fromStr data = some v

/-- The line of a document, without the end of the line. -/
def dataLine (v : Json) : Text := "data: ".toList ++ write v

theorem parseSseDataOrDone_dataLine (fields : List (Text × Json)) :
    parseSseDataOrDone (dataLine (.object fields)) = .payload (write (.object fields)) := by
  let body := '\x7b' :: (writeFields fields ++ ['\x7d'])
  have hline : dataLine (.object fields) = ['d', 'a', 't', 'a', ':', ' '] ++ body := by
    unfold dataLine
    rw [write]
    rfl
  have htrim : ((dataLine (.object fields)).reverse.dropWhile fun c => c == '\r' || c == '\n').reverse =
      dataLine (.object fields) := by
    rw [hline, List.reverse_append, show body.reverse = '\x7d' :: ('\x7b' :: writeFields fields).reverse by simp [body],
      List.cons_append, List.dropWhile_cons_of_neg (by decide)]
    simp [body]
  have hdata : parseSseDataLine (dataLine (.object fields)) = some body := by
    unfold parseSseDataLine
    rw [htrim, hline]
    have hprefix : "data:".toList.isPrefixOf (['d', 'a', 't', 'a', ':', ' '] ++ body) = true := rfl
    have hpayload : trimStart ((['d', 'a', 't', 'a', ':', ' '] ++ body).drop 5) = body := rfl
    rw [if_neg (by simp), if_pos hprefix, hpayload]
    rfl
  unfold parseSseDataOrDone
  rw [hdata]
  dsimp only
  rw [if_neg]
  · rw [write]
  · intro heq
    have hhead : some '\x7b' = some '[' := congrArg List.head? heq
    cases hhead

theorem isDocumentLine_dataLine {fields : List (Text × Json)} (h : (Json.object fields).depth ≤ 127) :
    IsDocumentLine (Json.object fields).normal (dataLine (.object fields)) := by
  refine ⟨_, parseSseDataOrDone_dataLine fields, ?_⟩
  rw [fromStr, read_write, Option.bind_some, if_pos h]

end OpenProxy.Upstream
