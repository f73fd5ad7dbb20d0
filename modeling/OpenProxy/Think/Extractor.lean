import OpenProxy.Text.Basic

/-!
# Reasoning blocks: the two extractors

The model of `think_extractor.rs`.  `extractThinkFromContent` moves the reasoning blocks out of a whole response;
`ThinkStreamExtractor` does the same for content that arrives in deltas, and holds back a tail that may be the
beginning of a tag.
-/

namespace OpenProxy.Think

/-- Tags that open a reasoning block. -/
def thinkOpenTags : List Text :=
  ["<think>".toList, "<thinking>".toList, "<reasoning>".toList, "<thought>".toList]

/-- Tags that close one, in the order of `thinkOpenTags`. -/
def thinkCloseTags : List Text :=
  ["</think>".toList, "</thinking>".toList, "</reasoning>".toList, "</thought>".toList]

/-- The text before an offset.  Offsets count characters, so that every offset is a boundary. -/
def safeSliceTo (s : Text) (n : Nat) : Text := s.take n

/-- The text from an offset on. -/
def safeSliceFrom (s : Text) (n : Nat) : Text := s.drop n

/-! ### Finding tags -/

/-- The earlier of two hits; the first of the two when both are equally early. -/
def earlier (a b : Nat × Text) : Nat × Text := if b.1 < a.1 then b else a

/-- The earliest occurrence of any of the tags, with the tag. -/
def findEarliestTag (s : Text) (tags : List Text) : Option (Nat × Text) :=
  match tags.filterMap fun tag => (findIgnoreAsciiCase s tag).map fun pos => (pos, tag) with
  | [] => none
  | hit :: hits => some (hits.foldl earlier hit)

/-- One pass of `strip_orphaned_close_tags` for one pair of tags: occurrences of the close tag are deleted as long
as no open tag stands before the first of them. -/
def stripOrphanedCloseTag (openTag closeTag : Text) : Nat → Text → Text
  | 0, result => result
  | fuel + 1, result =>
    match findIgnoreAsciiCase result closeTag with
    | none => result
    | some pos =>
      if (findIgnoreAsciiCase (safeSliceTo result pos) openTag).isSome then result
      else stripOrphanedCloseTag openTag closeTag fuel
        (safeSliceTo result pos ++ safeSliceFrom result (pos + closeTag.length))

/-- Every deletion shortens the text, so its length bounds the number of rounds. -/
def stripOrphanedCloseTags (content : Text) : Text :=
  if content.contains '<' then
    (thinkOpenTags.zip thinkCloseTags).foldl
      (fun result tags => stripOrphanedCloseTag tags.1 tags.2 (result.length + 1) result) content
  else content

/-! ### The extractor for whole responses -/

/-- `ExtractedThink`. -/
structure ExtractedThink where
  content : Text
  reasoning : Text
  deriving DecidableEq, Repr

/-- The close tag of the open tag at the start of `afterOpen`. -/
def findMatchingCloseTag (afterOpen : Text) : Option Text :=
  ((thinkOpenTags.zip thinkCloseTags).find? fun tags => startsWithIgnoreAsciiCase afterOpen tags.1).map (·.2)

/-- The text before the block at `tagIdx`, the text of the block, and the text after it.  A block that is not closed
extends to the end. -/
def parseThinkSegment (remaining : Text) (tagIdx : Nat) : Text × Text × Text :=
  let contentBefore := safeSliceTo remaining tagIdx
  let afterOpen := safeSliceFrom remaining tagIdx
  let closeTag := findMatchingCloseTag afterOpen
  let afterTagContent := safeSliceFrom afterOpen (((find afterOpen ['>']).map (· + 1)).getD afterOpen.length)
  match closeTag with
  | some ct =>
    match findIgnoreAsciiCase afterTagContent ct with
    | some pos => (contentBefore, safeSliceTo afterTagContent pos, safeSliceFrom afterTagContent (pos + ct.length))
    | none => (contentBefore, afterTagContent, [])
  | none => (contentBefore, afterTagContent, [])

def appendThinkSegmentReasoning (reasoning thinkText : Text) : Text :=
  let trimmed := trim thinkText
  if trimmed.isEmpty then reasoning
  else (if reasoning.isEmpty then reasoning else reasoning ++ ['\n']) ++ trimmed

/-- The loop of `extract_think_from_content`: the result so far, and the text still to be read. -/
def extractThinkLoop : Nat → ExtractedThink → Text → ExtractedThink × Text
  | 0, result, remaining => (result, remaining)
  | fuel + 1, result, remaining =>
    match findEarliestTag remaining thinkOpenTags with
    | none => (result, remaining)
    | some (tagIdx, _) =>
      let (contentBefore, thinkText, rest) := parseThinkSegment remaining tagIdx
      extractThinkLoop fuel
        { content := result.content ++ contentBefore
          reasoning := appendThinkSegmentReasoning result.reasoning thinkText } rest

/-- `extract_think_from_content`.  Every block consumes its open tag, so the length bounds the rounds. -/
def extractThinkFromContent (content : Text) : ExtractedThink :=
  let (result, remaining) := extractThinkLoop (content.length + 1) ⟨[], []⟩ content
  let stripped := stripOrphanedCloseTags (result.content ++ remaining)
  { result with content := stripped.dropWhile (· == '\n') }

/-! ### The extractor for deltas -/

/-- `ThinkStreamExtractor`. -/
structure ThinkStreamExtractor where
  insideThink : Bool
  /-- A tail that may be a partial tag. -/
  tagBuffer : Text
  /-- The close tag of the block the stream is in. -/
  closeTag : Option Text
  deriving DecidableEq, Repr

namespace ThinkStreamExtractor

def new : ThinkStreamExtractor := ⟨false, [], none⟩

end ThinkStreamExtractor

def isPartialOpenTagTail (tail : Text) : Bool :=
  thinkOpenTags.any fun tag =>
    tail.isPrefixOf tag || (tail.length ≤ tag.length && eqIgnoreAsciiCase (tag.take tail.length) tail)

/-- The first of the tails of `input` of lengths `n, n-1, …, 1` that passes the test, as the offset where it starts. -/
def longestTail (test : Text → Bool) (input : Text) : Nat → Option Nat
  | 0 => none
  | n + 1 =>
    if test (input.drop (input.length - (n + 1))) then some (input.length - (n + 1)) else longestTail test input n

/-- The offset at which a possible partial open tag begins. -/
def findSafeSplitPoint (input : Text) : Nat :=
  if input.contains '<' then
    let maxTagLen := (thinkOpenTags.map List.length).foldl max 0
    (longestTail isPartialOpenTagTail input (min (maxTagLen - 1) input.length)).getD input.length
  else input.length

/-- The same for a partial `closeTag`. -/
def findSafeSplitPointClose (input closeTag : Text) : Nat :=
  if input.contains '<' then
    (longestTail (fun tail => eqIgnoreAsciiCase (closeTag.take tail.length) tail) input
      (min (closeTag.length - 1) input.length)).getD input.length
  else input.length

namespace ThinkStreamExtractor

mutual

/-- `process_outside_think`.  The two scanners call each other on shorter and shorter texts, and `fuel` bounds the
number of calls. -/
def processOutsideThink : Nat → ThinkStreamExtractor → Text → (Text × Text) × ThinkStreamExtractor
  | 0, x, _ => (([], []), x)
  | fuel + 1, x, input =>
    match findEarliestTag input thinkOpenTags with
    | none =>
      let safeLen := findSafeSplitPoint input
      let content := safeSliceTo input safeLen
      ((stripOrphanedCloseTags content, []), { x with tagBuffer := safeSliceFrom input safeLen })
    | some (tagPos, tagStr) =>
      let contentBefore := safeSliceTo input tagPos
      let afterTag := safeSliceFrom input tagPos
      let closeTag :=
        ((thinkOpenTags.zip thinkCloseTags).find? fun tags => eqIgnoreAsciiCase tagStr tags.1).map (·.2)
      let x := { x with closeTag := closeTag, insideThink := true }
      let afterTagContent := afterTag.drop tagStr.length
      if afterTagContent.isEmpty then ((contentBefore, []), x)
      else
        let ((moreContent, reasoning), x) := processInsideThink fuel x afterTagContent
        ((contentBefore ++ moreContent, reasoning), x)

/-- `process_inside_think`. -/
def processInsideThink : Nat → ThinkStreamExtractor → Text → (Text × Text) × ThinkStreamExtractor
  | 0, x, _ => (([], []), x)
  | fuel + 1, x, input =>
    match x.closeTag with
    | none => ((input, []), { x with insideThink := false })
    | some closeTag =>
      match findIgnoreAsciiCase input closeTag with
      | some pos =>
        let reasoning := safeSliceTo input pos
        let afterClose := safeSliceFrom input (pos + closeTag.length)
        let x := { x with insideThink := false, closeTag := none }
        if afterClose.isEmpty then (([], reasoning), x)
        else
          let ((moreContent, moreReasoning), x) := processOutsideThink fuel x afterClose
          ((moreContent, reasoning ++ moreReasoning), x)
      | none =>
        let safeLen := findSafeSplitPointClose input closeTag
        (([], safeSliceTo input safeLen), { x with tagBuffer := safeSliceFrom input safeLen })

end

def processFastPath (x : ThinkStreamExtractor) (delta : Text) : Text × Text :=
  if x.insideThink then ([], delta) else (delta, [])

/-- `process`: the content and the reasoning that a delta releases. -/
def process (x : ThinkStreamExtractor) (delta : Text) : (Text × Text) × ThinkStreamExtractor :=
  if delta.isEmpty then (([], []), x)
  else if x.tagBuffer.isEmpty && !delta.contains '<' then (x.processFastPath delta, x)
  else
    let input := x.tagBuffer ++ delta
    let x := { x with tagBuffer := [] }
    if x.insideThink then processInsideThink (input.length + 1) x input
    else processOutsideThink (input.length + 1) x input

/-- `flush`: what the end of the stream releases. -/
def flush (x : ThinkStreamExtractor) : (Text × Text) × ThinkStreamExtractor :=
  if x.tagBuffer.isEmpty then (([], []), { x with tagBuffer := [] })
  else if x.insideThink then (([], x.tagBuffer), { x with tagBuffer := [] })
  else ((x.tagBuffer, []), { x with tagBuffer := [] })

/-- The deltas one after the other, and then the end of the stream. -/
def runFrom (x : ThinkStreamExtractor) : List Text → Text × Text
  | [] => x.flush.1
  | delta :: deltas =>
    let ((content, reasoning), x) := x.process delta
    let (moreContent, moreReasoning) := runFrom x deltas
    (content ++ moreContent, reasoning ++ moreReasoning)

/-- The content and the reasoning of a whole stream. -/
def run (deltas : List Text) : Text × Text := runFrom new deltas

end ThinkStreamExtractor

end OpenProxy.Think
