import OpenProxy.Types.Message
import OpenProxy.Data.JsonText

/-!
# The texts of a message

The text that a message of the internal format has for a reader: its content, or the texts of the parts of its content.
-/

namespace OpenProxy.Anthropic

open Json

namespace Key

def type : Text := "type".toList

def text : Text := "text".toList

def id : Text := "id".toList

def name : Text := "name".toList

def input : Text := "input".toList

def content : Text := "content".toList

def file : Text := "file".toList

def imageUrl : Text := "image_url".toList

def videoUrl : Text := "video_url".toList

def inputAudio : Text := "input_audio".toList

def function : Text := "function".toList

def arguments : Text := "arguments".toList

def thinking : Text := "thinking".toList

def reasoning : Text := "reasoning".toList

end Key

namespace BlockType

def text : Text := "text".toList

def toolUse : Text := "tool_use".toList

end BlockType

/-- `get(key).and_then(|v| v.as_str())`. -/
def strAt (v : Json) (key : Text) : Option Text := (v.get key).bind asStr

/-! ### Blocks -/

def textBlock (text : Text) : Json := object [(Key.text, string text), (Key.type, string BlockType.text)]

end OpenProxy.Anthropic

namespace OpenProxy

open Json Anthropic

/-! ### Texts of messages -/

/-- The types of parts that have no text. -/
def mediaTypes : List Text :=
  ["image_url".toList, "input_image".toList, "image".toList, "input_audio".toList, "audio".toList, "input_video".toList,
    "video_url".toList, "video".toList, "file".toList, "input_file".toList, "document".toList]

def extractContentPartText (part : Json) : Text :=
  match (strAt part Key.text).or ((strAt part Key.content).or
      ((strAt part Key.thinking).or (strAt part Key.reasoning))) with
  | some text => text
  | none =>
    if (strAt part Key.type).any fun t => decide (t ∈ mediaTypes) then []
    else if (part.get Key.imageUrl).isSome || (part.get Key.videoUrl).isSome || (part.get Key.inputAudio).isSome ||
        (part.get Key.file).isSome then []
    else
      match part with
      | string s => s
      | null => []
      | value => write value

def extractContentText : Option Json → Text
  | some (string s) => s
  | some (array parts) => parts.flatMap extractContentPartText
  | some null => []
  | none => []
  | some value => write value

def OpenAIMessage.extractText (m : OpenAIMessage) : Text := extractContentText m.content

end OpenProxy
