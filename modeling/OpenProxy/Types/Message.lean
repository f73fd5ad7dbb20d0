import OpenProxy.Data.Json

/-!
# Messages of the internal format

A conversation in the internal format is a list of messages in the shape of the Chat Completions protocol.
-/

namespace OpenProxy

/-- `OpenAIMessage`. -/
structure OpenAIMessage where
  role : Text
  content : Option Json
  name : Option Text
  toolCallId : Option Text
  toolCalls : Option (List Json)
  extra : List (Text × Json)

namespace Role

def assistant : Text := "assistant".toList

def tool : Text := "tool".toList

def user : Text := "user".toList

def system : Text := "system".toList

end Role

end OpenProxy
