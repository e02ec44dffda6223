import ParamSchema.Json.Basic
import ParamSchema.Payload.Base64
import ParamSchema.Payload.Merge
import ParamSchema.Text.Utf8

/-!
The written payload: JSON without the members that have no value, and its bytes in base64.
-/

namespace ParamSchema.Payload

/-- A member of an object, if it has a value. -/
def member {α : Type} (name : String) (json : α → Json) (value : Option α) : List (Text × Json) :=
  (value.map fun v => (txt name, json v)).toList

/-- A list of texts. -/
def textList (ts : List Text) : Json := .list (ts.map .text)

def parameterJson (p : Parameter) : Json :=
  .object <|
    [(txt "name", .text p.name), (txt "type", .text p.type),
        (txt "required", .boolean p.required)] ++
      member "default_value" .text p.default ++ member "available_values" textList p.values ++
      member "description" .text p.description

def json (p : Payload) : Json :=
  .object <|
    [(txt "isParametersRequired", .boolean p.isParametersRequired),
     (txt "parameters", .list (p.parameters.map parameterJson))] ++
      member "hostname" .text p.hostname ++ member "customScriptId" .integer p.scriptId ++
      member "customScriptName" .text p.scriptName

/-- The payload as JSON. A text with half of a surrogate pair cannot be written. -/
def written? (p : Payload) : Option Text :=
  let t := p.json.compact
  if Text.hasSurrogate t then none else some t

/-- The payload as JSON in base64. -/
def encoded? (p : Payload) : Option Text :=
  p.written?.map fun t => Text.ofChars (Base64.encode (Utf8.encode t))

end ParamSchema.Payload
