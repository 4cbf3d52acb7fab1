import EoAssembly.Catalog.Record
import EoAssembly.Json.Printer
import EoAssembly.Json.Reader

/-!
Contract: the text of a catalog file.

The file is an array with one object per record; a member is written only when
its field is set.  Reading ignores unknown members, refuses a known one that
comes twice, and takes a record also as an array of its fields in order.

Owns `Record.toJson`, `Record.ofJson?`, and the text of a list of records.
-/

namespace EoAssembly

namespace Record

/-- A member for a text that is set. -/
def textMember (key : String) (value : Option String) : List (String × Json.Value) :=
  match value with
  | some text => [(key, .string text)]
  | none => []

/-- A member for a path that is set. -/
def pathMember (key : String) (value : Option Path) : List (String × Json.Value) :=
  textMember key (value.map Path.text)

/-- The members of a record. -/
def members (record : Record) : List (String × Json.Value) :=
  ("id", .string record.id) :: pathMember "source" record.source
    ++ pathMember "xmir" record.xmir
    ++ pathMember "optimized" record.optimized
    ++ pathMember "discovered-at" record.discoveredAt
    ++ (match record.discovered with
      | some count => [("discovered", .number (toString count))]
      | none => [])
    ++ (if record.pulled then [("pulled", .bool true)] else [])
    ++ textMember "version" record.version
    ++ textMember "hash" record.hash
    ++ textMember "status" record.status

/-- A record as a value. -/
def toJson (record : Record) : Json.Value := .object record.members

/-- The names of the fields of a record, in order. -/
def fieldNames : List String :=
  ["id", "source", "xmir", "optimized", "discovered-at", "discovered", "pulled", "version",
    "hash", "status"]

/-- A record with the field `name` read from a value. -/
def withField? (record : Record) (name : String) (value : Json.Value) : Option Record :=
  match name with
  | "id" => value.text?.map fun text => { record with id := text }
  | "source" => value.optionalText?.map fun text => { record with source := text.map Path.ofText }
  | "xmir" => value.optionalText?.map fun text => { record with xmir := text.map Path.ofText }
  | "optimized" =>
    value.optionalText?.map fun text => { record with optimized := text.map Path.ofText }
  | "discovered-at" =>
    value.optionalText?.map fun text => { record with discoveredAt := text.map Path.ofText }
  | "discovered" => value.optionalNat?.map fun count => { record with discovered := count }
  | "pulled" => value.bool?.map fun pulled => { record with pulled := pulled }
  | "version" => value.optionalText?.map fun text => { record with version := text }
  | "hash" => value.optionalText?.map fun text => { record with hash := text }
  | "status" => value.optionalText?.map fun text => { record with status := text }
  | _ => some record

/-- A record with fields read one after the other. -/
def withFields? (record : Record) : List (String × Json.Value) → Option Record
  | [] => some record
  | (name, value) :: rest => (record.withField? name value).bind fun next => next.withFields? rest

/-- Whether no known field comes twice. -/
def fieldsOnce : List (String × Json.Value) → Bool
  | [] => true
  | (name, _) :: rest =>
    !(fieldNames.contains name && rest.any fun other => other.1 == name) && fieldsOnce rest

/-- Reads a record. -/
def ofJson? : Json.Value → Option Record
  | .object members =>
    if fieldsOnce members && members.any fun member => member.1 == "id" then
      (ofId "").withFields? members
    else none
  | .array items =>
    if items.isEmpty || fieldNames.length < items.length then none
    else (ofId "").withFields? (fieldNames.zip items)
  | _ => none

/-- Reads records up to the first that is none. -/
def listOfJson? : List Json.Value → Option (List Record)
  | [] => some []
  | value :: rest =>
    match ofJson? value, listOfJson? rest with
    | some record, some others => some (record :: others)
    | _, _ => none

/-- The text of a list of records. -/
def renderAll (records : List Record) : String :=
  (Json.Value.array (records.map toJson)).render

/-- Reads the text of a list of records. -/
def allOfText? (text : String) : Option (List Record) :=
  match Json.Value.ofText? text with
  | some (.array items) => listOfJson? items
  | _ => none

end Record

end EoAssembly
