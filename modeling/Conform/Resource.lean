import Conform.Table.Document

/-!
# The table of resource schemas

A resource schema is a document that describes a versioned resource, with its version, kind,
metadata and a specification that is one of several forms.  `Resource.table` describes such
documents themselves, so that they can be checked and converted before they are used.
-/

namespace Conform.Resource

def rootType : String := "ResourceSchema"

def field (name : String) (shape : Shape) : Property Shape :=
  ⟨name, TypedName.ofSerialized name, shape, none⟩

def text : Shape := .primitive .string

def number : Shape := .primitive .number

def truth : Shape := .primitive .boolean

def texts : Shape := .array text

def closed (fields : List (Property Shape)) : Shape := .object 0 fields .never

/-- The fields that every nested description of an object starts with. -/
def objectHead : List (Property Shape) := [field "type" text, field "description" text]

/-- The fields that it goes on with. -/
def objectTail (properties : String) : List (Property Shape) :=
  [field "additionalProperties" truth, field "properties" (.ref properties)]

def types : List (String × Shape) := [
  ("ResourceSchema", closed [
    field "$schema" text,
    field "$id" text,
    field "title" text,
    field "description" text,
    field "type" text,
    field "required" texts,
    field "additionalProperties" truth,
    field "properties" (.ref "ResourceSchemaProperties"),
    field "$defs" (.ref "Defs")]),
  ("Defs", closed [
    field "trigger" (.ref "Trigger"),
    field "LLMSpec" (.ref "Spec"),
    field "FunnelSpec" (.ref "Spec"),
    field "dataSpec" (.ref "DataSpec")]),
  ("Spec", closed (objectHead ++ field "required" texts :: objectTail "FunnelSpecProperties")),
  ("FunnelSpecProperties", closed [
    field "type" (.ref "APIVersion"),
    field "trigger" (.ref "Data"),
    field "data" (.ref "Data"),
    field "llmPrompt" (.optional (.ref "LlmPrompt"))]),
  ("Data", closed [
    field "$ref" text,
    field "description" text]),
  ("LlmPrompt", closed [
    field "type" text,
    field "minLength" number,
    field "description" text,
    field "maxLength" (.optional number),
    field "pattern" (.optional text)]),
  ("APIVersion", closed [
    field "type" text,
    field "const" text,
    field "description" text]),
  ("DataSpec", closed (objectHead ++ objectTail "DataSpecProperties")),
  ("DataSpecProperties", closed [
    field "minEvents" (.ref "MaxEventsClass"),
    field "maxEvents" (.ref "MaxEventsClass"),
    field "events" (.ref "Events")]),
  ("Events", closed [
    field "description" text,
    field "oneOf" (.array (.ref "EventsOneOf"))]),
  ("EventsOneOf", closed [
    field "type" text,
    field "const" (.optional text),
    field "description" text,
    field "minItems" (.optional number),
    field "uniqueItems" (.optional truth),
    field "items" (.optional (.ref "LlmPrompt"))]),
  ("MaxEventsClass", closed [
    field "type" text,
    field "minimum" number,
    field "description" text]),
  ("Trigger", closed (objectHead ++ field "required" texts ::
    objectTail "TriggerProperties" ++ [field "allOf" (.array (.ref "AllOf"))])),
  ("AllOf", closed [
    field "if" (.ref "If"),
    field "then" (.ref "Then")]),
  ("If", closed [
    field "properties" (.ref "IfProperties"),
    field "required" texts]),
  ("IfProperties", closed [field "mode" (.ref "PurpleMode")]),
  ("PurpleMode", closed [field "const" text]),
  ("Then", closed [field "required" texts]),
  ("TriggerProperties", closed [
    field "mode" (.ref "FluffyMode"),
    field "schedule" (.ref "Schedule")]),
  ("FluffyMode", closed [
    field "type" text,
    field "enum" texts,
    field "description" text]),
  ("Schedule", closed [
    field "description" text,
    field "oneOf" (.array (.ref "ScheduleOneOf"))]),
  ("ScheduleOneOf", closed [
    field "type" text,
    field "enum" (.optional texts),
    field "description" text,
    field "additionalProperties" (.optional truth),
    field "required" (.optional texts),
    field "properties" (.optional (.ref "OneOfProperties"))]),
  ("OneOfProperties", closed [field "cron" (.ref "LlmPrompt")]),
  ("ResourceSchemaProperties", closed [
    field "apiVersion" (.ref "APIVersion"),
    field "kind" (.ref "APIVersion"),
    field "metadata" (.ref "Metadata"),
    field "spec" (.ref "SpecClass")]),
  ("Metadata", closed (objectHead ++ field "required" texts :: objectTail "MetadataProperties")),
  ("MetadataProperties", closed [
    field "name" (.ref "LlmPrompt"),
    field "displayName" (.ref "LlmPrompt"),
    field "description" (.ref "LlmPrompt")]),
  ("SpecClass", closed [
    field "description" text,
    field "oneOf" (.array (.ref "SpecOneOf"))]),
  ("SpecOneOf", closed [field "$ref" text])]

/-- The shapes by their names, each object with a label of its own. -/
def shapes : NamedShapes := TableDocument.labelAll 0 types

def table : Table where
  entries := shapes
  distinct := by decide +kernel
  closed := by decide +kernel
  grounded := by decide +kernel

end Conform.Resource
