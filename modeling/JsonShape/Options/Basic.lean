import JsonShape.Evidence.Basic
import JsonShape.Options.Field

/-!
# Options

What a user may decide: the draft that a schema announces and its metadata, which keywords are
written, which keys are required, and the caps on what is kept.  Six options are checked when they
are read; the others may be any value, and switch by whether it is truthy.
-/

namespace JsonShape

/-- the drafts of JSON Schema that can be announced -/
inductive Draft where
  | year2020
  | year2019
  | seven
deriving DecidableEq

namespace Draft

/-- all drafts, the newest first -/
def all : List Draft := [year2020, year2019, seven]

def label : Draft → String
  | year2020 => "2020-12"
  | year2019 => "2019-09"
  | seven => "07"

/-- the address that announces a draft -/
def uri : Draft → String
  | year2020 => "https://json-schema.org/draft/2020-12/schema"
  | year2019 => "https://json-schema.org/draft/2019-09/schema"
  | seven => "http://json-schema.org/draft-07/schema#"

def ofLabel? (s : String) : Option Draft := all.find? fun d => d.label == s

end Draft

/-- which keys of an object are required: none, those that every object had, or all that some had -/
inductive Policy where
  | loose
  | observed
  | strict
deriving DecidableEq

namespace Policy

def all : List Policy := [loose, observed, strict]

def label : Policy → String
  | loose => "loose"
  | observed => "observed"
  | strict => "strict"

def ofLabel? (s : String) : Option Policy := all.find? fun p => p.label == s

/-- whether a key is required that `presence` of `instances` objects had -/
def requires (policy : Policy) (presence instances : Int) : Bool :=
  match policy with
  | loose => false
  | observed => presence == instances
  | strict => 0 < presence

end Policy

/-- a choice for every option; the title and the identifier are written if truthy, and the values of
`detectFormats`, `minmax` and `examples` are switches -/
structure Options where
  draft : Draft
  title : Value
  id : Value
  additionalProperties : Value
  enumThreshold : Nat
  detectFormats : Value
  minmax : Value
  examples : Value
  requiredPolicy : Policy
  maxUniqueValues : Nat
  maxExamples : Nat
  maxDepth : Nat
  maxDepth_pos : 0 < maxDepth

namespace Options

/-- the choices made where nothing is said -/
def default : Options where
  draft := .year2020
  title := .null
  id := .null
  additionalProperties := .bool true
  enumThreshold := 8
  detectFormats := .bool true
  minmax := .bool true
  examples := .bool true
  requiredPolicy := .observed
  maxUniqueValues := 50
  maxExamples := 3
  maxDepth := 128
  maxDepth_pos := by decide

instance : Inhabited Options := ⟨default⟩

/-- the caps on what a tree keeps -/
def caps (o : Options) : Caps := ⟨o.maxUniqueValues, o.maxExamples⟩

/-- the choice for one option, as a value -/
def get (o : Options) : Field → Value
  | .draft => .str o.draft.label
  | .title => o.title
  | .id => o.id
  | .additionalProperties => o.additionalProperties
  | .enumThreshold => .int o.enumThreshold
  | .detectFormats => o.detectFormats
  | .minmax => o.minmax
  | .examples => o.examples
  | .requiredPolicy => .str o.requiredPolicy.label
  | .maxUniqueValues => .int o.maxUniqueValues
  | .maxExamples => .int o.maxExamples
  | .maxDepth => .int o.maxDepth

def toPairs (o : Options) : List (String × Value) := Field.all.map fun f => (f.name, o.get f)

end Options
end JsonShape
