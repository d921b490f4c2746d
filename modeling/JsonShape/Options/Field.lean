import JsonShape.Value.Basic

/-!
# Option names

There are twelve options.  Each has a name of words joined by underscores; those of several words
but one have a second, capitalised spelling.

* `Field.mem_all`        every option is in the list of all;
* `Field.ofName?_name`   an option is found by its name;
* `Field.ofName?_alias`  and by its second spelling.
-/

namespace JsonShape

inductive Field where
  | draft
  | title
  | id
  | additionalProperties
  | enumThreshold
  | detectFormats
  | minmax
  | examples
  | requiredPolicy
  | maxUniqueValues
  | maxExamples
  | maxDepth
deriving DecidableEq

namespace Field

/-- all options, in the order in which they are listed -/
def all : List Field :=
  [draft, title, id, additionalProperties, enumThreshold, detectFormats, minmax, examples,
    requiredPolicy, maxUniqueValues, maxExamples, maxDepth]

theorem mem_all (f : Field) : f ∈ all := by
  cases f <;> decide

def name : Field → String
  | draft => "draft"
  | title => "title"
  | id => "id"
  | additionalProperties => "additional_properties"
  | enumThreshold => "enum_threshold"
  | detectFormats => "detect_formats"
  | minmax => "minmax"
  | examples => "examples"
  | requiredPolicy => "required_policy"
  | maxUniqueValues => "max_unique_values"
  | maxExamples => "max_examples"
  | maxDepth => "max_depth"

/-- the second spelling of a name of several words -/
def alias? : Field → Option String
  | draft => none
  | title => none
  | id => none
  | additionalProperties => some "additionalProperties"
  | enumThreshold => some "enumThreshold"
  | detectFormats => some "detectFormats"
  | minmax => none
  | examples => none
  | requiredPolicy => some "requiredPolicy"
  | maxUniqueValues => some "maxUniqueValues"
  | maxExamples => some "maxExamples"
  | maxDepth => some "maxDepth"

/-- the option of a name, in either spelling -/
def ofName? (s : String) : Option Field :=
  all.find? fun f => f.name == s || f.alias? == some s

theorem ofName?_name (f : Field) : ofName? f.name = some f := by
  cases f <;> decide +kernel

theorem ofName?_alias {f : Field} {s : String} (h : f.alias? = some s) : ofName? s = some f := by
  cases f <;> cases h <;> decide +kernel

/-- the value of an option that is not given -/
def default : Field → Value
  | draft => .str "2020-12"
  | title => .null
  | id => .null
  | additionalProperties => .bool true
  | enumThreshold => .int 8
  | detectFormats => .bool true
  | minmax => .bool true
  | examples => .bool true
  | requiredPolicy => .str "observed"
  | maxUniqueValues => .int 50
  | maxExamples => .int 3
  | maxDepth => .int 128

end Field
end JsonShape
