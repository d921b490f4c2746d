import JsonShape.Text.Quoted

/-!
# The catalogue of public names

The names under which the library's parts are offered, each with the module that holds it.
-/

namespace JsonShape.Catalogue

/-- the module that the names are looked up in -/
def package : String := "jsoninfer"

/-- every public name, with the module below the package that holds it -/
def entries : List (String × String) :=
  [("infer_json_schema", "schema_inference"),
    ("JsonSchemaInferrer", "schema_inference"),
    ("InferenceOptions", "options"),
    ("Draft", "options"),
    ("RequiredPolicy", "options"),
    ("SchemaRenderer", "renderer"),
    ("TypeStats", "stats"),
    ("collect_value_stats", "stats"),
    ("merge_stats", "stats"),
    ("detect_format", "formats"),
    ("unify_types", "type_unification"),
    ("stable_sort_keys", "common"),
    ("JsonInferError", "exceptions"),
    ("InvalidOptionsError", "exceptions"),
    ("RecursionTooDeepError", "exceptions"),
    ("UnsupportedValueError", "exceptions")]

/-- the full name of the module that holds a public name -/
def home? (name : String) : Option String :=
  (entries.lookup name).map fun submodule => package ++ "." ++ submodule

/-- what is said of a name that is not public -/
def missing (name : String) : String :=
  "module " ++ Text.quoted package ++ " has no attribute " ++ Text.quoted name

end JsonShape.Catalogue
