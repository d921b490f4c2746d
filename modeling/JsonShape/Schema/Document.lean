import JsonShape.Schema.Render
import JsonShape.Value.Sorted

/-!
# Schema documents

A document announces its draft, may have an identifier and a title, and holds a schema unless there
was nothing to infer one from.  It is written with all keys sorted, so that equal documents have
equal texts.
-/

namespace JsonShape

/-- a schema with the metadata around it -/
structure Document where
  draftUri : String
  id : Option Value
  title : Option Value
  schema : Option Schema

namespace Document

/-- a value that says something -/
def truthy (v : Value) : Option Value := if v.isTruthy then some v else none

/-- the document of a schema, with the metadata that the options give -/
def ofOptions (o : Options) (schema : Option Schema) : Document :=
  ⟨o.draft.uri, truthy o.id, truthy o.title, schema⟩

/-- the document as an object, its keys in the order in which they are written -/
def unsorted (d : Document) : Value :=
  .obj ([("$schema", .str d.draftUri)]
    ++ Keywords.optional "$id" d.id
    ++ Keywords.optional "title" d.title
    ++ (match d.schema with
      | some s => s.members
      | none => []))

/-- the document as an object with sorted keys -/
def toValue (d : Document) : Value := d.unsorted.sortKeys

end Document
end JsonShape
