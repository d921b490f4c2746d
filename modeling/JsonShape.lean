import JsonShape.Catalogue
import JsonShape.Inference
import JsonShape.Tree.Same
import JsonShape.Proofs.Bounds
import JsonShape.Proofs.Sets
import JsonShape.Proofs.Capped
import JsonShape.Proofs.Keys
import JsonShape.Proofs.Parts
import JsonShape.Proofs.Gather
import JsonShape.Proofs.Records
import JsonShape.Schema.Validate
import JsonShape.Proofs.Written
import JsonShape.Proofs.Types
import JsonShape.Proofs.Keywords
import JsonShape.Proofs.Answer
import JsonShape.Proofs.Soundness
import JsonShape.Proofs.Widening
import JsonShape.Proofs.Closure
import JsonShape.Proofs.SampleSet
import JsonShape.Proofs.Merging
import JsonShape.Proofs.Commuting
import JsonShape.Proofs.Collecting
import JsonShape.Proofs.Contents
import JsonShape.Proofs.Fragments
import JsonShape.Proofs.ObjectKeys
import JsonShape.Proofs.Enumeration
import JsonShape.Proofs.Refusals
import JsonShape.Proofs.Building
import JsonShape.Proofs.Consistency
import JsonShape.Proofs.Instances
import JsonShape.Proofs.WellFormed
import JsonShape.Proofs.Rewriting
import JsonShape.Proofs.Respelling
import JsonShape.Proofs.Canonical
import JsonShape.Proofs.Switches
import JsonShape.Proofs.Keeping
import JsonShape.Proofs.Interrupted
import JsonShape.Proofs.Settings
import JsonShape.Proofs.Changes
import JsonShape.Format.Pattern
import JsonShape.Proofs.Layouts
import JsonShape.Proofs.Texts
import JsonShape.Proofs.Grouped
import JsonShape.Proofs.Detection
import JsonShape.Proofs.Priority
import JsonShape.Proofs.Reordering
