import FormSchema.Main
import FormSchema.Proofs.Binding.Builders.Comments
import FormSchema.Proofs.Binding.Builders.Dispatch
import FormSchema.Proofs.Binding.Conformance.Origins
import FormSchema.Proofs.Binding.Conformance.Runs
import FormSchema.Proofs.Binding.Course.Calls
import FormSchema.Proofs.Binding.Groups.AskedOnce
import FormSchema.Proofs.Binding.Paths.Mirror
import FormSchema.Proofs.Binding.References.Budgets
import FormSchema.Proofs.Binding.References.Chains
import FormSchema.Proofs.Binding.References.Counter
import FormSchema.Proofs.Binding.References.Limits
import FormSchema.Proofs.Binding.References.Locality
import FormSchema.Proofs.Binding.References.Nesting
import FormSchema.Proofs.Binding.References.Targets
import FormSchema.Proofs.Binding.Relaxation
import FormSchema.Proofs.Binding.Violations.First
import FormSchema.Proofs.Config.Saved
import FormSchema.Proofs.Directory.FormFiles
import FormSchema.Proofs.Document.PointerCodes
import FormSchema.Proofs.FormFile.Repetitions
import FormSchema.Proofs.NodePath.Families
import FormSchema.Proofs.Output.Views
import FormSchema.Proofs.Registry.Cycles
import FormSchema.Proofs.Registry.Occurrences
import FormSchema.Proofs.Registry.Registrations
