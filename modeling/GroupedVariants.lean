import GroupedVariants.Delimiters.Json
import GroupedVariants.Main
import GroupedVariants.Sample.Markup
import GroupedVariants.Proofs.Delimiters
import GroupedVariants.Proofs.Scan.Step
import GroupedVariants.Proofs.Scan.Simulation
import GroupedVariants.Proofs.Markup.Tree
import GroupedVariants.Proofs.Markup.Reading
import GroupedVariants.Proofs.Splice
import GroupedVariants.Proofs.Scan.Layout
import GroupedVariants.Proofs.Markup.Document
import GroupedVariants.Proofs.Markup.Recovery
import GroupedVariants.Proofs.Scan.Transfer
import GroupedVariants.Proofs.Locality
import GroupedVariants.Proofs.Renaming
import GroupedVariants.Proofs.Scan.Emission
import GroupedVariants.Proofs.Edits
import GroupedVariants.Proofs.Text.Utf8
import GroupedVariants.Proofs.Files.Tree
import GroupedVariants.Proofs.Commands.Pass
import GroupedVariants.Proofs.Commands.Rewriting
import GroupedVariants.Proofs.Commands.Agreement
import GroupedVariants.Proofs.Commands.Execution
import GroupedVariants.Proofs.Files.Discovery
import GroupedVariants.Proofs.Config.Document
import GroupedVariants.Proofs.Config.Layers
import GroupedVariants.Proofs.Scan.Opening
import GroupedVariants.Proofs.Scan.Unfinished
import GroupedVariants.Proofs.Counting
import GroupedVariants.Proofs.Markup.Idempotence
import GroupedVariants.Proofs.Config.Extensions
import GroupedVariants.Proofs.Sample
import GroupedVariants.Proofs.Scan.Table
import GroupedVariants.Proofs.Repl.Session
import GroupedVariants.Proofs.Yaml.Character
import GroupedVariants.Proofs.Yaml.Plain
import GroupedVariants.Proofs.Yaml.Literal
import GroupedVariants.Proofs.Yaml.Scalar
import GroupedVariants.Proofs.Config.RoundTrip
import GroupedVariants.Proofs.Scan.Indexed
