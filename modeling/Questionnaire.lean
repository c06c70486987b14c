import Questionnaire.Files.Listing
import Questionnaire.Main
import Questionnaire.Proofs.Run.Tally
import Questionnaire.Proofs.Run.Accounting
import Questionnaire.Proofs.Files.Node
import Questionnaire.Proofs.Files.Resolve
import Questionnaire.Proofs.Files.Directory
import Questionnaire.Proofs.Record
import Questionnaire.Proofs.Run.Output
import Questionnaire.Proofs.Yaml.Mapping
import Questionnaire.Proofs.Yaml.Reading
import Questionnaire.Proofs.Yaml.Merging
import Questionnaire.Proofs.Yaml.MergeFree
import Questionnaire.Proofs.Decimal.Text
import Questionnaire.Proofs.Definition
import Questionnaire.Proofs.Definition.MergeFree
import Questionnaire.Proofs.Yaml.Order
import Questionnaire.Proofs.Definition.Order
import Questionnaire.Proofs.Yaml.Equality
import Questionnaire.Proofs.Files.Target
import Questionnaire.Proofs.Files.Output
import Questionnaire.Proofs.Run.Interleaving
import Questionnaire.Proofs.Run.Confinement
import Questionnaire.Proofs.Run.Independence
import Questionnaire.Proofs.Definition.Malformed
import Questionnaire.Proofs.Run.Skipped
import Questionnaire.Proofs.Record.Written
import Questionnaire.Proofs.Text.Digits
import Questionnaire.Proofs.Yaml.Token.Block
import Questionnaire.Proofs.Yaml.Token.Scan
import Questionnaire.Proofs.Yaml.Write.ReadBack
import Questionnaire.Proofs.Yaml.Sameness
import Questionnaire.Proofs.Files.Walk
import Questionnaire.Proofs.Run.Input
import Questionnaire.Proofs.Run.Numbering
import Questionnaire.Proofs.Run.Switches
import Questionnaire.Proofs.Run.Siblings
import Questionnaire.Proofs.Run.Completion
import Questionnaire.Proofs.Run.Rerun
import Questionnaire.Proofs.Definition.Isolation
import Questionnaire.Proofs.Record.Fields
import Questionnaire.Proofs.Record.Key
import Questionnaire.Proofs.Files.Writing
import Questionnaire.Proofs.Record.Saving
import Questionnaire.Proofs.Definition.Shape
import Questionnaire.Proofs.Definition.Precedence
import Questionnaire.Proofs.Run.Telling
import Questionnaire.Proofs.Files.DepthFirst
import Questionnaire.Proofs.Run.Settings
