import TriggerDialect.Json.Reader
import TriggerDialect.Main
import TriggerDialect.Proofs.CommandLine.Outputs
import TriggerDialect.Proofs.LayoutIndependence
import TriggerDialect.Proofs.Lexing.Blanking
import TriggerDialect.Proofs.Lexing.Joining
import TriggerDialect.Proofs.Mapping.Lossless
import TriggerDialect.Proofs.Mapping.SinglePass
import TriggerDialect.Proofs.Nesting.Commas
import TriggerDialect.Proofs.Phrase.RoundTrip
import TriggerDialect.Proofs.Positions.Statements
import TriggerDialect.Proofs.Reading.Literals
import TriggerDialect.Proofs.Reading.SourceOrder
import TriggerDialect.Proofs.Recast.Errors
import TriggerDialect.Proofs.Recast.Literals
import TriggerDialect.Proofs.Recast.Unruled
import TriggerDialect.Proofs.Reporting
import TriggerDialect.Proofs.Tree.ShownTypes
import TriggerDialect.Proofs.Wrapping.Quoted
import TriggerDialect.Proofs.Wrapping.Quoting
import TriggerDialect.Proofs.Writing.Context
import TriggerDialect.Proofs.Writing.Exits
import TriggerDialect.Proofs.Writing.Reports
import TriggerDialect.Proofs.Writing.Untranslated
