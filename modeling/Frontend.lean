import Frontend.Codec.Preferences
import Frontend.Codec.Tree
import Frontend.Limits.Generate
import Frontend.Logging.Process
import Frontend.Logging.Start
import Frontend.Token.Stream
import Frontend.Proofs.Parser.Grammar
import Frontend.Proofs.Parser.Grouping
import Frontend.Proofs.Parser.Height
import Frontend.Proofs.Parser.Isolation
import Frontend.Proofs.Parser.Locality
import Frontend.Proofs.Parser.Placement
import Frontend.Proofs.Parser.Recovery
import Frontend.Proofs.Parser.Rejection
import Frontend.Proofs.Parser.Respacing
import Frontend.Proofs.Parser.RoundTrip
import Frontend.Proofs.Report
import Frontend.Proofs.Token.Decomposition
import Frontend.Proofs.Json.Decoding
import Frontend.Proofs.Codec.Tree
import Frontend.Proofs.Event
import Frontend.Proofs.Logging.Start
import Frontend.Proofs.Timeline
import Frontend.Proofs.Logging.Dispatch
import Frontend.Proofs.Parser.Notes
import Frontend.Proofs.Logging.Process
import Frontend.Proofs.Logging.Failure
import Frontend.Proofs.Source
import Frontend.Proofs.Token.Stream
import Frontend.Proofs.Parser.Pulling
import Frontend.Proofs.Token.Metrics
import Frontend.Proofs.Token.Place
import Frontend.Proofs.Underline
import Frontend.Proofs.Parser.Rendering
import Frontend.Proofs.Event.Memory
import Frontend.Proofs.Logging.Scope
import Frontend.Proofs.Parser.Integers
import Frontend.Proofs.Parser.Parentheses
import Frontend.Proofs.Codec.Recoding
import Frontend.Proofs.Event.Line
import Frontend.Proofs.Lines
import Frontend.Proofs.Parser.Depth
import Frontend.Proofs.Event.Message
