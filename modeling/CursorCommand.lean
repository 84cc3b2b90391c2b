import CursorCommand.Main
import CursorCommand.Proofs.Block.Forest
import CursorCommand.Proofs.Block.Identifiers
import CursorCommand.Proofs.Block.Innermost
import CursorCommand.Proofs.Block.Json
import CursorCommand.Proofs.Block.Start
import CursorCommand.Proofs.CommandLine.Files
import CursorCommand.Proofs.CommandLine.Order
import CursorCommand.Proofs.CommandLine.Run
import CursorCommand.Proofs.Insertion
import CursorCommand.Proofs.Literal.Broken
import CursorCommand.Proofs.Literal.Value
import CursorCommand.Proofs.Path.Slashes
import CursorCommand.Proofs.Path.Spelling
import CursorCommand.Proofs.Sample.Nesting
import CursorCommand.Proofs.Session
import CursorCommand.Proofs.Settings
import CursorCommand.Proofs.Text.Order
