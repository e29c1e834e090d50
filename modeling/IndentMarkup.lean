import IndentMarkup.CallLog
import IndentMarkup.Command
import IndentMarkup.Command.Arguments
import IndentMarkup.Cursor
import IndentMarkup.Document.Walk
import IndentMarkup.Main
import IndentMarkup.Proofs.Printed
import IndentMarkup.Proofs.PrintedHeader
import IndentMarkup.Proofs.Offside
import IndentMarkup.Proofs.RoundTrip
import IndentMarkup.Proofs.Reads
import IndentMarkup.Proofs.SlotOrder
import IndentMarkup.Proofs.MapSlots
import IndentMarkup.Proofs.SlotBlindness
import IndentMarkup.Proofs.DomChanges
import IndentMarkup.Proofs.LeafWalks
import IndentMarkup.Proofs.Evaluating
import IndentMarkup.Proofs.Handover
import IndentMarkup.Proofs.CallTrees
import IndentMarkup.Proofs.Postponing
import IndentMarkup.Proofs.Logged
import IndentMarkup.Proofs.Composition
import IndentMarkup.Proofs.FinalNewline
import IndentMarkup.Proofs.Scopes
import IndentMarkup.Proofs.Replay
import IndentMarkup.Proofs.HtmlReading
import IndentMarkup.Proofs.Margins
import IndentMarkup.Proofs.TextLayout
import IndentMarkup.Proofs.SlotFree
import IndentMarkup.Proofs.Isolation
import IndentMarkup.Proofs.CallDepth
import IndentMarkup.Proofs.WellFormed
import IndentMarkup.Proofs.WrittenHeader
import IndentMarkup.Proofs.StreamPositions
import IndentMarkup.Proofs.ShownNames
import IndentMarkup.Proofs.TrailingBlanks
import IndentMarkup.Proofs.BlockExpansion
import IndentMarkup.Proofs.LeafNodes
import IndentMarkup.Proofs.FinalAttributes
import IndentMarkup.Proofs.MovedNodes
import IndentMarkup.Proofs.OrderlyCalls
import IndentMarkup.Proofs.Gathering
import IndentMarkup.Proofs.OutlineReading
import IndentMarkup.Proofs.CommentRegions
import IndentMarkup.Proofs.UnclosedLists
import IndentMarkup.Proofs.IndentOrder
import IndentMarkup.Proofs.Placeholders
import IndentMarkup.Proofs.CleanEnds
