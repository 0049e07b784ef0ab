import AdventureKit.Archive.Basic
import AdventureKit.Archive.Format
import AdventureKit.Archive.Rebuild
import AdventureKit.Archive.Timestamp
import AdventureKit.Bytes
import AdventureKit.CommandLine.Arguments
import AdventureKit.CommandLine.Interview
import AdventureKit.CommandLine.Plan
import AdventureKit.CommandLine.Tool
import AdventureKit.Dialogue.Catalogue
import AdventureKit.Dialogue.Markup
import AdventureKit.Dialogue.Rows
import AdventureKit.Dialogue.Sheet
import AdventureKit.Dialogue.TextBlock
import AdventureKit.Fault
import AdventureKit.Game.Archives
import AdventureKit.Game.Disk
import AdventureKit.Game.Fonts
import AdventureKit.Game.Graphics
import AdventureKit.Game.Overlay
import AdventureKit.Game.Patch
import AdventureKit.Game.Scripts
import AdventureKit.Game.Search
import AdventureKit.Game.Session
import AdventureKit.Game.Texts
import AdventureKit.Logged
import AdventureKit.Lzss.Pack
import AdventureKit.Lzss.Unpack
import AdventureKit.Lzss.Window
import AdventureKit.Main
import AdventureKit.Name
import AdventureKit.Name.Pattern
import AdventureKit.Picture
import AdventureKit.Picture.Font
import AdventureKit.Picture.Grid
import AdventureKit.Picture.Palette
import AdventureKit.Picture.Png
import AdventureKit.Picture.Sprite
import AdventureKit.Prompt.Asking
import AdventureKit.Prompt.Key
import AdventureKit.Prompt.Selection
import AdventureKit.Resource.Item
import AdventureKit.Script.Arguments
import AdventureKit.Script.Block
import AdventureKit.Script.Expression
import AdventureKit.Script.File
import AdventureKit.Script.Instruction
import AdventureKit.Script.Listing
import AdventureKit.Script.Machine
import AdventureKit.Script.Mult
import AdventureKit.Sequence
import AdventureKit.Stream
import AdventureKit.Stream.Output
import AdventureKit.Stream.Readers
import AdventureKit.Table
import AdventureKit.Text.Blank
import AdventureKit.Text.Capital
import AdventureKit.Text.CodePage
import AdventureKit.Text.Digit
import AdventureKit.Text.Encoding
import AdventureKit.Text.Letter
import AdventureKit.Text.Numeral
import AdventureKit.Text.Printable
import AdventureKit.Text.Quoted
import AdventureKit.Text.Utf8
import AdventureKit.Proofs.Lzss.Search
import AdventureKit.Proofs.Lzss.Replay
import AdventureKit.Proofs.Lzss.Packer
import AdventureKit.Proofs.Lzss.Lockstep
import AdventureKit.Proofs.Lzss.RoundTrip
import AdventureKit.Proofs.Fault
import AdventureKit.Proofs.Table
import AdventureKit.Proofs.Archive.Header
import AdventureKit.Proofs.Archive.Draft
import AdventureKit.Proofs.Archive.ReadBack
import AdventureKit.Proofs.Archive.Sharing
import AdventureKit.Proofs.Archive.Listing
import AdventureKit.Proofs.Lzss.Chunks
import AdventureKit.Proofs.Archive.Chunked
import AdventureKit.Proofs.Text.Utf8
import AdventureKit.Proofs.Archive.Timestamp
import AdventureKit.Proofs.Archive.DatedIndex
import AdventureKit.Proofs.Archive.DatedReadBack
import AdventureKit.Proofs.Dialogue.SharedPlaces
import AdventureKit.Proofs.Dialogue.SavedBlock
import AdventureKit.Proofs.Dialogue.Tokens
import AdventureKit.Proofs.Dialogue.WrittenForm
import AdventureKit.Proofs.Sequence
import AdventureKit.Proofs.Text.Numeral
import AdventureKit.Proofs.Dialogue.TurnedBack
import AdventureKit.Proofs.Dialogue.UneditedRows
import AdventureKit.Proofs.Dialogue.FalseEnds
import AdventureKit.Proofs.Picture.Runs
import AdventureKit.Proofs.Effects
import AdventureKit.Proofs.Lzss.Extent
import AdventureKit.Proofs.Resource.Table
import AdventureKit.Proofs.Resource.Layout
import AdventureKit.Proofs.Picture.Frames
import AdventureKit.Proofs.Game.Session
import AdventureKit.Proofs.Game.Search
import AdventureKit.Proofs.Game.Extraction
import AdventureKit.Proofs.Game.Refit
import AdventureKit.Proofs.Script.Layout
import AdventureKit.Proofs.Game.Untouched
import AdventureKit.Proofs.Game.OwnTable
import AdventureKit.Proofs.Game.OwnTexts
import AdventureKit.Proofs.Script.Steady
import AdventureKit.Proofs.Script.Operands
import AdventureKit.Proofs.Script.Plain
import AdventureKit.Proofs.Script.Steering
import AdventureKit.Proofs.Script.Nesting
import AdventureKit.Proofs.Script.Discipline
import AdventureKit.Proofs.Script.Tour
import AdventureKit.Proofs.Script.Termination
import AdventureKit.Proofs.Script.CallClosure
import AdventureKit.Proofs.Game.Exported
import AdventureKit.Proofs.Dialogue.CatalogueCells
import AdventureKit.Proofs.Game.Entries
import AdventureKit.Proofs.Game.Catalogues
import AdventureKit.Proofs.Text.Keyboard
import AdventureKit.Proofs.Picture.Tabulated
import AdventureKit.Proofs.Picture.Tiles
import AdventureKit.Proofs.Picture.Bits
import AdventureKit.Proofs.Picture.FontFile
import AdventureKit.Proofs.Game.Fonts
import AdventureKit.Proofs.Text.Characters
import AdventureKit.Proofs.Text.Codecs
import AdventureKit.Proofs.Dialogue.SheetLines
import AdventureKit.Proofs.Dialogue.SheetRows
import AdventureKit.Proofs.Game.Sheets
import AdventureKit.Proofs.Game.Places
import AdventureKit.Proofs.Game.FirstEntry
import AdventureKit.Proofs.Game.Delivery
import AdventureKit.Proofs.Game.Overlay
import AdventureKit.Proofs.Game.FolderPatches
import AdventureKit.Proofs.Game.LaterTasks
import AdventureKit.Proofs.Lzss.Delimited
import AdventureKit.Proofs.Lzss.History
import AdventureKit.Proofs.Stream.Views
import AdventureKit.Proofs.Archive.Ranges
import AdventureKit.Proofs.Lzss.Framing
import AdventureKit.Proofs.Lzss.Greedy
import AdventureKit.Proofs.Lzss.Lengths
import AdventureKit.Proofs.Lzss.PackedForm
import AdventureKit.Proofs.Script.Delimiting
import AdventureKit.Proofs.Game.Bases
import AdventureKit.Proofs.Text.NumeralForm
import AdventureKit.Proofs.Dialogue.Breaks
import AdventureKit.Proofs.Archive.HeaderWidth
import AdventureKit.Proofs.Picture.CutShort
import AdventureKit.Proofs.Prompt.History
import AdventureKit.Proofs.Archive.Unpatched
import AdventureKit.Proofs.Archive.LookAlikes
