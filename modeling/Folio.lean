import Folio.Assembly.Assembler
import Folio.Assembly.Config
import Folio.Assembly.Destination
import Folio.Assembly.Error
import Folio.Assembly.Footer
import Folio.Assembly.Source
import Folio.Assembly.Stamping
import Folio.Cache
import Folio.Compile.Compiler
import Folio.Compile.Error
import Folio.Compile.Inline
import Folio.Compile.Outline
import Folio.Compile.Picture
import Folio.Compile.Renderer
import Folio.Compile.State
import Folio.Compile.Table
import Folio.Decimal.Binary
import Folio.Decimal.Reading
import Folio.Decimal.Shortest
import Folio.Engine.Basic
import Folio.Engine.Error
import Folio.Flow.Block
import Folio.Flow.Canvas
import Folio.Flow.Document
import Folio.Flow.Engine
import Folio.Flow.Figure
import Folio.Flow.Furniture
import Folio.Flow.Inline
import Folio.Flow.Line
import Folio.Flow.Metrics
import Folio.Flow.Page
import Folio.Flow.Table
import Folio.Json.Digest
import Folio.Json.Forms
import Folio.Json.Parser
import Folio.Json.Printer
import Folio.Json.Value
import Folio.Main
import Folio.Markup.Element
import Folio.Markup.Tag
import Folio.Node.Basic
import Folio.Node.Label
import Folio.Pdf.Content
import Folio.Pdf.ContentParser
import Folio.Pdf.Document
import Folio.Pdf.File
import Folio.Pdf.Object
import Folio.Pdf.Overlay
import Folio.Pdf.Page
import Folio.Pdf.Stamp
import Folio.Pdf.Stored
import Folio.Picture.Checksum
import Folio.Picture.Format
import Folio.Picture.Gif
import Folio.Picture.Jpeg
import Folio.Picture.JpegHeader
import Folio.Picture.Png
import Folio.Picture.Reader
import Folio.Proofs.Compile.Descent
import Folio.Proofs.Compile.Keeps
import Folio.Proofs.Compile.Parts
import Folio.Proofs.Compile.Positions
import Folio.Proofs.Compile.Resolution
import Folio.Proofs.Compile.Step
import Folio.Proofs.Compile.TextKept
import Folio.Proofs.Flow.Ink
import Folio.Proofs.Flow.PageSequence
import Folio.Proofs.Flow.PageTree
import Folio.Proofs.Flow.ShownText
import Folio.Proofs.Flow.Steps
import Folio.Proofs.Run
import Folio.Resource.FileTree
import Folio.Resource.Provider
import Folio.Scalar
import Folio.Style.Align
import Folio.Style.Color
import Folio.Style.Context
import Folio.Style.Digest
import Folio.Style.Font
import Folio.Style.Keyword
import Folio.Style.Page
import Folio.Style.Sheet
import Folio.Text.Base64
import Folio.Text.Blank
import Folio.Text.Latin1
import Folio.Proofs.Flow.Dressed
import Folio.Proofs.Pdf.Displayed
import Folio.Proofs.Pdf.Stamped
import Folio.Proofs.Flow.Written
import Folio.Proofs.Pdf.ReadBack
import Folio.Proofs.Assembly.Layouts
import Folio.Proofs.Assembly.Builds
import Folio.Proofs.Assembly.Footers
import Folio.Proofs.Assembly.Headers
import Folio.Proofs.Compile.Judged
import Folio.Proofs.Compile.JudgedBlocks
import Folio.Proofs.Compile.JudgedTables
import Folio.Proofs.Compile.Grammar
import Folio.Proofs.Compile.Alike
import Folio.Proofs.Compile.Guarded
import Folio.Proofs.Compile.Transparent
import Folio.Proofs.Json.Taken
import Folio.Proofs.Assembly.Entrances
import Folio.Proofs.Assembly.OddPages
import Folio.Proofs.Compile.Columns
import Folio.Proofs.Exact
import Folio.Proofs.Flow.Flown
import Folio.Proofs.Flow.BottomMargin
import Folio.Proofs.Flow.Scripts
import Folio.Proofs.Flow.Passages
import Folio.Proofs.Flow.Laid
import Folio.Proofs.Flow.Breaks
import Folio.Proofs.Flow.Destinations
import Folio.Proofs.Flow.Links
import Folio.Proofs.Flow.Contents
import Folio.Proofs.Flow.Painting
import Folio.Proofs.Flow.Resources
import Folio.Proofs.Extended
import Folio.Proofs.Flow.Measured
import Folio.Proofs.Flow.MeasuredLines
import Folio.Proofs.Flow.Numbers
import Folio.Proofs.Compile.FiniteNodes
import Folio.Proofs.Compile.FiniteMarkup
import Folio.Proofs.Flow.FinitePages
import Folio.Proofs.Assembly.Operands
import Folio.Proofs.Node.Outline
import Folio.Proofs.Compile.HandsOn
import Folio.Proofs.Compile.Leaves
import Folio.Proofs.Compile.Numbering
import Folio.Proofs.Compile.Spared
import Folio.Proofs.Compile.MoreSteps
import Folio.Proofs.Compile.Insides
import Folio.Proofs.Cache.Asking
import Folio.Proofs.Cache.WriteOnce
import Folio.Proofs.Style.SheetOrder
import Folio.Proofs.Style.Spelling
import Folio.Proofs.Assembly.Metadata
import Folio.Proofs.Compile.Respelt
import Folio.Proofs.Compile.SideBySide
import Folio.Proofs.Compile.RespeltRules
import Folio.Proofs.Compile.RespeltTables
import Folio.Proofs.Compile.RespeltNodes
import Folio.Proofs.Pdf.Augmented
import Folio.Proofs.Pdf.Adding
import Folio.Proofs.Pdf.OnlyAdds
import Folio.Proofs.Assembly.Handover
import Folio.Proofs.Flow.GraphicsState
import Folio.Proofs.Pdf.Enriched
import Folio.Proofs.Pdf.Resolved
import Folio.Proofs.Flow.Wrapping
import Folio.Proofs.Flow.GreedyLines
import Folio.Proofs.Flow.Alignment
import Folio.Proofs.Flow.PageBreaks
import Folio.Proofs.Compile.TableRules
import Folio.Proofs.Compile.CompiledTables
import Folio.Proofs.Flow.RowHeights
import Folio.Proofs.Flow.Insets
import Folio.Proofs.Flow.FirstLines
import Folio.Proofs.Flow.ListLabels
import Folio.Proofs.Style.FontSources
import Folio.Proofs.Compile.LeafFonts
import Folio.Proofs.Style.Cascade
import Folio.Proofs.Assembly.FooterWriters
import Folio.Proofs.Rounding
import Folio.Proofs.Doubles
import Folio.Proofs.Quotients
import Folio.Proofs.Compile.DrawnSizes
import Folio.Proofs.Style.ColorGrammar
import Folio.Proofs.Json.Streams
import Folio.Proofs.Style.Hashing
import Folio.Proofs.Compile.WholeNumbers
import Folio.Proofs.Resource.Containment
import Folio.Proofs.Node.Letters
import Folio.Proofs.Node.Numerals
import Folio.Proofs.Flow.CellLines
import Folio.Proofs.Flow.NamedPlaces
import Folio.Proofs.Compile.FreeText
import Folio.Proofs.Markup.Segments
import Folio.Proofs.Picture.FrameScan
import Folio.Proofs.Flow.ColumnWalk
import Folio.Proofs.Flow.Collecting
import Folio.Proofs.Flow.Places
