import StyledMap.Decimal.Layout
import StyledMap.Decimal.Reader
import StyledMap.Text.Blank
import StyledMap.Json.Printer
import StyledMap.Json.Record
import StyledMap.Drawing.StyleReader
import StyledMap.Drawing.LayerReader
import StyledMap.Drawing.Zooms
import StyledMap.MapDocument.Compile
import StyledMap.Geo.Mercator
import StyledMap.Raster.Png
import StyledMap.Render.Native
import StyledMap.Request.Export
import StyledMap.Request.Service
import StyledMap.Ini.Reader
import StyledMap.Ini.Printer
import StyledMap.Files.Tree
import StyledMap.Settings.Store
import StyledMap.Console.Session
import StyledMap.Main
import StyledMap.Proofs.Json.Trees
import StyledMap.Proofs.Json.Values
import StyledMap.Proofs.Json.Returns
import StyledMap.Proofs.Render.Canvases
import StyledMap.Proofs.Request.Course
import StyledMap.Proofs.Request.Walk
import StyledMap.Proofs.Request.Parameters
import StyledMap.Proofs.Request.Download
import StyledMap.Proofs.Json.Trimming
import StyledMap.Proofs.Json.Shapes
import StyledMap.Proofs.Request.EngineUse
import StyledMap.Proofs.Decimal.Plain
import StyledMap.Proofs.Scale.Table
import StyledMap.Proofs.Drawing.Legal
import StyledMap.Proofs.Drawing.Rewriting
import StyledMap.Proofs.MapDocument.Items
import StyledMap.Proofs.MapDocument.Clean
import StyledMap.Proofs.Request.LegalText
import StyledMap.Proofs.Xml.Reader
import StyledMap.Proofs.Xml.Reading
import StyledMap.Proofs.MapDocument.Prolog
import StyledMap.Proofs.MapDocument.RoundTrip
import StyledMap.Proofs.Request.Inlining
import StyledMap.Proofs.Request.Validity
import StyledMap.Proofs.Files.Below
import StyledMap.Proofs.Ini.Lines
import StyledMap.Proofs.Settings.Paths
import StyledMap.Proofs.Settings.Loaded
import StyledMap.Proofs.Settings.Reload
import StyledMap.Proofs.Drawing.StyleTexts
import StyledMap.Proofs.Drawing.LayerTexts
import StyledMap.Proofs.Drawing.Passwords
import StyledMap.Proofs.Request.Secrecy
import StyledMap.Proofs.Request.Gate
import StyledMap.Proofs.Request.Completion
import StyledMap.Proofs.MapDocument.Faults
import StyledMap.Proofs.Drawing.StyleFaults
import StyledMap.Proofs.MapDocument.Mentions
import StyledMap.Proofs.Console.Runs
import StyledMap.Proofs.Console.Compiling
import StyledMap.Proofs.Drawing.Trimming
import StyledMap.Proofs.MapDocument.Heading
import StyledMap.Proofs.Console.Agreement
import StyledMap.Proofs.Drawing.LayerShapes
import StyledMap.Proofs.Drawing.LayerFaults
import StyledMap.Proofs.Drawing.ParamShapes
import StyledMap.Proofs.Request.Alike
import StyledMap.Proofs.Geo.Addresses
import StyledMap.Proofs.Render.ForeignCalls
import StyledMap.Proofs.Render.Rows
import StyledMap.Proofs.Ini.Edits
import StyledMap.Proofs.Settings.Overlay
import StyledMap.Proofs.Decimal.Parts
import StyledMap.Proofs.Decimal.Exact
import StyledMap.Proofs.Geo.Tiling
import StyledMap.Proofs.Text.Bytes
import StyledMap.Proofs.Request.Payload
import StyledMap.Proofs.Xml.Lines
import StyledMap.Proofs.MapDocument.Writing
import StyledMap.Proofs.MapDocument.Fragments
import StyledMap.Proofs.MapDocument.Nesting
import StyledMap.Proofs.Xml.Escaping
