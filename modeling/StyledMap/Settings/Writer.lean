import StyledMap.Ini.Printer
import StyledMap.Settings.Basic
import StyledMap.Text.Digits

/-! Settings as a file of sections with remarks. -/
namespace StyledMap.Settings
open Ini (Line)

/-- A path for a settings file; `~/` stands for the home directory, if one is known. -/
def shorten (home : Option Path) (p : Path) : String :=
  match home.bind (·.below? p) with
  | some rest => "~/" ++ rest
  | none => p.text

def engineLines (home : Option Path) (e : Engine) : List Line :=
  [.heading "engine",
   .remark "Shared library exporting cartostyle_render_map",
   .remark "Example: library = /usr/local/lib/libcartostyle_engine.so",
   .entry "library" ((e.library.map (shorten home)).getD ""),
   .remark "Fonts and datasource plugins root, passed to the engine on every call",
   .entry "resource_dir" (shorten home e.resources),
   .remark "Order the engine writes pixel rows in:",
   .remark "  top-down  - first row is the top of the image (default)",
   .remark "  bottom-up - first row is the bottom of the image",
   .entry "row_order" e.rowOrder.text,
   .remark "Allow concurrent engine calls. Leave false unless the engine is known to be",
   .remark "reentrant; calls are then serialized process-wide.",
   .entry "reentrant" (if e.reentrant then "true" else "false")]

def renderLines (r : Render) : List Line :=
  [.heading "render",
   .remark "SRS used when a request does not name one (default: spherical Web Mercator)",
   .entry "srs" r.srs,
   .remark ("Background colour used when a request does not name one (default: " ++
     defaultBackground ++ ")"),
   .entry "background_color" r.background,
   .remark ("Largest accepted tile size in pixels (default: " ++ Text.nat defaultDimension ++ ")"),
   .entry "max_width" (Text.nat r.maxWidth),
   .entry "max_height" (Text.nat r.maxHeight),
   .remark ("Seconds a request may spend compiling and rendering (default: " ++
     Text.nat defaultTimeout ++ ")"),
   .entry "timeout" (Text.nat r.timeout)]

def logLines (home : Option Path) (log : Path) : List Line :=
  [.heading "logging", .remark "Log file path", .entry "file" (shorten home log)]

def text (home : Option Path) (s : Settings) : String :=
  Ini.write (engineLines home s.engine ++ .blank :: (renderLines s.render ++ .blank ::
    logLines home s.log))

end StyledMap.Settings
