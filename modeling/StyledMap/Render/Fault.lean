import StyledMap.Text.Digits

/-! Why a tile was not drawn. -/
namespace StyledMap.Render

inductive Fault where
  /-- A canvas of this size cannot be made or used. -/
  | dimensions (width height : Nat)
  /-- There is no library, or it has no entry point. -/
  | library (path reason : String)
  | engine (name reason : String)
  | encoding (format reason : String)
  deriving Repr, DecidableEq

def Fault.message : Fault → String
  | .dimensions width height => "invalid raster size " ++ Text.nat width ++ "x" ++ Text.nat height
  | .library path reason => "failed to load render engine from " ++ path ++ ": " ++ reason
  | .engine name reason => "render engine '" ++ name ++ "' failed: " ++ reason
  | .encoding format reason => "failed to encode " ++ format ++ " tile: " ++ reason

/-- Whether the engine had already done its part. -/
def Fault.isEncoding : Fault → Bool
  | .encoding _ _ => true
  | _ => false

/-- A run ends early with a fault, which is answered, or with a crash, which is not. -/
inductive Stop where
  | fault (f : Fault)
  | crash (why : String)
  deriving Repr, DecidableEq

end StyledMap.Render
