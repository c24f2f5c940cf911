/-! Layers: a source of features and the style to draw them with. -/
namespace StyledMap

inductive Layer.Status where
  | on
  | off
  deriving Repr, DecidableEq

def Layer.Status.text : Layer.Status → String
  | .on => "on"
  | .off => "off"

structure Layer.Database where
  driver : String
  host : String
  port : Nat
  dbname : String
  user : String
  password : String
  estimateExtent : Bool
  table : String
  deriving Repr, DecidableEq

structure Layer.File where
  driver : String
  path : String
  deriving Repr, DecidableEq

inductive Layer.Source where
  | database (d : Layer.Database)
  | file (f : Layer.File)
  deriving Repr, DecidableEq

structure Layer where
  name : String
  style : String
  srs : String
  status : Layer.Status
  source : Layer.Source
  deriving Repr, DecidableEq

end StyledMap
