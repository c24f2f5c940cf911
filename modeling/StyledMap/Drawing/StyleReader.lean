import StyledMap.Drawing.Fault
import StyledMap.Drawing.Style
import StyledMap.Json.Record

/-! Styles from a JSON text. The text is read as entries first, so a text of the wrong shape is refused
whatever else is wrong with it; then the entries are checked in order. -/
namespace StyledMap.Drawing
open StyledMap.Json (Tree Record Field)

structure SymbolizerEntry where
  kind : String
  params : List (String × Json)

structure RuleEntry where
  filter : Option String
  minzoom : Option Nat
  maxzoom : Option Nat
  symbolizers : List SymbolizerEntry

structure StyleEntry where
  name : String
  rules : List RuleEntry

/-- A name and any value, as an array of the two. -/
def paramPair? : Json → Option (String × Json)
  | .array [.string name, value] => some (name, value)
  | _ => none

/-- Parameters are an array of pairs, or an object. -/
def params? (depth : Nat) (t : Tree) : Option (List (String × Json)) :=
  match t.value? depth with
  | some (.array pairs) => Json.allOf? paramPair? [] pairs
  | some (.object members) => some members
  | _ => none

def SymbolizerEntry.ofTree? (depth : Nat) (t : Tree) : Option SymbolizerEntry := do
  let kind : Field := ⟨0, ["type"]⟩
  let params : Field := ⟨1, ["params"]⟩
  let r ← Record.ofTree? [kind, params] t
  return { kind := ← r.required? kind Tree.string?
           params := ← r.orElse? params [] (params? (depth - 1)) }

def RuleEntry.ofTree? (depth : Nat) (t : Tree) : Option RuleEntry := do
  let filter : Field := ⟨0, ["filter"]⟩
  let minzoom : Field := ⟨1, ["minzoom"]⟩
  let maxzoom : Field := ⟨2, ["maxzoom"]⟩
  let symbolizers : Field := ⟨3, ["symbolizers"]⟩
  let r ← Record.ofTree? [filter, minzoom, maxzoom, symbolizers] t
  return { filter := ← r.optional? filter Tree.string?
           minzoom := ← r.optional? minzoom Tree.natural?
           maxzoom := ← r.optional? maxzoom Tree.natural?
           symbolizers := ← r.orElse? symbolizers []
             (Tree.list? (SymbolizerEntry.ofTree? (depth - 2))) }

def StyleEntry.ofTree? (depth : Nat) (t : Tree) : Option StyleEntry := do
  let name : Field := ⟨0, ["name"]⟩
  let rules : Field := ⟨1, ["rules"]⟩
  let r ← Record.ofTree? [name, rules] t
  return { name := ← r.required? name Tree.string?
           rules := ← r.orElse? rules [] (Tree.list? (RuleEntry.ofTree? (depth - 2))) }

def styleEntries? (text : String) : Option (List StyleEntry) :=
  (Tree.parse? text).bind (Tree.list? (StyleEntry.ofTree? (Json.depthLimit - 1)))

def param (kind : Symbolizer.Kind) (entry : String × Json) : Except Fault (String × String) :=
  match entry.2.scalar? with
  | none => .error (.invalid (kind.keyword ++ " symbolizer parameter '" ++ entry.1 ++ "'")
      "value must be a string, number or boolean")
  | some text => do
    checkText (kind.keyword ++ " symbolizer parameter") entry.1
    checkText (kind.keyword ++ " symbolizer parameter") text
    return (entry.1, text)

def SymbolizerEntry.symbolizer (e : SymbolizerEntry) : Except Fault Symbolizer :=
  match Symbolizer.Kind.ofKeyword? e.kind with
  | none => .error (.unsupportedSymbolizer e.kind)
  | some kind => do return ⟨kind, ← e.params.mapM (param kind)⟩

def checkFilter : Option String → Except Fault Unit
  | none => .ok ()
  | some text => checkText "rule filter" text

def RuleEntry.rule (e : RuleEntry) : Except Fault Rule := do
  let symbolizers ← e.symbolizers.mapM SymbolizerEntry.symbolizer
  checkFilter e.filter
  return ⟨e.filter, e.minzoom, e.maxzoom, symbolizers⟩

def StyleEntry.style (e : StyleEntry) : Except Fault Style := do
  checkText "style name" e.name
  return ⟨e.name, ← e.rules.mapM RuleEntry.rule⟩

/-- The styles of a JSON array, or the first fault. -/
def readStyles (text : String) : Except Fault (List Style) :=
  match styleEntries? text with
  | none => .error .malformed
  | some entries => entries.mapM StyleEntry.style

end StyledMap.Drawing
