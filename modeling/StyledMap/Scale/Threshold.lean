import StyledMap.Decimal.Layout

/-! Named scale thresholds. Of the denominators `z₀, …, zₙ`, all but the last bound a rule from above,
each under its own index; all but the first two bound one from below, each under the index before its
own. The document declares each threshold once and rules refer to it by name. -/
namespace StyledMap

/-- The side of a visibility window that a threshold bounds. -/
inductive Threshold.Kind where
  | maxScale
  | minScale
  deriving Repr, DecidableEq

structure Threshold where
  kind : Threshold.Kind
  zoom : Nat
  denominator : Float

namespace Threshold

def Kind.text : Kind → String
  | .maxScale => "maxscale"
  | .minScale => "minscale"

def Kind.element : Kind → String
  | .maxScale => "MaxScaleDenominator"
  | .minScale => "MinScaleDenominator"

/-- The name of a threshold, whether a table holds it or not. -/
def nameOf (kind : Kind) (zoom : Nat) : String := kind.text ++ "_zoom" ++ Text.nat zoom

def name (t : Threshold) : String := nameOf t.kind t.zoom

/-- What a reference to the threshold stands for. -/
def definition (t : Threshold) : String :=
  "<" ++ t.kind.element ++ ">" ++ Decimal.plainText t.denominator ++ "</" ++ t.kind.element ++ ">"

def reference (t : Threshold) : String := "&" ++ t.name ++ ";"

/-- Thresholds of one kind, from a first index on. -/
def numbered (kind : Kind) (first : Nat) : List Float → List Threshold
  | [] => []
  | z :: zs => ⟨kind, first, z⟩ :: numbered kind (first + 1) zs

@[simp] theorem length_numbered (kind : Kind) (first : Nat) (zs : List Float) :
    (numbered kind first zs).length = zs.length := by
  induction zs generalizing first with
  | nil => rfl
  | cons z zs ih => simp [numbered, ih]

/-- No threshold has an index before the first. -/
theorem first_le_zoom {kind : Kind} {first : Nat} {zs : List Float} {t : Threshold}
    (h : t ∈ numbered kind first zs) : first ≤ t.zoom := by
  induction zs generalizing first with
  | nil => simp [numbered] at h
  | cons z zs ih =>
    rcases List.mem_cons.1 h with rfl | h
    · exact Nat.le_refl _
    · exact Nat.le_of_succ_le (ih h)

/-- The table of a list of denominators, upper bounds first. -/
def table (zooms : List Float) : List Threshold :=
  numbered .maxScale 0 zooms.dropLast ++ numbered .minScale 1 (zooms.drop 2)

theorem length_table (zooms : List Float) :
    (table zooms).length = (zooms.length - 1) + (zooms.length - 2) := by
  simp [table]

def find? (table : List Threshold) (kind : Kind) (zoom : Nat) : Option Threshold :=
  List.find? (fun t => t.kind = kind && t.zoom = zoom) table

def count (kind : Kind) (table : List Threshold) : Nat := table.countP (·.kind = kind)

end Threshold
end StyledMap
