/-! Powers. Those of whole numbers are written and computed in one way throughout, whatever else a module
imports. -/
namespace StyledMap.Text

@[default_instance 20000]
instance (priority := high) natPower : Pow Nat Nat := instPowNat

end StyledMap.Text
