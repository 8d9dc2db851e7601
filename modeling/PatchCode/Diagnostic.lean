import PatchCode.Patch.Printer

/-! What a writer says about patches that its dialect expresses only in part, or not at all. -/

namespace PatchCode

/-- A patch was written as something close to it. -/
inductive Warning where
  /-- Floats are compared as signed integers. -/
  | floatOrder (comparison : Comparison) (address : Address)
  /-- A change of some bits is written as a store of all of them. -/
  | fullWidth (type : ValueType) (change : Change) (address : Address)
  /-- Signed or float values are compared as unsigned integers. -/
  | unsignedOrder (type : ValueType) (comparison : Comparison) (address : Address)
  deriving Repr, DecidableEq

def Warning.message : Warning → String
  | floatOrder comparison address =>
    "f32 " ++ comparison.name ++ " at " ++ address.render ++
      " uses a signed integer comparison; negative values compare in reverse"
  | fullWidth type change address =>
    "no " ++ type.name ++ " " ++ change.name ++ " in Action Replay at " ++ address.render ++
      "; substituting a full-width write"
  | unsignedOrder type comparison address =>
    "no " ++ type.name ++ " " ++ comparison.name ++ " in Gecko at " ++ address.render ++
      "; substituting an unsigned comparison"

/-- A guard was left out with its body. -/
inductive Refusal where
  | misaligned (type : ValueType) (comparison : Comparison) (address : Address)
  | noMaskCode (type : ValueType) (address : Address)
  deriving Repr, DecidableEq

def Refusal.message : Refusal → String
  | misaligned type comparison address =>
    type.name ++ " " ++ comparison.name ++ " at " ++ address.render ++ " is not " ++
      toString type.size ++ "-byte aligned; Gecko cannot compare it"
  | noMaskCode type address => type.name ++ " mask at " ++ address.render ++ " has no Gecko code"

end PatchCode
