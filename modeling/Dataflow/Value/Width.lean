set_option autoImplicit false

/-!
Floats of one width as floats of the other. A number that the other width has stays what it is, any
other goes to the nearest one there, in a tie to the even one, and what is too large goes to infinity.
-/

namespace Dataflow
open Float.Model

/-- The number as numbers of the format are. -/
def rounded (f : Format) : UnpackedFloat → UnpackedFloat
  | .finite sign significand exponent _ => .round f sign significand exponent
  | x => x

def widen (x : Float32) : Float := .ofModel (.pack (rounded .binary64 x.toModel.unpack))

def narrow (x : Float) : Float32 := .ofModel (.pack (rounded .binary32 x.toModel.unpack))

end Dataflow
