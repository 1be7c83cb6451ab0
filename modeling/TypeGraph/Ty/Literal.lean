/-
# Literals and images

Types that pin down a value, and the struct that describes an image.
-/
import TypeGraph.Ty.Basic

namespace TypeGraph
namespace Ty

/-- The number of a number literal. -/
def numberLiteral? : Ty → Option Binary64
  | .number (.literal v) => some v
  | _ => none

/-- The string of a string literal. -/
def stringLiteral? : Ty → Option String
  | .string (.literal s) => some s
  | _ => none

end Ty

/-- The parts of an image type. -/
structure Image where
  struct : Struct Ty
  width : Ty
  height : Ty
  channels : Ty

/-- An image is a struct named `Image` with three fields: width, height and channels, in this order
and under any names. -/
def Ty.image? : Ty → Option Image
  | .struct s =>
    if s.name = "Image" then
      match s.fields with
      | [width, height, channels] => some ⟨s, width.value, height.value, channels.value⟩
      | _ => none
    else none
  | _ => none

end TypeGraph
