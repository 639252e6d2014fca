/-!
# Tensor types

A tensor type is an element kind with a list of dimensions. Its text names the element kind and
lists the dimensions in angle brackets, as in `Float<4 x 5>`.
-/

namespace Dataflow

/-- The kind of the elements of a tensor. -/
inductive ElemKind where
  | float
  | float16
  | int8Q
  | int32
  | int64
  | bool
deriving DecidableEq, Hashable, Repr

namespace ElemKind

/-- Every element kind. -/
def all : List ElemKind := [.float, .float16, .int8Q, .int32, .int64, .bool]

/-- The name of an element kind. -/
def text : ElemKind → String
  | .float => "Float"
  | .float16 => "Float16"
  | .int8Q => "Int8Q"
  | .int32 => "Int32"
  | .int64 => "Int64"
  | .bool => "Bool"

/-- The element kind with a given name. -/
def ofText? (s : String) : Option ElemKind := all.find? (·.text == s)

/-- The size of one element in bytes. -/
def byteSize : ElemKind → Nat
  | .float | .int32 => 4
  | .float16 => 2
  | .int8Q | .bool => 1
  | .int64 => 8

/-- Whether elements of this kind can serve as indices. -/
def isIndex : ElemKind → Bool
  | .int32 | .int64 => true
  | _ => false

end ElemKind

/-- The type of a tensor: what its elements are, and its extent in each dimension. -/
structure TensorType where
  elem : ElemKind
  dims : List Nat
deriving DecidableEq, Hashable, Repr

namespace TensorType

/-- The number of elements, without a bound: dimensions are taken to be so small that their product fits
in a machine word, which would overflow otherwise. -/
def size (t : TensorType) : Nat := t.dims.foldl (· * ·) 1

/-- The number of dimensions. -/
def rank (t : TensorType) : Nat := t.dims.length

/-- Whether two types have the same dimensions, whatever their elements are. -/
def sameShape (t u : TensorType) : Bool := t.dims == u.dims

/-- The text of a type. -/
def text (t : TensorType) : String :=
  t.elem.text ++ "<" ++ " x ".intercalate (t.dims.map Nat.repr) ++ ">"

end TensorType

end Dataflow
