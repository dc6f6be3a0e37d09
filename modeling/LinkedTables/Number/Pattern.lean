import LinkedTables.Number.Double

/-!
# The bit patterns of NaNs

As a number there is one NaN, as a bit pattern there are many: any sign, and any fraction but zero.
A pattern is quiet if the first bit of its fraction is set. An operation that has no number to give
takes over the first NaN among its operands, made quiet; without one among them it is the invalid
operation that has a pattern of its own.
-/

namespace LinkedTables

namespace Number

def signBit : UInt64 := 0x8000000000000000

/-- The pattern of positive infinity; above it, but for the sign, there are NaNs. -/
def infinityBits : UInt64 := 0x7ff0000000000000

def quietBit : UInt64 := 0x0008000000000000

/-- The pattern of `nan`. -/
def nanBits : UInt64 := 0x7ff8000000000000

/-- The pattern that an invalid operation on numbers gives. -/
def invalidBits : UInt64 := 0xfff8000000000000

def withoutSign (b : UInt64) : UInt64 := b &&& 0x7fffffffffffffff

def isNaNPattern (b : UInt64) : Bool := decide (infinityBits < withoutSign b)

/-- The NaN that an operation on some operands gives. -/
def propagated (operands : List UInt64) : UInt64 :=
  match operands.find? isNaNPattern with
  | some b => b ||| quietBit
  | none => invalidBits

/-- The pattern of a number, with the pattern to take if it is a NaN. -/
def patternOr (nanPattern : UInt64) (x : Float) : UInt64 :=
  if x.isNaN then nanPattern else x.toBits

/-- The pattern of a number, that of `nan` if it is one. -/
def bits (x : Float) : UInt64 := patternOr nanBits x

end Number

end LinkedTables
