/-!
# Tags and addresses

The two kinds of number that everything else is made of: the tag of a datum, and an address. Both
are fixed-width words, so arithmetic on them wraps.
-/

namespace TaintFlow

/-- A set of taint marks, one bit each. -/
abbrev Tag := UInt8

/-- An address of the application, of the shadow, or of a thread's context. -/
abbrev Address := UInt64

/-- The tag of data that is not tainted. -/
def untainted : Tag := 0

/-- Bytes in a word of application memory. -/
def wordSize : Address := 4

end TaintFlow
