import TypedBlocks.Ty.Basic

/-!
# Hashing types

A type is hashed by what it writes into a hasher. A variable or a member writes its own hash, and these
are sorted first, so their order does not count. The hash function for them is a parameter: it takes
all that has been written.
-/
namespace TypedBlocks

/-- What is written into a hasher at once. -/
inductive HashWrite where
  /-- Which kind of type it is. -/
  | tag (n : UInt8)
  /-- Which simple type it is. -/
  | variant (n : Nat)
  | length (n : Nat)
  | text (s : String)
  | hash (n : UInt64)
  deriving DecidableEq, Repr

def SimpleTy.hashed : SimpleTy → List HashWrite
  | nil => [.variant 0]
  | bool => [.variant 1]
  | int => [.variant 2]
  | float => [.variant 3]
  | char => [.variant 4]
  | string => [.variant 5]
  | main => [.variant 6]
  | classOf name => [.variant 7, .text name]

namespace Ty

/-- Variables with the hashes of their types are sorted by name, then by hash. -/
def hashLe (v w : String × UInt64) : Bool := if v.1 = w.1 then v.2 ≤ w.2 else v.1 ≤ w.1

def hashedVars (vs : List (String × UInt64)) : List HashWrite :=
  .length vs.length :: (vs.mergeSort hashLe).flatMap fun v => [.text v.1, .hash v.2]

def hashedMembers (ms : List UInt64) : List HashWrite :=
  .length ms.length :: (ms.mergeSort fun m n => m ≤ n).map .hash

section

variable (digest : List HashWrite → UInt64)

mutual

/-- What a type writes; a union of one member writes what the member does. -/
def hashed : Ty → List HashWrite
  | .simple s => .tag 0 :: s.hashed
  | .object name vs => .tag 1 :: .text name :: hashedVars (varHashes vs)
  | .union [t] => t.hashed
  | .union ts => .tag 2 :: hashedMembers (memberHashes ts)

def varHashes : List (String × Ty) → List (String × UInt64)
  | [] => []
  | (name, t) :: vs => (name, digest t.hashed) :: varHashes vs

def memberHashes : List Ty → List UInt64
  | [] => []
  | t :: ts => digest t.hashed :: memberHashes ts

end

end

end Ty

end TypedBlocks
