namespace ObliviousRam

/-- An operation that is turned down. The caller learns the cause and may go on. -/
inductive Refusal where
  | integerConversion
  | invalidConfiguration
  | unallocatedBlock
  | addressOutOfBounds
  | partialWriteRange (start len blockWords : Nat)
  | bufferLength (expected actual : Nat)
  deriving DecidableEq

namespace Refusal

def label : Refusal → String
  | integerConversion => "IntegerConversionError"
  | invalidConfiguration => "InvalidConfigurationError"
  | unallocatedBlock => "AccessUnallocatedBlockError"
  | addressOutOfBounds => "AddressOutOfBoundsError"
  | partialWriteRange .. => "PartialWriteRangeError"
  | bufferLength .. => "BufferLengthError"

def message : Refusal → String
  | integerConversion => "Arithmetic error encountered."
  | invalidConfiguration => "Invalid configuration."
  | unallocatedBlock => "Attempted to access a block that has not been allocated."
  | addressOutOfBounds => "Address out of bounds."
  | partialWriteRange start len blockWords =>
    "Partial write of " ++ len.repr ++ " words at offset " ++ start.repr ++
      " does not fit in a block of " ++ blockWords.repr ++ " words."
  | bufferLength expected actual =>
    "Buffer has length " ++ actual.repr ++ ", expected " ++ expected.repr ++ "."

def describe (r : Refusal) : String :=
  match r with
  | partialWriteRange start len blockWords =>
    r.label ++ " \x7b start: " ++ start.repr ++ ", len: " ++ len.repr ++
      ", block_words: " ++ blockWords.repr ++ " \x7d"
  | bufferLength expected actual =>
    r.label ++ " \x7b expected: " ++ expected.repr ++ ", actual: " ++ actual.repr ++ " \x7d"
  | _ => r.label

end Refusal

/-- A broken precondition or invariant. It ends the run. -/
inductive Fault where
  | wordOverflow
  | malformedRoot (root : UInt64)
  | notALeaf (node : UInt64)
  | leafOutsideTree (leaf : UInt64)
  | levelOutOfRange (level : Nat)
  | pathLengthMismatch (expected actual : Nat)
  | levelNotFull
  | unpairedKeys (items keys : Nat)
  | bucketOutOfRange (node : UInt64) (levels : Nat)
  | duplicateBlock
  deriving DecidableEq

def Fault.message? : Fault → Option String
  | bucketOutOfRange node levels =>
    some ("bucket " ++ node.toNat.repr ++ " out of range for a tree of " ++ levels.repr ++
      " levels")
  | duplicateBlock => some "block found in more than one slot"
  | _ => none

end ObliviousRam
