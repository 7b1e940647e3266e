/-!
# Tokens

A segment codes a sequence of tokens: 32-bit values, each in a context that selects its model.
-/

namespace EntropyCoding

/-- A value to be coded, in the context that selects its model. -/
structure Token where
  /-- The context. -/
  context : Nat
  /-- The value. -/
  value : Nat
  deriving DecidableEq, Repr

end EntropyCoding
