/-!
# Instances for numbers

Powers and sums of numbers use the instances of the core library in every module, also in modules
that know an algebraic hierarchy with others.  So `2 ^ n` and `List.sum` mean the same everywhere.
-/

namespace EntropyCoding

/-- The power of a number. -/
@[default_instance 20000]
instance (priority := high) instPowNumber : Pow Nat Nat := instPowNat

/-- The zero that a sum of numbers starts from. -/
instance (priority := high) instZeroNumber : Zero Nat := ⟨0⟩

end EntropyCoding
