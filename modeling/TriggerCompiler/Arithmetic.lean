/-! The powers and sums of numbers are those of the core library in every module of this one, also in a
module that imports an algebra with powers and sums of its own. -/

namespace TriggerCompiler

scoped instance (priority := high) natPow : Pow Nat Nat := instPowNat

scoped instance (priority := high) natZero : Zero Nat := Zero.ofOfNat0

attribute [default_instance 20000] instPowNat

end TriggerCompiler
