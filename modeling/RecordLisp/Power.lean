/-!
# Powers

A power of natural numbers means the same in every module: the one of the core library, also beside
an algebra library that brings an instance of its own.
-/

namespace RecordLisp

/-- Powers of natural numbers. -/
@[default_instance 20000]
instance (priority := high) powNat : HPow Nat Nat Nat :=
  @instHPow Nat Nat (@instPowNat Nat instNatPowNat)

end RecordLisp
