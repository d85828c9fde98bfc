/-! # Powers

`x ^ n` of a natural number or an integer is repeated multiplication as the core library defines it,
also where an algebraic structure on the numbers offers a power of its own.
-/

namespace MarginAccount

@[default_instance 20000]
instance (priority := 20000) corePower {α : Type} [NatPow α] : Pow α Nat := instPowNat

end MarginAccount
