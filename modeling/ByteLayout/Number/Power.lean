/-!
# Powers of naturals and integers

Every power in this library is a power of a natural number or an integer by a natural
exponent, and it means the core `Nat.pow` or `Int.pow`. Algebra libraries bring their own
instance of the power operator for every monoid, equal to this one but a different term;
this module puts the core one first, so that `2 ^ 64` elaborates to the same term whatever
is imported beside the library.
-/

namespace ByteLayout

/-- The core power by a natural exponent, tried before any other instance. -/
instance (priority := high) natPowFirst {α : Type} [NatPow α] : Pow α Nat := instPowNat

-- a power of numerals whose type is not yet known is settled by the default instance
attribute [default_instance 20000] instPowNat

end ByteLayout
