/-!
# Powers of numbers

Bounds and widths are powers of two throughout, and a power of natural numbers is
the one that `Nat.pow` computes.  Libraries of algebra define powers of their own
for any monoid; where one of them is loaded, `b ^ n` on natural numbers still means
this one, so that a definition reads the same in every module.
-/

attribute [default_instance 20000,
instance 2000] instPowNat
