/-!
Powers of two and of ten, which bound integers and scale decimals.
-/

namespace LayeredConfig

/-- A power of two. -/
abbrev twoTo (n : Nat) : Nat := Nat.pow 2 n

/-- A power of ten. -/
abbrev tenTo (n : Nat) : Nat := Nat.pow 10 n

end LayeredConfig
