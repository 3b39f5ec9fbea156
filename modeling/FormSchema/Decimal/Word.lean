/-!
# Words

The whole numbers that a row of bits can hold.
-/

namespace FormSchema

def wordValues (bits : Nat) : Nat := Nat.pow 2 bits

/-- Whether a row of bits, read with or without a sign, can hold a whole number. -/
def fitsWord (bits : Nat) (n : Int) : Bool :=
  -(wordValues (bits - 1) : Int) ≤ n && n < wordValues bits

end FormSchema
