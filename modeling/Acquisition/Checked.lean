import Acquisition.Failure

/-!
# Sums in 64-bit words

Values of variables and costs are signed words of 64 bits, weights are unsigned
ones. Terms are added from the left, and a sum is a fault as soon as a partial
sum leaves its word, even if later terms would bring it back.
-/
namespace Acquisition.Checked

-- Powers are those of the core language, also where others are in scope.
attribute [local instance (high)] instPowNat

/-- Whether `i` is a signed word. -/
def isSigned (i : Int) : Bool := -2 ^ (63 : Nat) ≤ i && i < 2 ^ (63 : Nat)

def signed (i : Int) : Checked Int := if isSigned i then .ok i else .error .overflow

def unsigned (n : Nat) : Checked Nat := if n < 2 ^ (64 : Nat) then .ok n else .error .overflow

/-- The sum of signed words, from the left. -/
def sumSigned (xs : List Int) : Checked Int := xs.foldlM (fun total x => signed (total + x)) 0

/-- The sum of unsigned words, from the left. -/
def sumUnsigned (xs : List Nat) : Checked Nat := xs.foldlM (fun total x => unsigned (total + x)) 0

/-- The negation of an unsigned word read as a signed one: words of `2 ^ 63` and
more read as negative, and the least of them has no negation. -/
def negateWord (w : Nat) : Checked Int := signed (-Int.bmod w (2 ^ (64 : Nat)))

end Acquisition.Checked
