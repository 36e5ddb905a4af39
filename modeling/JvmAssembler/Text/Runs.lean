/-! A set of characters is given by the ascending code points at which membership changes: the first
starts a run of members, the second ends it, and so on. -/

namespace JvmAssembler.Text

/-- Membership of a code point, given the changes from some point on and whether it is `inside` the
set before them. -/
def insideAfter (inside : Bool) (n : Nat) : List Nat → Bool
  | [] => inside
  | change :: rest => if n < change then inside else insideAfter (!inside) n rest

/-- Is the character in the set whose runs start and end at the given code points? -/
def inRuns (changes : List Nat) (c : Char) : Bool := insideAfter false c.toNat changes

end JvmAssembler.Text
