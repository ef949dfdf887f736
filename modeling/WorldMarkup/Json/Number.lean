import WorldMarkup.Json.Basic

/-!
Numbers in JSON. A number that is not a whole one of 64 bits is thought of as a double: its
digits, cut to what 64 bits hold, and its power of ten are each rounded to a double, and so is
their product, which has to stay below the doubles' end. A number that does not is broken.
-/

set_option autoImplicit false
set_option relaxedAutoImplicit false

namespace WorldMarkup.Json

def digitsValue (ds : List Char) : Nat := ds.foldl (fun n c => n * 10 + (c.toNat - 48)) 0

/-- Put digits behind a number for as long as it stays within 64 bits; with the number of digits
that are left over. -/
def gather (n : Nat) : List Char → Nat × Nat
  | [] => (n, 0)
  | d :: ds =>
    let longer := n * 10 + (d.toNat - 48)
    if longer < UInt64.size then gather longer ds else (n, (d :: ds).length)

/-- The nearest number that has 53 binary digits and zeros after them; of two, the even one. -/
def nearestDouble (n : Nat) : Nat :=
  let unit := 1 <<< (n.log2 - 52)
  let below := n / unit
  let rest := n % unit
  if unit < 2 * rest ∨ (unit = 2 * rest ∧ below % 2 = 1) then (below + 1) * unit
  else below * unit

/-- The least number that rounds to no double: halfway from the largest one to the power of two
above it. -/
def doublesEnd : Nat := 1 <<< 1024 - 1 <<< 970

/-- Whether digits before and after the point, times a power of ten, make a double. -/
def isDouble (whole fraction : List Char) (power : Int) : Bool :=
  let (n, skipped) := gather 0 whole
  let (n, unused) := gather n fraction
  let power := power + skipped - (fraction.length - unused)
  n == 0 || power < 0 ||
    (power ≤ 308 && nearestDouble n * nearestDouble (Nat.pow 10 power.toNat) < doublesEnd)

def wholeDouble (whole : List Char) : Nat :=
  let (n, skipped) := gather 0 whole
  nearestDouble (nearestDouble n * nearestDouble (Nat.pow 10 skipped))

/-- A number without a point or an exponent. Zero with a minus is a double, too. -/
def wholeNumber (negative : Bool) (whole : List Char) : Json :=
  let n := digitsValue whole
  if ¬ negative ∧ n < UInt64.size then .int n
  else if negative ∧ 0 < n ∧ n ≤ 0x8000000000000000 then .int (-(n : Int))
  else .real ((if negative then "-" else "") ++ toString (wholeDouble whole) ++ ".0")

/-- An exponent, if one stands here: its value and what comes after it. -/
def exponent? (cs : List Char) : Option (Int × List Char) :=
  let (negative, cs) := match cs with
    | '-' :: rest => (true, rest)
    | '+' :: rest => (false, rest)
    | cs => (false, cs)
  let ds := cs.takeWhile Char.isDigit
  if ds.isEmpty then none
  else
    let n : Int := digitsValue ds
    some (if negative then -n else n, cs.drop ds.length)

/-- A number and what comes after it; `cs` starts with a digit or a minus. -/
def number? (cs : List Char) : Option (Json × List Char) := do
  let (negative, body) := match cs with
    | '-' :: rest => (true, rest)
    | cs => (false, cs)
  let whole := body.takeWhile Char.isDigit
  if whole.isEmpty ∨ (1 < whole.length ∧ whole.head? = some '0') then none
  else
    let afterWhole := body.drop whole.length
    let (fraction, afterFraction) ← match afterWhole with
      | '.' :: rest =>
        let ds := rest.takeWhile Char.isDigit
        if ds.isEmpty then none else some (ds, rest.drop ds.length)
      | rest => some ([], rest)
    let (power, rest) ← match afterFraction with
      | 'e' :: rest | 'E' :: rest => exponent? rest
      | rest => some (0, rest)
    if ¬ isDouble whole fraction power then some (.broken, rest)
    else if rest.length = afterWhole.length then some (wholeNumber negative whole, rest)
    else some (.real (String.ofList (cs.take (cs.length - rest.length))), rest)

end WorldMarkup.Json
