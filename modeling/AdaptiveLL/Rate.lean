/-!
# Rates

A rate is a share of a total, written with six decimals.  The share is first rounded to the
nearest binary fraction of 53 significant bits, and that fraction to the nearest decimal; in
both steps a tie goes to the even neighbour.
-/

namespace AdaptiveLL
namespace Rate

/-- The integer nearest to `n / d`; of two that are equally near, the even one. -/
def divNearest (n d : Nat) : Nat :=
  let q := n / d
  let r := n % d
  if 2 * r < d then q
  else if d < 2 * r then q + 1
  else if q % 2 = 0 then q else q + 1

/-- The exponent `e` for which `part / total` is rounded to a multiple of `2 ^ (-e)`, so that
53 significant bits remain. -/
def precision (part total : Nat) : Nat :=
  let e := 53 + total.log2 - part.log2
  if total <<< 53 ≤ part <<< e then e - 1 else e

/-- The number of millionths in `part / total`, a share between none and all. -/
def millionths (part total : Nat) : Nat :=
  if part = 0 then 0
  else
    let e := precision part total
    divNearest (divNearest (part <<< e) total * 1000000) (1 <<< e)

/-- Six decimal digits. -/
def sixDigits (n : Nat) : String :=
  let digits := toString n
  "".pushn '0' (6 - digits.length) ++ digits

/-- The share of `part` in `total`, with six decimals; of nothing, the share is nothing. -/
def toText (part total : Nat) : String :=
  let m := millionths part total
  toString (m / 1000000) ++ "." ++ sixDigits (m % 1000000)

end Rate
end AdaptiveLL
