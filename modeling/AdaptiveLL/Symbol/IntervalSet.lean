import AdaptiveLL.Symbol.Basic

/-!
# Sets of symbols as ranges

An `IntervalSet` holds inclusive ranges of symbols.  A set that is built up with `insertRange`
lists its ranges in ascending order, with at least one missing symbol between neighbours, so
two such sets with the same members are the same list.  A set that was read from a description
of a network keeps the ranges it was given, in whatever order.

Insertion splits the list in front of the first range that the new one could touch, and
`absorb` swallows every range that the growing range reaches.  Membership (`contains`) finds the
only range that could hold a symbol by halving the list; on an ascending list that is the first
range that does not end before the symbol.
-/

namespace AdaptiveLL

/-- A set of symbols, as inclusive ranges. -/
structure IntervalSet where
  /-- The ranges, each as its smallest and largest member. -/
  ranges : List (Int × Int)
deriving DecidableEq, Repr, Inhabited

namespace IntervalSet

/-- The set without members. -/
def empty : IntervalSet := ⟨[]⟩

/-- The range from `lo` to `hi` in front of `ranges`, grown over every range that it reaches or
borders on. -/
def absorb (lo hi : Int) : List (Int × Int) → List (Int × Int)
  | [] => [(lo, hi)]
  | r :: rs => if r.1 ≤ hi + 1 then absorb (min lo r.1) (max hi r.2) rs else (lo, hi) :: r :: rs

/-- Whether a range ends so far below `lo` that a range starting there cannot border on it. -/
def endsBefore (lo : Int) (r : Int × Int) : Bool := r.2 + 1 < lo

/-- Adds every symbol from `lo` to `hi`; nothing if `hi` is below `lo`. -/
def insertRange (s : IntervalSet) (lo hi : Int) : IntervalSet :=
  if hi < lo then s
  else ⟨s.ranges.takeWhile (endsBefore lo) ++ absorb lo hi (s.ranges.dropWhile (endsBefore lo))⟩

/-- Adds one symbol. -/
def insert (s : IntervalSet) (x : Symbol) : IntervalSet := s.insertRange x x

/-- Adds the members of `t`, range by range. -/
def union (s t : IntervalSet) : IntervalSet :=
  t.ranges.foldl (fun s r => s.insertRange r.1 r.2) s

/-- The symbols from `lo` to `hi`. -/
def ofRange (lo hi : Int) : IntervalSet := empty.insertRange lo hi

/-- The set with one member. -/
def singleton (x : Symbol) : IntervalSet := ofRange x x

/-- The set of the listed symbols. -/
def ofList (xs : List Symbol) : IntervalSet := xs.foldl insert empty

/-- Halves a window of `size` positions from `base` on until one is left, keeping the upper half
exactly when its first element passes `p`; the answer is the position after the last element
found to pass. -/
def halving {α : Type} (p : α → Bool) (xs : Array α) (base size : Nat) : Nat :=
  let passes (i : Nat) : Bool := (xs[i]?.map p).getD false
  if size ≤ 1 then
    if passes base then base + 1 else base
  else
    let half := size / 2
    halving p xs (if passes (base + half) then base + half else base) (size - half)
termination_by size
decreasing_by omega

/-- Where the elements that pass `p` give way to those that do not, when the former come first. -/
def boundary {α : Type} (p : α → Bool) (xs : Array α) : Nat := halving p xs 0 xs.size

/-- Whether `x` lies in the range that halving finds for it. -/
def contains (s : IntervalSet) (x : Symbol) : Bool :=
  let ranges := s.ranges.toArray
  match ranges[boundary (fun r => decide (r.2 < x)) ranges]? with
  | some r => decide (r.1 ≤ x)
  | none => false

/-- The number of members. -/
def size (s : IntervalSet) : Nat := s.ranges.foldr (fun r n => (r.2 - r.1 + 1).toNat + n) 0

/-- Whether there is no range. -/
def isEmpty (s : IntervalSet) : Bool := s.ranges.isEmpty

/-- The smallest member. -/
def min? (s : IntervalSet) : Option Symbol := s.ranges.head?.map (·.1)

/-- The members of one range, ascending. -/
def members (r : Int × Int) : List Symbol :=
  (List.range (r.2 - r.1 + 1).toNat).map fun i => r.1 + Int.ofNat i

/-- The members, range by range. -/
def toList (s : IntervalSet) : List Symbol := s.ranges.flatMap members

/-- The first `k` members, without listing the rest. -/
def firstMembers (k : Nat) : List (Int × Int) → List Symbol
  | [] => []
  | r :: rs =>
    let here := Nat.min k (r.2 - r.1 + 1).toNat
    (List.range here).map (fun i => r.1 + Int.ofNat i) ++ firstMembers (k - here) rs

/-- The first `k` members, ascending. -/
def take (s : IntervalSet) (k : Nat) : List Symbol := firstMembers k s.ranges

/-- One range as text: its only member, or both ends. -/
def rangeText (r : Int × Int) : String :=
  if r.1 = r.2 then toString r.1 else toString r.1 ++ ".." ++ toString r.2

/-- The ranges between braces. -/
def toText (s : IntervalSet) : String :=
  "\x7b" ++ ", ".intercalate (s.ranges.map rangeText) ++ "\x7d"

end IntervalSet

end AdaptiveLL
