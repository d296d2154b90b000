/-!
# Sets of alternatives

A decision numbers its alternatives from one.  An `AltSet` holds such numbers in strictly
ascending order, which its field `ascending` records, so equal sets are equal lists and the
lowest alternative is the first.

While predicting, the alternatives that are alive at the same place with the same call stack form
a conflict; a list of sets, one for each such place, is what the questions in the second half
are asked of.
-/

namespace AdaptiveLL

/-- Puts `a` into a strictly ascending list at its place, unless it is there. -/
def insertAscending (a : Nat) : List Nat → List Nat
  | [] => [a]
  | b :: bs =>
    if a < b then a :: b :: bs
    else if a = b then b :: bs
    else b :: insertAscending a bs

theorem mem_insertAscending {a x : Nat} {l : List Nat} :
    x ∈ insertAscending a l ↔ x = a ∨ x ∈ l := by
  induction l with
  | nil => simp [insertAscending]
  | cons b bs ih =>
    unfold insertAscending
    split
    · simp
    · split
      · next h => subst h; simp
      · simp only [List.mem_cons, ih]
        exact or_left_comm

theorem pairwise_insertAscending {a : Nat} {l : List Nat} (h : l.Pairwise (· < ·)) :
    (insertAscending a l).Pairwise (· < ·) := by
  induction l with
  | nil => simp [insertAscending]
  | cons b bs ih =>
    rw [List.pairwise_cons] at h
    unfold insertAscending
    split
    · next hab =>
      refine List.pairwise_cons.2 ⟨fun x hx => ?_, List.pairwise_cons.2 h⟩
      rcases List.mem_cons.1 hx with rfl | hx
      · exact hab
      · exact Nat.lt_trans hab (h.1 x hx)
    · split
      · exact List.pairwise_cons.2 h
      · next hab hne =>
        refine List.pairwise_cons.2 ⟨fun x hx => ?_, ih h.2⟩
        rcases mem_insertAscending.1 hx with rfl | hx
        · omega
        · exact h.1 x hx

/-- A finite set of alternative numbers. -/
structure AltSet where
  /-- The members. -/
  toList : List Nat
  /-- The members are listed in strictly ascending order. -/
  ascending : toList.Pairwise (· < ·)
deriving DecidableEq

namespace AltSet

/-- The set without members. -/
def empty : AltSet := ⟨[], List.Pairwise.nil⟩

instance : Inhabited AltSet := ⟨empty⟩

/-- The set with one member. -/
def singleton (a : Nat) : AltSet := ⟨[a], List.pairwise_singleton _ a⟩

/-- Adds a member. -/
def insert (s : AltSet) (a : Nat) : AltSet :=
  ⟨insertAscending a s.toList, pairwise_insertAscending s.ascending⟩

/-- Whether `a` is a member. -/
def contains (s : AltSet) (a : Nat) : Bool := s.toList.contains a

/-- The number of members. -/
def size (s : AltSet) : Nat := s.toList.length

/-- Whether there is no member. -/
def isEmpty (s : AltSet) : Bool := s.toList.isEmpty

/-- The lowest member. -/
def min? (s : AltSet) : Option Nat := s.toList.head?

/-- The members of both sets. -/
def union (s t : AltSet) : AltSet := t.toList.foldl insert s

/-- The set of the listed numbers. -/
def ofList (l : List Nat) : AltSet := l.foldl insert empty

/-- The members between braces. -/
def toText (s : AltSet) : String :=
  "\x7b" ++ ", ".intercalate (s.toList.map toString) ++ "\x7d"

end AltSet

/-! ## Questions about conflicts -/

namespace Conflict

/-- Every alternative that occurs. -/
def allAlts (subsets : List AltSet) : AltSet := subsets.foldl AltSet.union AltSet.empty

/-- The only alternative that occurs, if there is just one. -/
def uniqueAlt? (subsets : List AltSet) : Option Nat :=
  let alts := allAlts subsets
  if alts.size = 1 then alts.min? else none

/-- Whether some place is left to a single alternative. -/
def hasSettled (subsets : List AltSet) : Bool := subsets.any (·.size = 1)

/-- Whether some place is contested by several alternatives. -/
def hasContested (subsets : List AltSet) : Bool := subsets.any (decide <| 1 < ·.size)

/-- Whether no place is left to a single alternative. -/
def allContested (subsets : List AltSet) : Bool := !hasSettled subsets

/-- Whether the same alternatives are alive everywhere. -/
def allEqual : List AltSet → Bool
  | [] => true
  | first :: rest => rest.all (· = first)

/-- The lowest alternatives of the places that have any. -/
def lowestAlts (subsets : List AltSet) : AltSet := AltSet.ofList (subsets.filterMap AltSet.min?)

/-- The alternative that is lowest at every place, if the places agree: choosing the lowest
alternative then needs no further input. -/
def singleViable? (subsets : List AltSet) : Option Nat :=
  let lowest := lowestAlts subsets
  if lowest.size ≤ 1 then lowest.min? else none

end Conflict

end AdaptiveLL
