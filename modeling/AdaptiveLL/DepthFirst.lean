/-!
# Depth-first walks

A walk visits items.  A visit changes a state and either is done with the item or opens a list of
further items, which are visited next, in order, before the walk goes on where it was.  How deep
such lists may lie within each other is limited; opening one too many ends the walk with an error,
as does a visit that fails.

`run` keeps the opened lists in a list of its own, so a walk may be deeper than a recursion could
be.  It ends because along a walk `(room, pending)` descends: `room` is how many further lists
may be opened, and `pending` how many items are left in each open list, innermost first.
Visiting an item makes the innermost count smaller; opening a list uses up room; closing one gives
the room back, but only to a list in which an item has been used up before (`descends_wf`).
-/

namespace AdaptiveLL
namespace DepthFirst

/-- One step of a walk, in terms of the room left and of the items left in each open list:
the first pair can follow the second. -/
inductive Descends : Nat × List Nat → Nat × List Nat → Prop
  /-- A list without items is closed. -/
  | close {room : Nat} {below : List Nat} : Descends (room + 1, below) (room, 0 :: below)
  /-- An item is visited and done with. -/
  | visit {room n : Nat} {below : List Nat} :
    Descends (room, n :: below) (room, (n + 1) :: below)
  /-- An item is visited and opens a list. -/
  | opened {room m n : Nat} {below : List Nat} :
    Descends (room, m :: n :: below) (room + 1, (n + 1) :: below)

/-- If a walk can end from every position after the innermost list is closed, it can end. -/
theorem acc_cons (room : Nat) :
    ∀ (n : Nat) (below : List Nat), Acc Descends (room + 1, below) →
      Acc Descends (room, n :: below) := by
  induction room with
  | zero =>
    intro n
    induction n with
    | zero =>
      intro below h
      refine ⟨_, fun p hp => ?_⟩
      cases hp
      exact h
    | succ n ih =>
      intro below h
      refine ⟨_, fun p hp => ?_⟩
      cases hp
      exact ih below h
  | succ room outer =>
    intro n
    induction n with
    | zero =>
      intro below h
      refine ⟨_, fun p hp => ?_⟩
      cases hp
      exact h
    | succ n ih =>
      intro below h
      refine ⟨_, fun p hp => ?_⟩
      cases hp with
      | visit => exact ih below h
      | opened => exact outer _ _ (ih below h)

/-- Every walk ends. -/
theorem descends_wf : WellFounded Descends := by
  refine ⟨fun ⟨room, pending⟩ => ?_⟩
  induction pending generalizing room with
  | nil => exact ⟨_, fun p hp => nomatch hp⟩
  | cons n below ih => exact acc_cons room n below (ih (room + 1))

/-- Walks end because they descend. -/
scoped instance walkOrder : WellFoundedRelation (Nat × List Nat) := ⟨Descends, descends_wf⟩

variable {ε β σ : Type}

/-- Walks through open lists, innermost first, of which `room` more may be opened.  A visit gives
the list that it opens, if any; `tooDeep` is the error for a list too many. -/
def run (visit : β → ExceptT ε (StateM σ) (Option (List β))) (tooDeep : ε) (room : Nat)
    (pending : List (List β)) (s : σ) : Except ε Unit × σ :=
  match pending with
  | [] => (.ok (), s)
  | [] :: below => run visit tooDeep (room + 1) below s
  | (item :: rest) :: below =>
    match visit item s with
    | (.error e, s) => (.error e, s)
    | (.ok none, s) => run visit tooDeep room (rest :: below) s
    | (.ok (some items), s) =>
      match room with
      | 0 => (.error tooDeep, s)
      | room + 1 => run visit tooDeep room (items :: rest :: below) s
termination_by (room, pending.map List.length)
decreasing_by
  · exact Descends.close
  · exact Descends.visit
  · exact Descends.opened

/-- Visits an item and everything that it leads to, with at most `limit` lists open at a time. -/
def walk (visit : β → ExceptT ε (StateM σ) (Option (List β))) (tooDeep : ε) (limit : Nat)
    (item : β) : ExceptT ε (StateM σ) Unit :=
  fun s => run visit tooDeep limit [[item]] s

end DepthFirst
end AdaptiveLL
