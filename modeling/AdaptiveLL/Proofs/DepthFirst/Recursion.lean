import Mathlib
import AdaptiveLL.Proofs.DepthFirst

/-! # Walks without a list of their own

A walk keeps the lists that were opened in a list (`DepthFirst.run`).  Here it is compared with the
recursion that this list stands for: visiting an item, and then, one after another and one level deeper,
whatever the visit has opened (`DepthFirst.descend`).

* The loop always ends, in a number of turns that depends on nothing but what it visits
  (`DepthFirst.exists_ends`).
* It ends as the recursion does, and in the same state (`DepthFirst.walk_eq_descend`).
* What the recursion does within a limit is what it does without one, as long as its calls nest no deeper
  than that (`DepthFirst.Explores`, `DepthFirst.descend_eq_ok_iff`).
-/
namespace AdaptiveLL
namespace DepthFirst
open Run

variable {β σ : Type} (visit : β → ExceptT RecognitionError (StateM σ) (Option (List β)))
  (tooDeep : RecognitionError)

/-! ## The loop ends -/

/-- The loop ends after so many turns: an innermost list without items is closed, or its first item is
visited, which may open a list, if there is room. -/
inductive Ends : (turns room : Nat) → List (List β) → σ → Ending σ Unit → Prop
  | done {room : Nat} {s : σ} : Ends 0 room [] s (.ok (), s)
  | close {turns room : Nat} {below : List (List β)} {s : σ} {r : Ending σ Unit} :
    Ends turns (room + 1) below s r → Ends (turns + 1) room ([] :: below) s r
  | fail {room : Nat} {item : β} {rest : List β} {below : List (List β)} {s t : σ}
    {e : RecognitionError} : visit item s = (.error e, t) →
    Ends 1 room ((item :: rest) :: below) s (.error e, t)
  | visit {turns room : Nat} {item : β} {rest : List β} {below : List (List β)} {s t : σ}
    {r : Ending σ Unit} : visit item s = (.ok none, t) → Ends turns room (rest :: below) t r →
    Ends (turns + 1) room ((item :: rest) :: below) s r
  | opened {turns room : Nat} {item : β} {items rest : List β} {below : List (List β)} {s t : σ}
    {r : Ending σ Unit} : visit item s = (.ok (some items), t) →
    Ends turns room (items :: rest :: below) t r →
    Ends (turns + 1) (room + 1) ((item :: rest) :: below) s r
  | full {item : β} {items rest : List β} {below : List (List β)} {s t : σ} :
    visit item s = (.ok (some items), t) →
    Ends 1 0 ((item :: rest) :: below) s (.error tooDeep, t)

/-- The loop ends, and what it ends in is what `run` gives. -/
theorem exists_ends (room : Nat) (pending : List (List β)) (s : σ) :
    ∃ turns, Ends visit tooDeep turns room pending s (run visit tooDeep room pending s) := by
  fun_induction run visit tooDeep room pending s with
  | case1 => exact ⟨0, .done⟩
  | case2 room below s ih =>
    obtain ⟨k, hk⟩ := ih
    exact ⟨k + 1, .close hk⟩
  | case3 room s item rest below e t hv => exact ⟨1, .fail hv⟩
  | case4 room s item rest below t hv ih =>
    obtain ⟨k, hk⟩ := ih
    exact ⟨k + 1, .visit hv hk⟩
  | case5 s item rest below items t hv => exact ⟨1, .full hv⟩
  | case6 s item rest below items t hv room ih =>
    obtain ⟨k, hk⟩ := ih
    exact ⟨k + 1, .opened hv hk⟩

/-! ## The recursion -/

/-- Visits an item, and one level deeper whatever the visit opens, if there is room for another level. -/
def descend (room : Nat) (item : β) : Run σ Unit := do
  match ← visit item with
  | none => pure ()
  | some items =>
    match room with
    | 0 => throw tooDeep
    | room + 1 => forM items (descend room)

/-- What is left of the recursion after a visit. -/
def descendInto (room : Nat) (opened : Option (List β)) : Run σ Unit :=
  match opened, room with
  | none, _ => pure ()
  | some _, 0 => throw tooDeep
  | some items, room + 1 => forM items (descend visit tooDeep room)

theorem descend_eq (room : Nat) (item : β) :
    descend visit tooDeep room item = visit item >>= descendInto visit tooDeep room := by
  rw [descend]
  congr 1
  funext opened
  rcases opened with _ | items
  · rfl
  · cases room with
    | zero => rfl
    | succ room => rfl

/-- The loop does with its innermost list what the recursion does, and then goes on with the others. -/
theorem run_cons (room : Nat) (items : List β) (below : List (List β)) (s : σ) :
    run visit tooDeep room (items :: below) s =
      (forM items (descend visit tooDeep room) >>= fun _ => run visit tooDeep (room + 1) below) s := by
  induction room generalizing items below s with
  | zero =>
    induction items generalizing s with
    | nil => rw [run]; rfl
    | cons item rest ih =>
      rw [run, List.forM_cons, descend]
      simp only [Run.bind_apply] at ih ⊢
      rcases visit item s with ⟨e | o, t⟩
      · rfl
      · cases o with
        | none => exact ih t
        | some items => rfl
  | succ room outer =>
    induction items generalizing s with
    | nil => rw [run]; rfl
    | cons item rest ih =>
      rw [run, List.forM_cons, descend]
      simp only [Run.bind_apply] at ih ⊢
      rcases visit item s with ⟨e | o, t⟩
      · rfl
      · cases o with
        | none => exact ih t
        | some items =>
          dsimp only
          rw [outer, Run.bind_apply]
          rcases forM items (descend visit tooDeep room) t with ⟨e | u, t'⟩
          · rfl
          · exact ih t'

/-- A walk ends as the recursion does. -/
theorem walk_eq_descend (limit : Nat) (item : β) :
    walk visit tooDeep limit item = descend visit tooDeep limit item := by
  funext s
  rw [walk, run_cons, List.forM_cons]
  simp only [Run.bind_apply]
  rcases descend visit tooDeep limit item s with ⟨e | u, t⟩
  · rfl
  · change run visit tooDeep (limit + 1) [] t = _
    rw [run]

/-! ## Without a limit -/

mutual

/-- Visiting an item and all that it leads to, without a limit, leads from one state to another, and its
calls nest at most so deep. -/
inductive Explores : Nat → β → σ → σ → Prop
  | leaf {nesting : Nat} {item : β} {s t : σ} : visit item s = (.ok none, t) →
    Explores nesting item s t
  | node {nesting : Nat} {item : β} {items : List β} {s t u : σ} :
    visit item s = (.ok (some items), t) → ExploresAll nesting items t u →
    Explores (nesting + 1) item s u

/-- The same for one item after another. -/
inductive ExploresAll : Nat → List β → σ → σ → Prop
  | nil {nesting : Nat} {s : σ} : ExploresAll nesting [] s s
  | cons {nesting : Nat} {item : β} {items : List β} {s t u : σ} : Explores nesting item s t →
    ExploresAll nesting items t u → ExploresAll nesting (item :: items) s u

end

variable {visit tooDeep}

theorem forM_eq_ok_iff {nesting : Nat} {f : β → Run σ Unit}
    (hf : ∀ item s t, f item s = (.ok (), t) ↔ Explores visit nesting item s t) (items : List β)
    (s t : σ) : forM items f s = (.ok (), t) ↔ ExploresAll visit nesting items s t := by
  induction items generalizing s with
  | nil =>
    constructor
    · intro h
      cases h
      exact .nil
    · rintro ⟨⟩
      rfl
  | cons item items ih =>
    rw [List.forM_cons]
    constructor
    · intro h
      obtain ⟨_, u, hitem, hitems⟩ := Run.exists_of_bind h
      exact .cons ((hf item s u).mp hitem) ((ih u).mp hitems)
    · rintro ⟨⟩
      next u hitem hitems => rw [Run.bind_apply, (hf item s u).mpr hitem]; exact (ih u).mpr hitems

/-- The recursion ends well just if its calls nest no deeper than the limit. -/
theorem descend_eq_ok_iff (limit : Nat) (item : β) (s t : σ) :
    descend visit tooDeep limit item s = (.ok (), t) ↔ Explores visit limit item s t := by
  induction limit generalizing item s t with
  | zero =>
    rw [descend, Run.bind_apply]
    constructor
    · intro h
      rcases hv : visit item s with ⟨e | o, u⟩
      · rw [hv] at h
        cases h
      · rw [hv] at h
        cases o with
        | none =>
          cases h
          exact .leaf hv
        | some items => cases h
    · rintro ⟨⟩
      next hv => rw [hv]; rfl
  | succ limit ih =>
    rw [descend, Run.bind_apply]
    constructor
    · intro h
      rcases hv : visit item s with ⟨e | o, u⟩
      · rw [hv] at h
        cases h
      · rw [hv] at h
        cases o with
        | none =>
          cases h
          exact .leaf hv
        | some items => exact .node hv ((forM_eq_ok_iff ih items u t).mp h)
    · rintro ⟨⟩
      · next hv => rw [hv]; rfl
      · next items u hv hall => rw [hv]; exact (forM_eq_ok_iff ih items u t).mpr hall

end DepthFirst
end AdaptiveLL
