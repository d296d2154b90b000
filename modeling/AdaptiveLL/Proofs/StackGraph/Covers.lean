import Mathlib
import AdaptiveLL.Proofs.StackGraph.Merge

/-! # Stacks that a set of stacks covers

Where nothing is known of the caller, a stack that ends stands for every stack that goes on from there.
So with `wildcard` a set covers the stacks that begin with one of its members, and without it only its
members.  Joining two sets covers what either of them covers (`covers_joined`), in both readings.
-/
namespace AdaptiveLL
namespace StackGraph

/-- Whether a stack stands for another one. -/
def StandsFor (wildcard : Bool) (r s : List Nat) : Prop := if wildcard then r <+: s else r = s

/-- Whether some stack of a set stands for a stack. -/
def Covers (wildcard : Bool) (A : Set (List Nat)) (s : List Nat) : Prop :=
  ∃ r ∈ A, StandsFor wildcard r s

namespace StandsFor
variable {w : Bool} {r s : List Nat} {x : Nat}

theorem refl (w : Bool) (s : List Nat) : StandsFor w s s := by
  cases w
  · exact rfl
  · exact List.prefix_refl s

theorem cons (h : StandsFor w r s) (x : Nat) : StandsFor w (x :: r) (x :: s) := by
  cases w
  · exact congrArg (x :: ·) h
  · exact List.cons_prefix_cons.mpr ⟨rfl, h⟩

/-- What stands for a stack that has a top is empty, which takes a wildcard, or has the same top. -/
theorem cons_cases (h : StandsFor w r (x :: s)) :
    r = [] ∧ w ∨ ∃ r', r = x :: r' ∧ StandsFor w r' s := by
  cases w
  · exact .inr ⟨s, h, rfl⟩
  · cases r with
    | nil => exact .inl ⟨rfl, rfl⟩
    | cons y r' =>
      obtain ⟨rfl, hr⟩ := List.cons_prefix_cons.mp h
      exact .inr ⟨r', rfl, hr⟩

/-- What a stack with a top stands for has the same top. -/
theorem exists_of_cons (h : StandsFor w (x :: r) s) : ∃ s', s = x :: s' ∧ StandsFor w r s' := by
  cases s with
  | nil =>
    cases w
    · cases h
    · exact absurd (List.prefix_nil.mp h) (List.cons_ne_nil _ _)
  | cons y s' =>
    rcases h.cons_cases with ⟨hnil, -⟩ | ⟨r', heq, h'⟩
    · cases hnil
    · cases heq
      exact ⟨s', rfl, h'⟩

theorem eq_nil (h : StandsFor w r []) : r = [] := by
  cases w
  · exact h
  · exact List.prefix_nil.mp h

/-- With a wildcard the empty stack stands for every stack. -/
theorem nil (s : List Nat) : StandsFor true [] s := List.nil_prefix

end StandsFor

variable {w : Bool} {A B : Set (List Nat)} {s : List Nat} {x : Nat}

theorem covers_false : Covers false A s ↔ s ∈ A :=
  ⟨fun ⟨_, hr, h⟩ => h ▸ hr, fun h => ⟨s, h, rfl⟩⟩

theorem covers_of_mem (h : s ∈ A) : Covers w A s := ⟨s, h, .refl w s⟩

/-- A stack with a top is covered by the empty stack, or by what lies below that top. -/
theorem covers_cons : Covers w A (x :: s) ↔ (w ∧ [] ∈ A) ∨ Covers w (below A x) s := by
  constructor
  · rintro ⟨r, hr, h⟩
    rcases h.cons_cases with ⟨rfl, hw⟩ | ⟨r', rfl, h'⟩
    · exact .inl ⟨hw, hr⟩
    · exact .inr ⟨r', hr, h'⟩
  · rintro (⟨rfl, h⟩ | ⟨r, hr, h⟩)
    · exact ⟨[], h, .nil _⟩
    · exact ⟨x :: r, hr, h.cons x⟩

theorem covers_nil : Covers w A [] ↔ [] ∈ A :=
  ⟨fun ⟨_, hr, h⟩ => h.eq_nil ▸ hr, covers_of_mem⟩

/-- What either of two sets covers is covered by the set that they are joined to. -/
theorem covers_joined (h : Covers w A s ∨ Covers w B s) : Covers w (Joined w A B) s := by
  induction s generalizing A B with
  | nil =>
    rw [covers_nil, covers_nil] at h
    exact covers_nil.mpr h
  | cons x s ih =>
    by_cases hw : w = true ∧ (A = {[]} ∨ B = {[]})
    · obtain ⟨rfl, hb⟩ := hw
      rw [joined_true_bottom hb]
      exact ⟨[], rfl, .nil _⟩
    · rw [covers_cons, covers_cons] at h
      rw [covers_cons]
      by_cases hnil : w = true ∧ ([] ∈ A ∨ [] ∈ B)
      · exact .inl hnil
      · have hcover : Covers w (below A x) s ∨ Covers w (below B x) s := by tauto
        refine .inr ?_
        obtain ⟨r, hr, hrs⟩ : Covers w (Joined w (below A x) (below B x)) s := ih hcover
        by_cases hA : below A x = ∅
        · obtain ⟨r', hr', h'⟩ : Covers w (below B x) s := hcover.resolve_left fun ⟨_, hr, _⟩ => by
            rw [hA] at hr
            exact hr
          exact ⟨r', cons_mem_joined.mpr ⟨hw, .inl ⟨hA, hr'⟩⟩, h'⟩
        · by_cases hB : below B x = ∅
          · obtain ⟨r', hr', h'⟩ : Covers w (below A x) s := hcover.resolve_right fun ⟨_, hr, _⟩ => by
              rw [hB] at hr
              exact hr
            exact ⟨r', cons_mem_joined.mpr ⟨hw, .inr (.inl ⟨hB, hr'⟩)⟩, h'⟩
          · exact ⟨r, cons_mem_joined.mpr ⟨hw, .inr (.inr ⟨hA, hB, hr⟩)⟩, hrs⟩

/-- Without a wildcard, joining covers nothing else. -/
theorem covers_of_joined (h : Covers false (Joined false A B) s) :
    Covers false A s ∨ Covers false B s := by
  rwa [joined_false, covers_false, Set.mem_union, ← covers_false, ← covers_false] at h

end StackGraph
end AdaptiveLL
