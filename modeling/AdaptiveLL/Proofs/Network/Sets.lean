import AdaptiveLL.Proofs.Network.Codec
import AdaptiveLL.Proofs.Symbol.Additions

/-! # Transitions on sets

A transition on a set, or on the complement of one, is meant to consume what the ranges of the set say
(`IntervalSet.Exact`).  Sets that are built up are exact, since their ranges ascend (`exact_build`).  A
description brings its own ranges, though, and a network loads with any list of them (`ofText_carrying`).

Halving never finds a range that does not hold the symbol, so a transition on a set consumes nothing that is
not in it, whatever the order.  Among ranges that do not overlap, on the other hand, each has to be found for
its own first symbol; then the range in front of it ends before that symbol.  So such a set is exact only if
its ranges ascend (`exact_loaded`).
-/
namespace AdaptiveLL

open IntervalSet

namespace IntervalSet

variable {r : IntervalSet}

/-- Whether transitions on the set and on its complement consume what the ranges say. -/
def Exact (r : IntervalSet) : Prop :=
  ∀ (target : Nat) (lo hi x : Symbol),
    ((Transition.set target r).consumes lo hi x ↔ Covers r.ranges x) ∧
      ((Transition.notSet target r).consumes lo hi x ↔ (lo ≤ x ∧ x ≤ hi) ∧ ¬ Covers r.ranges x)

theorem consumes_notSet_iff {target : Nat} {lo hi x : Symbol} :
    (Transition.notSet target r).consumes lo hi x ↔ (lo ≤ x ∧ x ≤ hi) ∧ ¬ r.contains x := by
  simp [Transition.consumes]

theorem exact_iff : r.Exact ↔ ∀ x, r.contains x ↔ Covers r.ranges x := by
  refine ⟨fun h x => (h 0 0 0 x).1, fun h target lo hi x => ⟨h x, ?_⟩⟩
  rw [consumes_notSet_iff, h x]

theorem exact_of_ascends (h : Ascends r.ranges) : r.Exact :=
  exact_iff.mpr fun _ => contains_iff_covers h

theorem exact_build (as : List Addition) : (build as).Exact :=
  exact_of_ascends (holds_build as).2.coalesced.ascends

/-- No two ranges share a symbol. -/
def NoOverlap (ranges : List (Int × Int)) : Prop := ranges.Pairwise fun p q => p.2 < q.1 ∨ q.2 < p.1

/-- Two ranges of a disjoint list that hold the same symbol are at the same position. -/
theorem NoOverlap.unique {ranges : List (Int × Int)} (h : NoOverlap ranges) {i j : Nat} (hi : i < ranges.length)
    (hj : j < ranges.length) {x : Int} (hxi : ranges[i].1 ≤ x ∧ x ≤ ranges[i].2)
    (hxj : ranges[j].1 ≤ x ∧ x ≤ ranges[j].2) : i = j := by
  obtain hlt | heq | hlt := Nat.lt_trichotomy i j
  · have := List.pairwise_iff_getElem.mp h i j hi hj hlt
    omega
  · exact heq
  · have := List.pairwise_iff_getElem.mp h j i hj hi hlt
    omega

/-- Each range has to be found for its first symbol, so the one in front of it ends before that symbol. -/
theorem ascends_of_exact (hne : ∀ q ∈ r.ranges, q.1 ≤ q.2) (hdisjoint : NoOverlap r.ranges) (h : r.Exact) :
    Ascends r.ranges := by
  have hstep : r.ranges.IsChain fun p q => p.1 ≤ q.1 ∧ p.2 ≤ q.2 := by
    refine List.isChain_iff_getElem.mpr fun i hi => ?_
    have hfirst := hne _ (List.getElem_mem (Nat.lt_of_succ_lt hi))
    have hsecond := hne _ (List.getElem_mem hi)
    have hcontains : r.contains (r.ranges[i + 1]).1 :=
      (exact_iff.mp h _).mpr ⟨_, List.getElem_mem hi, le_refl _, hsecond⟩
    obtain ⟨k, hk, hx, hprev⟩ := found_of_contains hcontains
    obtain rfl : k = i + 1 := hdisjoint.unique hk hi hx ⟨le_refl _, hsecond⟩
    have := hprev i rfl
    omega
  have : IsTrans (Int × Int) fun p q => p.1 ≤ q.1 ∧ p.2 ≤ q.2 :=
    ⟨fun _ _ _ h₁ h₂ => ⟨h₁.1.trans h₂.1, h₁.2.trans h₂.2⟩⟩
  exact List.isChain_iff_pairwise.mp hstep

end IntervalSet

namespace Network

/-- A network with one rule, whose transitions are on a set and on its complement. -/
def carrying (r : IntervalSet) : Network where
  kind := .parser
  maxSymbol := 1
  states := #[{ id := 0, rule := 0, kind := .ruleStart, transitions := [.set 1 r, .notSet 1 r] },
    { id := 1, rule := 0, kind := .ruleStop }]
  ruleStarts := #[0]
  ruleStops := #[1]
  ruleNames := #["r"]

theorem link_carrying (r : IntervalSet) : (carrying r).link = .ok (carrying r) := by cbv

theorem fits_carrying {r : IntervalSet} (h : r.fits) : (carrying r).fits := by
  simp [fits, carrying, State.fits, Transition.fits, h, Json.isIndex, Json.isInt32]

/-- It loads, with the ranges as they are, in whatever order. -/
theorem ofText_carrying {r : IntervalSet} (h : r.fits) : ofText (carrying r).toText = .ok (carrying r) := by
  rw [ofText, toText, Json.ofText?_toText (plain_toJson _), Option.bind_some, ofJson?_toJson (fits_carrying h)]
  exact link_carrying r

/-- A network loads with any list of ranges that fit.  A transition on the set consumes no symbol outside of
them, and one on the complement every symbol of the vocabulary outside of them.  Both are exact if both ends
of the ranges ascend, and if no range is empty and no two overlap, only then. -/
theorem exact_loaded {r : IntervalSet} (hfits : r.fits) :
    (∃ text n, ofText text = .ok n ∧
      ∃ s ∈ n.states, Transition.set 1 r ∈ s.transitions ∧ Transition.notSet 1 r ∈ s.transitions) ∧
    (∀ target lo hi x, ((Transition.set target r).consumes lo hi x → Covers r.ranges x) ∧
      ((lo ≤ x ∧ x ≤ hi) ∧ ¬ Covers r.ranges x → (Transition.notSet target r).consumes lo hi x)) ∧
    (Ascends r.ranges → r.Exact) ∧
    ((∀ q ∈ r.ranges, q.1 ≤ q.2) → NoOverlap r.ranges → r.Exact → Ascends r.ranges) := by
  refine ⟨⟨_, _, ofText_carrying hfits, (carrying r).state 0, ?_, ?_, ?_⟩, fun target lo hi x => ⟨?_, ?_⟩,
    exact_of_ascends, ascends_of_exact⟩
  · exact Array.mem_def.mpr List.mem_cons_self
  · exact List.mem_cons_self
  · exact List.mem_cons_of_mem _ List.mem_cons_self
  · exact covers_of_contains
  · rintro ⟨hx, hout⟩
    exact consumes_notSet_iff.mpr ⟨hx, fun hin => hout (covers_of_contains hin)⟩

/-- Two ranges that do not overlap, in descending order, are accepted but do not mean what they say. -/
theorem exact_loaded_descending :
    IntervalSet.fits ⟨[(98, 98), (97, 97)]⟩ ∧ ¬ IntervalSet.Exact ⟨[(98, 98), (97, 97)]⟩ := by
  have hfits : IntervalSet.fits ⟨[(98, 98), (97, 97)]⟩ := by decide
  refine ⟨hfits, fun hexact => ?_⟩
  obtain ⟨-, -, -, hascends⟩ := exact_loaded hfits
  have := hascends (by decide) (by simp [IntervalSet.NoOverlap]) hexact
  simp [Ascends] at this

end Network
end AdaptiveLL
