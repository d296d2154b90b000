import Mathlib
import AdaptiveLL.Proofs.StackGraph.Covers
import AdaptiveLL.Proofs.StackGraph.History

/-! # Merging where the empty stack stands for every stack

With `wildcard`, a node covers every stack that continues one of its own (`cover`).  Merging two nodes
covers what either of them covers, and nothing else (`covers_joined_iff`).

The stacks of a merge are not determined by what is covered: an explicit end among other frames is kept,
while the empty stack alone absorbs everything.  That merges still are associative is seen on the sets
of stacks: the empty stack alone comes out of a join only if it went in (`joined_eq_bottom_iff`), so in
which order three sets are joined makes no difference at any depth (`joined_assoc`).
-/
namespace AdaptiveLL
namespace StackGraph

variable {w : Bool} {A B C : Set (List Nat)} {s : List Nat} {x : Nat}

/-! ## What is covered -/

/-- What a join covers, one of the joined sets covers. -/
theorem covers_of_covers_joined (h : Covers true (Joined true A B) s) :
    Covers true A s ∨ Covers true B s := by
  obtain ⟨r, hr, hrs⟩ := h
  -- By induction on the member of the join, one return state after the other.
  induction r generalizing A B s with
  | nil =>
    rcases nil_mem_joined.mp hr with h | h
    · exact .inl ⟨[], h, hrs⟩
    · exact .inr ⟨[], h, hrs⟩
  | cons x r ih =>
    obtain ⟨s, rfl, hrs'⟩ := hrs.exists_of_cons
    obtain ⟨-, ⟨-, h⟩ | ⟨-, h⟩ | ⟨-, -, h⟩⟩ := cons_mem_joined.mp hr
    · exact .inr ⟨x :: r, h, hrs⟩
    · exact .inl ⟨x :: r, h, hrs⟩
    · rcases ih h hrs' with h | h
      · exact .inl (covers_cons.mpr (.inr h))
      · exact .inr (covers_cons.mpr (.inr h))

theorem covers_joined_iff : Covers w (Joined w A B) s ↔ Covers w A s ∨ Covers w B s := by
  refine ⟨fun h => ?_, covers_joined⟩
  cases w with
  | false => exact covers_of_joined h
  | true => exact covers_of_covers_joined h

/-! ## Joins in any order -/

theorem joined_nonempty (hA : A.Nonempty) (hB : B.Nonempty) : (Joined w A B).Nonempty := by
  obtain ⟨s, hs⟩ := hA
  induction s generalizing A B with
  | nil => exact ⟨[], .inl hs⟩
  | cons x s ih =>
    by_cases hw : w ∧ (A = {[]} ∨ B = {[]})
    · obtain ⟨hw, rfl | rfl⟩ := hw
      · exact ⟨[], .inl rfl⟩
      · exact ⟨[], .inr rfl⟩
    · by_cases hx : below B x = ∅
      · exact ⟨x :: s, cons_mem_joined.mpr ⟨hw, .inr (.inl ⟨hx, hs⟩)⟩⟩
      · obtain ⟨r, hr⟩ : (Joined w (below A x) (below B x)).Nonempty :=
          ih (Set.nonempty_iff_ne_empty.mpr hx) hs
        have hne : below A x ≠ ∅ := Set.nonempty_iff_ne_empty.mp ⟨s, hs⟩
        exact ⟨x :: r, cons_mem_joined.mpr ⟨hw, .inr (.inr ⟨hne, hx, hr⟩)⟩⟩

/-- A set that has more than the empty stack has some return state on top. -/
theorem exists_below_of_ne_bottom (hA : A.Nonempty) (hne : A ≠ {[]}) : ∃ x, below A x ≠ ∅ := by
  by_contra hall
  push Not at hall
  have hnil : ∀ s ∈ A, s = [] := by
    intro s hs
    cases s with
    | nil => rfl
    | cons x s => exact absurd hs (Set.eq_empty_iff_forall_notMem.mp (hall x) s)
  exact hne (Set.eq_singleton_iff_nonempty_unique_mem.mpr ⟨hA, hnil⟩)

/-- What lies below a return state in a join that nothing is absorbed in. -/
theorem below_joined (hw : ¬ (w ∧ (A = {[]} ∨ B = {[]}))) (x : Nat) :
    below (Joined w A B) x =
      {s | below A x = ∅ ∧ s ∈ below B x ∨ below B x = ∅ ∧ s ∈ below A x ∨
        below A x ≠ ∅ ∧ below B x ≠ ∅ ∧ s ∈ Joined w (below A x) (below B x)} := by
  ext s
  exact cons_mem_joined.trans (and_iff_right hw)

/-- Nothing lies below a return state in a join only if nothing does in the joined sets. -/
theorem below_joined_eq_empty_iff (hw : ¬ (w ∧ (A = {[]} ∨ B = {[]}))) (x : Nat) :
    below (Joined w A B) x = ∅ ↔ below A x = ∅ ∧ below B x = ∅ := by
  rw [below_joined hw]
  by_cases hA : below A x = ∅
  · simp [hA]
  · by_cases hB : below B x = ∅
    · simp [hB]
    · have hj : (Joined w (below A x) (below B x)).Nonempty :=
        joined_nonempty (Set.nonempty_iff_ne_empty.mpr hA) (Set.nonempty_iff_ne_empty.mpr hB)
      simpa [hA, hB] using Set.nonempty_iff_ne_empty.mp hj

/-- The empty stack alone comes out of a join only if it went in. -/
theorem joined_eq_bottom_iff (hA : A.Nonempty) : Joined true A B = {[]} ↔ A = {[]} ∨ B = {[]} := by
  refine ⟨fun hj => ?_, joined_true_bottom⟩
  by_contra hne
  obtain ⟨x, hx⟩ := exists_below_of_ne_bottom hA (not_or.mp hne).1
  have hempty : below (Joined true A B) x = ∅ := by
    rw [hj]
    exact Set.eq_empty_iff_forall_notMem.mpr fun s hs => List.cons_ne_nil x s hs
  exact hx ((below_joined_eq_empty_iff (fun h => hne h.2) x).mp hempty).1

/-- With a wildcard, three sets are joined to the same set in any order. -/
theorem joined_assoc (hA : A.Nonempty) (hB : B.Nonempty) (hC : C.Nonempty) :
    Joined true (Joined true A B) C = Joined true A (Joined true B C) := by
  ext s
  induction s generalizing A B C with
  | nil =>
    rw [nil_mem_joined, nil_mem_joined, nil_mem_joined, nil_mem_joined]
    exact or_assoc
  | cons x s ih =>
    rw [cons_mem_joined, cons_mem_joined, joined_eq_bottom_iff hA, joined_eq_bottom_iff hB]
    by_cases habsorb : A = {[]} ∨ B = {[]} ∨ C = {[]}
    · -- on both sides the empty stack absorbs whatever has a state on top
      exact iff_of_false (fun h => h.1 ⟨rfl, or_assoc.mpr habsorb⟩) (fun h => h.1 ⟨rfl, habsorb⟩)
    · have hAB : ¬ (true ∧ (A = {[]} ∨ B = {[]})) := fun h => habsorb (h.2.imp_right .inl)
      have hBC : ¬ (true ∧ (B = {[]} ∨ C = {[]})) := fun h => habsorb (.inr h.2)
      rw [below_joined_eq_empty_iff hAB, below_joined_eq_empty_iff hBC, below_joined hAB,
        below_joined hBC]
      -- With nothing below `x` in one of the sets, the other two are joined there.
      by_cases hA' : below A x = ∅
      · simp [hA', habsorb, or_assoc]
      · by_cases hB' : below B x = ∅
        · simp [hA', hB', habsorb, or_assoc]
        · by_cases hC' : below C x = ∅
          · simp [hA', hB', hC', habsorb, or_assoc]
          · have hA'' := Set.nonempty_iff_ne_empty.mpr hA'
            have hB'' := Set.nonempty_iff_ne_empty.mpr hB'
            have hC'' := Set.nonempty_iff_ne_empty.mpr hC'
            have hleft : Joined true (below A x) (below B x) ≠ ∅ := (joined_nonempty hA'' hB'').ne_empty
            have hright : Joined true (below B x) (below C x) ≠ ∅ := (joined_nonempty hB'' hC'').ne_empty
            simp [hA', hB', hC', habsorb, or_assoc, hleft, hright, ih hA'' hB'' hC'']

/-! ## Merges in a graph -/

/-- The stacks that continue one of a node's. -/
def cover (g : StackGraph) (r : StackRef) : Set (List Nat) := {s | ∃ p ∈ g.stacksOf r, p <+: s}

theorem mem_cover_iff {g : StackGraph} {r : StackRef} : s ∈ g.cover r ↔ Covers true (g.stackSet r) s :=
  Iff.rfl

/-- Merging three nodes with `wildcard` gives one node, wherever one begins. -/
theorem Truthful.merge_wildcard_assoc {g h₁ h₂ h₃ h₄ : StackGraph} (hg : g.Truthful)
    {a b c ab left bc right : StackRef} (ha : g.knows a) (hb : g.knows b) (hc : g.knows c)
    (h₁eq : g.merge a b true = (ab, h₁)) (h₂eq : h₁.merge ab c true = (left, h₂))
    (h₃eq : h₂.merge b c true = (bc, h₃)) (h₄eq : h₃.merge a bc true = (right, h₄)) :
    right = left := by
  have m₁ := h₁eq ▸ hg.merge ha hb true
  have m₂ := h₂eq ▸ m₁.truthful.merge m₁.known (m₁.grows.knows hc) true
  have e₂ := m₁.grows.trans m₂.grows
  have m₃ := h₃eq ▸ m₂.truthful.merge (e₂.knows hb) (e₂.knows hc) true
  have e₃ := e₂.trans m₃.grows
  have m₄ := h₄eq ▸ m₃.truthful.merge (e₃.knows ha) m₃.known true
  refine m₄.truthful.eq_of_stackSet_eq m₄.known (m₄.grows.knows (m₃.grows.knows m₂.known)) ?_
  have hright : h₄.stackSet right =
      Joined true (g.stackSet a) (Joined true (g.stackSet b) (g.stackSet c)) := by
    rw [m₄.joined, m₃.joined, e₃.stackSet hg.toSound m₃.truthful.toSound ha,
      e₂.stackSet hg.toSound m₂.truthful.toSound hb, e₂.stackSet hg.toSound m₂.truthful.toSound hc]
  have hleft : h₄.stackSet left =
      Joined true (Joined true (g.stackSet a) (g.stackSet b)) (g.stackSet c) := by
    rw [m₄.stackSet_of_known m₃.truthful (m₃.grows.knows m₂.known),
      m₃.stackSet_of_known m₂.truthful m₂.known, m₂.joined, m₁.joined, m₁.stackSet_of_known hg hc]
  rw [hright, hleft]
  exact (joined_assoc (hg.stackSet_nonempty ha) (hg.stackSet_nonempty hb)
    (hg.stackSet_nonempty hc)).symm

/-- What a merge with `wildcard` covers. -/
theorem Truthful.cover_merge {g : StackGraph} (hg : g.Truthful) {a b : StackRef} (ha : g.knows a)
    (hb : g.knows b) : (g.merge a b true).2.cover (g.merge a b true).1 = g.cover a ∪ g.cover b := by
  ext s
  rw [Set.mem_union, mem_cover_iff, mem_cover_iff, mem_cover_iff, (hg.merge ha hb true).joined]
  exact covers_joined_iff

/-- The empty stack absorbs what it is merged with. -/
theorem Truthful.merge_bottom {g : StackGraph} (hg : g.Truthful) {a b : StackRef} (ha : g.knows a)
    (hb : g.knows b) (h : a = StackRef.bottom ∨ b = StackRef.bottom) :
    (g.merge a b true).1 = StackRef.bottom := by
  have m := hg.merge ha hb true
  refine (m.truthful.stackSet_eq_bottom_iff m.known).mp ?_
  rw [m.joined]
  refine joined_true_bottom (h.imp ?_ ?_)
  · rintro rfl
    exact hg.stackSet_bottom
  · rintro rfl
    exact hg.stackSet_bottom

/-! ## Stacks of which none continues another -/

/-- No stack of a set continues another one of it. -/
def PrefixFree (A : Set (List Nat)) : Prop := IsAntichain (· <+: ·) A

theorem prefixFree_bottom : PrefixFree {[]} := IsAntichain.singleton

namespace PrefixFree

/-- Next to the empty stack there is no other. -/
theorem eq_bottom (hA : PrefixFree A) (h : [] ∈ A) : A = {[]} :=
  Set.eq_singleton_iff_unique_mem.mpr ⟨h, fun _ hs => (hA.eq h hs List.nil_prefix).symm⟩

theorem below (hA : PrefixFree A) (x : Nat) : PrefixFree (below A x) := fun _ hs _ ht hne hst =>
  hA hs ht (fun h => hne (List.cons.inj h).2) (List.cons_prefix_cons.mpr ⟨rfl, hst⟩)

theorem cons (hA : PrefixFree A) (x : Nat) : PrefixFree ((x :: ·) '' A) := by
  rintro _ ⟨s, hs, rfl⟩ _ ⟨t, ht, rfl⟩ hne hst
  exact hne (congrArg (x :: ·) (hA.eq hs ht (List.cons_prefix_cons.mp hst).2))

/-- Where the empty stack absorbs the others, a join has no stack that continues another. -/
theorem joined (hA : PrefixFree A) (hB : PrefixFree B) : PrefixFree (Joined true A B) := by
  intro s hs t ht hne hst
  -- By induction on the shorter stack, one return state after the other.
  induction s generalizing A B t with
  | nil =>
    have hend : A = {[]} ∨ B = {[]} := (nil_mem_joined.mp hs).imp hA.eq_bottom hB.eq_bottom
    rw [joined_true_bottom hend] at ht
    exact hne (Set.mem_singleton_iff.mp ht).symm
  | cons x s ih =>
    obtain ⟨t, rfl, hrest⟩ := List.cons_prefix_iff.mp hst
    have hne' : s ≠ t := fun h => hne (congrArg (x :: ·) h)
    replace hs := (cons_mem_joined.mp hs).2
    replace ht := (cons_mem_joined.mp ht).2
    by_cases hA' : StackGraph.below A x = ∅
    · simp only [hA', true_and, Set.mem_empty_iff_false, and_false, ne_eq, not_true_eq_false,
        false_and, or_false] at hs ht
      exact hB.below x hs ht hne' hrest
    by_cases hB' : StackGraph.below B x = ∅
    · simp only [hA', hB', true_and, Set.mem_empty_iff_false, and_false, ne_eq, not_true_eq_false,
        false_and, or_false, false_or] at hs ht
      exact hA.below x hs ht hne' hrest
    simp only [hA', hB', false_and, ne_eq, not_false_eq_true, true_and, false_or] at hs ht
    exact ih (hA.below x) (hB.below x) hs ht hne' hrest

end PrefixFree

/-- A node of which no stack continues another has no end beside other frames. -/
theorem Sound.eq_bottom {g : StackGraph} (hg : g.Sound) {r : StackRef} (hr : g.knows r)
    (hfree : PrefixFree (g.stackSet r)) {f : Frame} (hf : f ∈ g.frames r) (hend : f.returnTo = none) :
    r = StackRef.bottom := by
  have hnil : [] ∈ g.stackSet r := by
    rw [hg.stackSet_eq hr]
    exact nil_mem_stacksOver.mpr ⟨f, hf, hend⟩
  exact hg.eq_of_stackSet_eq hr hg.knows_bottom ((hfree.eq_bottom hnil).trans hg.stackSet_bottom.symm)

/-- What lies below a frame of such a node is such a node again. -/
theorem Sound.prefixFree_parent {g : StackGraph} (hg : g.Sound) {r : StackRef} (hr : g.knows r)
    (hfree : PrefixFree (g.stackSet r)) {f : Frame} (hf : f ∈ g.frames r) {x : Nat}
    (hx : f.returnTo = some x) : PrefixFree (g.stackSet f.parent) := by
  have heq : g.stackSet f.parent = below (g.stackSet r) x := Set.ext (hg.mem_parent_iff hr hf hx)
  exact heq ▸ hfree.below x

/-- In a use of a graph, a merge with `wildcard` covers what both nodes cover, whatever merges are
remembered.  Such merges, made one after another, are commutative, associative and idempotent, and the
empty stack absorbs every node. -/
theorem Used.merge_wildcard {g : StackGraph} {given : Set StackRef} (hu : Used g given) :
    (∀ a ∈ given, ∀ b ∈ given,
      (g.merge a b true).2.cover (g.merge a b true).1 = g.cover a ∪ g.cover b) ∧
    (∀ a ∈ given, ∀ b ∈ given, ((g.merge a b true).2.merge b a true).1 = (g.merge a b true).1) ∧
    (∀ a ∈ given, ∀ b ∈ given, ∀ c ∈ given, ∀ ab left bc right h₁ h₂ h₃ h₄,
      g.merge a b true = (ab, h₁) → h₁.merge ab c true = (left, h₂) →
        h₂.merge b c true = (bc, h₃) → h₃.merge a bc true = (right, h₄) → right = left) ∧
    (∀ a ∈ given, (g.merge a a true).1 = a) ∧
    ∀ a ∈ given, (g.merge a StackRef.bottom true).1 = StackRef.bottom ∧
      (g.merge StackRef.bottom a true).1 = StackRef.bottom := by
  obtain ⟨hg, hk⟩ := hu.truthful_known
  refine ⟨fun a ha b hb => hg.cover_merge (hk a ha) (hk b hb),
    fun a ha b hb => hg.merge_comm (hk a ha) (hk b hb) true,
    fun a ha b hb c hc _ _ _ _ _ _ _ _ =>
      hg.merge_wildcard_assoc (hk a ha) (hk b hb) (hk c hc),
    fun a _ => merge_self g a true, fun a ha => ⟨?_, ?_⟩⟩
  · exact hg.merge_bottom (hk a ha) hg.knows_bottom (.inr rfl)
  · exact hg.merge_bottom hg.knows_bottom (hk a ha) (.inl rfl)

/-- The stack of `2` over `1`, merged with that of `2` over any caller, covers every stack of `2`. -/
theorem Used.merge_wildcard_nested :
    let one := StackGraph.empty.push StackRef.bottom (some 1)
    let two := one.2.push one.1 (some 2)
    let any := two.2.push StackRef.bottom (some 2)
    ∀ s, s ∈ (any.2.merge two.1 any.1 true).2.cover (any.2.merge two.1 any.1 true).1 ↔
      ∃ t, s = 2 :: t := by
  intro one two any s
  have hu : Used any.2 (insert any.1 (insert two.1 (insert one.1 {StackRef.bottom}))) :=
    Used.push (some 2) (Used.push (some 2) (Used.push (some 1) Used.empty rfl) (.inl rfl))
      (.inr (.inr rfl))
  have hone := sound_empty.push sound_empty.knows_bottom 1
  have htwo := hone.1.push hone.2.2.1 2
  have hany := htwo.1.push htwo.1.knows_bottom 2
  have h₁ : any.2.stackSet two.1 = {[2, 1]} := by
    rw [hany.2.1.stackSet htwo.1 hany.1 htwo.2.2.1, hone.1.stackSet_push hone.2.2.1,
      sound_empty.stackSet_push sound_empty.knows_bottom, sound_empty.stackSet_bottom,
      Set.image_singleton, Set.image_singleton]
  have h₂ : any.2.stackSet any.1 = {[2]} := by
    rw [htwo.1.stackSet_push htwo.1.knows_bottom, htwo.1.stackSet_bottom, Set.image_singleton]
  rw [hu.merge_wildcard.1 two.1 (.inr (.inl rfl)) any.1 (.inl rfl), Set.mem_union, mem_cover_iff,
    mem_cover_iff, h₁, h₂]
  constructor
  · rintro (⟨_, rfl, t, rfl⟩ | ⟨_, rfl, t, rfl⟩)
    · exact ⟨1 :: t, rfl⟩
    · exact ⟨t, rfl⟩
  · rintro ⟨t, rfl⟩
    exact .inr ⟨[2], rfl, t, rfl⟩

end StackGraph
end AdaptiveLL
