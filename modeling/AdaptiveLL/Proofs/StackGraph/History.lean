import Mathlib
import AdaptiveLL.Network.Basic
import AdaptiveLL.Proofs.StackGraph.Merge

/-! # Everything a graph can go through

A graph starts with the empty stack, and its user only hands in nodes that it was given by this
graph.  `Used` follows such a use from call to call, together with the nodes given out since the
graph was last cleared.  Each call keeps the graph truthful and its nodes known (`Used.truthful`,
`Used.known`), so merges without `wildcard` are unions of stacks, and equal stacks are equal nodes.
-/
namespace AdaptiveLL
namespace StackGraph

/-! ## Nodes from outside -/

theorem pairwise_of_strictlyAscending {xs : List (Option Nat)} (h : strictlyAscending xs) :
    xs.Pairwise fun a b => Frame.before a b := by
  induction xs with
  | nil => exact List.Pairwise.nil
  | cons a xs ih =>
    cases xs with
    | nil => exact List.pairwise_singleton _ _
    | cons b xs =>
      rw [strictlyAscending, Bool.and_eq_true] at h
      have hrest := ih h.2
      refine List.pairwise_cons.mpr ⟨List.forall_mem_cons.mpr ⟨h.1, fun x hx => ?_⟩, hrest⟩
      exact before_trans h.1 ((List.pairwise_cons.mp hrest).1 x hx)

/-- Lists of parents and return states that describe a node give frames that can be added. -/
theorem addable_draft {g : StackGraph} {parents : List StackRef} {returns : List (Option Nat)}
    (h : g.fault? (.frames parents returns) = none) :
    (NodeDraft.frames parents returns).toFrames ≠ [] ∧
      Addable g (NodeDraft.frames parents returns).toFrames := by
  -- The description has no fault, so it has passed the four checks one after the other.
  rw [fault?] at h
  split at h
  · contradiction
  next hne =>
  split at h
  · contradiction
  next hlen =>
  split at h
  · contradiction
  next hasc =>
  split at h
  · contradiction
  next hfind =>
  replace hlen : parents.length = returns.length := by simpa using hlen
  replace hasc : strictlyAscending returns := by simpa using hasc
  have hreturns : (NodeDraft.frames parents returns).toFrames.map Frame.returnTo = returns := by
    rw [NodeDraft.toFrames, List.map_zipWith]
    exact List.map_uncurry_zip_eq_zipWith.symm.trans (List.map_snd_zip hlen.ge)
  have hparents : (NodeDraft.frames parents returns).toFrames.map Frame.parent = parents := by
    rw [NodeDraft.toFrames, List.map_zipWith]
    exact List.map_uncurry_zip_eq_zipWith.symm.trans (List.map_fst_zip hlen.le)
  generalize (NodeDraft.frames parents returns).toFrames = fs at hreturns hparents
  subst hreturns hparents
  refine ⟨fun h0 => hne (by simp [h0]), ?_, ?_, ?_⟩
  · exact List.pairwise_map.mp (pairwise_of_strictlyAscending hasc)
  · intro f hf
    have := List.find?_eq_none.mp hfind f.parent (List.mem_map_of_mem hf)
    simpa using this
  · -- The end of the stack can only come last, and there the description was checked.
    intro f hf hx
    obtain ⟨init, last, rfl⟩ := List.eq_nil_or_concat fs |>.resolve_left fun h0 => by simp [h0] at hf
    rw [List.concat_eq_append] at *
    have hlast : f = last := by
      rcases List.mem_append.mp hf with hf | hf
      · have hp := List.pairwise_map.mp (pairwise_of_strictlyAscending hasc)
        have := (List.pairwise_append.mp hp).2.2 f hf last (List.mem_singleton_self _)
        rw [hx, before_none_left] at this
        contradiction
      · exact List.mem_singleton.mp hf
    subst hlast
    simpa [hx, isBottom_iff] using h

/-- What the frames of a description are, if nothing is wrong with it: the end of the stack alone,
or frames that can be added. -/
theorem draft_frames {g : StackGraph} {draft : NodeDraft}
    (h : g.fault? draft = none) :
    (∃ f, f.returnTo = none ∧ draft.toFrames = [f]) ∨
      draft.toFrames ≠ [] ∧ Addable g draft.toFrames := by
  cases draft with
  | bottom => exact .inl ⟨Frame.root, rfl, rfl⟩
  | frame parent returnTo =>
    cases returnTo with
    | none => exact .inl ⟨_, rfl, rfl⟩
    | some x =>
      refine .inr ⟨List.cons_ne_nil _ _, addable_singleton ?_⟩
      by_contra hk
      simp [fault?, hk] at h
  | frames parents returns => exact .inr (addable_draft h)

/-- What a call hands in and gets back, and how the graph changes: a use of the graph from when it
was new or cleared, with the nodes that it has given out since. -/
inductive Used : StackGraph → Set StackRef → Prop
  /-- A new graph, or one that was cleared. -/
  | empty : Used empty {StackRef.bottom}
  /-- A node was added, if nothing was wrong with its description. -/
  | add {g h : StackGraph} {given : Set StackRef} {draft : NodeDraft} {r : StackRef} :
    Used g given → g.add draft = .ok (r, h) → Used h (insert r given)
  /-- A state was pushed. -/
  | push {g : StackGraph} {given : Set StackRef} {parent : StackRef} (returnTo : Option Nat) :
    Used g given → parent ∈ given →
      Used (g.push parent returnTo).2 (insert (g.push parent returnTo).1 given)
  /-- A stack of rule invocations was turned into a node. -/
  | invocations {g h : StackGraph} {given : Set StackRef} {n : Network} {stack : List Invocation}
    {r : StackRef} :
    Used g given → g.pushInvocations n stack = (.ok r, h) → Used h (insert r given)
  /-- A stack of rule invocations could not be turned into a node. -/
  | refused {g h : StackGraph} {given : Set StackRef} {n : Network} {stack : List Invocation}
    {e : RecognitionError} :
    Used g given → g.pushInvocations n stack = (.error e, h) → Used h given
  /-- Two nodes were merged. -/
  | merge {g : StackGraph} {given : Set StackRef} {a b : StackRef} (wildcard : Bool) :
    Used g given → a ∈ given → b ∈ given →
      Used (g.merge a b wildcard).2 (insert (g.merge a b wildcard).1 given)
  /-- The merges were forgotten. -/
  | forgetMerges {g : StackGraph} {given : Set StackRef} : Used g given → Used g.forgetMerges given

/-- What one call keeps: the graph grows, stays truthful, and knows what the call gives out. -/
structure Keeps (g : StackGraph) (r : StackRef) (h : StackGraph) : Prop where
  truthful : h.Truthful
  grows : Extends g h
  known : h.knows r

theorem Truthful.keeps_intern {g : StackGraph} (hg : g.Truthful) {fs : List Frame} (hne : fs ≠ [])
    (ha : Addable g fs) : Keeps g (g.intern fs).1 (g.intern fs).2 :=
  have h := hg.toSound.intern hne ha
  ⟨hg.intern hne ha, h.2.1, h.2.2.1⟩

theorem Truthful.add {g h : StackGraph} (hg : g.Truthful) {draft : NodeDraft} {r : StackRef}
    (hadd : g.add draft = .ok (r, h)) : Keeps g r h := by
  unfold StackGraph.add at hadd
  cases hf : g.fault? draft with
  | some fault => simp [hf] at hadd
  | none =>
    simp only [hf, Except.ok.injEq] at hadd
    rcases draft_frames hf with ⟨f, hx, hd⟩ | ⟨hne, ha⟩
    · rw [hd, intern_root hx] at hadd
      cases hadd
      exact ⟨hg, Extends.refl g, hg.knows_bottom⟩
    · have := hg.keeps_intern hne ha
      rwa [hadd] at this

theorem Truthful.push {g : StackGraph} (hg : g.Truthful) {parent : StackRef}
    (hp : g.knows parent) (returnTo : Option Nat) :
    Keeps g (g.push parent returnTo).1 (g.push parent returnTo).2 := by
  cases returnTo with
  | none => exact ⟨hg, Extends.refl g, hg.knows_bottom⟩
  | some x => exact hg.keeps_intern (List.cons_ne_nil _ _) (addable_singleton hp)

theorem Truthful.invocations {g : StackGraph} (hg : g.Truthful) {n : Network} {below : StackRef}
    (hb : g.knows below) (stack : List Invocation) :
    (pushInvocations.go n below g stack).2.Truthful ∧
      Extends g (pushInvocations.go n below g stack).2 ∧
      ∀ r, (pushInvocations.go n below g stack).1 = .ok r →
        (pushInvocations.go n below g stack).2.knows r := by
  induction stack generalizing g below with
  | nil =>
    refine ⟨hg, Extends.refl g, fun r hr => ?_⟩
    cases hr
    exact hb
  | cons frame rest ih =>
    rw [pushInvocations.go]
    split
    · exact ih hg hb
    · split
      · exact ⟨hg, Extends.refl g, fun r hr => nomatch hr⟩
      · next follow _ =>
        have hp := hg.push hb (some follow)
        obtain ⟨ht, he, hk⟩ := ih hp.truthful hp.known
        exact ⟨ht, hp.grows.trans he, hk⟩

/-- Every use keeps the graph truthful, and everything it has given out known. -/
theorem Used.truthful_known {g : StackGraph} {given : Set StackRef} (hu : Used g given) :
    g.Truthful ∧ ∀ r ∈ given, g.knows r := by
  have step : ∀ {g h : StackGraph} {given : Set StackRef} {r : StackRef},
      (∀ s ∈ given, g.knows s) → Keeps g r h → ∀ s ∈ insert r given, h.knows s := by
    rintro g h given r hk hr s (rfl | hs)
    · exact hr.known
    · exact hr.grows.knows (hk s hs)
  induction hu with
  | empty =>
    refine ⟨truthful_empty, fun r hr => ?_⟩
    rw [Set.mem_singleton_iff.mp hr]
    exact sound_empty.knows_bottom
  | add _ hadd ih =>
    have hk := ih.1.add hadd
    exact ⟨hk.truthful, step ih.2 hk⟩
  | push returnTo _ hp ih =>
    have hk := ih.1.push (ih.2 _ hp) returnTo
    exact ⟨hk.truthful, step ih.2 hk⟩
  | @invocations g h given n stack r _ hrun ih =>
    obtain ⟨ht, he, hk⟩ := ih.1.invocations (n := n) ih.1.knows_bottom stack
    change pushInvocations.go n StackRef.bottom g stack = _ at hrun
    rw [hrun] at ht he hk
    exact ⟨ht, step ih.2 ⟨ht, he, hk r rfl⟩⟩
  | @refused g h given n stack e _ hrun ih =>
    obtain ⟨ht, he, -⟩ := ih.1.invocations (n := n) ih.1.knows_bottom stack
    change pushInvocations.go n StackRef.bottom g stack = _ at hrun
    rw [hrun] at ht he
    exact ⟨ht, fun r hr => he.knows (ih.2 r hr)⟩
  | merge wildcard _ ha hb ih =>
    have hm := ih.1.merge (ih.2 _ ha) (ih.2 _ hb) wildcard
    exact ⟨hm.truthful, step ih.2 ⟨hm.truthful, hm.grows, hm.known⟩⟩
  | forgetMerges _ ih => exact ⟨ih.1.forgetMerges, ih.2⟩

/-! ## Canonical nodes -/

/-- What a later graph says of an earlier node. -/
theorem MergesTo.stackSet_of_known {w : Bool} {g : StackGraph} (hg : g.Truthful) {a b : StackRef}
    {out : StackRef × StackGraph} (m : MergesTo w g a b out) {r : StackRef} (hr : g.knows r) :
    out.2.stackSet r = g.stackSet r :=
  m.grows.stackSet hg.toSound m.truthful.toSound hr

theorem merge_self (g : StackGraph) (a : StackRef) (w : Bool) : (g.merge a a w).1 = a := by
  rw [merge, mergeWithin, if_pos rfl]
  rfl

/-- Merging two nodes in either order gives one node. -/
theorem Truthful.merge_comm {g : StackGraph} (hg : g.Truthful) {a b : StackRef} (ha : g.knows a)
    (hb : g.knows b) (w : Bool) :
    ((g.merge a b w).2.merge b a w).1 = (g.merge a b w).1 := by
  have m := hg.merge ha hb w
  have m' := m.truthful.merge (m.grows.knows hb) (m.grows.knows ha) w
  refine m'.truthful.eq_of_stackSet_eq m'.known (m'.grows.knows m.known) ?_
  rw [m'.joined, m'.stackSet_of_known m.truthful m.known, m.joined, m.stackSet_of_known hg ha,
    m.stackSet_of_known hg hb, joined_comm]

/-- Merging three nodes without `wildcard` gives one node, wherever one begins. -/
theorem Truthful.merge_assoc {g h₁ h₂ h₃ h₄ : StackGraph} (hg : g.Truthful)
    {a b c ab left bc right : StackRef} (ha : g.knows a) (hb : g.knows b) (hc : g.knows c)
    (h₁eq : g.merge a b false = (ab, h₁)) (h₂eq : h₁.merge ab c false = (left, h₂))
    (h₃eq : h₂.merge b c false = (bc, h₃)) (h₄eq : h₃.merge a bc false = (right, h₄)) :
    right = left := by
  have m₁ := h₁eq ▸ hg.merge ha hb false
  have m₂ := h₂eq ▸ m₁.truthful.merge m₁.known (m₁.grows.knows hc) false
  have e₂ := m₁.grows.trans m₂.grows
  have m₃ := h₃eq ▸ m₂.truthful.merge (e₂.knows hb) (e₂.knows hc) false
  have e₃ := e₂.trans m₃.grows
  have m₄ := h₄eq ▸ m₃.truthful.merge (e₃.knows ha) m₃.known false
  refine m₄.truthful.eq_of_stackSet_eq m₄.known (m₄.grows.knows (m₃.grows.knows m₂.known)) ?_
  -- Both sides are the union of the three sets of stacks that the first graph has.
  have hright : h₄.stackSet right = g.stackSet a ∪ (g.stackSet b ∪ g.stackSet c) := by
    rw [m₄.joined, m₃.joined, e₃.stackSet hg.toSound m₃.truthful.toSound ha,
      e₂.stackSet hg.toSound m₂.truthful.toSound hb, e₂.stackSet hg.toSound m₂.truthful.toSound hc,
      joined_false, joined_false]
  have hleft : h₄.stackSet left = (g.stackSet a ∪ g.stackSet b) ∪ g.stackSet c := by
    rw [m₄.stackSet_of_known m₃.truthful (m₃.grows.knows m₂.known),
      m₃.stackSet_of_known m₂.truthful m₂.known, m₂.joined, m₁.joined,
      m₁.stackSet_of_known hg hc, joined_false, joined_false]
  rw [hright, hleft, Set.union_assoc]

/-- In a use of a graph, the stacks of a merge without `wildcard` are those of both nodes, whatever
merges are remembered; nodes with the same stacks are the same; and no stack of a node is listed
twice.  So such merges, made one after another, are commutative, associative and idempotent. -/
theorem Used.merge_union {g : StackGraph} {given : Set StackRef} (hu : Used g given) :
    (∀ a ∈ given, ∀ b ∈ given, ∀ s, s ∈ (g.merge a b false).2.stacksOf (g.merge a b false).1 ↔
      s ∈ g.stacksOf a ∨ s ∈ g.stacksOf b) ∧
    (∀ a ∈ given, ∀ b ∈ given, (∀ s, s ∈ g.stacksOf a ↔ s ∈ g.stacksOf b) → a = b) ∧
    (∀ a ∈ given, (g.stacksOf a).Nodup) ∧
    (∀ a ∈ given, ∀ b ∈ given, ((g.merge a b false).2.merge b a false).1 = (g.merge a b false).1) ∧
    (∀ a ∈ given, ∀ b ∈ given, ∀ c ∈ given, ∀ ab left bc right h₁ h₂ h₃ h₄,
      g.merge a b false = (ab, h₁) → h₁.merge ab c false = (left, h₂) →
        h₂.merge b c false = (bc, h₃) → h₃.merge a bc false = (right, h₄) → right = left) ∧
    ∀ a ∈ given, (g.merge a a false).1 = a := by
  obtain ⟨hg, hk⟩ := hu.truthful_known
  refine ⟨fun a ha b hb s => ?_, fun a ha b hb heq => ?_, fun a ha => hg.nodup_stacksOf (hk a ha),
    fun a ha b hb => hg.merge_comm (hk a ha) (hk b hb) false,
    fun a ha b hb c hc _ _ _ _ _ _ _ _ => hg.merge_assoc (hk a ha) (hk b hb) (hk c hc),
    fun a _ => merge_self g a false⟩
  · have hj := (hg.merge (hk a ha) (hk b hb) false).joined
    rw [joined_false] at hj
    exact Set.ext_iff.mp hj s
  · exact hg.eq_of_stackSet_eq (hk a ha) (hk b hb) (Set.ext heq)

/-- The merge of two nodes that were pushed on the empty stack. -/
theorem Used.merge_union_pushed :
    let one := StackGraph.empty.push StackRef.bottom (some 1)
    let two := one.2.push StackRef.bottom (some 2)
    let both := two.2.merge one.1 two.1 false
    ∀ s, s ∈ both.2.stacksOf both.1 ↔ s = [1] ∨ s = [2] := by
  intro one two both s
  have hu : Used two.2 (insert two.1 (insert one.1 {StackRef.bottom})) :=
    Used.push (some 2) (Used.push (some 1) Used.empty rfl) (.inr rfl)
  have hone := sound_empty.push sound_empty.knows_bottom 1
  have htwo := hone.1.push hone.1.knows_bottom 2
  have h₁ : two.2.stackSet one.1 = {[1]} := by
    rw [htwo.2.1.stackSet hone.1 htwo.1 hone.2.2.1, sound_empty.stackSet_push
      sound_empty.knows_bottom, sound_empty.stackSet_bottom, Set.image_singleton]
  have h₂ : two.2.stackSet two.1 = {[2]} := by
    rw [hone.1.stackSet_push hone.1.knows_bottom, hone.1.stackSet_bottom, Set.image_singleton]
  have hs := hu.merge_union.1 one.1 (.inr (.inl rfl)) two.1 (.inl rfl) s
  exact hs.trans (or_congr (Set.ext_iff.mp h₁ s) (Set.ext_iff.mp h₂ s))

end StackGraph
end AdaptiveLL
