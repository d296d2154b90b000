import Mathlib
import AdaptiveLL.StackGraph.Merge
import AdaptiveLL.Proofs.StackGraph.Stacks

/-! # Merging, in terms of stacks

What `merge` makes of two nodes depends on their stacks only.  `Joined` says which stacks the
result has: stacks are joined one return state at a time, and with `wildcard` the empty stack, where
it stands alone, absorbs what it is joined with.  Without `wildcard` this is the union
(`joined_false`).

The memo of a graph is right if each entry holds the node that the merge of its key would give
(`Truthful`).  Merging keeps graphs truthful and only adds nodes (`Truthful.merge`).
-/
namespace AdaptiveLL
namespace StackGraph

/-- What lies below a return state in a set of stacks. -/
def below (A : Set (List Nat)) (x : Nat) : Set (List Nat) := {s | x :: s ∈ A}

/-- Whether joining two sets of stacks gives a stack. -/
def Joins (wildcard : Bool) : List Nat → Set (List Nat) → Set (List Nat) → Prop
  | [], A, B => [] ∈ A ∨ [] ∈ B
  | x :: s, A, B =>
    ¬ (wildcard ∧ (A = {[]} ∨ B = {[]})) ∧
      (below A x = ∅ ∧ s ∈ below B x ∨ below B x = ∅ ∧ s ∈ below A x ∨
        below A x ≠ ∅ ∧ below B x ≠ ∅ ∧ Joins wildcard s (below A x) (below B x))

/-- The stacks that two sets of stacks are joined to. -/
def Joined (wildcard : Bool) (A B : Set (List Nat)) : Set (List Nat) := {s | Joins wildcard s A B}

theorem nil_mem_joined {w : Bool} {A B : Set (List Nat)} :
    [] ∈ Joined w A B ↔ [] ∈ A ∨ [] ∈ B :=
  Iff.rfl

theorem cons_mem_joined {w : Bool} {A B : Set (List Nat)} {x : Nat} {s : List Nat} :
    x :: s ∈ Joined w A B ↔ ¬ (w ∧ (A = {[]} ∨ B = {[]})) ∧
      (below A x = ∅ ∧ s ∈ below B x ∨ below B x = ∅ ∧ s ∈ below A x ∨
        below A x ≠ ∅ ∧ below B x ≠ ∅ ∧ s ∈ Joined w (below A x) (below B x)) :=
  Iff.rfl

theorem joined_comm (w : Bool) (A B : Set (List Nat)) : Joined w A B = Joined w B A := by
  ext s
  induction s generalizing A B with
  | nil => exact or_comm
  | cons x s ih =>
    rw [cons_mem_joined, cons_mem_joined, ih, @or_comm (A = {[]})]
    tauto

/-- A set joined to itself stays the same. -/
theorem joined_self (w : Bool) (A : Set (List Nat)) : Joined w A A = A := by
  ext s
  induction s generalizing A with
  | nil => exact or_self_iff
  | cons x s ih =>
    rw [cons_mem_joined, ih]
    constructor
    · rintro ⟨-, ⟨-, h⟩ | ⟨-, h⟩ | ⟨-, -, h⟩⟩ <;> exact h
    · intro h
      have hne : below A x ≠ ∅ := Set.nonempty_iff_ne_empty.mp ⟨s, h⟩
      refine ⟨?_, .inr (.inr ⟨hne, hne, h⟩)⟩
      rintro ⟨-, rfl | rfl⟩ <;> simp at h

/-- Where the empty stack is a stack like others, joining is the union. -/
theorem joined_false (A B : Set (List Nat)) : Joined false A B = A ∪ B := by
  ext s
  induction s generalizing A B with
  | nil => exact Iff.rfl
  | cons x s ih =>
    rw [cons_mem_joined, ih]
    simp only [Bool.false_eq_true, false_and, not_false_eq_true, true_and, Set.mem_union]
    have hA : x :: s ∈ A → below A x ≠ ∅ := fun h => Set.nonempty_iff_ne_empty.mp ⟨s, h⟩
    have hB : x :: s ∈ B → below B x ≠ ∅ := fun h => Set.nonempty_iff_ne_empty.mp ⟨s, h⟩
    change _ ∧ x :: s ∈ B ∨ _ ∧ x :: s ∈ A ∨ _ ∧ _ ∧ (x :: s ∈ A ∨ x :: s ∈ B) ↔ _
    tauto

/-- The empty stack alone absorbs what it is joined with. -/
theorem joined_true_bottom {A B : Set (List Nat)} (h : A = {[]} ∨ B = {[]}) :
    Joined true A B = {[]} := by
  ext s
  cases s with
  | nil =>
    rw [nil_mem_joined]
    simp only [Set.mem_singleton_iff, iff_true]
    rcases h with rfl | rfl
    · exact .inl rfl
    · exact .inr rfl
  | cons x s =>
    rw [cons_mem_joined]
    simp [h]

/-! ## Frames -/

theorem before_trans {a b c : Option Nat} (hab : Frame.before a b) (hbc : Frame.before b c) :
    Frame.before a c := by
  cases a <;> cases b <;> cases c <;> simp_all [Frame.before]
  omega

theorem before_of_not_before {a b : Option Nat} (hne : a ≠ b) (h : ¬ Frame.before a b) :
    Frame.before b a := by
  cases a <;> cases b <;> simp_all [Frame.before]
  omega

theorem before_irrefl (a : Option Nat) : ¬ Frame.before a a := by
  cases a <;> simp [Frame.before]

/-- What the combination of two lists of frames in `g` looks like in a later graph `h`. -/
structure Combines (wildcard : Bool) (g : StackGraph) (as bs : List Frame) (h : StackGraph)
    (fs : List Frame) : Prop where
  addable : Addable h fs
  returns : ∀ x, x ∈ fs.map Frame.returnTo ↔ x ∈ as.map Frame.returnTo ∨ x ∈ bs.map Frame.returnTo
  parts : ∀ f ∈ fs,
    f ∈ as ∧ f.returnTo ∉ bs.map Frame.returnTo ∨ f ∈ bs ∧ f.returnTo ∉ as.map Frame.returnTo ∨
      ∃ a ∈ as, ∃ b ∈ bs, a.returnTo = f.returnTo ∧ b.returnTo = f.returnTo ∧
        h.stackSet f.parent = Joined wildcard (g.stackSet a.parent) (g.stackSet b.parent)

theorem Addable.tail {g : StackGraph} {f : Frame} {fs : List Frame} (h : Addable g (f :: fs)) :
    Addable g fs :=
  ⟨h.ascending.tail, fun a ha => h.known a (List.mem_cons_of_mem f ha),
    fun a ha => h.root a (List.mem_cons_of_mem f ha)⟩

theorem Addable.mono {g h : StackGraph} (e : Extends g h) {fs : List Frame} (ha : Addable g fs) :
    Addable h fs :=
  ⟨ha.ascending, fun f hf => e.knows (ha.known f hf), ha.root⟩

theorem Addable.head_before {g : StackGraph} {f : Frame} {fs : List Frame}
    (h : Addable g (f :: fs)) {x : Option Nat} (hx : x ∈ fs.map Frame.returnTo) :
    Frame.before f.returnTo x := by
  obtain ⟨a, ha, rfl⟩ := List.mem_map.mp hx
  exact (List.pairwise_cons.mp h.ascending).1 a ha

theorem Addable.cons {g : StackGraph} {f : Frame} {fs : List Frame} (h : Addable g fs)
    (hbefore : ∀ x ∈ fs.map Frame.returnTo, Frame.before f.returnTo x) (hknown : g.knows f.parent)
    (hroot : f.returnTo = none → f.parent = StackRef.bottom) : Addable g (f :: fs) where
  ascending := List.pairwise_cons.mpr
    ⟨fun _ ha => hbefore _ (List.mem_map_of_mem ha), h.ascending⟩
  known := List.forall_mem_cons.mpr ⟨hknown, h.known⟩
  root := List.forall_mem_cons.mpr ⟨hroot, h.root⟩

theorem Combines.nil_left {w : Bool} {g : StackGraph} {bs : List Frame} (hb : Addable g bs) :
    Combines w g [] bs g bs :=
  ⟨hb, fun x => by simp, fun f hf => .inr (.inl ⟨hf, by simp⟩)⟩

theorem Combines.nil_right {w : Bool} {g : StackGraph} {as : List Frame} (ha : Addable g as) :
    Combines w g as [] g as :=
  ⟨ha, fun x => by simp, fun f hf => .inl ⟨hf, by simp⟩⟩

theorem Combines.symm {w : Bool} {g h : StackGraph} {as bs fs : List Frame}
    (c : Combines w g as bs h fs) : Combines w g bs as h fs where
  addable := c.addable
  returns x := (c.returns x).trans or_comm
  parts f hf := by
    rcases c.parts f hf with h | h | ⟨a, ha, b, hb, hx, hy, hs⟩
    · exact .inr (.inl h)
    · exact .inl h
    · exact .inr (.inr ⟨b, hb, a, ha, hy, hx, by rw [hs, joined_comm]⟩)

/-- A frame that comes before all others is kept. -/
theorem Combines.keep {w : Bool} {g h : StackGraph} (e : Extends g h) {a : Frame}
    {as bs fs : List Frame} (ha : Addable g (a :: as))
    (hbefore : ∀ x ∈ bs.map Frame.returnTo, Frame.before a.returnTo x)
    (c : Combines w g as bs h fs) : Combines w g (a :: as) bs h (a :: fs) where
  addable := by
    refine c.addable.cons (fun x hx => ?_) (e.knows (ha.known a List.mem_cons_self))
      (ha.root a List.mem_cons_self)
    rcases (c.returns x).mp hx with hx | hx
    · exact ha.head_before hx
    · exact hbefore x hx
  returns x := by simp only [List.map_cons, List.mem_cons, c.returns x, or_assoc]
  parts := by
    refine List.forall_mem_cons.mpr ⟨.inl ⟨List.mem_cons_self, fun hx => ?_⟩, fun f hf => ?_⟩
    · exact before_irrefl _ (hbefore _ hx)
    · rcases c.parts f hf with ⟨hm, hn⟩ | ⟨hm, hn⟩ | ⟨p, hp, q, hq, hs⟩
      · exact .inl ⟨List.mem_cons_of_mem a hm, hn⟩
      · refine .inr (.inl ⟨hm, ?_⟩)
        rw [List.map_cons, List.mem_cons, not_or]
        refine ⟨fun hx => ?_, hn⟩
        have := hbefore _ (List.mem_map_of_mem hm)
        rw [hx] at this
        exact before_irrefl _ this
      · exact .inr (.inr ⟨p, List.mem_cons_of_mem a hp, q, hq, hs⟩)

/-- Frames with the same return state become one, over the join of what is below. -/
theorem Combines.join {w : Bool} {g h : StackGraph} {a b : Frame} {as bs fs : List Frame}
    {parent : StackRef} (hx : a.returnTo = b.returnTo) (ha : Addable g (a :: as))
    (hb : Addable g (b :: bs)) (hknown : h.knows parent)
    (hroot : a.returnTo = none → parent = StackRef.bottom)
    (hs : h.stackSet parent = Joined w (g.stackSet a.parent) (g.stackSet b.parent))
    (c : Combines w g as bs h fs) :
    Combines w g (a :: as) (b :: bs) h (⟨a.returnTo, parent⟩ :: fs) where
  addable := by
    refine c.addable.cons (fun x hm => ?_) hknown hroot
    rcases (c.returns x).mp hm with hm | hm
    · exact ha.head_before hm
    · change Frame.before a.returnTo x
      rw [hx]
      exact hb.head_before hm
  returns x := by
    simp only [List.map_cons, List.mem_cons, c.returns x, ← hx]
    tauto
  parts := by
    refine List.forall_mem_cons.mpr ⟨.inr (.inr ⟨a, List.mem_cons_self, b, List.mem_cons_self,
      rfl, hx.symm, hs⟩), fun f hf => ?_⟩
    rcases c.parts f hf with ⟨hm, hn⟩ | ⟨hm, hn⟩ | ⟨p, hp, q, hq, hs⟩
    · refine .inl ⟨List.mem_cons_of_mem a hm, ?_⟩
      rw [List.map_cons, List.mem_cons, not_or]
      refine ⟨fun hy => ?_, hn⟩
      have := ha.head_before (List.mem_map_of_mem hm)
      rw [hx, hy] at this
      exact before_irrefl _ this
    · refine .inr (.inl ⟨List.mem_cons_of_mem b hm, ?_⟩)
      rw [List.map_cons, List.mem_cons, not_or]
      refine ⟨fun hy => ?_, hn⟩
      have := hb.head_before (List.mem_map_of_mem hm)
      rw [← hx, hy] at this
      exact before_irrefl _ this
    · exact .inr (.inr ⟨p, List.mem_cons_of_mem a hp, q, List.mem_cons_of_mem b hq, hs⟩)

/-- What is known of the parents does not depend on when it is said. -/
theorem Combines.of_extends {w : Bool} {g h k : StackGraph} (hg : g.Sound) (hh : h.Sound)
    (e : Extends g h) {as bs fs : List Frame} (ha : Addable g as) (hb : Addable g bs)
    (c : Combines w h as bs k fs) : Combines w g as bs k fs where
  addable := c.addable
  returns := c.returns
  parts f hf := by
    rcases c.parts f hf with h | h | ⟨p, hp, q, hq, hx, hy, hs⟩
    · exact .inl h
    · exact .inr (.inl h)
    · rw [e.stackSet hg hh (ha.known p hp), e.stackSet hg hh (hb.known q hq)] at hs
      exact .inr (.inr ⟨p, hp, q, hq, hx, hy, hs⟩)

/-! ## Truthful memos -/

/-- A sound graph in which every merge that is remembered is right. -/
structure Truthful (g : StackGraph) : Prop extends Sound g where
  memo : ∀ (key : MergeKey) (r : StackRef), g.memo[key]? = some r →
    g.knows ⟨key.low⟩ ∧ g.knows ⟨key.high⟩ ∧ g.knows r ∧
      g.stackSet r = Joined key.wildcard (g.stackSet ⟨key.low⟩) (g.stackSet ⟨key.high⟩)

/-- What the merge of two nodes has to come to: a node, and the graph after the merge. -/
structure MergesTo (wildcard : Bool) (g : StackGraph) (a b : StackRef)
    (out : StackRef × StackGraph) : Prop where
  truthful : out.2.Truthful
  grows : Extends g out.2
  known : out.2.knows out.1
  joined : out.2.stackSet out.1 = Joined wildcard (g.stackSet a) (g.stackSet b)

/-- What the combination of two lists of frames has to come to. -/
structure CombinesTo (wildcard : Bool) (g : StackGraph) (as bs : List Frame)
    (out : List Frame × StackGraph) : Prop where
  truthful : out.2.Truthful
  grows : Extends g out.2
  combines : Combines wildcard g as bs out.2 out.1

/-- Only the nodes count of the graph in which a merge begins. -/
theorem MergesTo.of_nodes_eq {w : Bool} {g h : StackGraph} (hn : h.nodes = g.nodes)
    {a b : StackRef} {out : StackRef × StackGraph} (m : MergesTo w h a b out) :
    MergesTo w g a b out where
  truthful := m.truthful
  grows := (extends_of_nodes_eq hn).trans m.grows
  known := m.known
  joined := by rw [m.joined, stackSet_of_nodes_eq hn, stackSet_of_nodes_eq hn]

/-- The empty stack merged with itself is the empty stack. -/
theorem MergesTo.eq_bottom {w : Bool} {g : StackGraph} {a b : StackRef}
    {out : StackRef × StackGraph} (hg : g.Sound) (m : MergesTo w g a b out)
    (ha : a = StackRef.bottom) (hb : b = StackRef.bottom) : out.1 = StackRef.bottom := by
  refine m.truthful.eq_of_stackSet_eq m.known m.truthful.knows_bottom ?_
  rw [m.joined, ha, hb, joined_self,
    m.grows.stackSet hg m.truthful.toSound hg.knows_bottom]

/-- Frames are combined rightly if their parents are merged rightly. -/
theorem mergeFrames_combines {w : Bool}
    {mergeParents : StackRef → StackRef → StateM StackGraph StackRef} {as bs : List Frame}
    {g : StackGraph} (hg : g.Truthful) (ha : Addable g as) (hb : Addable g bs)
    (hmerge : ∀ a ∈ as, ∀ b ∈ bs, a.returnTo = b.returnTo → ∀ h : StackGraph, h.Truthful →
      Extends g h → MergesTo w h a.parent b.parent ((mergeParents a.parent b.parent).run h)) :
    CombinesTo w g as bs ((mergeFrames mergeParents as bs).run g) := by
  fun_induction mergeFrames mergeParents as bs generalizing g with
  | case1 bs => exact ⟨hg, Extends.refl g, Combines.nil_left hb⟩
  | case2 as h => exact ⟨hg, Extends.refl g, Combines.nil_right ha⟩
  | case3 a as b bs heq ih =>
    have hm := hmerge a List.mem_cons_self b List.mem_cons_self heq g hg (Extends.refl g)
    have hrest := ih hm.truthful (ha.tail.mono hm.grows) (hb.tail.mono hm.grows)
      fun p hp q hq hx k hk e => hmerge p (List.mem_cons_of_mem a hp) q (List.mem_cons_of_mem b hq)
        hx k hk (hm.grows.trans e)
    refine ⟨hrest.truthful, hm.grows.trans hrest.grows, ?_⟩
    refine Combines.join heq ha hb (hrest.grows.knows hm.known) (fun hx => ?_) ?_
      (hrest.combines.of_extends hg.toSound hm.truthful.toSound hm.grows ha.tail hb.tail)
    · exact hm.eq_bottom hg.toSound (ha.root a List.mem_cons_self hx)
        (hb.root b List.mem_cons_self (heq ▸ hx))
    · exact (hrest.grows.stackSet hm.truthful.toSound hrest.truthful.toSound hm.known).trans
        hm.joined
  | case4 a as b bs hne hlt ih =>
    have hrest := ih hg ha.tail hb fun p hp => hmerge p (List.mem_cons_of_mem a hp)
    refine ⟨hrest.truthful, hrest.grows, hrest.combines.keep hrest.grows ha ?_⟩
    rw [List.map_cons, List.forall_mem_cons]
    exact ⟨hlt, fun x hx => before_trans hlt (hb.head_before hx)⟩
  | case5 a as b bs hne hnlt ih =>
    have hrest := ih hg ha hb.tail fun p hp q hq => hmerge p hp q (List.mem_cons_of_mem b hq)
    refine ⟨hrest.truthful, hrest.grows, ?_⟩
    refine (hrest.combines.symm.keep hrest.grows hb ?_).symm
    have hlt := before_of_not_before hne hnlt
    rw [List.map_cons, List.forall_mem_cons]
    exact ⟨hlt, fun x hx => before_trans hlt (ha.head_before hx)⟩

/-! ## Nodes -/

theorem below_stacksOver_eq_empty {g : StackGraph} (hg : g.Sound) {fs : List Frame}
    (ha : Addable g fs) {x : Nat} :
    below (g.stacksOver fs) x = ∅ ↔ some x ∉ fs.map Frame.returnTo := by
  rw [Set.eq_empty_iff_forall_notMem]
  constructor
  · intro h hx
    obtain ⟨f, hf, hfx⟩ := List.mem_map.mp hx
    obtain ⟨s, hs⟩ := hg.stackSet_nonempty (ha.known f hf)
    exact h s (cons_mem_stacksOver.mpr ⟨f, hf, hfx, hs⟩)
  · intro h s hs
    obtain ⟨f, hf, hfx, -⟩ := cons_mem_stacksOver.mp hs
    exact h (List.mem_map.mpr ⟨f, hf, hfx⟩)

/-- The only frame of a list for a return state. -/
theorem Addable.unique {g : StackGraph} {fs : List Frame} (ha : Addable g fs) {a b : Frame}
    (hfa : a ∈ fs) (hfb : b ∈ fs) (h : a.returnTo = b.returnTo) : a = b := by
  induction fs with
  | nil => simp at hfa
  | cons f fs ih =>
    rcases List.mem_cons.mp hfa with rfl | ha' <;> rcases List.mem_cons.mp hfb with rfl | hb'
    · rfl
    · exact absurd (h ▸ ha.head_before (List.mem_map_of_mem hb')) (before_irrefl _)
    · exact absurd (h ▸ ha.head_before (List.mem_map_of_mem ha')) (before_irrefl _)
    · exact ih ha.tail ha' hb'

theorem below_stacksOver {g : StackGraph} {fs : List Frame} (ha : Addable g fs) {f : Frame}
    (hf : f ∈ fs) {x : Nat} (hx : f.returnTo = some x) :
    below (g.stacksOver fs) x = g.stackSet f.parent := by
  ext s
  change x :: s ∈ g.stacksOver fs ↔ _
  rw [cons_mem_stacksOver]
  constructor
  · rintro ⟨b, hb, hbx, hs⟩
    rw [ha.unique hf hb (hx.trans hbx.symm)]
    exact hs
  · exact fun hs => ⟨f, hf, hx, hs⟩

/-- The stacks over combined frames are joined, unless the empty stack had to absorb them. -/
theorem Combines.stacksOver_eq {w : Bool} {g h : StackGraph} (hg : g.Sound) (hh : h.Sound)
    (e : Extends g h) {as bs fs : List Frame} (ha : Addable g as) (hb : Addable g bs)
    (hw : ¬ (w ∧ (g.stacksOver as = {[]} ∨ g.stacksOver bs = {[]})))
    (c : Combines w g as bs h fs) :
    h.stacksOver fs = Joined w (g.stacksOver as) (g.stacksOver bs) := by
  have hnil : ∀ {k : StackGraph} {es : List Frame},
      [] ∈ k.stacksOver es ↔ none ∈ es.map Frame.returnTo := by
    intro k es
    rw [nil_mem_stacksOver, List.mem_map]
  ext s
  cases s with
  | nil => rw [nil_mem_joined, hnil, hnil, hnil, c.returns]
  | cons x s =>
    rw [cons_mem_joined, cons_mem_stacksOver]
    simp only [ne_eq, below_stacksOver_eq_empty hg ha, below_stacksOver_eq_empty hg hb, not_not]
    constructor
    · rintro ⟨f, hf, hx, hs⟩
      refine ⟨hw, ?_⟩
      -- A frame is from one side, or was made from one of each.
      rcases c.parts f hf with ⟨hm, hn⟩ | ⟨hm, hn⟩ | ⟨p, hp, q, hq, hpx, hqx, heq⟩
      · rw [e.stackSet hg hh (ha.known f hm)] at hs
        exact .inr (.inl ⟨hx ▸ hn, cons_mem_stacksOver.mpr ⟨f, hm, hx, hs⟩⟩)
      · rw [e.stackSet hg hh (hb.known f hm)] at hs
        exact .inl ⟨hx ▸ hn, cons_mem_stacksOver.mpr ⟨f, hm, hx, hs⟩⟩
      · rw [hx] at hpx hqx
        rw [below_stacksOver ha hp hpx, below_stacksOver hb hq hqx, ← heq]
        exact .inr (.inr ⟨List.mem_map.mpr ⟨p, hp, hpx⟩, List.mem_map.mpr ⟨q, hq, hqx⟩, hs⟩)
    · rintro ⟨-, h⟩
      have hx : some x ∈ fs.map Frame.returnTo := by
        rw [c.returns]
        rcases h with ⟨-, h⟩ | ⟨-, h⟩ | ⟨h, -⟩
        · obtain ⟨f, hf, hx, -⟩ := cons_mem_stacksOver.mp h
          exact .inr (List.mem_map.mpr ⟨f, hf, hx⟩)
        · obtain ⟨f, hf, hx, -⟩ := cons_mem_stacksOver.mp h
          exact .inl (List.mem_map.mpr ⟨f, hf, hx⟩)
        · exact .inl h
      -- Below the frame for `x` is what is below the frames for `x` of both sides.
      obtain ⟨f, hf, hx⟩ := List.mem_map.mp hx
      refine ⟨f, hf, hx, ?_⟩
      rcases c.parts f hf with ⟨hm, hn⟩ | ⟨hm, hn⟩ | ⟨p, hp, q, hq, hpx, hqx, heq⟩
      · rw [hx] at hn
        have hin : some x ∈ as.map Frame.returnTo := List.mem_map.mpr ⟨f, hm, hx⟩
        rw [e.stackSet hg hh (ha.known f hm), ← below_stacksOver ha hm hx]
        tauto
      · rw [hx] at hn
        have hin : some x ∈ bs.map Frame.returnTo := List.mem_map.mpr ⟨f, hm, hx⟩
        rw [e.stackSet hg hh (hb.known f hm), ← below_stacksOver hb hm hx]
        tauto
      · rw [hx] at hpx hqx
        have hina : some x ∈ as.map Frame.returnTo := List.mem_map.mpr ⟨p, hp, hpx⟩
        have hinb : some x ∈ bs.map Frame.returnTo := List.mem_map.mpr ⟨q, hq, hqx⟩
        rw [heq, ← below_stacksOver ha hp hpx, ← below_stacksOver hb hq hqx]
        tauto

/-- The frames of a node can be added again. -/
theorem Sound.addable_frames {g : StackGraph} (hg : g.Sound) {r : StackRef} (hr : g.knows r) :
    Addable g (g.frames r) :=
  ⟨hg.ascending hr, fun _ hf => hg.knows_parent hr hf, fun _ hf => hg.parent_bottom hr hf⟩

theorem Sound.stackSet_eq_bottom_iff {g : StackGraph} (hg : g.Sound) {r : StackRef}
    (hr : g.knows r) : g.stackSet r = {[]} ↔ r = StackRef.bottom := by
  constructor
  · exact fun h => hg.eq_of_stackSet_eq hr hg.knows_bottom (h.trans hg.stackSet_bottom.symm)
  · rintro rfl
    exact hg.stackSet_bottom

namespace Truthful
variable {g : StackGraph} (hg : g.Truthful)
include hg

/-- A graph stays truthful while only nodes are added. -/
theorem of_extends {h : StackGraph} (hh : h.Sound) (e : Extends g h) (hm : h.memo = g.memo) :
    h.Truthful where
  toSound := hh
  memo key r hr := by
    rw [hm] at hr
    obtain ⟨hlow, hhigh, hknown, hs⟩ := hg.memo key r hr
    refine ⟨e.knows hlow, e.knows hhigh, e.knows hknown, ?_⟩
    rw [e.stackSet hg.toSound hh hlow, e.stackSet hg.toSound hh hhigh,
      e.stackSet hg.toSound hh hknown, hs]

/-- Counting does not matter. -/
theorem counting (hits misses : Nat) : Truthful { g with hits, misses } :=
  hg.of_extends (hg.toSound.congr rfl rfl) (extends_of_nodes_eq rfl) rfl

/-- Forgetting merges does not hurt. -/
theorem forgetMerges : g.forgetMerges.Truthful where
  toSound := hg.toSound.congr rfl rfl
  memo key r h := by simp [StackGraph.forgetMerges] at h

/-- A merge that comes out right may be remembered. -/
theorem remember {w : Bool} {a b : StackRef} (ha : g.knows a) (hb : g.knows b)
    {out : StackRef × StackGraph} (m : MergesTo w g a b out) :
    MergesTo w g a b
      (out.1, { out.2 with memo := out.2.memo.insert (mergeKey a b w) out.1 }) := by
  obtain ⟨r, h⟩ := out
  have hstacks : ∀ s, StackGraph.stackSet { h with memo := h.memo.insert (mergeKey a b w) r } s =
      h.stackSet s := stackSet_of_nodes_eq rfl
  refine ⟨⟨m.truthful.toSound.congr rfl rfl, fun key s hs => ?_⟩, m.grows, m.known,
    (hstacks r).trans m.joined⟩
  simp only [hstacks]
  rw [Std.HashMap.getElem?_insert] at hs
  split at hs
  · next heq =>
    obtain rfl := eq_of_beq heq
    cases hs
    have hj := m.joined
    rw [← m.grows.stackSet hg.toSound m.truthful.toSound ha,
      ← m.grows.stackSet hg.toSound m.truthful.toSound hb] at hj
    have hka := m.grows.knows ha
    have hkb := m.grows.knows hb
    simp only [mergeKey]
    rcases Nat.le_total a.index b.index with hle | hle
    · rw [Nat.min_eq_left hle, Nat.max_eq_right hle]
      exact ⟨hka, hkb, m.known, hj⟩
    · rw [Nat.min_eq_right hle, Nat.max_eq_left hle]
      exact ⟨hkb, hka, m.known, hj.trans (joined_comm ..)⟩
  · exact m.truthful.memo key s hs

/-- What the memo answers is right. -/
theorem recalled {w : Bool} {a b r : StackRef} (h : g.memo[mergeKey a b w]? = some r) (hits : Nat) :
    MergesTo w g a b (r, { g with hits }) := by
  obtain ⟨-, -, hknown, hs⟩ := hg.memo _ _ h
  refine ⟨hg.counting hits g.misses, Extends.refl g, hknown, ?_⟩
  have hstacks : StackGraph.stackSet { g with hits } r = g.stackSet r :=
    stackSet_of_nodes_eq (g := g) (h := { g with hits }) rfl r
  refine hstacks.trans (hs.trans ?_)
  simp only [mergeKey]
  rcases Nat.le_total a.index b.index with hle | hle
  · rw [Nat.min_eq_left hle, Nat.max_eq_right hle]
  · rw [Nat.min_eq_right hle, Nat.max_eq_left hle]
    exact joined_comm ..

end Truthful

theorem intern_memo (g : StackGraph) (fs : List Frame) : (g.intern fs).2.memo = g.memo := by
  unfold StackGraph.intern
  split
  · rfl
  · rfl
  · split <;> rfl

theorem truthful_empty : Truthful empty where
  toSound := sound_empty
  memo key r h := by simp [empty] at h

/-- Interning frames that can be added keeps a graph truthful. -/
theorem Truthful.intern {g : StackGraph} (hg : g.Truthful) {fs : List Frame} (hne : fs ≠ [])
    (ha : Addable g fs) : (g.intern fs).2.Truthful :=
  have h := hg.toSound.intern hne ha
  hg.of_extends h.1 h.2.1 (intern_memo g fs)

/-- The node for combined frames is what the merge has to come to. -/
theorem CombinesTo.intern {w : Bool} {g : StackGraph} (hg : g.Truthful) {a b : StackRef}
    (ha : g.knows a) (hb : g.knows b)
    (hw : ¬ (w ∧ (a = StackRef.bottom ∨ b = StackRef.bottom))) {out : List Frame × StackGraph}
    (c : CombinesTo w g (g.frames a) (g.frames b) out) :
    MergesTo w g a b (out.2.intern out.1) := by
  have hw' : ¬ (w ∧ (g.stackSet a = {[]} ∨ g.stackSet b = {[]})) := by
    rwa [hg.stackSet_eq_bottom_iff ha, hg.stackSet_eq_bottom_iff hb]
  rw [hg.stackSet_eq ha, hg.stackSet_eq hb] at hw'
  have hs := c.combines.stacksOver_eq hg.toSound c.truthful.toSound c.grows (hg.addable_frames ha)
    (hg.addable_frames hb) hw'
  have hne : out.1 ≠ [] := by
    intro h0
    obtain ⟨f, hf⟩ := hg.frames_ne_nil ha
    have := (c.combines.returns f.returnTo).mpr (.inl (List.mem_map_of_mem hf))
    simp [h0] at this
  obtain ⟨hsound, hgrow, hknown, hframes⟩ := c.truthful.toSound.intern hne c.combines.addable
  refine ⟨c.truthful.of_extends hsound hgrow (intern_memo _ _), c.grows.trans hgrow, hknown, ?_⟩
  rw [hsound.stackSet_eq hknown, hframes,
    hgrow.stacksOver c.truthful.toSound hsound c.combines.addable.known, hs,
    ← hg.stackSet_eq ha, ← hg.stackSet_eq hb]

/-- The merge of two different nodes that is not remembered. -/
def worked (w : Bool) (fuel : Nat) (a b : StackRef) (g : StackGraph) : StackRef × StackGraph :=
  if w && (a.isBottom || b.isBottom) then (StackRef.bottom, g)
  else
    let out := (mergeFrames (mergeWithin w fuel) (g.frames a) (g.frames b)).run g
    out.2.intern out.1

theorem mergeWithin_run {w : Bool} {fuel : Nat} {a b : StackRef} {g : StackGraph} (hab : a ≠ b) :
    (mergeWithin w (fuel + 1) a b).run g =
      match g.memo[mergeKey a b w]? with
      | some r => (r, { g with hits := g.hits + 1 })
      | none =>
        let out := worked w fuel a b { g with misses := g.misses + 1 }
        (out.1, { out.2 with memo := out.2.memo.insert (mergeKey a b w) out.1 }) := by
  rw [mergeWithin, if_neg hab]
  cases hm : g.memo[mergeKey a b w]? with
  | some r =>
    simp only [StateT.run_bind, StateT.run_get, pure_bind, hm]
    rfl
  | none =>
    simp only [StateT.run_bind, StateT.run_get, pure_bind, hm, worked]
    split <;> rfl

/-- Working out a merge comes out right if the merges one level below do. -/
theorem Truthful.worked {w : Bool} {fuel : Nat} {g : StackGraph} (hg : g.Truthful)
    {a b : StackRef} (ha : g.knows a) (hb : g.knows b) (hfuel : min a.index b.index < fuel + 1)
    (ih : ∀ {h : StackGraph}, h.Truthful → ∀ {p q : StackRef}, h.knows p → h.knows q →
      (p = q ∨ min p.index q.index < fuel) → MergesTo w h p q ((mergeWithin w fuel p q).run h)) :
    MergesTo w g a b (worked w fuel a b g) := by
  unfold StackGraph.worked
  split
  · next hw =>
    rw [Bool.and_eq_true, Bool.or_eq_true, isBottom_iff, isBottom_iff] at hw
    obtain ⟨rfl, hbot⟩ := hw
    refine ⟨hg, Extends.refl g, hg.knows_bottom, ?_⟩
    rw [← hg.stackSet_eq_bottom_iff ha, ← hg.stackSet_eq_bottom_iff hb] at hbot
    rw [hg.stackSet_bottom, joined_true_bottom hbot]
  · next hw =>
    rw [Bool.and_eq_true, Bool.or_eq_true, isBottom_iff, isBottom_iff] at hw
    refine CombinesTo.intern hg ha hb hw ?_
    refine mergeFrames_combines hg (hg.addable_frames ha) (hg.addable_frames hb)
      fun p hp q hq hx h hh e => ?_
    refine ih hh (e.knows (hg.knows_parent ha hp)) (e.knows (hg.knows_parent hb hq)) ?_
    cases hpx : p.returnTo with
    | none => exact .inl ((hg.parent_bottom ha hp hpx).trans
        (hg.parent_bottom hb hq (hx ▸ hpx)).symm)
    | some x =>
      have hpl := hg.parent_lt ha hp hpx
      have hql := hg.parent_lt hb hq (hx ▸ hpx)
      right
      omega

/-- Merging through enough levels of parents comes out right.  The lower of the two nodes bounds
the number of levels, since both go down together. -/
theorem mergeWithin_mergesTo {w : Bool} {fuel : Nat} {g : StackGraph} (hg : g.Truthful)
    {a b : StackRef} (ha : g.knows a) (hb : g.knows b)
    (hfuel : a = b ∨ min a.index b.index < fuel) :
    MergesTo w g a b ((mergeWithin w fuel a b).run g) := by
  induction fuel generalizing g a b with
  | zero =>
    obtain rfl : a = b := hfuel.resolve_right (Nat.not_lt_zero _)
    exact ⟨hg, Extends.refl g, ha, (joined_self w _).symm⟩
  | succ fuel ih =>
    by_cases hab : a = b
    · subst hab
      rw [mergeWithin, if_pos rfl]
      exact ⟨hg, Extends.refl g, ha, (joined_self w _).symm⟩
    · rw [mergeWithin_run hab]
      split
      · next r hr => exact hg.recalled hr _
      · have hcount := hg.counting g.hits (g.misses + 1)
        refine hg.remember ha hb (MergesTo.of_nodes_eq ?_
          (hcount.worked ha hb (hfuel.resolve_left hab) ih))
        rfl

/-- The merge of two nodes is a node, and its stacks are those of the two, joined. -/
theorem Truthful.merge {g : StackGraph} (hg : g.Truthful) {a b : StackRef} (ha : g.knows a)
    (hb : g.knows b) (w : Bool) : MergesTo w g a b (g.merge a b w) := by
  refine mergeWithin_mergesTo hg ha hb (.inr ?_)
  have hlt := knows_iff_lt.mp ha
  rw [size]
  omega

end StackGraph
end AdaptiveLL
