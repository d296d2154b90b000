import Mathlib
import AdaptiveLL.StackGraph.Stacks
import AdaptiveLL.Proofs.StackGraph.Sound

/-! # The stacks of a node, as a set

`stackSet` collects what `stacksOf` lists.  In a sound graph the stacks of a node are those over its
frames (`stackSet_eq`), growing changes none of them (`Extends.stackSet`), and no stack is listed
twice (`nodup_stacksOf`).  Two nodes with the same stacks have frames that agree one by one, even
in different graphs (`frames_agree`); in one graph they are the same node (`eq_of_stackSet_eq`).
-/
namespace AdaptiveLL
namespace StackGraph

/-- The stacks of a node. -/
def stackSet (g : StackGraph) (r : StackRef) : Set (List Nat) := {s | s ∈ g.stacksOf r}

/-- The stacks that begin with one of the frames. -/
def stacksOver (g : StackGraph) (frames : List Frame) : Set (List Nat) :=
  {s | ∃ f ∈ frames,
    match f.returnTo with
    | none => s = []
    | some x => ∃ below ∈ g.stackSet f.parent, s = x :: below}

theorem nil_mem_stacksOver {g : StackGraph} {fs : List Frame} :
    [] ∈ g.stacksOver fs ↔ ∃ f ∈ fs, f.returnTo = none := by
  constructor
  · rintro ⟨f, hf, h⟩
    refine ⟨f, hf, ?_⟩
    cases hx : f.returnTo with
    | none => rfl
    | some x => simp [hx] at h
  · rintro ⟨f, hf, h⟩
    exact ⟨f, hf, by simp [h]⟩

theorem cons_mem_stacksOver {g : StackGraph} {fs : List Frame} {x : Nat} {s : List Nat} :
    x :: s ∈ g.stacksOver fs ↔ ∃ f ∈ fs, f.returnTo = some x ∧ s ∈ g.stackSet f.parent := by
  constructor
  · rintro ⟨f, hf, h⟩
    cases hx : f.returnTo with
    | none => simp [hx] at h
    | some y =>
      simp only [hx, List.cons.injEq] at h
      obtain ⟨below, hbelow, rfl, rfl⟩ := h
      exact ⟨f, hf, hx, hbelow⟩
  · rintro ⟨f, hf, hx, hs⟩
    exact ⟨f, hf, by simpa [hx] using hs⟩

@[simp] theorem stacksOver_nil (g : StackGraph) : g.stacksOver [] = ∅ := by
  ext s
  simp [stacksOver]

theorem stacksOver_singleton {g : StackGraph} {x : Nat} {parent : StackRef} :
    g.stacksOver [⟨some x, parent⟩] = (x :: ·) '' g.stackSet parent := by
  ext s
  cases s with
  | nil => simp [nil_mem_stacksOver]
  | cons y s =>
    rw [cons_mem_stacksOver]
    simp only [List.mem_singleton, exists_eq_left, Option.some.injEq, Set.mem_image,
      List.cons.injEq]
    constructor
    · rintro ⟨rfl, h⟩
      exact ⟨s, h, rfl, rfl⟩
    · rintro ⟨_, h, rfl, rfl⟩
      exact ⟨rfl, h⟩

/-! ## Levels of parents -/

namespace Sound
variable {g : StackGraph} (hg : g.Sound)
include hg

/-- With more levels than its position, the stacks of a node no longer depend on their number. -/
theorem stacksWithin_eq {r : StackRef} (hr : g.knows r) {k l : Nat} (hk : r.index < k)
    (hl : r.index < l) : g.stacksWithin k r = g.stacksWithin l r := by
  induction k generalizing r l with
  | zero => omega
  | succ k ih =>
    cases l with
    | zero => omega
    | succ l =>
      rw [stacksWithin, stacksWithin, List.flatMap_def, List.flatMap_def]
      refine congrArg List.flatten (List.map_congr_left fun f hf => ?_)
      cases hx : f.returnTo with
      | none => rfl
      | some x =>
        have hlt := hg.parent_lt hr hf hx
        simp only
        rw [ih (hg.knows_parent hr hf) (by omega) (by omega : f.parent.index < l)]

/-- The list of a node's stacks is put together from those of its frames. -/
theorem stacksOf_eq {r : StackRef} (hr : g.knows r) :
    g.stacksOf r = (g.frames r).flatMap fun f =>
      match f.returnTo with
      | none => [[]]
      | some x => (g.stacksOf f.parent).map (x :: ·) := by
  have hlt := knows_iff_lt.mp hr
  rw [stacksOf, size, stacksWithin, List.flatMap_def, List.flatMap_def]
  refine congrArg List.flatten (List.map_congr_left fun f hf => ?_)
  cases hx : f.returnTo with
  | none => rfl
  | some x =>
    have hp := hg.parent_lt hr hf hx
    simp only
    rw [stacksOf, size, hg.stacksWithin_eq (hg.knows_parent hr hf) (by omega)
      (by omega : f.parent.index < g.nodes.size + 1)]

/-- The stacks of a node are those over its frames. -/
theorem stackSet_eq {r : StackRef} (hr : g.knows r) : g.stackSet r = g.stacksOver (g.frames r) := by
  ext s
  change s ∈ g.stacksOf r ↔ _
  rw [hg.stacksOf_eq hr, List.mem_flatMap]
  refine exists_congr fun f => and_congr_right fun _ => ?_
  cases f.returnTo with
  | none => simp
  | some x => simp [stackSet, eq_comm]

theorem stackSet_bottom : g.stackSet StackRef.bottom = {[]} := by
  rw [hg.stackSet_eq hg.knows_bottom, hg.frames_bottom]
  ext s
  cases s with
  | nil => simp [nil_mem_stacksOver, Frame.root]
  | cons x s => simp [cons_mem_stacksOver, Frame.root]

/-- Every node has a stack. -/
theorem stackSet_nonempty {r : StackRef} (hr : g.knows r) : (g.stackSet r).Nonempty := by
  induction hi : r.index using Nat.strong_induction_on generalizing r with
  | _ i ih =>
    by_cases hne : r = StackRef.bottom
    · rw [hne, hg.stackSet_bottom]
      exact ⟨[], rfl⟩
    · obtain ⟨f, hf, hx⟩ := (hg.frames_shaped hr hne).pushed
      obtain ⟨x, hx⟩ := Option.ne_none_iff_exists'.mp hx
      obtain ⟨s, hs⟩ := ih f.parent.index (hi ▸ hg.parent_lt hr hf hx) (hg.knows_parent hr hf) rfl
      rw [hg.stackSet_eq hr]
      exact ⟨x :: s, cons_mem_stacksOver.mpr ⟨f, hf, hx, hs⟩⟩

/-- The only frame of a node for a return state. -/
theorem frame_unique {r : StackRef} (hr : g.knows r) {f f' : Frame} (hf : f ∈ g.frames r)
    (hf' : f' ∈ g.frames r) (h : f.returnTo = f'.returnTo) : f = f' := by
  have irrefl : ∀ x, Frame.before x x = false := by
    intro x
    cases x <;> simp [Frame.before]
  by_contra hne
  rcases List.mem_iff_getElem.mp hf with ⟨i, hi, rfl⟩
  rcases List.mem_iff_getElem.mp hf' with ⟨j, hj, rfl⟩
  have hp := List.pairwise_iff_getElem.mp (hg.ascending hr)
  rcases Nat.lt_trichotomy i j with hij | rfl | hij
  · have := hp i j hi hj hij
    rw [h, irrefl] at this
    contradiction
  · exact hne rfl
  · have := hp j i hj hi hij
    rw [h, irrefl] at this
    contradiction

/-- The stacks below a frame are what is left of the node's stacks that begin with its state. -/
theorem mem_parent_iff {r : StackRef} (hr : g.knows r) {f : Frame} (hf : f ∈ g.frames r) {x : Nat}
    (hx : f.returnTo = some x) (s : List Nat) : s ∈ g.stackSet f.parent ↔ x :: s ∈ g.stackSet r := by
  rw [hg.stackSet_eq hr, cons_mem_stacksOver]
  constructor
  · exact fun hs => ⟨f, hf, hx, hs⟩
  · rintro ⟨f', hf', hx', hs⟩
    rw [hg.frame_unique hr hf hf' (hx.trans hx'.symm)]
    exact hs

/-- A node has a frame for a state exactly if a stack begins with it. -/
theorem mem_returns_iff {r : StackRef} (hr : g.knows r) (x : Option Nat) :
    x ∈ (g.frames r).map Frame.returnTo ↔
      match x with
      | none => [] ∈ g.stackSet r
      | some x => ∃ s, x :: s ∈ g.stackSet r := by
  rw [hg.stackSet_eq hr, List.mem_map]
  cases x with
  | none => simp [nil_mem_stacksOver]
  | some x =>
    simp only [cons_mem_stacksOver]
    constructor
    · rintro ⟨f, hf, hx⟩
      obtain ⟨s, hs⟩ := hg.stackSet_nonempty (hg.knows_parent hr hf)
      exact ⟨s, f, hf, hx, hs⟩
    · rintro ⟨_, f, hf, hx, _⟩
      exact ⟨f, hf, hx⟩

/-- The end of a stack comes last among the frames of a node, so looking there is enough. -/
theorem hasEmptyStack_iff {r : StackRef} (hr : g.knows r) :
    g.hasEmptyStack r ↔ [] ∈ g.stackSet r := by
  have hnone : none ∈ (g.frames r).map Frame.returnTo ↔ [] ∈ g.stackSet r := hg.mem_returns_iff hr none
  rw [← hnone, List.mem_map, hasEmptyStack]
  have hasc := hg.ascending hr
  cases hl : (g.frames r).getLast? with
  | none =>
    obtain ⟨f, hf⟩ := hg.frames_ne_nil hr
    rw [List.getLast?_eq_none_iff.mp hl] at hf
    cases hf
  | some last =>
    obtain ⟨init, hfs⟩ := List.getLast?_eq_some_iff.mp hl
    rw [hfs] at hasc ⊢
    simp only [Option.isNone_iff_eq_none]
    constructor
    · exact fun h => ⟨last, by simp, h⟩
    · rintro ⟨f, hf, hx⟩
      rcases List.mem_append.mp hf with hf | hf
      · have := (List.pairwise_append.mp hasc).2.2 f hf last (List.mem_singleton_self _)
        rw [hx, before_none_left] at this
        contradiction
      · exact List.mem_singleton.mp hf ▸ hx

end Sound

/-! ## Growing -/

/-- Growing does not change the stacks of a node. -/
theorem Extends.stackSet {g h : StackGraph} (e : Extends g h) (hg : g.Sound) (hh : h.Sound)
    {r : StackRef} (hr : g.knows r) : h.stackSet r = g.stackSet r := by
  induction hi : r.index using Nat.strong_induction_on generalizing r with
  | _ i ih =>
    rw [hh.stackSet_eq (e.knows hr), hg.stackSet_eq hr, e.frames hr]
    ext s
    refine exists_congr fun f => and_congr_right fun hf => ?_
    cases hx : f.returnTo with
    | none => rfl
    | some x =>
      simp only
      rw [ih f.parent.index (hi ▸ hg.parent_lt hr hf hx) (hg.knows_parent hr hf) rfl]

/-- Only the nodes of a graph matter for the stacks of a node. -/
theorem stackSet_of_nodes_eq {g h : StackGraph} (hn : h.nodes = g.nodes) (r : StackRef) :
    h.stackSet r = g.stackSet r := by
  have hwithin : ∀ k r, h.stacksWithin k r = g.stacksWithin k r := by
    intro k
    induction k with
    | zero => exact fun _ => rfl
    | succ k ih =>
      intro r
      simp only [stacksWithin, frames, hn, ih]
  ext s
  change s ∈ h.stacksOf r ↔ s ∈ g.stacksOf r
  rw [stacksOf, stacksOf, size, size, hn, hwithin]

/-- Growing does not change the stacks over frames. -/
theorem Extends.stacksOver {g h : StackGraph} (e : Extends g h) (hg : g.Sound) (hh : h.Sound)
    {fs : List Frame} (hfs : ∀ f ∈ fs, g.knows f.parent) : h.stacksOver fs = g.stacksOver fs := by
  ext s
  refine exists_congr fun f => and_congr_right fun hf => ?_
  rw [e.stackSet hg hh (hfs f hf)]

/-! ## Nodes are determined by their stacks -/

/-- No stack is listed twice. -/
theorem Sound.nodup_stacksOf {g : StackGraph} (hg : g.Sound) {r : StackRef} (hr : g.knows r) :
    (g.stacksOf r).Nodup := by
  induction hi : r.index using Nat.strong_induction_on generalizing r with
  | _ i ih =>
    rw [hg.stacksOf_eq hr, List.nodup_flatMap]
    constructor
    · intro f hf
      cases hx : f.returnTo with
      | none => exact List.nodup_singleton _
      | some x =>
        have hlt := hg.parent_lt hr hf hx
        exact (ih f.parent.index (hi ▸ hlt) (hg.knows_parent hr hf) rfl).map
          (List.cons_injective)
    · refine (hg.ascending hr).imp fun {a b} hab s ha hb => ?_
      cases hx : a.returnTo with
      | none => rw [hx, before_none_left] at hab; contradiction
      | some x =>
        simp only [hx, List.mem_map] at ha
        obtain ⟨s', -, rfl⟩ := ha
        cases hy : b.returnTo with
        | none => simp [hy] at hb
        | some y =>
          simp only [hy, List.mem_map, List.cons.injEq] at hb
          obtain ⟨-, -, rfl, -⟩ := hb
          simp [hx, hy, Frame.before] at hab

private instance before_antisymm :
    Std.Antisymm fun a b : Option Nat => (Frame.before a b : Prop) where
  antisymm a b hab hba := by
    cases a <;> cases b <;> simp_all [Frame.before]
    omega

private instance irreflexive_before :
    Std.Irrefl fun a b : Option Nat => (Frame.before a b : Prop) where
  irrefl a h := by
    cases a <;> simp [Frame.before] at h

/-- Frames of nodes with the same stacks agree one by one: in the state to return to and in the
stacks below. -/
theorem frames_agree {g h : StackGraph} (hg : g.Sound) (hh : h.Sound) {a b : StackRef}
    (ha : g.knows a) (hb : h.knows b) (heq : g.stackSet a = h.stackSet b) :
    List.Forall₂ (fun f f' => f.returnTo = f'.returnTo ∧ g.stackSet f.parent = h.stackSet f'.parent)
      (g.frames a) (h.frames b) := by
  have hret : (g.frames a).map Frame.returnTo = (h.frames b).map Frame.returnTo := by
    refine List.Pairwise.eq_of_mem_iff (r := fun a b : Option Nat => (Frame.before a b : Prop))
      (List.pairwise_map.mpr (hg.ascending ha)) (List.pairwise_map.mpr (hh.ascending hb)) ?_
    intro x
    rw [hg.mem_returns_iff ha, hh.mem_returns_iff hb, heq]
  have hlen : (g.frames a).length = (h.frames b).length := by
    simpa using congrArg List.length hret
  refine List.forall₂_iff_get.mpr ⟨hlen, fun i hi hj => ?_⟩
  have hx : ((g.frames a).get ⟨i, hi⟩).returnTo = ((h.frames b).get ⟨i, hj⟩).returnTo := by
    have := congrArg (·[i]?) hret
    simpa [hi, hj] using this
  refine ⟨hx, ?_⟩
  have hma : (g.frames a).get ⟨i, hi⟩ ∈ g.frames a := List.get_mem _ _
  have hmb : (h.frames b).get ⟨i, hj⟩ ∈ h.frames b := List.get_mem _ _
  cases hy : ((h.frames b).get ⟨i, hj⟩).returnTo with
  | none =>
    rw [hg.parent_bottom ha hma (hx.trans hy), hh.parent_bottom hb hmb hy, hg.stackSet_bottom,
      hh.stackSet_bottom]
  | some x =>
    ext s
    rw [hg.mem_parent_iff ha hma (hx.trans hy), hh.mem_parent_iff hb hmb hy, heq]

/-- Nodes whose frames agree one by one have the same stacks. -/
theorem stackSet_eq_of_agree {g h : StackGraph} (hg : g.Sound) (hh : h.Sound) {a b : StackRef}
    (ha : g.knows a) (hb : h.knows b)
    (hframes : List.Forall₂
      (fun f f' => f.returnTo = f'.returnTo ∧ g.stackSet f.parent = h.stackSet f'.parent)
      (g.frames a) (h.frames b)) : g.stackSet a = h.stackSet b := by
  rw [hg.stackSet_eq ha, hh.stackSet_eq hb]
  generalize g.frames a = fs at hframes
  generalize h.frames b = fs' at hframes
  ext s
  induction hframes with
  | nil => simp
  | cons hff' _ ih =>
    simp only [stacksOver, Set.mem_ofPred_eq, List.mem_cons, exists_eq_or_imp] at ih ⊢
    rw [hff'.1, hff'.2, ih]

/-- In one graph nodes with the same stacks are the same node. -/
theorem Sound.eq_of_stackSet_eq {g : StackGraph} (hg : g.Sound) {a b : StackRef} (ha : g.knows a)
    (hb : g.knows b) (heq : g.stackSet a = g.stackSet b) : a = b := by
  induction hi : a.index using Nat.strong_induction_on generalizing a b with
  | _ i ih =>
    refine hg.eq_of_frames_eq ha hb (List.forall₂_eq_eq_eq ▸ ?_)
    have hagree := frames_agree hg hg ha hb heq
    refine List.forall₂_iff_get.mpr ⟨hagree.length_eq, fun j hj hj' => ?_⟩
    obtain ⟨hx, hs⟩ := (List.forall₂_iff_get.mp hagree).2 j hj hj'
    have hma : (g.frames a).get ⟨j, hj⟩ ∈ g.frames a := List.get_mem _ _
    have hmb : (g.frames b).get ⟨j, hj'⟩ ∈ g.frames b := List.get_mem _ _
    have hparent : ((g.frames a).get ⟨j, hj⟩).parent = ((g.frames b).get ⟨j, hj'⟩).parent := by
      cases hy : ((g.frames a).get ⟨j, hj⟩).returnTo with
      | none => rw [hg.parent_bottom ha hma hy, hg.parent_bottom hb hmb (hx ▸ hy)]
      | some x =>
        exact ih _ (hi ▸ hg.parent_lt ha hma hy) (hg.knows_parent ha hma)
          (hg.knows_parent hb hmb) hs rfl
    generalize (g.frames a).get ⟨j, hj⟩ = f at hx hparent ⊢
    generalize (g.frames b).get ⟨j, hj'⟩ = f' at hx hparent ⊢
    cases f
    cases f'
    simp_all

/-- The stacks of a node that was pushed. -/
theorem Sound.stackSet_push {g : StackGraph} (hg : g.Sound) {parent : StackRef}
    (hp : g.knows parent) (x : Nat) :
    (g.push parent (some x)).2.stackSet (g.push parent (some x)).1 =
      (x :: ·) '' g.stackSet parent := by
  obtain ⟨hs, he, hk, hf⟩ := hg.push hp x
  rw [hs.stackSet_eq hk, hf, stacksOver_singleton, he.stackSet hg hs hp]

end StackGraph
end AdaptiveLL
