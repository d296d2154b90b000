import Mathlib
import AdaptiveLL.StackGraph.Basic

/-! # Sound stack graphs

What holds of every stack graph that was built with the operations of the library, and how such a
graph grows.  `Sound` says that position zero is the empty stack, that the index finds exactly the
nodes that are there, and that every other node is well shaped: its frames ascend, lie over nodes
with smaller positions, and are not the end of the stack alone.  A graph never loses or changes a
node while it grows (`Extends`), so whatever is known of a node stays true.
-/
namespace AdaptiveLL
namespace StackGraph

/-- The frames that a node other than the empty stack may have at a position. -/
structure Shaped (position : Nat) (frames : List Frame) : Prop where
  ascending : frames.Pairwise fun a b => Frame.before a.returnTo b.returnTo
  below : ∀ f ∈ frames, f.parent.index < position
  root : ∀ f ∈ frames, f.returnTo = none → f.parent = StackRef.bottom
  pushed : ∃ f ∈ frames, f.returnTo ≠ none

/-- The nodes and the index of a graph agree, and every node is well shaped. -/
structure Sound (g : StackGraph) : Prop where
  bottom : g.nodes[0]? = some [Frame.root]
  indexed : ∀ (fs : List Frame) (r : StackRef), g.index[fs]? = some r ↔ g.nodes[r.index]? = some fs
  shaped : ∀ (i : Nat) (fs : List Frame), g.nodes[i]? = some fs → i ≠ 0 → Shaped i fs

/-- `h` has the nodes of `g`, and perhaps more. -/
def Extends (g h : StackGraph) : Prop :=
  ∀ ⦃i : Nat⦄ ⦃fs : List Frame⦄, g.nodes[i]? = some fs → h.nodes[i]? = some fs

theorem Extends.refl (g : StackGraph) : Extends g g := fun _ _ h => h

theorem Extends.trans {g h k : StackGraph} (hgh : Extends g h) (hhk : Extends h k) :
    Extends g k :=
  fun _ _ hi => hhk (hgh hi)

theorem knows_iff_lt {g : StackGraph} {r : StackRef} : g.knows r ↔ r.index < g.nodes.size := by
  rw [knows, decide_eq_true_iff, size]

theorem knows_iff {g : StackGraph} {r : StackRef} :
    g.knows r ↔ ∃ fs, g.nodes[r.index]? = some fs := by
  rw [knows_iff_lt]
  simp [Array.getElem?_eq_some_iff]

theorem knows_of_get {g : StackGraph} {r : StackRef} {fs : List Frame}
    (h : g.nodes[r.index]? = some fs) : g.knows r :=
  knows_iff.mpr ⟨fs, h⟩

theorem frames_of_get {g : StackGraph} {r : StackRef} {fs : List Frame}
    (h : g.nodes[r.index]? = some fs) : g.frames r = fs := by
  simp [frames, h]

theorem get_frames {g : StackGraph} {r : StackRef} (h : g.knows r) :
    g.nodes[r.index]? = some (g.frames r) := by
  obtain ⟨fs, hfs⟩ := knows_iff.mp h
  rw [frames_of_get hfs, hfs]

theorem Extends.knows {g h : StackGraph} (e : Extends g h) {r : StackRef} (hr : g.knows r) :
    h.knows r :=
  knows_of_get (e (get_frames hr))

theorem Extends.frames {g h : StackGraph} (e : Extends g h) {r : StackRef} (hr : g.knows r) :
    h.frames r = g.frames r :=
  frames_of_get (e (get_frames hr))

theorem knows_of_le {g : StackGraph} {r p : StackRef} (hr : g.knows r)
    (hle : p.index ≤ r.index) : g.knows p := by
  rw [knows_iff_lt] at hr ⊢
  exact Nat.lt_of_le_of_lt hle hr

theorem isBottom_iff {r : StackRef} : r.isBottom ↔ r = StackRef.bottom := by
  cases r
  simp [StackRef.isBottom, StackRef.bottom]

theorem index_ne_zero {r : StackRef} (h : r ≠ StackRef.bottom) : r.index ≠ 0 := by
  intro h0
  apply h
  cases r
  simp_all [StackRef.bottom]

namespace Sound
variable {g : StackGraph} (hg : g.Sound)
include hg

theorem knows_bottom : g.knows StackRef.bottom := knows_of_get hg.bottom

theorem frames_bottom : g.frames StackRef.bottom = [Frame.root] := frames_of_get hg.bottom

theorem frames_shaped {r : StackRef} (hr : g.knows r) (hne : r ≠ StackRef.bottom) :
    Shaped r.index (g.frames r) :=
  hg.shaped r.index _ (get_frames hr) (index_ne_zero hne)

/-- The frames of any node ascend. -/
theorem ascending {r : StackRef} (hr : g.knows r) :
    (g.frames r).Pairwise fun a b => Frame.before a.returnTo b.returnTo := by
  by_cases hne : r = StackRef.bottom
  · rw [hne, hg.frames_bottom]
    exact List.pairwise_singleton _ _
  · exact (hg.frames_shaped hr hne).ascending

/-- Below a frame with a return state lies a node with a smaller position. -/
theorem parent_lt {r : StackRef} (hr : g.knows r) {f : Frame} (hf : f ∈ g.frames r) {x : Nat}
    (hx : f.returnTo = some x) : f.parent.index < r.index := by
  by_cases hne : r = StackRef.bottom
  · subst hne
    rw [hg.frames_bottom, List.mem_singleton] at hf
    subst hf
    simp [Frame.root] at hx
  · exact (hg.frames_shaped hr hne).below f hf

theorem parent_bottom {r : StackRef} (hr : g.knows r) {f : Frame} (hf : f ∈ g.frames r)
    (hx : f.returnTo = none) : f.parent = StackRef.bottom := by
  by_cases hne : r = StackRef.bottom
  · subst hne
    rw [hg.frames_bottom, List.mem_singleton] at hf
    subst hf
    rfl
  · exact (hg.frames_shaped hr hne).root f hf hx

theorem knows_parent {r : StackRef} (hr : g.knows r) {f : Frame} (hf : f ∈ g.frames r) :
    g.knows f.parent := by
  cases hx : f.returnTo with
  | none =>
    rw [hg.parent_bottom hr hf hx]
    exact hg.knows_bottom
  | some x => exact knows_of_le hr (Nat.le_of_lt (hg.parent_lt hr hf hx))

theorem frames_ne_nil {r : StackRef} (hr : g.knows r) : ∃ f, f ∈ g.frames r := by
  by_cases hne : r = StackRef.bottom
  · exact ⟨Frame.root, by simp [hne, hg.frames_bottom]⟩
  · obtain ⟨f, hf, -⟩ := (hg.frames_shaped hr hne).pushed
    exact ⟨f, hf⟩

/-- Two nodes with the same frames are one. -/
theorem eq_of_frames_eq {a b : StackRef} (ha : g.knows a) (hb : g.knows b)
    (h : g.frames a = g.frames b) : a = b := by
  have ha' := (hg.indexed _ _).mpr (get_frames ha)
  have hb' := (hg.indexed _ _).mpr (get_frames hb)
  rw [h, hb'] at ha'
  exact (Option.some.inj ha').symm

end Sound

theorem sound_empty : Sound empty where
  bottom := rfl
  indexed fs r := by
    rw [empty, Std.HashMap.getElem?_insert]
    simp only [beq_iff_eq, Std.HashMap.getElem?_empty]
    constructor
    · intro h
      split at h
      · next heq =>
        subst heq
        cases h
        rfl
      · contradiction
    · intro h
      obtain ⟨hlt, heq⟩ := Array.getElem?_eq_some_iff.mp h
      have h0 : r.index = 0 := by simpa using hlt
      cases r
      subst h0
      simp only [List.getElem_toArray, List.getElem_cons_zero] at heq
      rw [if_pos heq]
      rfl
  shaped i fs h hi := by
    obtain ⟨hlt, -⟩ := Array.getElem?_eq_some_iff.mp h
    simp [empty] at hlt
    omega

/-! ## Adding nodes -/

/-- What frames must satisfy to be added as a node: they ascend, lie over nodes that are there,
and only an empty stack lies below the end of a stack. -/
structure Addable (g : StackGraph) (frames : List Frame) : Prop where
  ascending : frames.Pairwise fun a b => Frame.before a.returnTo b.returnTo
  known : ∀ f ∈ frames, g.knows f.parent
  root : ∀ f ∈ frames, f.returnTo = none → f.parent = StackRef.bottom

theorem before_none_left (x : Option Nat) : Frame.before none x = false := by
  cases x <;> rfl

/-- Ascending frames that are not the end of the stack alone have a return state. -/
theorem exists_pushed {f : Frame} {fs : List Frame}
    (h : (f :: fs).Pairwise fun a b => Frame.before a.returnTo b.returnTo)
    (hne : ¬ (f.returnTo = none ∧ fs = [])) : ∃ a ∈ f :: fs, a.returnTo ≠ none := by
  refine ⟨f, List.mem_cons_self, fun hf => hne ⟨hf, ?_⟩⟩
  cases fs with
  | nil => rfl
  | cons b bs =>
    have := (List.pairwise_cons.mp h).1 b List.mem_cons_self
    rw [hf, before_none_left] at this
    contradiction

/-- What `intern` does with frames that are not just the end of the stack. -/
theorem intern_cons {g : StackGraph} {f : Frame} {fs : List Frame}
    (hne : ¬ (f.returnTo = none ∧ fs = [])) :
    g.intern (f :: fs) =
      match g.index[f :: fs]? with
      | some r => (r, g)
      | none => (⟨g.nodes.size⟩,
          { g with
            nodes := g.nodes.push (f :: fs)
            index := g.index.insert (f :: fs) ⟨g.nodes.size⟩ }) := by
  obtain ⟨returnTo, parent⟩ := f
  cases returnTo with
  | none =>
    cases fs with
    | nil => exact absurd ⟨rfl, rfl⟩ hne
    | cons b bs => rfl
  | some x => rfl

theorem intern_root {g : StackGraph} {f : Frame} (h : f.returnTo = none) :
    g.intern [f] = (StackRef.bottom, g) := by
  obtain ⟨returnTo, parent⟩ := f
  subst h
  rfl

/-- The memo and its counters do not matter for soundness. -/
theorem Sound.congr {g h : StackGraph} (hg : g.Sound) (hn : h.nodes = g.nodes)
    (hi : h.index = g.index) : h.Sound where
  bottom := hn ▸ hg.bottom
  indexed := by rw [hn, hi]; exact hg.indexed
  shaped := by rw [hn]; exact hg.shaped

theorem extends_of_nodes_eq {g h : StackGraph} (hn : h.nodes = g.nodes) : Extends g h :=
  fun _ _ hi => hn ▸ hi

/-- A node for new frames keeps a graph sound. -/
theorem Sound.pushed {g : StackGraph} (hg : g.Sound) {fs : List Frame}
    (hs : Shaped g.nodes.size fs) (hnew : g.index[fs]? = none) :
    Sound { g with
      nodes := g.nodes.push fs
      index := g.index.insert fs ⟨g.nodes.size⟩ } where
  bottom := by
    have h0 : 0 < g.nodes.size := knows_iff_lt.mp hg.knows_bottom
    rw [Array.getElem?_push_lt h0, ← Array.getElem?_eq_getElem h0]
    exact hg.bottom
  indexed es r := by
    rw [Std.HashMap.getElem?_insert, Array.getElem?_push]
    simp only [beq_iff_eq]
    -- The new frames were not in the index, so they are found at the new node only.
    by_cases hes : fs = es
    · subst hes
      rw [if_pos rfl]
      constructor
      · intro h
        cases h
        rw [if_pos rfl]
      · intro h
        split at h
        · next hr =>
          cases r
          subst hr
          rfl
        · rw [← hg.indexed] at h
          rw [h] at hnew
          contradiction
    · rw [if_neg hes]
      constructor
      · intro h
        have hr := (hg.indexed _ _).mp h
        have hlt := knows_iff_lt.mp (knows_of_get hr)
        rw [if_neg (by omega)]
        exact hr
      · intro h
        split at h
        · exact absurd (Option.some.inj h) hes
        · exact (hg.indexed _ _).mpr h
  shaped i es h hi := by
    rw [Array.getElem?_push] at h
    split at h
    · next hi' =>
      cases h
      rw [hi']
      exact hs
    · exact hg.shaped i es h hi

theorem extends_push {g : StackGraph} {fs : List Frame} {index : Std.HashMap (List Frame) StackRef} :
    Extends g { g with nodes := g.nodes.push fs, index } := by
  intro i es h
  obtain ⟨hlt, -⟩ := Array.getElem?_eq_some_iff.mp h
  rw [Array.getElem?_push_lt hlt, ← Array.getElem?_eq_getElem hlt]
  exact h

/-- Interning finds or adds a node with the given frames, and nothing else changes. -/
theorem Sound.intern {g : StackGraph} (hg : g.Sound) {fs : List Frame} (hne : fs ≠ [])
    (ha : Addable g fs) :
    (g.intern fs).2.Sound ∧ Extends g (g.intern fs).2 ∧ (g.intern fs).2.knows (g.intern fs).1 ∧
      (g.intern fs).2.frames (g.intern fs).1 = fs := by
  cases fs with
  | nil => exact absurd rfl hne
  | cons f fs =>
    by_cases hroot : f.returnTo = none ∧ fs = []
    · obtain ⟨hf, rfl⟩ := hroot
      rw [intern_root hf]
      refine ⟨hg, Extends.refl g, hg.knows_bottom, ?_⟩
      have hp := ha.root f List.mem_cons_self hf
      rw [hg.frames_bottom]
      cases f
      simp_all [Frame.root]
    · rw [intern_cons hroot]
      cases hi : g.index[f :: fs]? with
      | some r =>
        have hr := (hg.indexed _ _).mp hi
        exact ⟨hg, Extends.refl g, knows_of_get hr, frames_of_get hr⟩
      | none =>
        have hshape : Shaped g.nodes.size (f :: fs) :=
          ⟨ha.ascending, fun b hb => knows_iff_lt.mp (ha.known b hb), ha.root,
            exists_pushed ha.ascending hroot⟩
        have hget : (g.nodes.push (f :: fs))[g.nodes.size]? = some (f :: fs) :=
          Array.getElem?_push_size
        exact ⟨hg.pushed hshape hi, extends_push, knows_of_get (r := ⟨g.nodes.size⟩) hget,
          frames_of_get (r := ⟨g.nodes.size⟩) hget⟩

theorem addable_singleton {g : StackGraph} {parent : StackRef} {x : Nat} (hp : g.knows parent) :
    Addable g [⟨some x, parent⟩] where
  ascending := List.pairwise_singleton _ _
  known f hf := by
    rw [List.mem_singleton] at hf
    exact hf ▸ hp
  root f hf h := by
    rw [List.mem_singleton] at hf
    subst hf
    contradiction

/-- Pushing a state finds or adds the node whose only frame has that state. -/
theorem Sound.push {g : StackGraph} (hg : g.Sound) {parent : StackRef} (hp : g.knows parent)
    (x : Nat) :
    (g.push parent (some x)).2.Sound ∧ Extends g (g.push parent (some x)).2 ∧
      (g.push parent (some x)).2.knows (g.push parent (some x)).1 ∧
      (g.push parent (some x)).2.frames (g.push parent (some x)).1 = [⟨some x, parent⟩] :=
  hg.intern (List.cons_ne_nil _ _) (addable_singleton hp)

end StackGraph
end AdaptiveLL
