import Mathlib
import AdaptiveLL.Proofs.StackGraph.History

/-! # What a stack graph looks like after any requests

A stack graph is used through a few requests: nodes are added, pushed and merged, the memo is
forgotten, and everything is cleared.  `Request.answer` is what the graph makes of one, whether it
is granted or refused.  Whatever the requests were, the graph keeps to one shape (`WellKept`): its
nodes and its index agree, equal nodes are one, and every node is written in its normal form.  Only
clearing takes a node away or changes one, and refusing to add a node changes nothing.
-/
namespace AdaptiveLL
namespace StackGraph

/-- What a stack graph can be asked to do. -/
inductive Request where
  /-- To add the node that a caller describes. -/
  | add (draft : NodeDraft)
  /-- To push a return state. -/
  | push (parent : StackRef) (returnTo : Option Nat)
  /-- To turn a stack of rule invocations into a node. -/
  | invocations (n : Network) (stack : List Invocation)
  /-- To merge two nodes. -/
  | merge (a b : StackRef) (wildcard : Bool)
  /-- To forget the merges made so far. -/
  | forgetMerges
  /-- To drop everything. -/
  | clear

namespace Request

/-- The nodes that a request names without their being checked. -/
def names : Request → Set StackRef
  | push parent _ => {parent}
  | merge a b _ => {a, b}
  | _ => ∅

/-- The answer to a request, a node for those that make one, and the graph afterwards. -/
def answer (g : StackGraph) : Request → Except RecognitionError (Option StackRef) × StackGraph
  | add draft =>
    match g.add draft with
    | .ok (r, h) => (.ok (some r), h)
    | .error e => (.error e, g)
  | push parent returnTo => (.ok (some (g.push parent returnTo).1), (g.push parent returnTo).2)
  | invocations n stack => ((g.pushInvocations n stack).1.map some, (g.pushInvocations n stack).2)
  | merge a b wildcard => (.ok (some (g.merge a b wildcard).1), (g.merge a b wildcard).2)
  | forgetMerges => (.ok none, g.forgetMerges)
  | clear => (.ok none, empty)

variable {g h : StackGraph} {draft : NodeDraft}

theorem answer_add {made : StackRef × StackGraph} (hadd : g.add draft = .ok made) :
    answer g (.add draft) = (.ok (some made.1), made.2) := by
  rw [answer, hadd]

theorem answer_add_error {e : RecognitionError} (hadd : g.add draft = .error e) :
    answer g (.add draft) = (.error e, g) := by
  rw [answer, hadd]

theorem answer_invocations {n : Network} {stack : List Invocation}
    {made : Except RecognitionError StackRef} (hrun : g.pushInvocations n stack = (made, h)) :
    answer g (.invocations n stack) = (made.map some, h) := by
  rw [answer, hrun]

end Request

/-- The shape of a graph that was built by requests.  A node with one frame pushes a state; a node
with more lists them in order, and the empty stack, if it is among them, last. -/
structure WellKept (g : StackGraph) : Prop where
  bottom : g.nodes[0]? = some [Frame.root]
  distinct : ∀ (i j : Nat) (fs : List Frame),
    g.nodes[i]? = some fs → g.nodes[j]? = some fs → i = j
  indexed : ∀ (fs : List Frame) (r : StackRef), g.index[fs]? = some r ↔ g.nodes[r.index]? = some fs
  below : ∀ (i : Nat) (fs : List Frame), g.nodes[i]? = some fs → i ≠ 0 →
    ∀ f ∈ fs, f.parent.index < i
  nonempty : ∀ (i : Nat) (fs : List Frame), g.nodes[i]? = some fs → fs ≠ []
  single : ∀ (i : Nat) (f : Frame), g.nodes[i]? = some [f] → i ≠ 0 → f.returnTo ≠ none
  ascending : ∀ (i : Nat) (fs : List Frame), g.nodes[i]? = some fs →
    fs.Pairwise fun a b => Frame.before a.returnTo b.returnTo
  rootLast : ∀ (i : Nat) (fs : List Frame), g.nodes[i]? = some fs →
    ∀ (k : Nat) (f : Frame), fs[k]? = some f → f.returnTo = none →
      k + 1 = fs.length ∧ f.parent = StackRef.bottom

/-- No state to return to comes after no state. -/
theorem last_of_ascending {fs : List Frame}
    (h : fs.Pairwise fun a b => Frame.before a.returnTo b.returnTo) {k : Nat} {f : Frame}
    (hf : fs[k]? = some f) (hroot : f.returnTo = none) : k + 1 = fs.length := by
  obtain ⟨hk, rfl⟩ := List.getElem?_eq_some_iff.mp hf
  by_contra hne
  have hnext : k + 1 < fs.length := by omega
  have hbefore := List.pairwise_iff_getElem.mp h k (k + 1) hk hnext (Nat.lt_succ_self k)
  rw [hroot] at hbefore
  cases hbefore

/-- A sound graph has the shape. -/
theorem Sound.shape {g : StackGraph} (hg : g.Sound) : g.WellKept where
  bottom := hg.bottom
  distinct i j fs hi hj := by
    have hri := (hg.indexed fs ⟨i⟩).mpr hi
    have hrj := (hg.indexed fs ⟨j⟩).mpr hj
    rw [hri] at hrj
    exact congrArg StackRef.index (Option.some.inj hrj)
  indexed := hg.indexed
  below i fs hfs hi := (hg.shaped i fs hfs hi).below
  nonempty i fs hfs := by
    have hr : g.knows ⟨i⟩ := knows_of_get hfs
    obtain ⟨f, hf⟩ := hg.frames_ne_nil hr
    rw [frames_of_get (r := ⟨i⟩) hfs] at hf
    exact List.ne_nil_of_mem hf
  single i f hf hi := by
    obtain ⟨p, hp, hpushed⟩ := (hg.shaped i [f] hf hi).pushed
    rwa [List.mem_singleton.mp hp] at hpushed
  ascending i fs hfs := by
    have := hg.ascending (knows_of_get (r := ⟨i⟩) hfs)
    rwa [frames_of_get (r := ⟨i⟩) hfs] at this
  rootLast i fs hfs k f hf hroot := by
    have hframes : g.frames ⟨i⟩ = fs := frames_of_get hfs
    have hr : g.knows ⟨i⟩ := knows_of_get hfs
    refine ⟨last_of_ascending (hframes ▸ hg.ascending hr) hf hroot, ?_⟩
    exact hg.parent_bottom hr (hframes ▸ List.mem_of_getElem? hf) hroot

/-- The nodes at hand after a request: those from before and the one that was made, or none but the
empty stack once everything was dropped. -/
def Request.atHand (given : Set StackRef) (g : StackGraph) (q : Request) : Set StackRef :=
  match q, (q.answer g).1 with
  | clear, _ => {StackRef.bottom}
  | _, .ok (some r) => insert r given
  | _, _ => given

/-- Histories of a graph go on by requests that name nodes at hand. -/
theorem Used.answer {g : StackGraph} {given : Set StackRef} (hu : Used g given) {q : Request}
    (hq : q.names ⊆ given) : Used (q.answer g).2 (q.atHand given g) := by
  cases q with
  | add draft =>
    cases hadd : g.add draft with
    | error e =>
      simp only [Request.atHand, Request.answer_add_error hadd]
      exact hu
    | ok made =>
      simp only [Request.atHand, Request.answer_add hadd]
      exact hu.add hadd
  | push parent returnTo => exact hu.push returnTo (hq rfl)
  | invocations n stack =>
    rcases hrun : g.pushInvocations n stack with ⟨e | r, h⟩
    · simp only [Request.atHand, Request.answer_invocations hrun]
      exact hu.refused hrun
    · simp only [Request.atHand, Request.answer_invocations hrun]
      exact hu.invocations hrun
  | merge a b wildcard => exact hu.merge wildcard (hq (.inl rfl)) (hq (.inr rfl))
  | forgetMerges => exact hu.forgetMerges
  | clear => exact .empty

/-- A request other than clearing leaves every node as it is. -/
theorem Used.extends_answer {g : StackGraph} {given : Set StackRef} (hu : Used g given) {q : Request}
    (hq : q.names ⊆ given) (hclear : q ≠ .clear) : Extends g (q.answer g).2 := by
  obtain ⟨hg, hknown⟩ := hu.truthful_known
  cases q with
  | add draft =>
    cases hadd : g.add draft with
    | error e =>
      rw [Request.answer_add_error hadd]
      exact Extends.refl g
    | ok made =>
      rw [Request.answer_add hadd]
      exact (hg.add hadd).grows
  | push parent returnTo => exact (hg.push (hknown parent (hq rfl)) returnTo).grows
  | invocations n stack => exact (hg.invocations hg.toSound.knows_bottom stack).2.1
  | merge a b wildcard =>
    exact (hg.merge (hknown a (hq (.inl rfl))) (hknown b (hq (.inr rfl))) wildcard).grows
  | forgetMerges => exact Extends.refl g
  | clear => exact absurd rfl hclear

/-- **The shape of stack graphs.**  After any requests a graph is well kept; the next request leaves
every node as it is unless it drops everything; and refusing to add a node changes nothing. -/
theorem Used.wellKept {g : StackGraph} {given : Set StackRef} (hu : Used g given) :
    g.WellKept ∧
      (∀ q : Request, q.names ⊆ given → q ≠ .clear → Extends g (q.answer g).2) ∧
      ∀ (draft : NodeDraft) (e : RecognitionError),
        ((Request.add draft).answer g).1 = .error e → ((Request.add draft).answer g).2 = g := by
  refine ⟨hu.truthful_known.1.toSound.shape, fun q => hu.extends_answer, fun draft e he => ?_⟩
  cases hadd : g.add draft with
  | error e' => rw [Request.answer_add_error hadd]
  | ok made =>
    rw [Request.answer_add hadd] at he
    cases he

/-- A node for two states and the empty stack was added. -/
theorem Used.wellKept_added :
    let draft := NodeDraft.frames [StackRef.bottom, StackRef.bottom, StackRef.bottom]
      [some 1, some 2, none]
    ∃ h, StackGraph.empty.add draft = .ok (⟨1⟩, h) ∧ Used h {⟨1⟩, StackRef.bottom} ∧
      h.nodes[1]? = some [⟨some 1, StackRef.bottom⟩, ⟨some 2, StackRef.bottom⟩, Frame.root] ∧
      h.WellKept ∧
      (∀ q : Request, q.names ⊆ {⟨1⟩, StackRef.bottom} → q ≠ .clear → Extends h (q.answer h).2) ∧
      ∀ (draft : NodeDraft) (e : RecognitionError),
        ((Request.add draft).answer h).1 = .error e → ((Request.add draft).answer h).2 = h := by
  intro draft
  have hadd : StackGraph.empty.add draft =
      .ok (⟨1⟩, (StackGraph.empty.intern draft.toFrames).2) := by cbv
  have hused := Used.empty.add hadd
  exact ⟨_, hadd, hused, by cbv, Used.wellKept hused⟩

end StackGraph
end AdaptiveLL
