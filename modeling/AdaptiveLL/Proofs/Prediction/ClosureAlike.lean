import Mathlib
import AdaptiveLL.Prediction.Closure
import AdaptiveLL.Proofs.Coupling
import AdaptiveLL.Proofs.DepthFirst
import AdaptiveLL.Proofs.Prediction.Alike

/-! # Closures side by side

Closing alike configurations gives alike sets, or fails with the same error, whatever graphs the
stacks are kept in (`Closure.closeAll_agree`).  Each step of a closure looks at a configuration only
through what alike configurations share: its state, alternative and guard, the frames of its stacks,
and whether it was visited before.
-/
namespace AdaptiveLL
open StackGraph (SameStacks Paired)

variable {σ τ : Type}

/-- Surroundings in which closures take the same course.  The author's answers matter only where
guards are decided. -/
structure Surroundings.Alike (A : σ → τ → Prop) (env : Surroundings σ) (env' : Surroundings τ) :
    Prop where
  network : env.network = env'.network
  fullContext : env.fullContext = env'.fullContext
  endIsFree : env.endIsFree = env'.endIsFree
  maxDepth : env.maxDepth = env'.maxDepth
  ask : env.fullContext → Option.Rel (fun f f' => ∀ (x : Guard) (s : σ) (t : τ), A s t →
    (f x s).1 = (f' x t).1 ∧ A (f x s).2 (f' x t).2) env.ask env'.ask

/-- Visits of alike configurations. -/
structure Visit.Alike (g h : StackGraph) (v w : Visit) : Prop where
  state : v.state = w.state
  alt : v.alt = w.alt
  guard : v.guard = w.guard
  stack : SameStacks g h v.stack w.stack

theorem Config.Alike.visit {strict : Bool} {g h : StackGraph} {c d : Config}
    (a : Config.Alike strict g h c d) : Visit.Alike g h c.visit d.visit :=
  ⟨a.state, a.alt, a.guard, a.stack⟩

namespace Visit.Alike
variable {g h g' h' : StackGraph} {v w v' w' : Visit}

theorem mono (hg : g.Truthful) (hh : h.Truthful) (p : Paired g h g' h') (a : Visit.Alike g h v w) :
    Visit.Alike g' h' v w :=
  { a with stack := a.stack.mono hg hh p }

theorem eq_iff (hg : g.Truthful) (hh : h.Truthful) (a : Visit.Alike g h v w)
    (a' : Visit.Alike g h v' w') : v = v' ↔ w = w' := by
  have hs := a.stack.eq_iff hg hh a'.stack
  obtain ⟨vs, va, vr, vg⟩ := v
  obtain ⟨ws, wa, wr, wg⟩ := w
  obtain ⟨vs', va', vr', vg'⟩ := v'
  obtain ⟨ws', wa', wr', wg'⟩ := w'
  obtain ⟨h1, h2, h3, -⟩ := a
  obtain ⟨h1', h2', h3', -⟩ := a'
  simp only at h1 h2 h3 h1' h2' h3' hs
  simp only [Visit.mk.injEq, h1, h2, h3, h1', h2', h3', hs]

end Visit.Alike

namespace Closure

/-- Closures that have come equally far. -/
structure Progress.Alike (strict : Bool) (A : σ → τ → Prop) (p : Progress σ) (q : Progress τ) :
    Prop where
  left : p.work.graph.Truthful
  right : q.work.graph.Truthful
  author : A p.work.author q.work.author
  out : ConfigSet.Alike strict p.work.graph q.work.graph p.out q.out
  leftOpen : p.out.Open
  rightOpen : q.out.Open
  leftVisited : ∀ v ∈ p.visited, ∃ w ∈ q.visited, Visit.Alike p.work.graph q.work.graph v w
  rightVisited : ∀ w ∈ q.visited, ∃ v ∈ p.visited, Visit.Alike p.work.graph q.work.graph v w

/-- Closures side by side. -/
def coupling (strict : Bool) (A : σ → τ → Prop) : Coupling (Progress σ) (Progress τ) where
  graph p := p.work.graph
  graph' q := q.work.graph
  related := Progress.Alike strict A
  truthful h := ⟨h.left, h.right⟩

/-- Items of the walk that lead on alike. -/
inductive Item.Alike (strict : Bool) (g h : StackGraph) : Item → Item → Prop
  | arrive {c d : Config} (depth : Int) (collecting : Bool) :
    Config.Alike strict g h c d → Item.Alike strict g h (.arrive c depth collecting)
      (.arrive d depth collecting)
  | pop {c d : Config} (depth : Int) (collecting : Bool) {f f' : Frame} :
    Config.Alike strict g h c d → f.returnTo = f'.returnTo → SameStacks g h f.parent f'.parent →
      Item.Alike strict g h (.pop c depth collecting f) (.pop d depth collecting f')
  | follow {c d : Config} (depth : Int) (collecting : Bool) (t : Transition) :
    Config.Alike strict g h c d → Item.Alike strict g h (.follow c depth collecting t)
      (.follow d depth collecting t)

variable {strict : Bool} {A : σ → τ → Prop} {p : Progress σ} {q : Progress τ} {c d : Config}

/-- What was visited alike stays so while the graphs grow, whatever is collected meanwhile. -/
theorem Progress.Alike.grow (h : Progress.Alike strict A p q) {g g' : StackGraph} {out out' : ConfigSet}
    (hp : Paired p.work.graph q.work.graph g g') (hout : ConfigSet.Alike strict g g' out out')
    (hopen : out.Open) (hopen' : out'.Open) :
    Progress.Alike strict A ⟨{ p.work with graph := g }, out, p.visited⟩
      ⟨{ q.work with graph := g' }, out', q.visited⟩ where
  left := hp.left
  right := hp.right
  author := h.author
  out := hout
  leftOpen := hopen
  rightOpen := hopen'
  leftVisited v hv := by
    obtain ⟨w, hw, hvw⟩ := h.leftVisited v hv
    exact ⟨w, hw, hvw.mono h.left h.right hp⟩
  rightVisited w hw := by
    obtain ⟨v, hv, hvw⟩ := h.rightVisited w hw
    exact ⟨v, hv, hvw.mono h.left h.right hp⟩

/-- Collecting alike configurations. -/
theorem collect_agree (h : Progress.Alike strict A p q)
    (hc : Config.Alike strict p.work.graph q.work.graph c d) :
    (coupling strict A).Agree p q (fun _ _ _ _ => True) (collect c p) (collect d q) := by
  obtain ⟨⟨g, author, closures⟩, out, visited⟩ := p
  obtain ⟨⟨g', author', closures'⟩, out', visited'⟩ := q
  obtain ⟨ho, hp⟩ := h.out.insert h.left h.right h.leftOpen h.rightOpen hc
  exact Matches.ok ⟨⟨h.grow hp ho (h.leftOpen.insert c g) (h.rightOpen.insert d g'), hp⟩, trivial⟩

theorem noteDip_agree (h : Progress.Alike strict A p q) :
    (coupling strict A).Agree p q (fun _ _ _ _ => True) (noteDip p) (noteDip q) := by
  obtain ⟨⟨g, author, closures⟩, out, visited⟩ := p
  obtain ⟨⟨g', author', closures'⟩, out', visited'⟩ := q
  refine Matches.ok ⟨⟨{ h with out := ?_, leftOpen := ?_, rightOpen := ?_ },
    Paired.refl h.left h.right⟩, trivial⟩
  · exact { h.out with dips := fun _ => rfl }
  · exact { h.leftOpen with }
  · exact { h.rightOpen with }

/-- Pushing a state on nodes with the same stacks. -/
theorem push_agree (h : Progress.Alike strict A p q) {a b : StackRef}
    (hab : SameStacks p.work.graph q.work.graph a b) (x : Nat) :
    (coupling strict A).Agree p q SameStacks (push a x p) (push b x q) := by
  obtain ⟨⟨g, author, closures⟩, out, visited⟩ := p
  obtain ⟨⟨g', author', closures'⟩, out', visited'⟩ := q
  obtain ⟨hs, hp⟩ := hab.push h.left h.right x
  exact Matches.ok ⟨⟨h.grow hp (h.out.mono h.left h.right hp) h.leftOpen h.rightOpen, hp⟩, hs⟩

/-- Alike configurations were both visited before, or neither. -/
theorem contains_visit_eq (h : Progress.Alike strict A p q)
    (hc : Config.Alike strict p.work.graph q.work.graph c d) :
    p.visited.contains c.visit = q.visited.contains d.visit := by
  rw [Bool.eq_iff_iff, ← Std.HashSet.mem_iff_contains, ← Std.HashSet.mem_iff_contains]
  constructor
  · intro hv
    obtain ⟨w, hw, hvw⟩ := h.leftVisited _ hv
    rwa [← (hvw.eq_iff h.left h.right hc.visit).mp rfl]
  · intro hw
    obtain ⟨v, hv, hvw⟩ := h.rightVisited _ hw
    rwa [← (hvw.eq_iff h.left h.right hc.visit).mpr rfl]

theorem markVisited_apply (c : Config) (p : Progress σ) :
    markVisited c p =
      if p.visited.contains c.visit then (.ok false, p)
      else (.ok true, { p with visited := p.visited.insert c.visit }) := by
  rw [markVisited, Run.modifyGet_apply]
  dsimp only
  split <;> rfl

theorem markVisited_agree (h : Progress.Alike strict A p q)
    (hc : Config.Alike strict p.work.graph q.work.graph c d) :
    (coupling strict A).Agree p q (fun _ _ x y => x = y) (markVisited c p) (markVisited d q) := by
  rw [markVisited_apply, markVisited_apply, contains_visit_eq h hc]
  cases q.visited.contains d.visit with
  | true => exact Coupling.Agree.pure h rfl
  | false =>
    refine Matches.ok ⟨⟨{ h with leftVisited := ?_, rightVisited := ?_ },
      Paired.refl h.left h.right⟩, rfl⟩
    · intro v hv
      rcases Std.HashSet.mem_insert.mp hv with heq | hv
      · obtain rfl := eq_of_beq heq
        exact ⟨d.visit, Std.HashSet.mem_insert_self, hc.visit⟩
      · obtain ⟨w, hw, hvw⟩ := h.leftVisited v hv
        exact ⟨w, Std.HashSet.mem_insert.mpr (.inr hw), hvw⟩
    · intro w hw
      rcases Std.HashSet.mem_insert.mp hw with heq | hw
      · obtain rfl := eq_of_beq heq
        exact ⟨c.visit, Std.HashSet.mem_insert_self, hc.visit⟩
      · obtain ⟨v, hv, hvw⟩ := h.rightVisited w hw
        exact ⟨v, Std.HashSet.mem_insert.mpr (.inr hv), hvw⟩

/-- Deciding a guard, where the author answers alike. -/
theorem decideGuard_agree (h : Progress.Alike strict A p q) {f : Guard → σ → Bool × σ}
    {f' : Guard → τ → Bool × τ} {x : Guard}
    (hf : ∀ s t, A s t → (f x s).1 = (f' x t).1 ∧ A (f x s).2 (f' x t).2) :
    (coupling strict A).Agree p q (fun _ _ a b => a = b) (decideGuard f x p)
      (decideGuard f' x q) := by
  obtain ⟨⟨g, author, closures⟩, out, visited⟩ := p
  obtain ⟨⟨g', author', closures'⟩, out', visited'⟩ := q
  obtain ⟨heq, ha⟩ := hf _ _ h.author
  exact Matches.ok ⟨⟨{ h with author := ha }, Paired.refl h.left h.right⟩, heq⟩

/-! ## Visits -/

/-- What a visit opens on both sides. -/
def Opened (strict : Bool) (g h : StackGraph) (o o' : Option (List Item)) : Prop :=
  Option.Rel (List.Forall₂ (Item.Alike strict g h)) o o'

variable {env : Surroundings σ} {env' : Surroundings τ}

/-- The same items for alike configurations. -/
theorem follows_alike {g h : StackGraph} (hc : Config.Alike strict g h c d) (depth : Int)
    (collecting : Bool) (ts : List Transition) :
    Opened strict g h (some (ts.map (Item.follow c depth collecting)))
      (some (ts.map (Item.follow d depth collecting))) := by
  refine .some ?_
  rw [List.forall₂_map_left_iff, List.forall₂_map_right_iff, List.forall₂_same]
  exact fun t _ => .follow depth collecting t hc

theorem enter_agree (he : env.Alike A env') (h : Progress.Alike strict A p q)
    (hc : Config.Alike strict p.work.graph q.work.graph c d) (depth : Int) (collecting : Bool) :
    (coupling strict A).Agree p q (Opened strict) (enter env c depth collecting p)
      (enter env' d depth collecting q) := by
  unfold enter
  refine (markVisited_agree h hc).bind fun x y p' q' hl hxy => ?_
  subst hxy
  cases x with
  | false => exact .pure hl.related .none
  | true =>
    have hc' := hc.mono h.left h.right hl.paired
    simp only [if_true, he.network, hc.state]
    split
    · refine (collect_agree hl.related hc').bind fun _ _ p'' q'' hl' _ => ?_
      exact .pure hl'.related (follows_alike (hc'.mono hl.related.left hl.related.right hl'.paired) ..)
    · exact .pure hl.related (follows_alike hc' ..)

theorem arrive_agree (he : env.Alike A env') (h : Progress.Alike strict A p q)
    (hc : Config.Alike strict p.work.graph q.work.graph c d) (depth : Int) (collecting : Bool) :
    (coupling strict A).Agree p q (Opened strict) (arrive env c depth collecting p)
      (arrive env' d depth collecting q) := by
  unfold arrive
  rw [he.network, he.fullContext, hc.state, hc.stack.isBottom_eq h.left h.right]
  split
  · simp only [Run.bind_apply, Run.get_apply]
    refine Coupling.Agree.pure h (.some ?_)
    rw [List.forall₂_map_left_iff, List.forall₂_map_right_iff]
    exact (hc.stack.frames h.left h.right).imp fun f f' hf => .pop depth collecting hc hf.1 hf.2
  · split
    · refine (collect_agree h hc).bind fun _ _ p' q' hl _ => ?_
      exact .pure hl.related .none
    · exact enter_agree he h hc depth collecting

theorem pop_agree (he : env.Alike A env') (h : Progress.Alike strict A p q)
    (hc : Config.Alike strict p.work.graph q.work.graph c d) (depth : Int) (collecting : Bool)
    {f f' : Frame} (hf : f.returnTo = f'.returnTo)
    (hs : SameStacks p.work.graph q.work.graph f.parent f'.parent) :
    (coupling strict A).Agree p q (Opened strict) (pop env c depth collecting f p)
      (pop env' d depth collecting f' q) := by
  unfold pop
  rw [hf]
  cases f'.returnTo with
  | some state => exact arrive_agree he h (hc.returnTo state hs) ..
  | none =>
    simp only [he.fullContext]
    split
    · rw [hc.state]
      refine (collect_agree h (hc.returnTo d.state (.bottom h.left h.right))).bind
        fun _ _ p' q' hl _ => ?_
      exact .pure hl.related .none
    · exact enter_agree he h hc depth collecting

/-- Configurations to go on with, or none on both sides. -/
def Goes (strict : Bool) (g h : StackGraph) (o o' : Option Config) : Prop :=
  Option.Rel (Config.Alike strict g h) o o'

theorem passGuard_agree (he : env.Alike A env') (h : Progress.Alike strict A p q)
    (hc : Config.Alike strict p.work.graph q.work.graph c d) (target : Nat) (x : Guard)
    (collecting : Bool) :
    (coupling strict A).Agree p q (Goes strict) (passGuard env c target x collecting p)
      (passGuard env' d target x collecting q) := by
  unfold passGuard
  rw [← he.fullContext, hc.guard]
  split
  · exact .pure h (.some (hc.moveTo target))
  · cases hfull : env.fullContext with
    | false => exact .pure h (.some { hc.moveTo target with guard := rfl })
    | true =>
      have hask := he.ask hfull
      cases hl : env.ask with
      | none =>
        rw [hl] at hask
        cases hr : env'.ask with
        | none => exact .pure h (.some (hc.moveTo target))
        | some _ => rw [hr] at hask; cases hask
      | some f =>
        rw [hl] at hask
        cases hr : env'.ask with
        | none => rw [hr] at hask; cases hask
        | some f' =>
          rw [hr] at hask
          cases hask with
          | some hff =>
            refine (decideGuard_agree h (hff x)).bind fun a b p' q' hlater hab => ?_
            subst hab
            cases a with
            | false => exact .pure hlater.related .none
            | true =>
              exact .pure hlater.related
                (.some ((hc.mono h.left h.right hlater.paired).moveTo target))

theorem target?_agree (he : env.Alike A env') (h : Progress.Alike strict A p q)
    (hc : Config.Alike strict p.work.graph q.work.graph c d) (inRule collecting : Bool)
    (t : Transition) :
    (coupling strict A).Agree p q (Goes strict) (target? env c inRule collecting t p)
      (target? env' d inRule collecting t q) := by
  unfold target?
  cases t with
  | call target rule level follow =>
    refine (push_agree h hc.stack follow).bind fun r s p' q' hl hrs => ?_
    exact .pure hl.related (.some ((hc.mono h.left h.right hl.paired).returnTo target hrs))
  | precedence target level => exact passGuard_agree he h hc ..
  | predicate target rule index contextual => exact passGuard_agree he h hc ..
  | action | epsilon | ret => exact .pure h (.some (hc.moveTo _))
  | symbol | range | set =>
    simp only [he.endIsFree]
    split
    · exact .pure h (.some (hc.moveTo _))
    · exact .pure h .none
  | notSet | wildcard => exact .pure h .none

theorem follow_agree (he : env.Alike A env') (h : Progress.Alike strict A p q)
    (hc : Config.Alike strict p.work.graph q.work.graph c d) (depth : Int) (collecting : Bool)
    (t : Transition) :
    (coupling strict A).Agree p q (Opened strict) (follow env c depth collecting t p)
      (follow env' d depth collecting t q) := by
  unfold follow
  refine (target?_agree he h hc ..).bind fun x y p' q' hl hxy => ?_
  cases hxy with
  | none => exact .pure hl.related .none
  | some hcd =>
    simp only [he.network, hc.state]
    split
    · refine (noteDip_agree hl.related).bind fun _ _ p'' q'' hl' _ => ?_
      refine arrive_agree he hl'.related ?_ ..
      have hcd' := hcd.mono hl.related.left hl.related.right hl'.paired
      exact { hcd' with reach := fun hs => congrArg (· + 1) (hcd'.reach hs) }
    · split
      · exact arrive_agree he hl.related hcd ..
      · exact arrive_agree he hl.related hcd ..

/-- Visiting items that lead on alike. -/
theorem visit_agree (he : env.Alike A env') (h : Progress.Alike strict A p q) {i i' : Item}
    (hi : Item.Alike strict p.work.graph q.work.graph i i') :
    (coupling strict A).Agree p q (Opened strict) (visit env i p) (visit env' i' q) := by
  cases hi with
  | arrive depth collecting hc => exact arrive_agree he h hc ..
  | pop depth collecting hc hf hs => exact pop_agree he h hc _ _ hf hs
  | follow depth collecting t hc => exact follow_agree he h hc ..

/-! ## Whole closures -/

theorem Item.Alike.mono {g h g' h' : StackGraph} (hg : g.Truthful) (hh : h.Truthful)
    (pr : Paired g h g' h') {i i' : Item} (hi : Item.Alike strict g h i i') :
    Item.Alike strict g' h' i i' := by
  cases hi with
  | arrive depth collecting hc => exact .arrive _ _ (hc.mono hg hh pr)
  | pop depth collecting hc hf hs => exact .pop _ _ (hc.mono hg hh pr) hf (hs.mono hg hh pr)
  | follow depth collecting t hc => exact .follow _ _ t (hc.mono hg hh pr)

/-- Walks that begin at alike items. -/
theorem walk_agree (he : env.Alike A env') (h : Progress.Alike strict A p q) {i i' : Item}
    (hi : Item.Alike strict p.work.graph q.work.graph i i') (tooDeep : RecognitionError)
    (limit : Nat) :
    (coupling strict A).Agree p q (fun _ _ _ _ => True)
      (DepthFirst.walk (visit env) tooDeep limit i p)
      (DepthFirst.walk (visit env') tooDeep limit i' q) := by
  have hrun : Matches _ _ (DepthFirst.run (visit env) tooDeep limit [[i]] p)
      (DepthFirst.run (visit env') tooDeep limit [[i']] q) := DepthFirst.run_matches tooDeep
    ((coupling strict A).Later p q)
    (fun s t s' t' => Progress.Alike strict A s t ∧ (coupling strict A).Later s t s' t')
    (fun s t => Item.Alike strict s.work.graph t.work.graph)
    (fun hl hxy => hxy.mono hl.1.left hl.1.right hl.2.paired)
    (fun hw hxy => Matches.imp (visit_agree he hw.related hxy)
      (fun _ _ _ _ hg => ⟨hw.trans hg.1, ⟨hw.related, hg.1⟩, hg.2⟩)
      fun _ _ hb => hw.trans hb)
    (.refl h) (.cons (.cons hi .nil) .nil)
  exact hrun.imp (fun _ _ _ _ hg => ⟨hg, trivial⟩) fun _ _ hb => hb

theorem close_agree (he : env.Alike A env') (h : Progress.Alike strict A p q)
    (hc : Config.Alike strict p.work.graph q.work.graph c d) (collecting : Bool) :
    (coupling strict A).Agree p q (fun _ _ _ _ => True) (close env collecting c p)
      (close env' collecting d q) := by
  unfold close
  simp only [Run.bind_apply, Run.modify_apply, he.maxDepth]
  have hcount : (coupling strict A).Later p q
      { p with work := { p.work with closures := p.work.closures + 1 } }
      { q with work := { q.work with closures := q.work.closures + 1 } } :=
    ⟨{ h with }, Paired.refl h.left h.right⟩
  exact (walk_agree he hcount.related (.arrive 0 collecting hc) _ _).after hcount

theorem forM_close_agree (he : env.Alike A env') (h : Progress.Alike strict A p q)
    {cs ds : List Config}
    (hcs : List.Forall₂ (Config.Alike strict p.work.graph q.work.graph) cs ds)
    (collecting : Bool) :
    (coupling strict A).Agree p q (fun _ _ _ _ => True) (cs.forM (close env collecting) p)
      (ds.forM (close env' collecting) q) := by
  induction cs generalizing ds p q with
  | nil =>
    obtain rfl := List.forall₂_nil_left_iff.mp hcs
    exact .pure h trivial
  | cons c cs ih =>
    obtain ⟨d, ds, hc, hrest, rfl⟩ := List.forall₂_cons_left_iff.mp hcs
    refine Coupling.Agree.bind (close_agree he h hc collecting) fun _ _ p' q' hl _ => ?_
    exact ih hl.related (hrest.imp fun _ _ he => he.mono h.left h.right hl.paired)

end Closure

/-! ## Workspaces -/

namespace Workspace

/-- Workspaces whose graphs are truthful and whose authors answer alike. -/
structure Alike (A : σ → τ → Prop) (w : Workspace σ) (v : Workspace τ) : Prop where
  left : w.graph.Truthful
  right : v.graph.Truthful
  author : A w.author v.author

/-- Workspaces side by side. -/
def coupling (A : σ → τ → Prop) : Coupling (Workspace σ) (Workspace τ) where
  graph w := w.graph
  graph' v := v.graph
  related := Alike A
  truthful h := ⟨h.left, h.right⟩

end Workspace

/-- Closing alike configurations gives alike sets, or the same error. -/
theorem Closure.closeAll_agree {strict : Bool} {A : σ → τ → Prop} {env : Surroundings σ}
    {env' : Surroundings τ} (he : env.Alike A env') {w : Workspace σ} {v : Workspace τ}
    (h : w.Alike A v) {cs ds : List Config}
    (hcs : List.Forall₂ (Config.Alike strict w.graph v.graph) cs ds) (collecting : Bool) :
    (Workspace.coupling A).Agree w v
      (fun g h s t => ConfigSet.Alike strict g h s t ∧ s.Open ∧ t.Open)
      (closeAll env collecting cs w) (closeAll env' collecting ds v) := by
  have hbegin : Progress.Alike strict A
      (⟨w, ConfigSet.empty env.fullContext, ∅⟩ : Progress σ)
      (⟨v, ConfigSet.empty env'.fullContext, ∅⟩ : Progress τ) := by
    refine ⟨h.left, h.right, h.author, ?_, ConfigSet.open_empty _, ConfigSet.open_empty _, ?_, ?_⟩
    · rw [he.fullContext]
      exact ConfigSet.Alike.empty _
    · intro x hx
      exact absurd hx Std.HashSet.not_mem_empty
    · intro x hx
      exact absurd hx Std.HashSet.not_mem_empty
  have hrun := forM_close_agree he hbegin hcs collecting
  unfold closeAll
  simp only
  cases hp : cs.forM (close env collecting) ⟨w, ConfigSet.empty env.fullContext, ∅⟩ with
  | mk r p =>
    cases hq : ds.forM (close env' collecting) ⟨v, ConfigSet.empty env'.fullContext, ∅⟩ with
    | mk r' q =>
      rw [hp, hq] at hrun
      cases hrun with
      | ok hg =>
        obtain ⟨⟨hr, hpair⟩, -⟩ := hg
        exact .ok ⟨⟨⟨hr.left, hr.right, hr.author⟩, hpair⟩, hr.out, hr.leftOpen, hr.rightOpen⟩
      | error e hb =>
        have hl : (Workspace.coupling A).Later w v p.work q.work :=
          ⟨⟨hb.related.left, hb.related.right, hb.related.author⟩, hb.paired⟩
        exact Matches.error e hl

end AdaptiveLL
