import Mathlib
import AdaptiveLL.Proofs.Network.Finishing
import AdaptiveLL.Proofs.Prediction.Abstraction

/-! # Alternatives that can still be taken

Where a machine can finish from an alternative, every set of configurations that is reached by reading on
offers that alternative: it covers a spot where the machine is poised (`ConfigSet.Offers`).  This is so
with the caller's stack and without it (`Surroundings.reach_offers`).
-/
namespace AdaptiveLL
open StackGraph (Extends)

/-- A set that offers some alternatives: for each it covers a spot where the machine is poised on what is
still to be read. -/
structure ConfigSet.Offers (n : Network) (stop : Nat) (V : Nat → Prop) (w : List Symbol)
    (g : StackGraph) (t : ConfigSet) : Prop where
  known : ∀ c ∈ t.toList, g.knows c.stack
  poised : ∀ i, V i → ∃ s, t.Covers g i s ∧ (∃ top, n.Chained top s.state s.stack) ∧
    n.Poised stop s w

namespace ConfigSet
variable {n : Network} {stop : Nat} {V : Nat → Prop} {w : List Symbol} {g h : StackGraph}
  {s t : ConfigSet} {alt : Nat} {u : Spot}

theorem Alike.covers {strict : Bool} (a : Alike strict g h s t) (hs : s.Covers g alt u) :
    t.Covers h alt u := by
  obtain ⟨c, hc, halt, hstate, hstack⟩ := hs
  obtain ⟨i, hi, rfl⟩ := List.mem_iff_getElem.mp hc
  have hi' := a.configs.length_eq ▸ hi
  have hcd := (List.forall₂_iff_get.mp a.configs).2 i hi hi'
  refine ⟨t.toList[i], List.getElem_mem hi', hcd.alt.symm.trans halt, hcd.state.symm.trans hstate, ?_⟩
  rw [← a.fullContext]
  exact hcd.stack.same ▸ hstack

theorem Offers.alike {strict : Bool} (ho : s.Offers n stop V w g) (a : Alike strict g h s t) :
    t.Offers n stop V w h where
  known := a.symm.known
  poised i hi := by
    obtain ⟨u, hu, hrest⟩ := ho.poised i hi
    exact ⟨u, a.covers hu, hrest⟩

/-- An alternative that is offered occurs. -/
theorem Offers.exists_alt (ho : s.Offers n stop V w g) {i : Nat} (hi : V i) :
    ∃ c ∈ s.toList, c.alt = i := by
  obtain ⟨u, ⟨c, hc, halt, -⟩, -⟩ := ho.poised i hi
  exact ⟨c, hc, halt⟩

/-- If one alternative is left, it is the one that is offered. -/
theorem eq_of_findUniqueAlt {a i : Nat} (h : s.findUniqueAlt = some a)
    (hi : ∃ c ∈ s.toList, c.alt = i) : i = a := by
  obtain ⟨c, hc, rfl⟩ := hi
  unfold findUniqueAlt at h
  cases hl : s.toList with
  | nil =>
    rw [hl] at hc
    cases hc
  | cons d ds =>
    rw [hl] at h hc
    dsimp only at h
    split at h
    · next hall =>
      cases h
      rcases List.mem_cons.mp hc with rfl | hc
      · rfl
      · exact of_decide_eq_true (List.all_eq_true.mp hall c hc)
    · cases h

theorem findUniqueAlt_of_size (h : s.size = 1) : s.findUniqueAlt.isSome := by
  obtain ⟨c, hc⟩ : ∃ c, s.toList = [c] := List.length_eq_one_iff.mp h
  rw [findUniqueAlt, hc]
  rfl

end ConfigSet

variable {gr : Grammar} {plan : Plan} {lazy : Prop} {n : Network} {top last stop : Nat}
  {V : Nat → Prop} {σ : Type} {env : Surroundings σ} {ws ws' : Workspace σ}

/-- A closure collects the spots where the machine is poised. -/
theorem Closure.Closed.exists_poised (hl : gr.LaidOut plan lazy n) (hc : n.Closing top last stop)
    (hn : env.network = n) (hun : env.Unguarded) {g g' : StackGraph} {cs : List Config}
    {out : ConfigSet} (h : Closure.Closed env g cs out g') {i : Nat} {s : Spot} {w : List Symbol}
    {outer : Option Nat} (hs : Config.AnyCovers (!env.fullContext) g cs i s)
    (hchain : n.Chained outer s.state s.stack) (hf : n.Finishes stop s w) :
    ∃ t, out.Covers g' i t ∧ (∃ outer, n.Chained outer t.state t.stack) ∧ n.Poised stop t w := by
  subst hn
  obtain ⟨t, hd, hp⟩ := hf.exists_poised env.endIsFree
  have hreturning : ∀ u, Relation.ReflTransGen env.Drifts s u → env.network.Returning u := by
    intro u hu f below hstop hstack
    have hchained := hl.chained_of_drifts hu hchain
    rw [hstack] at hchained
    exact hl.returns_of_chained hstop hchained
  exact ⟨t, h.complete_of_unguarded hun hs hreturning hd (hl.collects_of_poised hc rfl hp),
    ⟨outer, hl.chained_of_drifts hd hchain⟩, hp⟩

namespace Surroundings

/-- A set with one alternative left need not be closed.  If it is not, it is the set of the
configurations that were moved. -/
theorem reach_settles {x : Symbol} {configs : ConfigSet} {o : Option ConfigSet}
    (h : env.reach true x configs ws = (.ok o, ws')) :
    env.reach false x configs ws = (.ok o, ws') ∨
      x ≠ endOfInput ∧ ∃ moved, o = some moved ∧ moved.findUniqueAlt.isSome ∧
        insertAll (ConfigSet.empty env.fullContext) (env.moves x configs) ws = (.ok moved, ws') := by
  obtain ⟨moved, w₁, closed, w₂, hmoved, hclosed | hclosed, hfinish⟩ := reach_cases h
  · obtain ⟨-, hsettled, rfl, rfl⟩ := hclosed
    simp only [isSettled, Bool.and_eq_true, Bool.or_eq_true, decide_eq_true_eq] at hsettled
    obtain ⟨⟨hstay, hx⟩, hone⟩ := hsettled
    have hunique : closed.findUniqueAlt.isSome := by
      rcases hone with hsize | hunique
      · exact ConfigSet.findUniqueAlt_of_size hsize
      · exact hunique
    have hsome : closed.isEmpty = false := by
      cases hl : closed.toList with
      | nil =>
        rw [ConfigSet.findUniqueAlt, hl] at hunique
        cases hunique
      | cons c cs =>
        rw [ConfigSet.isEmpty, Array.isEmpty_eq_false_iff]
        rintro hnil
        rw [ConfigSet.toList, hnil] at hl
        cases hl
    have hfin : (.ok (some closed), w₂) = ((.ok o, ws') : Ending (Workspace σ) (Option ConfigSet)) := by
      rw [← hfinish]
      simp only [finish, afterEnd, keep, if_neg hx, hstay, Bool.not_true, Bool.false_and,
        Bool.false_eq_true, if_false, Run.bind_apply, Run.pure_apply, hsome]
    cases hfin
    exact .inr ⟨hx, closed, rfl, hunique, hmoved⟩
  · refine .inl ?_
    simp only [reach, Run.bind_apply, hmoved, Bool.false_and, Bool.false_eq_true, if_false, hclosed,
      hfinish]

/-- What a step over a symbol comes to, for a set that offers some alternatives. -/
structure Onward (n : Network) (stop : Nat) (V : Nat → Prop) (w : List Symbol) (fullContext : Bool)
    (g : StackGraph) (r : ConfigSet) (g' : StackGraph) : Prop where
  truthful : g'.Truthful
  grows : Extends g g'
  known : ∀ c ∈ r.toList, g'.knows c.stack
  fullContext : r.fullContext = fullContext
  alts : ∀ i, V i → ∃ c ∈ r.toList, c.alt = i
  offers : r.findUniqueAlt = none → r.Offers n stop V w g'

/-- Consuming the symbol on which a machine is poised leads to a set that offers the same
alternatives, unless one alternative is left. -/
theorem reach_offers (hl : gr.LaidOut plan lazy n) (hc : n.Closing top last stop)
    (hn : env.network = n) (hun : env.Unguarded) (hw : ws.graph.Truthful) {x : Symbol}
    {w : List Symbol} {configs : ConfigSet} {o : Option ConfigSet}
    (hoffers : configs.Offers n stop V (x :: w) ws.graph)
    (hfull : configs.fullContext = env.fullContext) (hend : x = endOfInput → w = [])
    (hV : ∃ i, V i) (h : env.reach true x configs ws = (.ok o, ws')) :
    ∃ r, o = some r ∧ Onward n stop V w env.fullContext ws.graph r ws'.graph := by
  subst hn
  rcases reach_settles h with h | ⟨hx, moved, rfl, hunique, hmoved⟩
  · have hr := reach_spots hw hoffers.known hfull h
    have hbehind : (env.behind x).Unguarded := hun
    -- Each alternative keeps a spot: it consumes, and drifts to where it is poised for the rest.
    have hpoised : ∀ i, V i → ∃ r, o = some r ∧ ∃ s, r.Covers ws'.graph i s ∧
        (∃ top, env.network.Chained top s.state s.stack) ∧ env.network.Poised stop s w := by
      intro i hi
      obtain ⟨s, hs, ⟨outer, hchain⟩, t, heat, hf⟩ := hoffers.poised i hi
      have ht := hl.chained_of_eats heat hchain
      obtain ⟨u, hd, hp⟩ := hf.exists_poised (env.behind x).endIsFree
      have hreturning : ∀ v, Relation.ReflTransGen (env.behind x).Drifts t v →
          env.network.Returning v := by
        intro v hv f below hstop hstack
        have hchained := hl.chained_of_drifts hv ht
        rw [hstack] at hchained
        exact hl.returns_of_chained hstop hchained
      have hstop : x = endOfInput → env.network.isStop u.state := by
        intro hx
        rw [hend hx] at hp
        rw [show u = ⟨stop, []⟩ from hp]
        exact hc.isStop
      obtain ⟨r, ho, hu⟩ := hr.complete hun i s t u hs heat hreturning hd
        (hl.collects_of_poised hc rfl hp) hstop
      exact ⟨r, ho, u, hu, ⟨outer, hl.chained_of_drifts hd ht⟩, hp⟩
    obtain ⟨i₀, hi₀⟩ := hV
    obtain ⟨r, rfl, -⟩ := hpoised i₀ hi₀
    obtain ⟨hsits, hcontext⟩ := hr.sits r rfl
    have hoffers' : r.Offers env.network stop V w ws'.graph := by
      refine ⟨hsits.known, fun i hi => ?_⟩
      obtain ⟨r', hr', hrest⟩ := hpoised i hi
      cases hr'
      exact hrest
    exact ⟨r, rfl, hr.truthful, hr.grows, hsits.known, hcontext, fun i hi => hoffers'.exists_alt hi,
      fun _ => hoffers'⟩
  · -- the set settles before it is closed, as one alternative is left
    have hg := insertAll_gains hw (ConfigSet.sits_empty _ env.fullContext)
      (fun c hc => knows_of_mem_moves hoffers.known hc) hmoved
    refine ⟨moved, rfl, hg.truthful, hg.grows, hg.sits.known, hg.fullContext, fun i hi => ?_, ?_⟩
    · obtain ⟨s, hs, -, t, heat, -⟩ := hoffers.poised i hi
      obtain ⟨c, hc, halt, -⟩ := hg.covers i t (.inr ((anyCovers_moves hfull).mpr ⟨s, hs, heat⟩))
      exact ⟨c, hc, halt⟩
    · intro hnone
      rw [hnone] at hunique
      cases hunique

/-! ## The end of the input -/

/-- After the end of the input only the ends of rules are left. -/
theorem allStop_of_reach_end {settle : Bool} {configs r : ConfigSet}
    (h : env.reach settle endOfInput configs ws = (.ok (some r), ws')) : r.allStop env.network := by
  obtain ⟨moved, w₁, closed, w₂, -, -, h⟩ := reach_cases h
  obtain ⟨ended, w₃, hended, h⟩ := Run.exists_of_bind h
  obtain ⟨reached, w₄, hkeep, h⟩ := Run.exists_of_bind h
  have hadded : ∀ {s t : ConfigSet} {cs : List Config} {u u' : Workspace σ},
      insertAll s cs u = (.ok t, u') → (∀ c ∈ s.toList, env.network.isStop c.state) →
      (∀ c ∈ cs, env.network.isStop c.state) → ∀ c ∈ t.toList, env.network.isStop c.state := by
    intro s t cs u u' hadd hs hcs c hc
    cases hadd
    obtain ⟨d, hd, hstate, -⟩ := ConfigSet.exists_of_mem_insertAll hc
    rw [← hstate]
    rcases hd with hd | hd
    · exact hs d hd
    · exact hcs d hd
  have hended' : ∀ c ∈ ended.toList, env.network.isStop c.state := by
    simp only [afterEnd, if_true, onlyStops] at hended
    split at hended
    · next hall =>
      cases hended
      exact List.all_eq_true.mp hall
    · exact hadded hended (fun _ hc => absurd hc List.not_mem_nil)
        fun c hc => (List.mem_filter.mp hc).2
  have hreached : ∀ c ∈ reached.toList, env.network.isStop c.state := by
    unfold keep at hkeep
    split at hkeep
    · exact hadded hkeep hended' fun c hc => (mem_of_mem_staying hc).2
    · cases hkeep
      exact hended'
  cases he : reached.isEmpty with
  | true =>
    rw [he] at h
    cases h
  | false =>
    rw [he] at h
    cases h
    exact List.all_eq_true.mpr hreached

end Surroundings
end AdaptiveLL
