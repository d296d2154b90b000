import Mathlib
import AdaptiveLL.Proofs.Prediction.Admitted
import AdaptiveLL.Proofs.Prediction.Comprising
import AdaptiveLL.Proofs.Prediction.LowestViable

/-! # Predictions that end with the first symbol

Where everything that the first symbol leads to says the same of the alternatives (`Network.SaysAtOnce`), a
prediction ends with that symbol, whatever was predicted before and in every mode: it gives the lowest
alternative whose guard holds, unless there are several and the caller's stack is asked
(`Predictor.predict_says`).
-/
namespace AdaptiveLL
open Run

/-- What a decision at a state begins with leads by a symbol to states that all say the same. -/
def Network.SaysAtOnce (n : Network) (count q : Nat) (x : Symbol) (contested : Bool) (pairs : List GuardedAlt) :
    Prop :=
  ∃ keys S,
    (∀ settings g out w, g.Truthful → (Surroundings.alone n settings).startConfigs q [] ⟨g, (), 0⟩ = (.ok out, w) →
      out.Comprises w.graph keys S) ∧
    ∀ settings g configs o g', g.Truthful → configs.Comprises g keys S →
      edgeResult n settings count x configs g = (.ok o, g') → ∃ u, o = some u ∧ u.Says contested pairs

namespace Predictor
variable {σ : Type} {n : Network} {allowed : Settings → Prop} {s : Session σ} {contested : Bool}
  {pairs : List GuardedAlt} {u : AutomatonState} {m : Nat}

/-- The run of the automaton has ended with a state that says so, and asks for the caller's stack if that is
taken into account and may decide otherwise. -/
def Halt.Says (mode : PredictionMode) (contested : Bool) (pairs : List GuardedAlt) (a : Halt) : Prop :=
  ∃ u, u.Says contested pairs ∧
    ((contested ∧ mode ≠ .sll) ∧ (∃ steps, a = .contested steps u) ∨
      ¬ (contested ∧ mode ≠ .sll) ∧ ∃ t x, a = .accepting t u x)

theorem exists_haltAt? (hu : u.Says contested pairs) (mode : PredictionMode) (steps : Nat) (t : Target) (x : Symbol) :
    ∃ a, haltAt? mode steps t u x = some a ∧ a.Says mode contested pairs := by
  unfold haltAt?
  by_cases hasks : u.needsFullContext && mode ≠ .sll
  · rw [if_pos hasks]
    rw [hu.needsFullContext, Bool.and_eq_true, decide_eq_true_iff] at hasks
    exact ⟨_, rfl, u, hu, .inl ⟨hasks, _, rfl⟩⟩
  · rw [if_neg hasks, if_pos hu.isAccept]
    rw [hu.needsFullContext, Bool.and_eq_true, decide_eq_true_iff] at hasks
    exact ⟨_, rfl, u, hu, .inr ⟨hasks, _, _, rfl⟩⟩

/-- Looking ahead, where the first symbol decides. -/
theorem lookAhead_says (q : Question σ) {qs : Nat} (hqs : n.decisions[q.decision]? = some qs)
    (h : s.predictor.Sane n allowed)
    (hasked : n.SaysAtOnce (n.alternatives q.decision) qs s.stream.peek contested pairs) :
    Limited (fun a s' => a.Says s.predictor.settings.mode contested pairs ∧ s'.predictor.Sane n allowed ∧
      s'.author = s.author) (lookAhead q s) := by
  obtain ⟨keys, S, hbegins, hedges⟩ := hasked
  have hd : q.decision < n.decisions.size := (Array.getElem?_eq_some_iff.mp hqs).1
  refine limited_lookAhead hqs h fun t s' e ⟨hadv, hstream, hauthor⟩ hn hfirst => ?_
  obtain ⟨settings, -, g₀, configs, w₀, hg₀, hw₀, -, hrun, hconfigs⟩ := hfirst
  have hkeys : e.configs.Comprises s'.predictor.cache.graph keys S :=
    (hbegins settings g₀ configs w₀ hg₀ hrun).alike hconfigs
  rw [← hstream] at hedges
  unfold runAutomaton
  refine (limited_countStep q 0 s').bind fun _ s₀ hs₀ => ?_
  subst hs₀
  have hstep := step_ends hadv.sane hd hn s₀.stream.peek
  rw [Run.bind_apply, inSession_apply]
  generalize step q.decision t s₀.stream.peek s₀.predictor = r at hstep ⊢
  obtain ⟨err | v, p⟩ := r
  · obtain ⟨-, g, herror⟩ := hstep
    exact .limit (isLimit_of_edgeResult herror)
  · obtain ⟨hadv', o, hv, hedge⟩ := hstep
    -- the edge may have been stored long ago, but from configurations over the same stacks
    obtain ⟨settings', -, g₁, o₁, g₂, hg₁, -, ha, hres, hsame, -, -⟩ := hedge
    have hevery := (hadv.sane.cache.automaton hd).every_of_names hn
    have hgrown : ConfigSet.Alike true s₀.predictor.cache.graph p.cache.graph e.configs e.configs :=
      (ConfigSet.Alike.refl hevery.2).mono hadv.sane.cache.graph hadv.sane.cache.graph
        ⟨hadv.sane.cache.graph, hadv'.sane.cache.graph, .refl _, hadv'.grows⟩
    obtain ⟨u₁, rfl, hu₁⟩ := hedges settings' g₁ e.configs o₁ g₂ hg₁ ((hkeys.alike hgrown).alike ha.symm) hres
    obtain ⟨f, rfl, hf⟩ : ∃ f, o = some f ∧ f.Says contested pairs := by
      cases hsame with
      | some hst => exact ⟨_, rfl, hu₁.alike hst⟩
    have herror : v.isError = false := by
      cases hv
      rfl
    obtain ⟨f', hf', rfl⟩ := automatonState_ends hv
    dsimp only
    rw [herror]
    change Limited _ ((inSession (automatonState q.decision v) >>= goOn q _ 0 v s₀.stream.peek)
      { s₀ with predictor := p })
    rw [Run.bind_apply, inSession_apply, hf']
    dsimp only
    rw [goOn, Run.bind_apply, Run.get_apply]
    dsimp only
    have hasked' : f'.Says contested pairs := ⟨hf.isAccept, hf.needsFullContext, hf.listed⟩
    obtain ⟨a, ha, hsaid⟩ := exists_haltAt? hasked' p.settings.mode 0 v s₀.stream.peek
    rw [ha]
    rw [hadv'.settings, hadv.settings] at hsaid
    exact .ok ⟨hsaid, hadv'.sane, hauthor⟩

/-- Whether an alternative is on a list with a guard that holds. -/
def Admits (q : Question σ) (author : σ) (pairs : List GuardedAlt) (alt : Nat) : Prop :=
  ∃ pair ∈ pairs, pair.alt = alt ∧ pair.guard.Holds q.hooks q.outer author

theorem min?_of_admits {q : Question σ} {author : σ} (hm : IsLeast {alt | Admits q author pairs alt} m)
    {selected : AltSet}
    (hselected : ∀ alt, alt ∈ selected.toList ↔ Admits q author pairs alt) : selected.min? = some m := by
  rw [AltSet.min?_eq_some_iff]
  exact ⟨(hselected m).mpr hm.1, fun alt halt => hm.2 ((hselected alt).mp halt)⟩

/-- What a state without need for the caller's stack recognises. -/
theorem accept_says {q : Question σ} (hsteady : q.hooks.Steady) (hu : u.Says contested pairs)
    (hm : IsLeast {alt | Admits q s.author pairs alt} m) (t : Target) (x : Symbol) :
    (accept q t u x s).1 = .ok m := by
  rcases hu.listed with hlist | ⟨-, hlist, alt, rfl, hprediction⟩
  · obtain ⟨selected, hadmitted, hselected⟩ :=
      admitted_iff (q := q) hsteady pairs { s with stream := s.stream.seek q.start }
    rw [accept_guarded t hlist x hadmitted, min?_of_admits hm hselected]
  · obtain ⟨pair, hpair, rfl, -⟩ := hm.1
    rw [List.mem_singleton] at hpair
    subst hpair
    exact accept_plain t hlist hprediction x s

/-- Before the caller's stack is asked, that is reported and counted. -/
theorem startFullContext_apply (h : s.predictor.Sane n allowed) (q : Question σ) (steps : Nat) (conflicting : AltSet)
    (configs : ConfigSet) : ∃ p : Predictor, p.Sane n allowed ∧
      startFullContext q steps conflicting configs s = overCaller q steps { s with predictor := p } := by
  obtain ⟨reports, hreport⟩ := report_apply (.fullContext q.decision q.start s.stream.index conflicting configs) s
  have hsane : ({ s.predictor with reports } : Predictor).Sane n allowed := ⟨h.network, h.settings, h.cache⟩
  refine ⟨_, (Advances.count (d := 0) hsane fun c => { c with llPredictions := c.llPredictions + 1 }).sane, ?_⟩
  rw [startFullContext_eq, Run.bind_apply, Run.get_apply]
  dsimp only
  rw [Run.bind_apply, hreport]
  dsimp only
  rw [Run.bind_apply, inSession_apply, count_apply]

/-- What follows from a conflict between alternatives with guards. -/
theorem settleConflict_says {q : Question σ} (hsteady : q.hooks.Steady) (h : s.predictor.Sane n allowed)
    (hlist : u.guardedAlts = some pairs) (hm : IsLeast {alt | Admits q s.author pairs alt} m) (steps : Nat)
    (hover : (∀ alt, Admits q s.author pairs alt → alt = m) ∨
      ∀ t : Session σ, t.predictor.Sane n allowed → t.stream.tokens = s.stream.tokens →
        t.stream.channel = s.stream.channel →
        t.author = s.author → Limited (fun i _ => i = m) (overCaller q steps t)) :
    Limited (fun i _ => i = m) (settleConflict q steps u s) := by
  obtain ⟨selected, hadmitted, hselected⟩ := admitted_iff (q := q) hsteady pairs
    { s with stream := s.stream.seek q.start }
  unfold settleConflict
  rw [hlist]
  dsimp only
  rw [Run.bind_apply, Run.get_apply]
  change Limited _ ((admitted q pairs >>= _) { s with stream := s.stream.seek q.start })
  rw [Run.bind_apply, hadmitted]
  dsimp only
  have hmem := (hselected m).mpr hm.1
  have hascending := selected.ascending
  -- At least one alternative is admitted, and if more are, the caller's stack decides.
  rcases hselected' : selected.toList with _ | ⟨alt, _ | ⟨other, rest⟩⟩
  · rw [hselected'] at hmem
    cases hmem
  · rw [hselected', List.mem_singleton] at hmem
    exact .ok hmem.symm
  · rw [hselected'] at hascending
    have halts : Admits q s.author pairs alt ∧ Admits q s.author pairs other := by
      refine ⟨(hselected alt).mp ?_, (hselected other).mp ?_⟩ <;> simp [hselected']
    have hlt : alt < other := (List.pairwise_cons.mp hascending).1 other List.mem_cons_self
    have hover := hover.resolve_left fun honly => by
      rw [honly alt halts.1, honly other halts.2] at hlt
      exact absurd hlt (lt_irrefl m)
    obtain ⟨p, hp, heq⟩ := startFullContext_apply
      (s := { s with stream := (s.stream.seek q.start).seek s.stream.index }) h q
      steps selected u.configs
    dsimp only
    rw [Run.bind_apply, seek, Run.modify_apply]
    dsimp only
    rw [heq]
    exact hover ⟨p, _, s.author⟩ hp rfl rfl rfl

/-- Predicting where the first symbol decides gives the lowest alternative whose guard holds, if there is only one or
if the caller's stack, where it is asked, leads to that one as well. -/
theorem predict_says {hooks : ParserHooks σ} (hsteady : hooks.Steady) {outer : List Invocation} {decision qs : Nat}
    (hqs : n.decisions[decision]? = some qs) (h : s.predictor.Sane n allowed) (hplaced : s.stream.Placed)
    (hasked : n.SaysAtOnce (n.alternatives decision) qs s.stream.peek contested pairs)
    (hm : IsLeast {alt | Admits ⟨hooks, outer, decision, s.stream.index⟩ s.author pairs alt} m)
    (hover : s.predictor.settings.mode ≠ .sll →
      (∀ alt, Admits ⟨hooks, outer, decision, s.stream.index⟩ s.author pairs alt → alt = m) ∨
      ∀ steps (t : Session σ), t.predictor.Sane n allowed → t.stream.seek s.stream.index = s.stream →
        t.author = s.author →
        Limited (fun i _ => i = m) (overCaller ⟨hooks, outer, decision, s.stream.index⟩ steps t)) :
    Limited (fun i _ => i = m) (predict hooks outer decision s) := by
  have hd : decision < n.decisions.size := (Array.getElem?_eq_some_iff.mp hqs).1
  have hlook := lookAhead_says ⟨hooks, outer, decision, s.stream.index⟩ hqs h hasked
  refine limited_predict (by rw [h.network]; exact hd) ?_
  refine (hlook.leaving (leaves_lookAhead _)).bind fun a s' ⟨⟨⟨u, hu, ha⟩, hsane, hauthor⟩, hframe⟩ => ?_
  rw [Session.frame, Session.frame, Prod.mk.injEq] at hframe
  obtain ⟨htokens, hchannel⟩ := Prod.mk.injEq _ _ _ _ ▸ hframe.2
  rcases ha with ⟨⟨hcontested, hmode⟩, steps, rfl⟩ | ⟨-, t, x, rfl⟩
  · refine settleConflict_says hsteady hsane ?_ (hauthor ▸ hm) steps ?_
    · refine hu.listed.resolve_right ?_
      rintro ⟨hno, -⟩
      rw [hcontested] at hno
      cases hno
    · refine (hover hmode).imp (fun honly => hauthor ▸ honly) fun hover t ht hts hch hau => ?_
      exact hover steps t ht (hplaced.seek_index (hts.trans htokens) (hch.trans hchannel)) (hau.trans hauthor)
  · have haccept := accept_says (s := s') hsteady hu (hauthor ▸ hm) t x
    rw [conclude]
    generalize accept _ t u x s' = r at haccept
    obtain ⟨r, s''⟩ := r
    cases haccept
    exact .ok rfl

/-- Where the first symbol leaves one alternative, whose guard holds, that one is predicted. -/
theorem predict_one {hooks : ParserHooks σ} (hsteady : hooks.Steady) {outer : List Invocation} {decision qs : Nat}
    (hqs : n.decisions[decision]? = some qs) (h : s.predictor.Sane n allowed) (hplaced : s.stream.Placed)
    {guard : Guard} {alt : Nat}
    (hasked : n.SaysAtOnce (n.alternatives decision) qs s.stream.peek contested [⟨guard, alt⟩])
    (hguard : guard.Holds hooks outer s.author) : Limited (fun i _ => i = alt) (predict hooks outer decision s) := by
  have honly : ∀ i, Admits ⟨hooks, outer, decision, s.stream.index⟩ s.author [⟨guard, alt⟩] i ↔ i = alt := fun i => by
    simp only [Admits, List.mem_singleton, exists_eq_left, hguard, and_true]
    exact eq_comm
  refine predict_says hsteady hqs h hplaced hasked ?_ fun _ => .inl fun i hi => (honly i).mp hi
  simp only [honly]
  exact isLeast_singleton

end Predictor
end AdaptiveLL
