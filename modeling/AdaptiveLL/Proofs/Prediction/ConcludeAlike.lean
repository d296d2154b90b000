import Mathlib
import AdaptiveLL.Proofs.Prediction.Steps

/-! # Conclusions with two caches

Two sessions are twins if they differ at most in what the caches of their predictors store, in what
was counted and in what was reported.  Nothing that is done after the run of an automaton reads a
cache, but for the stacks.  So twins that look again with the caller's stack choose alike
(`Predictor.startFullContext_agree`), and so do twins that take what an accepting state recognises
(`Predictor.accept_agree`) or that give up at configurations of the same reach
(`Predictor.giveUp_agree`).
-/
namespace AdaptiveLL
open StackGraph (SameStacks Paired)

/-! ## Tests on alike sets -/

section
variable {strict : Bool} {g h : StackGraph} {cs ds cs' ds' : List Config} {s t s' t' : ConfigSet}

theorem map_identity_eq_iff (hg : g.Truthful) (hh : h.Truthful)
    (a : List.Forall₂ (Config.Alike strict g h) cs ds)
    (a' : List.Forall₂ (Config.Alike strict g h) cs' ds') :
    cs.map Config.identity = cs'.map Config.identity ↔
      ds.map Config.identity = ds'.map Config.identity := by
  induction a generalizing cs' ds' with
  | nil => cases a' <;> simp
  | cons hc _ ih =>
    cases a' with
    | nil => simp
    | cons hc' ha' =>
      rw [List.map_cons, List.map_cons, List.map_cons, List.map_cons, List.cons.injEq,
        List.cons.injEq, hc.identity_eq_iff hg hh hc', ih ha']

/-- Whether two sets are the same can be asked on either side. -/
theorem ConfigSet.Alike.same_eq (hg : g.Truthful) (hh : h.Truthful) (a : Alike true g h s t)
    (a' : Alike true g h s' t') : s.same s' = t.same t' := by
  have hconfigs : s.sameConfigs s' = t.sameConfigs t' := by
    unfold sameConfigs
    exact decide_eq_decide.mpr (map_identity_eq_iff hg hh a.configs a'.configs)
  unfold same
  rw [a.fullContext, a.hasGuards, a.dips rfl, a.uniqueAlt, a.conflictingAlts, a'.fullContext,
    a'.hasGuards, a'.dips rfl, a'.uniqueAlt, a'.conflictingAlts, hconfigs]

namespace Predictor

theorem settles?_eq (hg : g.Truthful) (hh : h.Truthful) (a : ConfigSet.Alike true g h s t)
    (a' : ConfigSet.Alike true g h s' t') (exact : Bool) (x : Symbol) :
    settles? exact x s s' = settles? exact x t t' := by
  unfold settles?
  rw [a'.conflictSubsets_eq hg hh, a'.uniqueAlt, a'.same_eq hg hh a, a'.alts_eq]

theorem finishedAlt?_eq (hg : g.Truthful) (hh : h.Truthful) (n : Network)
    (a : List.Forall₂ (Config.Alike true g h) cs ds) : finishedAlt? n g cs = finishedAlt? n h ds := by
  have hfilter := List.rel_filter
    (p := fun c => decide (0 < c.outerReach) || (n.isStop c.state && g.hasEmptyStack c.stack))
    (q := fun c => decide (0 < c.outerReach) || (n.isStop c.state && h.hasEmptyStack c.stack))
    (fun c d hcd => by
      dsimp only
      rw [hcd.reach rfl, hcd.state, hcd.stack.hasEmptyStack_eq hg hh]) a
  unfold finishedAlt?
  refine congrArg (fun alts => (AltSet.ofList alts).min?) ?_
  rw [← List.forall₂_eq_eq_eq, List.forall₂_map_left_iff, List.forall₂_map_right_iff]
  exact hfilter.imp fun _ _ hcd => hcd.alt

end Predictor
end

/-! ## Twins -/

namespace Predictor
variable {σ α β : Type} {n : Network} {allowed : Settings → Prop} {s t s' t' : Session σ}

/-- Sessions that differ at most in what their caches store, in what was counted and in what was
reported. -/
structure Twins (n : Network) (allowed : Settings → Prop) (s t : Session σ) : Prop where
  left : s.predictor.Sane n allowed
  right : t.predictor.Sane n allowed
  settings : s.predictor.settings = t.predictor.settings
  stream : s.stream = t.stream
  author : s.author = t.author

/-- Twins side by side. -/
def twins (n : Network) (allowed : Settings → Prop) : Coupling (Session σ) (Session σ) where
  graph s := s.predictor.cache.graph
  graph' t := t.predictor.cache.graph
  related := Twins n allowed
  truthful h := ⟨h.left.cache.graph, h.right.cache.graph⟩

/-- Twins that changed without a change to their stacks. -/
theorem Twins.later (h : Twins n allowed s t) (h' : Twins n allowed s' t')
    (hs : s'.predictor.cache.graph = s.predictor.cache.graph)
    (ht : t'.predictor.cache.graph = t.predictor.cache.graph) :
    (twins n allowed).Later s t s' t' := by
  refine ⟨h', ?_⟩
  change Paired _ _ s'.predictor.cache.graph t'.predictor.cache.graph
  rw [hs, ht]
  exact Paired.refl h.left.cache.graph h.right.cache.graph

theorem seek_agree (h : Twins n allowed s t) (i : Nat) :
    (twins n allowed).Agree s t (fun _ _ _ _ => True) (seek i s) (seek i t) :=
  Matches.ok ⟨h.later { h with stream := congrArg (·.seek i) h.stream } rfl rfl, trivial⟩

theorem report_apply (d : Diagnostic) (s : Session σ) :
    ∃ reports, report d s =
      (.ok (), { s with predictor := { s.predictor with reports := reports } }) := by
  unfold report
  rw [Run.modify_apply]
  split
  · exact ⟨_, rfl⟩
  · exact ⟨s.predictor.reports, rfl⟩

/-- What is reported does not matter. -/
theorem report_agree (h : Twins n allowed s t) (d d' : Diagnostic) :
    (twins n allowed).Agree s t (fun _ _ _ _ => True) (report d s) (report d' t) := by
  obtain ⟨r, hr⟩ := report_apply d s
  obtain ⟨r', hr'⟩ := report_apply d' t
  rw [hr, hr']
  exact Matches.ok ⟨h.later { h with
    left := ⟨h.left.network, h.left.settings, h.left.cache⟩
    right := ⟨h.right.network, h.right.settings, h.right.cache⟩ } rfl rfl, trivial⟩

theorem count_agree (h : Twins n allowed s t) (f : Counters → Counters) :
    (twins n allowed).Agree s t (fun _ _ _ _ => True) (inSession (count f) s)
      (inSession (count f) t) :=
  Matches.ok ⟨h.later { h with
    left := ⟨h.left.network, h.left.settings, h.left.cache⟩
    right := ⟨h.right.network, h.right.settings, h.right.cache⟩ } rfl rfl, trivial⟩

theorem readOn_apply (x : Symbol) (s : Session σ) :
    readOn x s =
      if x = endOfInput then (.ok x, s)
      else (.ok s.stream.consume.peek, { s with stream := s.stream.consume }) := by
  unfold readOn
  split <;> rfl

theorem readOn_agree (h : Twins n allowed s t) (x : Symbol) :
    (twins n allowed).Agree s t (fun _ _ y z => y = z) (readOn x s) (readOn x t) := by
  rw [readOn_apply, readOn_apply, h.stream]
  split
  · exact .pure h rfl
  · exact Matches.ok ⟨h.later { h with stream := rfl } rfl rfl, rfl⟩

theorem countStep_apply (q : Question σ) (steps : Nat) (s : Session σ) :
    countStep q steps s =
      let limit := s.predictor.settings.maxSteps
      if 0 < limit ∧ limit ≤ steps then (.error (.stepLimitExceeded q.decision limit), s)
      else (.ok (), s) := by
  unfold countStep
  rw [Run.bind_apply, Run.get_apply]
  simp only [Bool.and_eq_true, decide_eq_true_eq]
  split <;> rfl

/-- Counting a step goes well or exceeds the limit. -/
theorem countStep_cases (q : Question σ) (steps : Nat) (s : Session σ) :
    countStep q steps s =
        (.error (.stepLimitExceeded q.decision s.predictor.settings.maxSteps), s) ∨
      countStep q steps s = (.ok (), s) := by
  rw [countStep_apply]
  dsimp only
  split
  · exact .inl rfl
  · exact .inr rfl

theorem countStep_agree (h : Twins n allowed s t) (q : Question σ) (steps : Nat) :
    (twins n allowed).Agree s t (fun _ _ _ _ => True) (countStep q steps s)
      (countStep q steps t) := by
  rw [countStep_apply, countStep_apply, h.settings]
  dsimp only
  split
  · exact .error _ h
  · exact .pure h trivial

theorem decideGuard_agree (h : Twins n allowed s t) (q : Question σ) (x : Guard) :
    (twins n allowed).Agree s t (fun _ _ a b => a = b) (decideGuard q x s) (decideGuard q x t) := by
  obtain ⟨p, stream, author⟩ := s
  obtain ⟨p', stream', author'⟩ := t
  obtain rfl : author = author' := h.author
  exact Matches.ok ⟨h.later { h with author := rfl } rfl rfl, rfl⟩

/-- Closures of twins agree if they agree on the stacks. -/
theorem withSessionStacks_agree {R : StackGraph → StackGraph → α → β → Prop}
    {act : Run (Workspace σ) α} {act' : Run (Workspace σ) β} (h : Twins n allowed s t)
    (hact : (Workspace.coupling Eq).Agree (⟨s.predictor.cache.graph, s.author, 0⟩ : Workspace σ)
      ⟨t.predictor.cache.graph, t.author, 0⟩ R (act ⟨s.predictor.cache.graph, s.author, 0⟩)
      (act' ⟨t.predictor.cache.graph, t.author, 0⟩)) :
    (twins n allowed).Agree s t R (withSessionStacks act s) (withSessionStacks act' t) := by
  have hlater : ∀ {w v : Workspace σ}, (Workspace.coupling Eq).Later
      (⟨s.predictor.cache.graph, s.author, 0⟩ : Workspace σ)
      ⟨t.predictor.cache.graph, t.author, 0⟩ w v →
      (twins n allowed).Later s t ⟨s.predictor.afterWork w, s.stream, w.author⟩
        ⟨t.predictor.afterWork v, t.stream, v.author⟩ := by
    intro w v hl
    have hs : Advances n allowed 0 _ (s.predictor.afterWork w) :=
      .afterWork h.left hl.related.left hl.paired.leftGrows
    have ht : Advances n allowed 0 _ (t.predictor.afterWork v) :=
      .afterWork h.right hl.related.right hl.paired.rightGrows
    exact ⟨⟨hs.sane, ht.sane, h.settings, h.stream, hl.related.author⟩, hl.paired⟩
  rw [withSessionStacks_apply, withSessionStacks_apply]
  generalize act ⟨s.predictor.cache.graph, s.author, 0⟩ = r at hact ⊢
  generalize act' ⟨t.predictor.cache.graph, t.author, 0⟩ = r' at hact ⊢
  cases hact with
  | ok hrel => exact .ok ⟨hlater hrel.1, hrel.2⟩
  | error e hl => exact Matches.error e (hlater hl)

/-- Twins depend on the same, whether or not they ask. -/
theorem Twins.surroundings_alike (h : Twins n allowed s t) (fullContext : Bool)
    (ask : Option (Guard → σ → Bool × σ)) :
    (s.predictor.surroundings fullContext ask).Alike Eq
      (t.predictor.surroundings fullContext ask) := by
  refine ⟨h.left.network.trans h.right.network.symm, rfl, rfl, congrArg Settings.maxDepth h.settings,
    fun _ => ?_⟩
  cases ask with
  | none => exact .none
  | some f => exact .some fun x a b hab => hab ▸ ⟨rfl, rfl⟩

/-! ## Guards -/

theorem passes_agree (h : Twins n allowed s t) (q : Question σ) (x : Guard) :
    (twins n allowed).Agree s t (fun _ _ a b => a = b) (passes q x s) (passes q x t) := by
  unfold passes
  split
  · exact .pure h rfl
  · exact decideGuard_agree h q x

/-- Twins admit the same alternatives. -/
theorem admitted_agree (h : Twins n allowed s t) (q : Question σ) (pairs : List GuardedAlt) :
    (twins n allowed).Agree s t (fun _ _ a b => a = b) (admitted q pairs s)
      (admitted q pairs t) := by
  induction pairs generalizing s t with
  | nil => exact .pure h rfl
  | cons pair rest ih =>
    refine Coupling.Agree.bind (passes_agree h q pair.guard) fun x y s' t' hl hxy => ?_
    obtain rfl := hxy
    refine Coupling.Agree.bind (ih hl.related) fun a b s'' t'' hl' hab => ?_
    obtain rfl := hab
    exact .pure hl'.related rfl

/-- Twins split alike configurations alike. -/
theorem splitByGuard_agree (h : Twins n allowed s t) (q : Question σ) {cs ds : List Config}
    (hcs : List.Forall₂ (Config.Alike true s.predictor.cache.graph t.predictor.cache.graph) cs ds) :
    (twins n allowed).Agree s t (fun g k a b => List.Forall₂ (Config.Alike true g k) a.1 b.1 ∧
      List.Forall₂ (Config.Alike true g k) a.2 b.2) (splitByGuard q cs s) (splitByGuard q ds t) := by
  induction cs generalizing s t ds with
  | nil =>
    obtain rfl := List.forall₂_nil_left_iff.mp hcs
    exact .pure h ⟨.nil, .nil⟩
  | cons c cs ih =>
    obtain ⟨d, ds, hc, hrest, rfl⟩ := List.forall₂_cons_left_iff.mp hcs
    have hg := h.left.cache.graph
    have hh := h.right.cache.graph
    unfold splitByGuard
    rw [← hc.guard]
    refine Coupling.Agree.bind (passes_agree h q c.guard) fun x y s' t' hl hxy => ?_
    obtain rfl := hxy
    have hrest' := hrest.imp fun _ _ ha => ha.mono hg hh hl.paired
    refine Coupling.Agree.bind (ih hl.related hrest') fun a b s'' t'' hl' hab => ?_
    have hc' := hc.mono hg hh (hl.trans hl').paired
    refine .pure hl'.related ?_
    split
    · exact ⟨.cons hc' hab.1, hab.2⟩
    · exact ⟨hab.1, .cons hc' hab.2⟩

/-! ## Giving up -/

/-- Twins fall back to the same alternative, if their configurations have the same reach. -/
theorem fallback?_agree (h : Twins n allowed s t) (q : Question σ) {cs ds : ConfigSet}
    (hcs : ConfigSet.Alike true s.predictor.cache.graph t.predictor.cache.graph cs ds) :
    (twins n allowed).Agree s t (fun _ _ a b => a = b) (fallback? q cs s) (fallback? q ds t) := by
  refine Coupling.Agree.bind (splitByGuard_agree h q hcs.configs) ?_
  rintro ⟨valid, invalid⟩ ⟨valid', invalid'⟩ s' t' hl ⟨hv, hi⟩
  have hg := hl.related.left.cache.graph
  have hh := hl.related.right.cache.graph
  simp only [Run.bind_apply, Run.get_apply]
  refine .pure hl.related ?_
  rw [hl.related.left.network, hl.related.right.network, finishedAlt?_eq hg hh n hv,
    finishedAlt?_eq hg hh n hi]

theorem giveUp_agree (h : Twins n allowed s t) (q : Question σ) {cs ds : ConfigSet}
    (hcs : ConfigSet.Alike true s.predictor.cache.graph t.predictor.cache.graph cs ds)
    (x : Symbol) :
    (twins n allowed).Agree s t (fun _ _ a b => a = b) (giveUp q cs x s) (giveUp q ds x t) := by
  unfold giveUp
  rw [Run.bind_apply, Run.bind_apply, Run.get_apply, Run.get_apply]
  dsimp only
  rw [h.stream]
  refine Coupling.Agree.bind (seek_agree h q.start) fun _ _ s' t' hl _ => ?_
  have hcs' := hcs.mono h.left.cache.graph h.right.cache.graph hl.paired
  refine Coupling.Agree.bind (fallback?_agree hl.related q hcs') fun a b s'' t'' hl' hab => ?_
  obtain rfl := hab
  cases a with
  | some alt => exact .pure hl'.related rfl
  | none => exact .error _ hl'.related

/-! ## Looking again with the caller's stack -/

/-- Twins look at the tokens over the caller's stack with the same result. -/
theorem runFullContext_agree {env env' : Surroundings σ} (he : env.Alike Eq env')
    (q : Question σ) (fuel steps : Nat) (h : Twins n allowed s t) {cs ds : ConfigSet}
    (hcs : ConfigSet.Alike true s.predictor.cache.graph t.predictor.cache.graph cs ds)
    (x : Symbol) :
    (twins n allowed).Agree s t (fun _ _ a b => a = b) (runFullContext q env fuel steps cs x s)
      (runFullContext q env' fuel steps ds x t) := by
  induction fuel generalizing steps s t cs ds x with
  | zero => exact .error _ h
  | succ fuel ih =>
    unfold runFullContext
    refine Coupling.Agree.bind (countStep_agree h q steps) fun _ _ s' t' hl _ => ?_
    have hcs' := hcs.mono h.left.cache.graph h.right.cache.graph hl.paired
    have h' := hl.related
    refine Coupling.Agree.bind (withSessionStacks_agree h' (Surroundings.reach_agree he
      ⟨h'.left.cache.graph, h'.right.cache.graph, h'.author⟩ hcs' true x)) ?_
    intro o o' s'' t'' hl' ho
    have h'' := hl'.related
    have hcs'' := hcs'.mono h'.left.cache.graph h'.right.cache.graph hl'.paired
    cases ho with
    | none => exact giveUp_agree h'' q hcs'' x
    | @some reached reached' hreached =>
      have hunique : ConfigSet.Alike true s''.predictor.cache.graph t''.predictor.cache.graph
          { reached with uniqueAlt := reached.findUniqueAlt }
          { reached' with uniqueAlt := reached'.findUniqueAlt } :=
        { hreached.1 with uniqueAlt := hreached.1.findUniqueAlt_eq }
      -- Both sets settle or neither does, so the runs report or read on together.
      have hsettles := settles?_eq h''.left.cache.graph h''.right.cache.graph hcs'' hunique
        (s''.predictor.settings.mode = .exactAmbiguity) x
      dsimp only
      rw [Run.bind_apply, Run.bind_apply, Run.get_apply, Run.get_apply]
      simp only [hsettles, ← h''.settings]
      generalize settles? _ x ds _ = o
      obtain _ | ⟨alt, certain⟩ := o
      · refine Coupling.Agree.bind (readOn_agree h'' x) fun y z s₃ t₃ hl₃ hyz => ?_
        obtain rfl := hyz
        exact ih (steps + 1) hl₃.related
          (hunique.mono h''.left.cache.graph h''.right.cache.graph hl₃.paired) y
      · dsimp only
        rw [Run.bind_apply, Run.bind_apply, Run.get_apply, Run.get_apply]
        refine Coupling.Agree.bind (report_agree h'' _ _) fun _ _ _ _ hl _ => ?_
        exact .pure hl.related rfl

/-- Twins ask the caller's stack with the same result. -/
theorem startFullContext_agree (h : Twins n allowed s t) (q : Question σ)
    (hd : q.decision < n.decisions.size) (steps : Nat) (alts alts' : AltSet)
    (cs ds : ConfigSet) :
    (twins n allowed).Agree s t (fun _ _ a b => a = b) (startFullContext q steps alts cs s)
      (startFullContext q steps alts' ds t) := by
  unfold startFullContext
  rw [Run.bind_apply, Run.bind_apply, Run.get_apply, Run.get_apply]
  refine Coupling.Agree.bind (report_agree h _ _) fun _ _ s₁ t₁ h₁ _ => ?_
  refine Coupling.Agree.bind (count_agree h₁.related _) fun _ _ s₂ t₂ h₂ _ => ?_
  have hnet : (s₂.predictor.cache.automaton q.decision).netState =
      (t₂.predictor.cache.automaton q.decision).netState :=
    Option.some.inj ((Cache.netState_automaton h₂.related.left.cache.fits hd).symm.trans
      (Cache.netState_automaton h₂.related.right.cache.fits hd))
  rw [Run.bind_apply, Run.bind_apply, Run.get_apply, Run.get_apply]
  dsimp only
  rw [← hnet]
  have henv := h₂.related.surroundings_alike true (some fun g => g.eval q.hooks q.outer)
  refine Coupling.Agree.bind (withSessionStacks_agree h₂.related
    (Surroundings.startConfigs_agree henv
      ⟨h₂.related.left.cache.graph, h₂.related.right.cache.graph, h₂.related.author⟩ _ q.outer)) ?_
  intro start start' s₃ t₃ h₃ hstart
  refine Coupling.Agree.bind (seek_agree h₃.related q.start) fun _ _ s₄ t₄ h₄ _ => ?_
  rw [Run.bind_apply, Run.bind_apply, Run.get_apply, Run.get_apply]
  dsimp only
  rw [← h₄.related.stream]
  exact runFullContext_agree henv q _ steps h₄.related
    (hstart.1.mono h₃.related.left.cache.graph h₃.related.right.cache.graph h₄.paired) _

/-- Twins settle a conflict in the same way. -/
theorem settleConflict_agree (h : Twins n allowed s t) (q : Question σ)
    (hd : q.decision < n.decisions.size) (steps : Nat) {u u' : AutomatonState}
    (hu : u.guardedAlts = u'.guardedAlts) :
    (twins n allowed).Agree s t (fun _ _ a b => a = b) (settleConflict q steps u s)
      (settleConflict q steps u' t) := by
  unfold settleConflict
  rw [hu]
  cases u'.guardedAlts with
  | none => exact startFullContext_agree h q hd steps ..
  | some pairs =>
    dsimp only
    rw [Run.bind_apply, Run.bind_apply, Run.get_apply, Run.get_apply]
    dsimp only
    rw [← h.stream]
    refine Coupling.Agree.bind (seek_agree h q.start) fun _ _ s₁ t₁ h₁ _ => ?_
    refine Coupling.Agree.bind (admitted_agree h₁.related q pairs) fun a b s₂ t₂ h₂ hab => ?_
    obtain rfl := hab
    have hrest : (twins n allowed).Agree s₂ t₂ (fun _ _ a b => a = b)
        ((seek s.stream.index >>= fun _ => startFullContext q steps a u.configs) s₂)
        ((seek s.stream.index >>= fun _ => startFullContext q steps a u'.configs) t₂) :=
      Coupling.Agree.bind (seek_agree h₂.related _) fun _ _ _ _ h₃ _ =>
        startFullContext_agree h₃.related q hd steps ..
    match a.toList with
    | [] => exact hrest
    | [alt] =>
      exact Coupling.Agree.bind (count_agree h₂.related _) fun _ _ _ _ h₃ _ => .pure h₃.related rfl
    | _ :: _ :: _ => exact hrest

/-- Twins take the same from states that recognise the same, if it is something. -/
theorem accept_agree (h : Twins n allowed s t) (q : Question σ) (a b : Target)
    {u u' : AutomatonState} (hguarded : u.guardedAlts = u'.guardedAlts)
    (hpred : u.prediction = u'.prediction)
    (hsome : u.guardedAlts = none → ∃ alt, u.prediction = some alt) (x : Symbol) :
    (twins n allowed).Agree s t (fun _ _ a b => a = b) (accept q a u x s) (accept q b u' x t) := by
  unfold accept
  rw [← hguarded, ← hpred]
  cases hg : u.guardedAlts with
  | none =>
    obtain ⟨alt, halt⟩ := hsome hg
    rw [halt]
    exact Coupling.Agree.bind (count_agree h _) fun _ _ _ _ h₁ _ => .pure h₁.related rfl
  | some pairs =>
    dsimp only
    rw [Run.bind_apply, Run.bind_apply, Run.get_apply, Run.get_apply]
    dsimp only
    rw [← h.stream]
    refine Coupling.Agree.bind (seek_agree h q.start) fun _ _ s₁ t₁ h₁ _ => ?_
    refine Coupling.Agree.bind (admitted_agree h₁.related q pairs) fun a b s₂ t₂ h₂ hab => ?_
    obtain rfl := hab
    refine Coupling.Agree.bind (count_agree h₂.related _) fun _ _ s₃ t₃ h₃ _ => ?_
    cases a.min? with
    | some alt => exact .pure h₃.related rfl
    | none => exact .error _ h₃.related

/-! ## What follows from the run of the automaton -/

/-- Runs of two automata that stopped in the same way.  Configurations that were left behind count
with their reach only where `strict` asks for it. -/
inductive Halt.Alike (strict : Bool) (g h : StackGraph) : Halt → Halt → Prop
  | stranded {cs ds : ConfigSet} (x : Symbol) : ConfigSet.Alike strict g h cs ds →
      Alike strict g h (.stranded cs x) (.stranded ds x)
  | contested {u u' : AutomatonState} (steps : Nat) : u.Alike false g h u' →
      Alike strict g h (.contested steps u) (.contested steps u')
  | accepting {u u' : AutomatonState} (a b : Target) (x : Symbol) : u.Alike false g h u' →
      (u.guardedAlts = none → ∃ alt, u.prediction = some alt) →
      Alike strict g h (.accepting a u x) (.accepting b u' x)

/-- Twins that stopped in the same way choose the same, if what they left behind has the same
reach. -/
theorem conclude_agree (h : Twins n allowed s t) (q : Question σ)
    (hd : q.decision < n.decisions.size) {a b : Halt}
    (hab : Halt.Alike true s.predictor.cache.graph t.predictor.cache.graph a b) :
    (twins n allowed).Agree s t (fun _ _ a b => a = b) (conclude q a s) (conclude q b t) := by
  cases hab with
  | stranded x hcs => exact giveUp_agree h q hcs x
  | contested steps hu => exact settleConflict_agree h q hd steps hu.guardedAlts
  | accepting a b x hu hsome => exact accept_agree h q a b hu.guardedAlts hu.prediction hsome x

end Predictor
end AdaptiveLL
