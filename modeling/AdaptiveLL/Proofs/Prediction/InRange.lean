import Mathlib
import AdaptiveLL.Proofs.Prediction.Admitted

/-! # Predictions are in range

What a prediction answers comes from one of several places: an alternative that is left alone, the
lowest of those in conflict or of those that guards admit, what the run with the caller's stack settles
on, or one that had finished when the tokens ran into an error.  Each of them reads it off
configurations, and these are about alternatives of the decision.

For a stored state this has to be seen from what it records.  `AutomatonState.Choosable` says that
whatever may be taken from a state is in range and that a state which recognises something and lists no
guards names an alternative.  The states of a cache in use are so, since each recognises what its
configurations say (`AutomatonState.Classified`) and these have numbers of the decision
(`AutomatonState.Numbered`).  So the two runs end in range or with an error that says why, and no state
of affairs comes up that a sound network excludes (`Predictor.predict_in_range`).
-/
namespace AdaptiveLL

/-! ## What may be taken from a state -/

namespace AutomatonState
variable {count : Nat} {u : AutomatonState}

/-- Whatever may be taken from a state is an alternative of the decision, and where it recognises
something there is something to take. -/
structure Choosable (count : Nat) (u : AutomatonState) : Prop where
  configs : ∀ c ∈ u.configs.toList, OneOf count c.alt
  listed : ∀ pairs, u.guardedAlts = some pairs → ∀ pair ∈ pairs, OneOf count pair.alt
  named : u.isAccept → u.guardedAlts = none → ∃ alt, u.prediction = some alt ∧ OneOf count alt

/-- The list of a state is made for the alternatives that the decision has. -/
theorem oneOf_of_guardedAlts? {t : ConfigSet} {alts : AltSet} {pairs : List GuardedAlt}
    (h : t.guardedAlts? alts count = some pairs) : ∀ pair ∈ pairs, OneOf count pair.alt := by
  unfold ConfigSet.guardedAlts? at h
  dsimp only at h
  split at h
  · obtain rfl := Option.some.inj h
    intro pair hpair
    obtain ⟨alt, halt, rfl⟩ := List.mem_map.mp hpair
    simpa [OneOf] using (List.mem_filter.mp halt).2
  · cases h

/-- What a state names that recognises something without guards among its configurations. -/
theorem Classified.named_of_unguarded (h : u.Classified count) (hnumbered : u.Numbered count)
    (haccept : u.isAccept) (hguards : u.configs.hasGuards = false) :
    u.guardedAlts = none ∧ ∃ alt, u.prediction = some alt ∧ OneOf count alt := by
  have hoccurring : ∀ {alt}, (∃ c ∈ u.configs.toList, c.alt = alt) → OneOf count alt := by
    rintro _ ⟨c, hc, rfl⟩
    exact hnumbered.range c hc
  have hv := h.eq_verdict
  rw [verdict, applyGuards_of_plain (by rwa [configs_unguarded]), unguarded] at hv
  cases hunique : u.configs.uniqueAlt with
  | some alt =>
    rw [hunique] at hv
    exact ⟨congrArg guardedAlts hv, alt, congrArg prediction hv, hoccurring (hnumbered.unique alt hunique)⟩
  | none =>
    cases hconflict : u.configs.conflictingAlts with
    | some alts =>
      rw [hunique, hconflict] at hv
      obtain ⟨m, hm⟩ := h.contested alts hconflict
      have hquestion : u.configs.altsInQuestion? = some alts := by
        rw [ConfigSet.altsInQuestion?, hconflict]
      exact ⟨congrArg guardedAlts hv, m, (congrArg prediction hv).trans hm,
        hoccurring (hnumbered.occurring alts hquestion m (AltSet.min?_eq_some_iff.mp hm).1)⟩
    | none =>
      rw [hunique, hconflict] at hv
      have hno : u.isAccept = false := congrArg isAccept hv
      rw [hno] at haccept
      cases haccept

/-- A state that recognises what its configurations say, about alternatives of the decision. -/
theorem Classified.choosable (h : u.Classified count) (hnumbered : u.Numbered count) :
    u.Choosable count where
  configs := hnumbered.range
  listed pairs hpairs := by
    have hv := h.eq_verdict
    have hlist : (unguarded u.configs).guardedAlts = none := by
      unfold unguarded
      split <;> rfl
    have hmade : (verdict count u.configs).guardedAlts = some pairs := by rw [← hv, hpairs]
    unfold verdict applyGuards at hmade
    split at hmade
    · split at hmade
      · cases hlist.symm.trans hmade
      · split at hmade
        · next pairs' hpairs' =>
          obtain rfl : pairs' = pairs := Option.some.inj hmade
          exact oneOf_of_guardedAlts? hpairs'
        · cases hlist.symm.trans hmade
    · cases hlist.symm.trans hmade
  named haccept hnone := by
    cases hguards : u.configs.hasGuards with
    | false => exact (h.named_of_unguarded hnumbered haccept hguards).2
    | true =>
      obtain ⟨alts, halts, ⟨m, hm⟩, ⟨pairs, -, hlist⟩ | ⟨-, -, hprediction⟩⟩ := h.guarded haccept hguards
      · cases hlist.symm.trans hnone
      · obtain ⟨c, hc, halt⟩ := hnumbered.occurring alts halts m (AltSet.min?_eq_some_iff.mp hm).1
        exact ⟨m, hprediction.trans hm, halt ▸ hnumbered.range c hc⟩

end AutomatonState

namespace Predictor
open Run
variable {σ : Type} {n : Network} {q : Question σ}

/-! ## What a run takes from configurations -/

/-- The errors of a prediction: a limit was hit, the tokens fit no alternative, or the fuel is used up. -/
def Misses (q : Question σ) (e : RecognitionError) : Prop :=
  e.IsLimit ∨ (∃ offending x, e = .noViableAlt q.decision q.start offending x) ∨ e = .outOfFuel

/-- A run of a predictor for a network that ends with something good, or with an error of a
prediction. -/
def Yields (n : Network) (q : Question σ) {α : Type} (good : α → Prop) (m : Run (Session σ) α) : Prop :=
  Meets (NumberedIn n) m (fun a s => good a ∧ NumberedIn n s) fun e _ => Misses q e

namespace Yields
variable {α β : Type} {good : α → Prop} {good' : β → Prop}

theorem pure {a : α} (h : good a) : Yields n q good (Pure.pure a : Run (Session σ) α) := fun _ hs => ⟨h, hs⟩

theorem throw {e : RecognitionError} (h : Misses q e) : Yields n q good (throw e : Run (Session σ) α) :=
  fun _ _ => h

theorem get : Yields n q (NumberedIn n) (MonadState.get : Run (Session σ) (Session σ)) :=
  fun _ hs => ⟨hs, hs⟩

theorem bind {m : Run (Session σ) α} {k : α → Run (Session σ) β} (hm : Yields n q good m)
    (hk : ∀ a, good a → Yields n q good' (k a)) : Yields n q good' (m >>= k) :=
  Meets.bind hm fun a s hs => hk a hs.1 s hs.2

/-- A run that stores no state, judged by what it ends with. -/
theorem of_leaves {m : Run (Session σ) α} (hm : Leaves Session.outline m)
    (hok : ∀ s a t, m s = (.ok a, t) → good a) (herror : Fails (Misses q) m) : Yields n q good m := by
  intro s hs
  have hkept := (numberedIn_of_leaves (n := n) hm).preserves s hs
  rcases hr : m s with ⟨e | a, t⟩
  · exact herror hr
  · rw [hr] at hkept
    exact ⟨hok s a t hr, hkept⟩

/-- As `of_leaves`, when nothing is asked of the result. -/
theorem of_silent {m : Run (Session σ) α} (hm : Leaves Session.outline m) (herror : Fails (Misses q) m) :
    Yields n q (fun _ => True) m := of_leaves hm (fun _ _ _ _ => trivial) herror

end Yields

theorem yields_seek (index : Nat) : Yields n q (fun _ => True) (seek index : Run (Session σ) Unit) :=
  .of_silent (leaves_seek index) (.modify _)

theorem yields_countSll : Yields n q (fun _ => True) (countSll : Run (Session σ) Unit) :=
  .of_silent leaves_countSll (fails_inSession (.modify _))

theorem yields_report (d : Diagnostic) : Yields n q (fun _ => True) (report d : Run (Session σ) Unit) :=
  .of_silent (leaves_report d) (.modify _)

theorem fails_countStep (steps : Nat) : Fails (Misses q) (countStep q steps) :=
  Fails.get.bind fun _ => .ite (.throw (.inl (.inr ⟨_, _, rfl⟩))) (.pure _)

theorem yields_countStep (steps : Nat) : Yields n q (fun _ => True) (countStep q steps) :=
  .of_silent (leaves_countStep q steps) (fails_countStep steps)

theorem yields_readOn (x : Symbol) : Yields n q (fun _ => True) (readOn x : Run (Session σ) Symbol) :=
  .of_silent (leaves_readOn x) (fails_readOn x)

/-- The alternatives that are admitted were listed. -/
theorem exists_of_mem_admitted {pairs : List GuardedAlt} {s t : Session σ} {alts : AltSet}
    (h : admitted q pairs s = (.ok alts, t)) : ∀ alt ∈ alts.toList, ∃ pair ∈ pairs, pair.alt = alt := by
  induction pairs generalizing s t alts with
  | nil =>
    cases h
    exact fun alt halt => absurd halt List.not_mem_nil
  | cons pair pairs ih =>
    obtain ⟨holds, s₁, -, h⟩ := Run.exists_of_bind h
    obtain ⟨rest, s₂, hrest, h⟩ := Run.exists_of_bind h
    cases h
    intro alt halt
    have hrest' : alt ∈ rest.toList → ∃ p ∈ pair :: pairs, p.alt = alt := fun halt =>
      let ⟨p, hp, he⟩ := ih hrest alt halt
      ⟨p, List.mem_cons_of_mem _ hp, he⟩
    cases holds with
    | false => exact hrest' halt
    | true =>
      rcases AltSet.mem_insert.mp halt with rfl | halt
      · exact ⟨pair, List.mem_cons_self, rfl⟩
      · exact hrest' halt

theorem yields_admitted {pairs : List GuardedAlt} {good : Nat → Prop}
    (hpairs : ∀ pair ∈ pairs, good pair.alt) :
    Yields n q (fun alts => ∀ alt ∈ alts.toList, good alt) (admitted q pairs) := by
  refine .of_leaves (leaves_admitted q pairs) (fun s alts t h alt halt => ?_) (fails_admitted q pairs)
  obtain ⟨pair, hpair, rfl⟩ := exists_of_mem_admitted h alt halt
  exact hpairs pair hpair

/-- Splitting configurations makes none up. -/
theorem mem_of_splitByGuard {cs valid invalid : List Config} {s t : Session σ}
    (h : splitByGuard q cs s = (.ok (valid, invalid), t)) : valid ⊆ cs ∧ invalid ⊆ cs := by
  induction cs generalizing s t valid invalid with
  | nil =>
    cases h
    exact ⟨List.Subset.refl _, List.Subset.refl _⟩
  | cons c cs ih =>
    obtain ⟨holds, s₁, -, h⟩ := Run.exists_of_bind h
    obtain ⟨⟨vs, is⟩, s₂, hrest, h⟩ := Run.exists_of_bind h
    obtain ⟨hvs, his⟩ := ih hrest
    cases holds with
    | false =>
      cases h
      exact ⟨List.subset_cons_of_subset c hvs, List.cons_subset_cons c his⟩
    | true =>
      cases h
      exact ⟨List.cons_subset_cons c hvs, List.subset_cons_of_subset c his⟩

/-- An alternative that has finished is that of a configuration. -/
theorem exists_of_finishedAlt? {g : StackGraph} {cs : List Config} {alt : Nat}
    (h : finishedAlt? n g cs = some alt) : ∃ c ∈ cs, c.alt = alt := by
  have hmem := AltSet.mem_ofList.mp (AltSet.min?_eq_some_iff.mp h).1
  obtain ⟨c, hc, halt⟩ := List.mem_map.mp hmem
  exact ⟨c, (List.mem_filter.mp hc).1, halt⟩

/-- What is fallen back to is an alternative of the configurations. -/
theorem exists_of_fallback? {configs : ConfigSet} {alt : Nat} {s t : Session σ}
    (h : fallback? q configs s = (.ok (some alt), t)) : ∃ c ∈ configs.toList, c.alt = alt := by
  obtain ⟨⟨valid, invalid⟩, s₁, hsplit, h⟩ := Run.exists_of_bind h
  obtain ⟨hvalid, hinvalid⟩ := mem_of_splitByGuard hsplit
  have hsome : (finishedAlt? s₁.predictor.network s₁.predictor.cache.graph valid <|>
      finishedAlt? s₁.predictor.network s₁.predictor.cache.graph invalid) = some alt :=
    Except.ok.inj (congrArg Prod.fst h)
  rw [Option.orElse_eq_orElse, Option.orElse_eq_or, Option.or_eq_some_iff] at hsome
  rcases hsome with hfound | ⟨-, hfound⟩
  · obtain ⟨c, hc, halt⟩ := exists_of_finishedAlt? hfound
    exact ⟨c, hvalid hc, halt⟩
  · obtain ⟨c, hc, halt⟩ := exists_of_finishedAlt? hfound
    exact ⟨c, hinvalid hc, halt⟩

/-- Giving up, unless there is an alternative to fall back to. -/
theorem yields_giveUp {good : Nat → Prop} {configs : ConfigSet} (h : ∀ c ∈ configs.toList, good c.alt)
    (x : Symbol) : Yields n q good (giveUp q configs x) := by
  have hfallback : Yields n q (fun o => ∀ alt, o = some alt → good alt) (fallback? q configs) := by
    refine .of_leaves ?_ (fun s o t ho alt halt => ?_) ?_
    · exact (leaves_splitByGuard q _).bind fun _ => Leaves.get.bind fun _ => .pure _
    · subst halt
      obtain ⟨c, hc, rfl⟩ := exists_of_fallback? ho
      exact h c hc
    · exact (fails_splitByGuard q _).bind fun _ => Fails.get.bind fun _ => .pure _
  refine Yields.get.bind fun s _ => (yields_seek q.start).bind fun _ _ => hfallback.bind fun o ho => ?_
  cases o with
  | some alt => exact .pure (ho alt rfl)
  | none => exact .throw (.inr (.inl ⟨_, _, rfl⟩))

/-- Taking what an accepting state recognises. -/
theorem yields_accept {count : Nat} {u : AutomatonState} (hu : u.Choosable count) (haccept : u.isAccept)
    (t : Target) (x : Symbol) : Yields n q (OneOf count) (accept q t u x) := by
  unfold accept
  split
  · next hnone =>
    obtain ⟨alt, halt, hrange⟩ := hu.named haccept hnone
    rw [halt]
    exact yields_countSll.bind fun _ _ => .pure hrange
  · next pairs hpairs =>
    refine Yields.get.bind fun s _ => (yields_seek q.start).bind fun _ _ => ?_
    refine (yields_admitted (hu.listed pairs hpairs)).bind fun alts halts => yields_countSll.bind fun _ _ => ?_
    cases hmin : alts.min? with
    | some alt => exact .pure (halts alt (AltSet.min?_eq_some_iff.mp hmin).1)
    | none => exact .throw (.inr (.inl ⟨_, _, rfl⟩))

/-! ## The run with the caller's stack -/

end Predictor

/-- The alternative that is lowest at every place occurs at one. -/
theorem Conflict.exists_of_singleViable? {subsets : List AltSet} {alt : Nat}
    (h : singleViable? subsets = some alt) : ∃ alts ∈ subsets, alt ∈ alts.toList := by
  unfold singleViable? at h
  dsimp only at h
  split at h
  · have hmem := AltSet.mem_ofList.mp (AltSet.min?_eq_some_iff.mp h).1
    obtain ⟨alts, halts, hmin⟩ := List.mem_filterMap.mp hmem
    exact ⟨alts, halts, (AltSet.min?_eq_some_iff.mp hmin).1⟩
  · cases h

namespace Predictor
open Run
variable {σ : Type} {n : Network} {q : Question σ}

/-- What settles the run is an alternative of what was reached. -/
theorem exists_of_settles? {exact certain : Bool} {x : Symbol} {previous reached : ConfigSet} {alt : Nat}
    (h : settles? exact x previous reached.marked = some (alt, certain)) :
    ∃ c ∈ reached.toList, c.alt = alt := by
  have hviable : ∀ {a : Nat}, Conflict.singleViable? reached.conflictSubsets = some a →
      ∃ c ∈ reached.toList, c.alt = a := by
    intro a ha
    obtain ⟨alts, halts, hmem⟩ := Conflict.exists_of_singleViable? ha
    obtain ⟨state, stack, hiff⟩ := ConfigSet.mem_of_conflictSubset halts
    obtain ⟨c, hc, -, -, halt⟩ := (hiff a).mp hmem
    exact ⟨c, hc, halt⟩
  unfold settles? at h
  rw [Option.orElse_eq_orElse, Option.orElse_eq_or, Option.or_eq_some_iff] at h
  rcases h with h | ⟨-, h⟩
  · split at h
    · next a ha =>
      cases h
      exact AutomatonState.exists_of_findUniqueAlt ha
    · split at h
      · obtain ⟨a, ha, he⟩ := Option.map_eq_some_iff.mp h
        cases he
        exact hviable ha
      · split at h
        · obtain ⟨a, ha, he⟩ := Option.map_eq_some_iff.mp h
          cases he
          exact hviable ha
        · cases h
  · split at h
    · obtain ⟨a, ha, he⟩ := Option.map_eq_some_iff.mp h
      cases he
      exact ConfigSet.mem_alts.mp (AltSet.min?_eq_some_iff.mp ha).1
    · cases h

/-- What a closure does with the stacks, judged by what it gives. -/
theorem yields_withSessionStacks {α : Type} {good : α → Prop} {act : Run (Workspace σ) α}
    (hok : ∀ w a w', act w = (.ok a, w') → good a) (herror : Fails RecognitionError.IsLimit act) :
    Yields n q good (withSessionStacks act) := by
  refine .of_leaves (leaves_withSessionStacks act) (fun s a t h => ?_)
    (fails_withSessionStacks (herror.imp fun _ => .inl))
  rw [withSessionStacks_apply, Prod.mk.injEq] at h
  exact hok _ a _ (Prod.ext h.1 rfl)

/-- The run with the caller's stack, by induction on its steps. -/
theorem yields_runFullContext (env : Surroundings σ) {count : Nat} (fuel : Nat) :
    ∀ (steps : Nat) {previous : ConfigSet} (x : Symbol), (∀ c ∈ previous.toList, OneOf count c.alt) →
      Yields n q (OneOf count) (runFullContext q env fuel steps previous x) := by
  induction fuel with
  | zero => exact fun _ _ _ _ => .throw (.inr (.inr rfl))
  | succ fuel ih =>
    intro steps previous x hprevious
    have hreach : Yields n q (fun o => ∀ r, o = some r → ∀ c ∈ r.toList, OneOf count c.alt)
        (withSessionStacks (env.reach true x previous)) := by
      refine yields_withSessionStacks (fun w o w' h r hr => ?_) (env.fails_reach true x previous)
      subst hr
      exact (Surroundings.carries_reach (Network.passes_oneOf _ _) hprevious h).configs
    rw [runFullContext]
    refine (yields_countStep steps).bind fun _ _ => hreach.bind fun o ho => ?_
    cases o with
    | none => exact yields_giveUp hprevious x
    | some r =>
      refine Yields.get.bind fun s _ => ?_
      dsimp only
      split
      · next alt certain hsettles =>
        obtain ⟨c, hc, rfl⟩ := exists_of_settles? hsettles
        exact Yields.get.bind fun _ _ => (yields_report _).bind fun _ _ => .pure (ho r rfl c hc)
      · exact (yields_readOn x).bind fun next _ => ih _ _ (ho r rfl)

end Predictor

/-- A state that calls a rule. -/
def Network.Calling (n : Network) (q : Nat) : Prop :=
  ∃ target rule level follow, (n.state q).transitions.head? = some (.call target rule level follow)

theorem Network.Calling.follow {n : Network} {q : Nat} (h : n.Calling q) : ∃ f, n.follow q = .ok f := by
  obtain ⟨target, rule, level, follow, hhead⟩ := h
  unfold Network.state at hhead
  cases hq : n.states[q]? with
  | none =>
    rw [hq] at hhead
    cases hhead
  | some s =>
    rw [hq] at hhead
    have hcall : s.transitions.head? = some (.call target rule level follow) := hhead
    exact ⟨follow, by rw [Network.follow, hq, Option.bind_some, hcall]⟩

/-- Invocations whose callers call rules make a stack. -/
theorem StackGraph.exists_pushInvocations {n : Network} {outer : List Invocation}
    (houter : ∀ frame ∈ outer, ∀ q, frame.caller = some q → n.Calling q) (g : StackGraph) :
    ∃ r g', g.pushInvocations n outer = (.ok r, g') := by
  have hgo : ∀ (outer : List Invocation) (below : StackRef) (g : StackGraph),
      (∀ frame ∈ outer, ∀ q, frame.caller = some q → n.Calling q) →
      ∃ r g', pushInvocations.go n below g outer = (.ok r, g') := by
    intro outer
    induction outer with
    | nil => exact fun below g _ => ⟨below, g, rfl⟩
    | cons frame outer ih =>
      intro below g h
      rw [List.forall_mem_cons] at h
      rw [pushInvocations.go]
      cases hcaller : frame.caller with
      | none => exact ih below g h.2
      | some q =>
        obtain ⟨f, hf⟩ := (h.1 q hcaller).follow
        dsimp only
        rw [hf]
        exact ih _ _ h.2
  exact hgo outer _ g houter

/-- Starting over the stack of such callers fails because a closure is too deep. -/
theorem Surroundings.fails_startConfigs_calling {σ : Type} {env : Surroundings σ} {n : Network}
    (hn : env.network = n) {outer : List Invocation}
    (houter : ∀ frame ∈ outer, ∀ q, frame.caller = some q → n.Calling q) (state : Nat) :
    Run.Fails RecognitionError.IsLimit (env.startConfigs state outer) := by
  subst hn
  intro w e w' h
  cases hf : env.fullContext with
  | false => exact env.fails_startConfigs hf state outer h
  | true =>
    obtain ⟨r, g, hpush⟩ := w.graph.exists_pushInvocations houter
    unfold startConfigs at h
    rw [if_pos hf] at h
    simp only [Run.bind_apply, Run.modifyGet_apply, Run.mk_apply, hpush] at h
    exact Closure.fails_closeAll _ _ h

namespace Predictor
open Run
variable {σ : Type} {n : Network} {q : Question σ}

section
variable (hd : q.decision < n.decisions.size)
  (houter : ∀ frame ∈ q.outer, ∀ caller, frame.caller = some caller → n.Calling caller)
include hd houter

/-- Asking the caller's stack. -/
theorem yields_startFullContext (steps : Nat) (conflicting : AltSet) (configs : ConfigSet) :
    Yields n q (OneOf (n.alternatives q.decision)) (startFullContext q steps conflicting configs) := by
  unfold startFullContext
  refine Yields.get.bind fun _ _ => (yields_report _).bind fun _ _ => ?_
  refine Yields.bind (.of_silent (leaves_inSession_outline (leaves_count _)) (fails_inSession (.modify _)))
    fun _ _ => Yields.get.bind fun s hs => ?_
  refine Yields.bind (?_ : Yields n q (fun start : ConfigSet => ∀ c ∈ start.toList,
    OneOf (n.alternatives q.decision) c.alt) _) fun start hstart => ?_
  · exact yields_withSessionStacks (fun w start w' h => (carries_startState hs hd h).configs)
      (Surroundings.fails_startConfigs_calling hs.network houter _)
  · refine (yields_seek q.start).bind fun _ _ => Yields.get.bind fun t _ => ?_
    exact yields_runFullContext _ _ _ _ hstart

/-- Settling a conflict that the automaton found. -/
theorem yields_settleConflict {u : AutomatonState} (hu : u.Choosable (n.alternatives q.decision))
    (steps : Nat) : Yields n q (OneOf (n.alternatives q.decision)) (settleConflict q steps u) := by
  unfold settleConflict
  split
  · exact yields_startFullContext hd houter _ _ _
  · next pairs hpairs =>
    refine Yields.get.bind fun s _ => (yields_seek q.start).bind fun _ _ => ?_
    refine (yields_admitted (hu.listed pairs hpairs)).bind fun alts halts => ?_
    split
    · next alt halt =>
      exact yields_countSll.bind fun _ _ => .pure (halts alt (halt ▸ List.mem_singleton_self alt))
    · exact (yields_seek _).bind fun _ _ => yields_startFullContext hd houter _ _ _

end

/-! ## The run of the automaton -/

/-- Whatever may be taken from where the run of an automaton ended is an alternative of the decision. -/
def Halt.Choosable (count : Nat) : Halt → Prop
  | .stranded configs _ => ∀ c ∈ configs.toList, OneOf count c.alt
  | .contested _ u => u.Choosable count
  | .accepting _ u _ => u.Choosable count ∧ u.isAccept

theorem choosable_of_haltAt? {count steps : Nat} {mode : PredictionMode} {t : Target} {u : AutomatonState}
    {x : Symbol} {a : Halt} (hu : u.Choosable count) (h : haltAt? mode steps t u x = some a) :
    a.Choosable count := by
  unfold haltAt? at h
  split at h
  · cases h
    exact hu
  · split at h
    · next haccept =>
      cases h
      exact ⟨hu, haccept⟩
    · cases h

/-- The alternative that follows from where the run of the automaton ended. -/
theorem yields_conclude (hd : q.decision < n.decisions.size)
    (houter : ∀ frame ∈ q.outer, ∀ caller, frame.caller = some caller → n.Calling caller) {a : Halt}
    (ha : a.Choosable (n.alternatives q.decision)) :
    Yields n q (OneOf (n.alternatives q.decision)) (conclude q a) := by
  cases a with
  | stranded configs x => exact yields_giveUp ha x
  | contested steps u => exact yields_settleConflict hd houter ha steps
  | accepting t u x => exact yields_accept ha.1 ha.2 t x

/-- A predictor in use, with a state of a decision's automaton. -/
structure Ready (n : Network) (d : Nat) (t : Target) (p : Predictor) : Prop where
  sane : p.Sane n fun _ => True
  numbered : p.Numbered n
  names : ∃ e, Automaton.Names (p.cache.automaton d) t (some e)

/-- The states of a predictor in use may be chosen from. -/
theorem Ready.choosable {d : Nat} {t : Target} {p : Predictor} (h : Ready n d t p)
    (hd : d < n.decisions.size) : ∃ u, automatonState d t p = (.ok u, p) ∧ u.Choosable (n.alternatives d) := by
  obtain ⟨e, he⟩ := h.names
  obtain ⟨u, hu, rfl⟩ := automatonState_ends he
  refine ⟨u, hu, ?_⟩
  have hclassified : u.bare.Classified (n.alternatives d) := ((h.sane.cache.automaton hd).every_of_names he).1
  have hnumbered : u.Numbered (n.alternatives d) := by
    have hkept := numbered_automatonState t p h.numbered (d := d)
    rw [hu] at hkept
    exact hkept.1
  have hbare := hclassified.choosable (hnumbered.of_configs rfl)
  exact ⟨hbare.configs, hbare.listed, hbare.named⟩

/-- A run that leaves the predictor as it is. -/
theorem meets_aside {α : Type} {P : Predictor → Prop} {m : Run (Session σ) α}
    (hm : Leaves Session.predictor m) (herror : Fails (Misses q) m) :
    Meets (fun s => P s.predictor) m (fun _ s => P s.predictor) fun e _ => Misses q e := by
  intro s hs
  have hkept := hm s
  rcases hr : m s with ⟨e | a, t⟩
  · exact herror hr
  · rw [hr] at hkept
    have hP : P t.predictor := (congrArg P hkept).mpr hs
    exact hP

/-- What is known before a run begins need not be a matter of the state. -/
theorem meets_given {α : Type} {p : Prop} {pre : Session σ → Prop} {m : Run (Session σ) α}
    {post : α → Session σ → Prop} {fail : RecognitionError → Session σ → Prop}
    (h : p → Meets pre m post fail) : Meets (fun s => p ∧ pre s) m post fail := fun s hs => h hs.1 s hs.2

theorem meets_automatonState (hd : q.decision < n.decisions.size) (t : Target) :
    Meets (fun s : Session σ => Ready n q.decision t s.predictor) (inSession (automatonState q.decision t))
      (fun u s => u.Choosable (n.alternatives q.decision) ∧ Ready n q.decision t s.predictor)
      fun e _ => Misses q e := by
  intro s hs
  obtain ⟨u, hu, hchoosable⟩ := hs.choosable hd
  rw [inSession_apply, hu]
  exact ⟨hchoosable, hs⟩

/-- One step along the automaton leads to a state, or nowhere. -/
theorem meets_step (hd : q.decision < n.decisions.size) (t : Target) (x : Symbol) :
    Meets (fun s : Session σ => Ready n q.decision t s.predictor) (inSession (step q.decision t x))
      (fun u s => Ready n q.decision (if u.isError then t else u) s.predictor) fun e _ => Misses q e := by
  rintro s ⟨hsane, hnumbered, e, he⟩
  have hstep := step_ends hsane hd he x
  have hkept := (numbered_step (d := q.decision) t x).preserves s.predictor hnumbered
  rw [inSession_apply]
  generalize step q.decision t x s.predictor = r at hstep hkept ⊢
  obtain ⟨err | u, p⟩ := r
  · obtain ⟨-, g, hedge⟩ := hstep
    exact .inl (isLimit_of_edgeResult hedge)
  · obtain ⟨hadv, o, hu, -⟩ := hstep
    cases hu with
    | error => exact ⟨hadv.sane, hkept, e, he.mono hadv.automaton⟩
    | state hi => exact ⟨hadv.sane, hkept, _, .state hi⟩

/-- The run of the automaton, by induction on its steps. -/
theorem meets_runAutomaton (hd : q.decision < n.decisions.size) (fuel : Nat) :
    ∀ (steps : Nat) (t : Target) (x : Symbol),
      Meets (fun s : Session σ => Ready n q.decision t s.predictor) (runAutomaton q fuel steps t x)
        (fun a s => a.Choosable (n.alternatives q.decision) ∧ NumberedIn n s) fun e _ => Misses q e := by
  induction fuel with
  | zero => exact fun _ _ _ => .throw fun _ _ => .inr (.inr rfl)
  | succ fuel ih =>
    intro steps t x
    rw [runAutomaton]
    have hcount : Leaves Session.predictor (countStep q steps) := fun s => by
      rcases countStep_cases q steps s with h | h <;> rw [h]
    have hread : Leaves Session.predictor (readOn x : Run (Session σ) Symbol) := fun s => by
      rw [readOn_apply]
      split <;> rfl
    refine (meets_aside hcount (fails_countStep steps)).bind fun _ => ?_
    refine (meets_step hd t x).bind fun u => .ite (fun herror => ?_) fun herror => ?_
    · rw [if_pos herror]
      refine (meets_automatonState hd t).bind fun f => meets_given fun hf => ?_
      exact .pure fun s hs => ⟨hf.configs, hs.numbered⟩
    · rw [if_neg herror]
      refine (meets_automatonState hd u).bind fun f => meets_given fun hf => ?_
      have hget : Meets (fun s : Session σ => Ready n q.decision u s.predictor) MonadState.get
          (fun _ s => Ready n q.decision u s.predictor) fun e _ => Misses q e := .get fun _ hs => hs
      refine hget.bind fun _ => ?_
      split
      · next a ha => exact .pure fun s hs => ⟨choosable_of_haltAt? hf ha, hs.numbered⟩
      · exact (meets_aside hread (fails_readOn x)).bind fun _ => ih _ _ _

/-- The state in which the automaton begins. -/
theorem meets_startState (hd : q.decision < n.decisions.size) :
    Meets (fun s : Session σ => s.predictor.Sane n (fun _ => True) ∧ NumberedIn n s) (startState q)
      (fun t s => Ready n q.decision t s.predictor) fun e _ => Misses q e := by
  rintro s ⟨hsane, hnumbered⟩
  have hstart := startState_ends q s hsane hd
  have hkept := (numberedIn_startState q hd).preserves s hnumbered
  generalize startState q s = r at hstart hkept ⊢
  obtain ⟨e | t, s'⟩ := r
  · obtain ⟨-, w, herror⟩ := hstart
    exact .inl (Surroundings.fails_startConfigs _ rfl _ _ herror)
  · obtain ⟨hruns, e, he, -⟩ := hstart
    exact ⟨hruns.predictor.sane, hkept, e, he⟩

/-- Choosing an alternative, whatever the cache was used for before. -/
theorem meets_choose (hd : q.decision < n.decisions.size)
    (houter : ∀ frame ∈ q.outer, ∀ caller, frame.caller = some caller → n.Calling caller) :
    Meets (fun s : Session σ => s.predictor.Sane n (fun _ => True) ∧ NumberedIn n s) (choose q)
      (fun alt _ => OneOf (n.alternatives q.decision) alt) fun e _ => Misses q e := by
  have hahead : Meets (fun s : Session σ => s.predictor.Sane n (fun _ => True) ∧ NumberedIn n s) (lookAhead q)
      (fun a s => a.Choosable (n.alternatives q.decision) ∧ NumberedIn n s) fun e _ => Misses q e :=
    (meets_startState hd).bind fun t =>
      have hget : Meets (fun s : Session σ => Ready n q.decision t s.predictor) MonadState.get
          (fun _ s => Ready n q.decision t s.predictor) fun e _ => Misses q e := .get fun _ hs => hs
      hget.bind fun _ => meets_runAutomaton hd _ _ _ _
  refine hahead.bind fun a => meets_given fun ha => ?_
  exact (yields_conclude hd houter ha).imp (fun _ hs => hs) (fun _ _ h => h.1) fun _ _ h => h

/-- **A prediction is in range.**  Whatever the network, the tokens, the author's callbacks, the mode and
the limits are, and whatever the cache was used for before, let a decision of the network be predicted
under a stack whose callers call rules.  A result is one of the alternatives that the decision's state has,
counted from one.  An error says that a limit was hit or that no alternative fits the tokens, so it is
never one of a state of affairs that a sound network excludes. -/
theorem predict_in_range {s : Session σ} (hcache : s.predictor.cache.Served s.predictor.network)
    (hstream : s.stream.Used) (hooks : ParserHooks σ) {outer : List Invocation}
    (houter : ∀ frame ∈ outer, ∀ caller, frame.caller = some caller → s.predictor.network.Calling caller)
    {decision : Nat} (hd : decision < s.predictor.network.decisions.size) :
    let r := (predict hooks outer decision s).1
    (∀ alt, r = .ok alt →
      1 ≤ alt ∧ alt ≤ (s.predictor.network.decisionState decision).transitions.length) ∧
    (∀ e, r = .error e →
      e.IsLimit ∨ ∃ offending x, e = .noViableAlt decision s.stream.index offending x) ∧
    ∀ fault, r ≠ .error (.internal fault) := by
  have hsane : s.predictor.Sane s.predictor.network fun _ => True := ⟨rfl, trivial, hcache.faithful⟩
  have htimely := predict_timely hooks outer decision hsane hstream.placed
  have hchoose := meets_choose (q := ⟨hooks, outer, decision, s.stream.index⟩) hd houter s
    ⟨hsane, rfl, hcache.numbered⟩
  unfold predict at htimely ⊢
  rw [if_neg (Nat.not_le.mpr hd)] at htimely ⊢
  dsimp only at htimely ⊢
  generalize choose ⟨hooks, outer, decision, s.stream.index⟩ s = r at hchoose htimely ⊢
  obtain ⟨e | alt, p, stream, author⟩ := r
  · have hmisses : e.IsLimit ∨ ∃ offending x, e = .noViableAlt decision s.stream.index offending x := by
      rcases hchoose with hlimit | hnone | rfl
      · exact .inl hlimit
      · exact .inr hnone
      · exact absurd rfl htimely
    refine ⟨(fun alt h => nomatch h), fun e' h => ?_, fun fault h => ?_⟩
    · obtain rfl : e = e' := Except.error.inj h
      exact hmisses
    · obtain rfl : e = .internal fault := Except.error.inj h
      rcases hmisses with (⟨_, _, h⟩ | ⟨_, _, h⟩) | ⟨_, _, h⟩ <;> cases h
  · refine ⟨fun alt' h => ?_, (fun e h => nomatch h), fun fault h => nomatch h⟩
    obtain rfl : alt = alt' := Except.ok.inj h
    exact hchoose

/-- A predictor for the nested rule, with what a prediction for an opening token left behind. -/
def warmNest : Predictor where
  network := nestNetwork
  cache := (predict ParserHooks.none [.root 0] 0
    ⟨ofNetwork nestNetwork {}, TokenStream.ofTypes [1, 2], ()⟩).2.predictor.cache

theorem predict_in_range_nest :
    let outer := [Invocation.root 0, .called 0 6 0]
    let r := (predict ParserHooks.none outer 0 ⟨warmNest, TokenStream.ofTypes [2], ()⟩).1
    warmNest.cache.Served warmNest.network ∧ 0 < warmNest.network.decisions.size ∧
      (∀ frame ∈ outer, ∀ caller, frame.caller = some caller → warmNest.network.Calling caller) ∧
      r = .ok 2 ∧ 2 ≤ (warmNest.network.decisionState 0).transitions.length ∧
      ∀ fault, r ≠ .error (.internal fault) := by
  obtain ⟨hr, hd, hcalling⟩ :
      (predict ParserHooks.none [Invocation.root 0, .called 0 6 0] 0
        ⟨warmNest, TokenStream.ofTypes [2], ()⟩).1 = .ok 2 ∧
        0 < warmNest.network.decisions.size ∧
        (warmNest.network.state 6).transitions.head? = some (.call 0 0 0 7) := by
    cbv
  intro outer r
  have hserved : warmNest.cache.Served warmNest.network :=
    .predict (s := ⟨ofNetwork nestNetwork {}, TokenStream.ofTypes [1, 2], ()⟩) ParserHooks.none [.root 0] 0
      rfl .fresh
  have houter : ∀ frame ∈ outer, ∀ caller, frame.caller = some caller →
      warmNest.network.Calling caller := by
    intro frame hframe caller hcaller
    rcases List.mem_pair.mp hframe with rfl | rfl
    · cases hcaller
    · cases hcaller
      exact ⟨0, 0, 0, 7, hcalling⟩
  have hused : (TokenStream.ofTypes [2]).Used := .ofTokens _ _
  obtain ⟨hok, -, hinternal⟩ := predict_in_range (s := ⟨warmNest, TokenStream.ofTypes [2], ()⟩) hserved hused
    ParserHooks.none houter hd
  exact ⟨hserved, hd, houter, hr, (hok 2 hr).2, hinternal⟩

end Predictor
end AdaptiveLL
