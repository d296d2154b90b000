import Mathlib
import AdaptiveLL.Proofs.Prediction.LookAheadAlike

/-! # What a prediction owes to earlier ones

Predictions share a cache.  `Cache.Grown` collects the caches that predictions for a network can
leave behind, in any number and order and with cleared caches in between.  Each of them is faithful
(`Cache.Grown.faithful`).

So a prediction looks ahead over alike configurations, whatever was predicted before.  One thing
may still differ, how often a path returned past the rule that it began in, because states are
shared without regard to it.  It is read when the tokens run into an error, to find an alternative
that has finished the rule of the decision.  `Predictor.predict_eq_fresh_iff` says that the result
depends on earlier predictions in this way and in no other.
-/
namespace AdaptiveLL
open StackGraph (SameStacks Paired)

/-! ## Predictions keep the cache faithful -/

namespace Predictor
variable {σ : Type} {n : Network} {allowed : Settings → Prop} {s : Session σ}

/-- A halt at states and configurations of a faithful automaton. -/
def Halt.Known (count : Nat) (g : StackGraph) : Halt → Prop
  | .stranded cs _ => ∀ c ∈ cs.toList, g.knows c.stack
  | .contested _ u => EveryState count g u.bare
  | .accepting _ u _ => EveryState count g u.bare ∧ u.isAccept

theorem Halt.Known.alike {count : Nat} {g : StackGraph} {a : Halt} (h : a.Known count g) :
    Halt.Alike true g g a a := by
  cases a with
  | stranded cs x => exact .stranded x (.refl h)
  | contested steps u => exact .contested steps ⟨.refl h.2, rfl, rfl, rfl, rfl⟩
  | accepting t u x =>
    exact .accepting t t x ⟨.refl h.1.2, rfl, rfl, rfl, rfl⟩ (h.1.1.exists_prediction h.2)

theorem known_of_haltAt? {count : Nat} {g : StackGraph} {u : AutomatonState}
    (hu : EveryState count g u.bare) {mode : PredictionMode} {steps : Nat} {t : Target} {x : Symbol}
    {a : Halt} (ha : haltAt? mode steps t u x = some a) : a.Known count g := by
  unfold haltAt? at ha
  split at ha
  · cases ha
    exact hu
  · split at ha
    · next hacc =>
      cases ha
      exact ⟨hu, hacc⟩
    · contradiction

/-- What looking ahead keeps: the cache stays faithful, and it halts at what the cache knows. -/
def LookAheadEnds (n : Network) (allowed : Settings → Prop) (d : Nat) (s : Session σ)
    (r : Ending (Session σ) Halt) : Prop :=
  Advances n allowed d s.predictor r.2.predictor ∧
    ∀ a, r.1 = .ok a → a.Known (n.alternatives d) r.2.predictor.cache.graph

theorem LookAheadEnds.error {d : Nat} {s' : Session σ}
    (h : Advances n allowed d s.predictor s'.predictor) (e : RecognitionError) :
    LookAheadEnds n allowed d s (.error e, s') :=
  ⟨h, fun _ ha => nomatch ha⟩

theorem LookAheadEnds.ok {d : Nat} {s' : Session σ} {a : Halt}
    (h : Advances n allowed d s.predictor s'.predictor)
    (ha : a.Known (n.alternatives d) s'.predictor.cache.graph) :
    LookAheadEnds n allowed d s (.ok a, s') :=
  ⟨h, fun _ hb => Except.ok.inj hb ▸ ha⟩

theorem LookAheadEnds.after {d : Nat} {s' : Session σ} {r : Ending (Session σ) Halt}
    (h : Advances n allowed d s.predictor s'.predictor) (hr : LookAheadEnds n allowed d s' r) :
    LookAheadEnds n allowed d s r :=
  ⟨h.trans hr.1, hr.2⟩

/-- Runs of the automaton keep the cache faithful. -/
theorem runAutomaton_ends (q : Question σ) (hd : q.decision < n.decisions.size) (fuel steps : Nat)
    (h : s.predictor.Sane n allowed) {t : Target} {e : AutomatonState}
    (ht : Automaton.Names (s.predictor.cache.automaton q.decision) t (some e)) (x : Symbol) :
    LookAheadEnds n allowed q.decision s (runAutomaton q fuel steps t x s) := by
  induction fuel generalizing steps s t e x with
  | zero => exact .error (.refl h) _
  | succ fuel ih =>
    unfold runAutomaton
    rw [Run.bind_apply]
    rcases countStep_cases q steps s with hcount | hcount
    · rw [hcount]
      exact .error (.refl h) _
    · rw [hcount]
      have hstep := step_ends h hd ht x
      dsimp only
      rw [Run.bind_apply, inSession_apply]
      generalize step q.decision t x s.predictor = r at hstep ⊢
      obtain ⟨err | u, p⟩ := r
      · exact .error hstep.1 err
      · obtain ⟨hadv, o, hu, -⟩ := hstep
        cases hu with
        | error =>
          -- Nothing is reached, so the run ends with the configurations of the state before.
          obtain ⟨f, hf, rfl⟩ := automatonState_ends (ht.mono hadv.automaton)
          change LookAheadEnds n allowed q.decision s
            ((inSession (automatonState q.decision t) >>= fun f =>
              pure (.stranded f.configs x) : Run (Session σ) Halt) { s with predictor := p })
          rw [Run.bind_apply, inSession_apply, hf]
          refine .ok hadv ?_
          exact ((hadv.sane.cache.automaton hd).every_of_names (ht.mono hadv.automaton)).2
        | @state i f hi =>
          have hn : Automaton.Names (p.cache.automaton q.decision) (.state i) (some f.bare) :=
            .state hi
          have hevery := (hadv.sane.cache.automaton hd).every_of_names hn
          obtain ⟨f', hf', hbare⟩ := automatonState_ends hn
          rw [← hbare] at hevery
          change LookAheadEnds n allowed q.decision s
            ((inSession (automatonState q.decision (.state i)) >>= goOn q fuel steps (.state i) x)
              { s with predictor := p })
          rw [Run.bind_apply, inSession_apply, hf']
          dsimp only
          rw [goOn, Run.bind_apply, Run.get_apply]
          dsimp only
          cases ha : haltAt? p.settings.mode steps (.state i) f' x with
          | some a => exact .ok hadv (known_of_haltAt? hevery ha)
          | none =>
            dsimp only
            rw [Run.bind_apply, readOn_apply]
            by_cases hx : x = endOfInput
            · rw [if_pos hx]
              exact (ih (s := { s with predictor := p }) (steps + 1) hadv.sane hn x).after hadv
            · rw [if_neg hx]
              exact (ih (s := ⟨p, s.stream.consume, s.author⟩) (steps + 1) hadv.sane hn _).after
                hadv

/-- Looking ahead keeps the cache faithful. -/
theorem lookAhead_ends (q : Question σ) (hd : q.decision < n.decisions.size)
    (h : s.predictor.Sane n allowed) :
    LookAheadEnds n allowed q.decision s (lookAhead q s) := by
  have hstart := startState_ends q s h hd
  unfold lookAhead
  rw [Run.bind_apply]
  generalize startState q s = r at hstart ⊢
  obtain ⟨e | t, s'⟩ := r
  · exact .error hstart.1.predictor e
  · obtain ⟨hruns, e, hn, -⟩ := hstart
    have hadv := hruns.predictor
    dsimp only
    rw [Run.bind_apply, Run.get_apply]
    exact (runAutomaton_ends q hd _ 0 hadv.sane hn _).after hadv

/-- A session is its own twin. -/
theorem Twins.self (h : s.predictor.Sane n allowed) : Twins n allowed s s := ⟨h, h, rfl, rfl, rfl⟩

/-- Whatever holds of all twins after agreeing runs holds of one after its run. -/
theorem sane_of_agree {α : Type} {R : StackGraph → StackGraph → α → α → Prop}
    {r : Ending (Session σ) α} (h : (twins n allowed).Agree s s R r r) :
    r.2.predictor.Sane n allowed := by
  obtain ⟨e | a, s'⟩ := r
  · cases h with
    | error _ hl => exact hl.related.left
  · cases h with
    | ok hrel => exact hrel.1.related.left

/-- Predictions keep the cache faithful. -/
theorem predict_sane (hooks : ParserHooks σ) (outer : List Invocation) (decision : Nat)
    (h : s.predictor.Sane n allowed) :
    (predict hooks outer decision s).2.predictor.Sane n allowed := by
  unfold predict
  split
  · exact h
  · next hd =>
    rw [h.network, Nat.not_le] at hd
    have hahead := lookAhead_ends ⟨hooks, outer, decision, s.stream.index⟩ hd h
    have hchoose : (choose ⟨hooks, outer, decision, s.stream.index⟩ s).2.predictor.Sane n allowed := by
      unfold choose
      rw [Run.bind_apply]
      generalize lookAhead ⟨hooks, outer, decision, s.stream.index⟩ s = r at hahead ⊢
      obtain ⟨e | a, s'⟩ := r
      · exact hahead.1.sane
      · exact sane_of_agree (conclude_agree (.self hahead.1.sane)
          ⟨hooks, outer, decision, s.stream.index⟩ hd (hahead.2 a rfl).alike)
    dsimp only
    generalize choose ⟨hooks, outer, decision, s.stream.index⟩ s = r at hchoose ⊢
    obtain ⟨r, p, stream, author⟩ := r
    exact ⟨hchoose.network, hchoose.settings,
      hchoose.cache.grow hchoose.cache.graph.forgetMerges (StackGraph.Extends.refl _)⟩

end Predictor

/-! ## Histories -/

/-- The caches that predictions for a network leave behind, made one after another under allowed
settings, starting without anything.  Each prediction may be about any decision and have its own
tokens, caller's stack and author. -/
inductive Cache.Grown (n : Network) (allowed : Settings → Prop) : Cache → Prop
  /-- Nothing was predicted yet. -/
  | fresh : Grown n allowed (Cache.ofNetwork n)
  /-- After a prediction, whatever its result was. -/
  | predict {σ : Type} {s : Session σ} (hooks : ParserHooks σ) (outer : List Invocation)
      (decision : Nat) : s.predictor.network = n → allowed s.predictor.settings →
      Grown n allowed s.predictor.cache →
      Grown n allowed (Predictor.predict hooks outer decision s).2.predictor.cache
  /-- After a decision's automaton was cleared, or all of them. -/
  | clear {c : Cache} (decision : Option Nat) : Grown n allowed c → Grown n allowed (c.clear decision)

/-- A cache stays faithful over any history of predictions. -/
theorem Cache.Grown.faithful {n : Network} {allowed : Settings → Prop} {c : Cache}
    (h : c.Grown n allowed) : c.Faithful n allowed := by
  induction h with
  | fresh => exact faithful_ofNetwork n allowed
  | predict hooks outer decision hn ha _ ih =>
    exact (Predictor.predict_sane hooks outer decision ⟨hn, ha, ih⟩).cache
  | clear decision _ ih => exact ih.clear decision

/-! ## What history decides -/

namespace Predictor
variable {σ : Type} {n : Network} {settings : Settings} {s t : Session σ}

/-- The alternative that a prediction falls back to if no configuration is left while it looks
ahead; none inside if there is no such alternative, and none at all if configurations are left. -/
def fallenBack (q : Question σ) (s : Session σ) : Option (Option Nat) :=
  if s.predictor.network.decisions.size ≤ q.decision then none
  else
    match lookAhead q s with
    | (.ok (.stranded configs _), s) =>
      match (seek q.start >>= fun _ => fallback? q configs : Run (Session σ) (Option Nat)) s with
      | (.ok alt, _) => some alt
      | (.error _, _) => none
    | _ => none

theorem exists_splitByGuard (q : Question σ) (cs : List Config) (s : Session σ) :
    ∃ lists s', splitByGuard q cs s = (.ok lists, s') := by
  induction cs generalizing s with
  | nil => exact ⟨_, _, rfl⟩
  | cons c cs ih =>
    obtain ⟨holds, s₁, h₁⟩ : ∃ holds s₁, passes q c.guard s = (.ok holds, s₁) := by
      unfold passes
      split <;> exact ⟨_, _, rfl⟩
    obtain ⟨⟨valid, invalid⟩, s₂, h₂⟩ := ih s₁
    unfold splitByGuard
    rw [Run.bind_apply, h₁]
    dsimp only
    rw [Run.bind_apply, h₂]
    exact ⟨_, _, rfl⟩

/-- Looking for an alternative to fall back to does not fail. -/
theorem exists_fallback (q : Question σ) (cs : ConfigSet) (s : Session σ) :
    ∃ alt s', (seek q.start >>= fun _ => fallback? q cs : Run (Session σ) (Option Nat)) s =
      (.ok alt, s') := by
  obtain ⟨⟨valid, invalid⟩, s', h⟩ :=
    exists_splitByGuard q cs.toList { s with stream := s.stream.seek q.start }
  change ∃ alt s', fallback? q cs { s with stream := s.stream.seek q.start } = (.ok alt, s')
  unfold fallback?
  rw [Run.bind_apply, h]
  exact ⟨_, _, rfl⟩

/-- Giving up takes the alternative to fall back to, if there is one. -/
theorem giveUp_fst (q : Question σ) (cs : ConfigSet) (x : Symbol) {s s' : Session σ}
    {alt : Option Nat}
    (h : (seek q.start >>= fun _ => fallback? q cs : Run (Session σ) (Option Nat)) s =
      (.ok alt, s')) :
    (giveUp q cs x s).1 =
      match alt with
      | some alt => .ok alt
      | none => .error (.noViableAlt q.decision q.start s.stream.index x) := by
  have hseek : seek q.start s = (.ok (), { s with stream := s.stream.seek q.start }) := rfl
  rw [Run.bind_apply, hseek] at h
  rw [giveUp, Run.bind_apply, Run.get_apply]
  dsimp only at h ⊢
  rw [Run.bind_apply, hseek]
  dsimp only
  rw [Run.bind_apply, h]
  cases alt <;> rfl

/-- Twins choose the same exactly if they fall back to the same. -/
theorem choose_eq_iff (h : Twins n (· = settings) s t) (q : Question σ)
    (hd : q.decision < n.decisions.size) :
    ((choose q s).1 = (choose q t).1 ↔ fallenBack q s = fallenBack q t) ∧
      ((fallenBack q s).isSome ↔ (fallenBack q t).isSome) := by
  have hd' : ¬ s.predictor.network.decisions.size ≤ q.decision := by
    rw [h.left.network]
    omega
  have hd'' : ¬ t.predictor.network.decisions.size ≤ q.decision := by
    rw [h.right.network]
    omega
  have hahead := lookAhead_agree q hd h
  unfold choose fallenBack
  rw [Run.bind_apply, Run.bind_apply, if_neg hd', if_neg hd'']
  generalize lookAhead q s = r at hahead ⊢
  generalize lookAhead q t = r' at hahead ⊢
  cases hahead with
  | error e _ => exact ⟨Iff.of_eq (by simp), Iff.rfl⟩
  | @ok a s' b t' hrel =>
    obtain ⟨honward, hab⟩ := hrel
    have h' := honward.twins
    -- Alike ends are concluded alike; only two stranded ones may fall back differently.
    have hequal : Halt.Alike true s'.predictor.cache.graph t'.predictor.cache.graph a b →
        (conclude q a s').1 = (conclude q b t').1 := by
      intro ha
      have hagree := conclude_agree h' q hd ha
      generalize conclude q a s' = c at hagree ⊢
      generalize conclude q b t' = c' at hagree ⊢
      cases hagree with
      | ok hrel => exact congrArg Except.ok hrel.2
      | error e _ => rfl
    cases hab with
    | contested steps hu =>
      exact ⟨iff_of_true (hequal (.contested steps hu)) rfl, Iff.rfl⟩
    | accepting a b x hu hsome =>
      exact ⟨iff_of_true (hequal (.accepting a b x hu hsome)) rfl, Iff.rfl⟩
    | @stranded cs ds x hcs =>
      obtain ⟨alt, s₁, halt⟩ := exists_fallback q cs s'
      obtain ⟨alt', t₁, halt'⟩ := exists_fallback q ds t'
      change ((giveUp q cs x s').1 = (giveUp q ds x t').1 ↔ _) ∧ _
      rw [giveUp_fst q cs x halt, giveUp_fst q ds x halt', h'.stream]
      simp only [halt, halt', Option.some.injEq, Option.isSome_some, and_true]
      cases alt <;> cases alt' <;> simp

/-- **Predictions depend on earlier ones by the alternative that they fall back to, and in no other
way.**  A predictor whose cache was grown by any history of predictions, under its own settings,
gives the result of a new predictor exactly if both fall back to the same alternative, or neither
has to. -/
theorem predict_eq_fresh_iff (p : Predictor) (hp : p.cache.Grown p.network (· = p.settings))
    (stream : TokenStream) (author : σ) (hooks : ParserHooks σ) (outer : List Invocation)
    (decision : Nat) :
    let warm : Session σ := ⟨p, stream, author⟩
    let cold : Session σ := ⟨ofNetwork p.network p.settings, stream, author⟩
    let q : Question σ := ⟨hooks, outer, decision, stream.index⟩
    ((predict hooks outer decision warm).1 = (predict hooks outer decision cold).1 ↔
        fallenBack q warm = fallenBack q cold) ∧
      ((fallenBack q warm).isSome ↔ (fallenBack q cold).isSome) := by
  intro warm cold q
  by_cases hd : p.network.decisions.size ≤ decision
  · have hwarm : fallenBack q warm = none := if_pos hd
    have hcold : fallenBack q cold = none := if_pos hd
    have hpredict : ∀ s : Session σ, s.predictor.network = p.network →
        (predict hooks outer decision s).1 = .error (.internal (.noDecision decision)) := by
      intro s hs
      unfold predict
      rw [if_pos (by rwa [hs])]
    rw [hwarm, hcold, hpredict warm rfl, hpredict cold rfl]
    exact ⟨iff_of_true rfl rfl, Iff.rfl⟩
  · have hpredict : ∀ s : Session σ, s.predictor.network = p.network → s.stream = stream →
        (predict hooks outer decision s).1 = (choose q s).1 := by
      intro s hs hstream
      obtain rfl := hstream
      unfold predict
      rw [if_neg (by rwa [hs])]
      rfl
    rw [hpredict warm rfl rfl, hpredict cold rfl rfl]
    have htwins : Twins p.network (· = p.settings) warm cold :=
      ⟨⟨rfl, rfl, hp.faithful⟩, ⟨rfl, rfl, Cache.faithful_ofNetwork p.network _⟩, rfl, rfl, rfl⟩
    exact choose_eq_iff htwins q (Nat.not_le.mp hd)

/-- A network with a decision between two tokens. -/
def fork : Network where
  kind := .parser
  maxSymbol := 2
  states := #[
    { id := 0, rule := 0, kind := .blockStart, transitions := [.symbol 1 1, .symbol 1 2],
      decision := some 0 },
    { id := 1, rule := 0, kind := .blockEnd }]
  decisions := #[0]

/-- A predictor for the fork, with what a prediction for the first token left behind. -/
def warmFork : Predictor where
  network := fork
  cache := (predict ParserHooks.none [] 0
    ⟨ofNetwork fork {}, TokenStream.ofTypes [1], ()⟩).2.predictor.cache

theorem predict_eq_fresh_iff_fork :
    warmFork.cache.Grown warmFork.network (· = warmFork.settings) ∧
      ((predict ParserHooks.none [] 0 ⟨warmFork, TokenStream.ofTypes [2], ()⟩).1 =
          (predict ParserHooks.none [] 0
            ⟨ofNetwork fork {}, TokenStream.ofTypes [2], ()⟩).1 ↔
        fallenBack ⟨ParserHooks.none, [], 0, 0⟩ ⟨warmFork, TokenStream.ofTypes [2], ()⟩ =
          fallenBack ⟨ParserHooks.none, [], 0, 0⟩
            ⟨ofNetwork fork {}, TokenStream.ofTypes [2], ()⟩) :=
  have hgrown : warmFork.cache.Grown warmFork.network (· = warmFork.settings) :=
    .predict ParserHooks.none [] 0 rfl rfl .fresh
  ⟨hgrown, (predict_eq_fresh_iff warmFork hgrown (TokenStream.ofTypes [2]) () ParserHooks.none []
    0).1⟩

end Predictor
end AdaptiveLL
