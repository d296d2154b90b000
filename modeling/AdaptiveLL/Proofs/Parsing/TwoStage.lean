import Mathlib
import AdaptiveLL.Proofs.Parsing.Completeness

/-! # Parsing in two stages

A walk that returned a trace went along a course from which the rest of the input could be read at every
point (`Session.promising_of_run`).  Whatever predicted its alternatives, each of them was the lowest from
which a machine can finish: a prediction is never above such an alternative, and the one it gave was itself
one.  A session that lets the caller's stack settle conflicts predicts the lowest as well, so it retraces
the walk step by step, unless it hits a limit (`Session.walk_retraces`).

So a first attempt without the caller's stack, where it returns a trace, returns the one that parsing with
the caller's stack returns, and a second attempt returns it where the first was refused
(`Session.parseTwoStage_agrees`).
-/
namespace AdaptiveLL
namespace Session
variable {g : Grammar} {p : Plan} {lazy : Prop} {n : Network} {top last stop : Nat} {σ τ : Type}
  {hooks : ParserHooks σ} {hooks' : ParserHooks τ} {s s' : Session σ} {u : Session τ} {w w' : Walk}

/-! ## What a step reads of the session -/

/-- The end of a rule is left in one way over one network and before one token. -/
theorem leave_congr {o : Trace ⊕ Walk} (hnet : u.predictor.network = s.predictor.network)
    (hstream : u.stream = s.stream) (h : leave w s = (.ok o, s')) : leave w u = (.ok o, u) := by
  obtain ⟨-, frame, hlast, ⟨hcaller, rfl⟩ | ⟨caller, follow, hcaller, hfollow, rfl⟩⟩ := leave_ok h
  · simp only [leave, hlast, hcaller, Run.bind_apply, Run.get_apply, hstream]
    rfl
  · simp only [leave, hlast, hcaller, Run.bind_apply, Run.get_apply, hnet, hfollow, hstream]
    rfl

/-- A token is matched by a transition that consumes it only. -/
theorem consumes_of_matchToken {t : Transition} (hs : s.predictor.network = n)
    (h : matchToken w t s = (.ok w', s')) : t.consumes n.minSymbol n.maxSymbol s.stream.peek := by
  by_contra hx
  unfold matchToken at h
  rw [Run.bind_apply, Run.get_apply] at h
  dsimp only at h
  rw [hs, if_neg hx] at h
  cases h

/-- What a walk does along a transition without a guard depends on the network and the tokens. -/
theorem take_congr (hs : s.predictor.network = n) (hu : u.predictor.network = n)
    (hstream : u.stream = s.stream) {t : Transition} (hguard : t.isGuarded = false)
    (h : take hooks w t s = (.ok w', s')) :
    ∃ u', take hooks' w t u = (.ok w', u') ∧ u'.predictor = u.predictor ∧ u'.stream = s'.stream := by
  have heats : take hooks w t = matchToken w t →
      ∃ u', take hooks' w t u = (.ok w', u') ∧ u'.predictor = u.predictor ∧ u'.stream = s'.stream := by
    intro hmatch
    have hx : t.consumes n.minSymbol n.maxSymbol s.stream.peek :=
      consumes_of_matchToken hs (by rwa [hmatch] at h)
    have htake : take hooks w t s = (.ok ((w.noting (.token s.stream.peek s.stream.index)).moveTo t.target),
        { s with stream := if s.stream.peek = endOfInput then s.stream else s.stream.consume }) := take_eat hs hx
    rw [htake] at h
    cases h
    rw [← hstream] at hx ⊢
    exact ⟨_, take_eat hu hx, rfl, rfl⟩
  cases t with
  | predicate | precedence => cases hguard
  | symbol | range | set | notSet | wildcard => exact heats rfl
  | epsilon | ret =>
    cases h
    exact ⟨u, rfl, rfl, hstream⟩
  | call =>
    cases h
    refine ⟨u, ?_, rfl, hstream⟩
    simp only [take, Run.bind_apply, Run.get_apply, hstream]
    rfl
  | action =>
    cases h
    exact ⟨_, rfl, rfl, hstream⟩

/-- Where there are several ways on, the way is predicted. -/
theorem choose_of_many {q : State} {d : Nat} (hd : q.decision = some d) (hmany : 1 < q.transitions.length)
    (s : Session σ) : choose hooks w q s = (do
      let alt ← Predictor.predict hooks w.running d
      pure (alt, w.noting (.decision d w.state alt s.stream.index)) : Run (Session σ) (Nat × Walk)) s := by
  obtain ⟨t₁, rest, hrest⟩ := List.exists_cons_of_length_pos (Nat.lt_of_succ_lt hmany)
  rw [hrest, List.length_cons] at hmany
  obtain ⟨t₂, ts, hts⟩ := List.exists_cons_of_length_pos (Nat.lt_of_succ_lt_succ hmany)
  unfold choose
  rw [hd, hrest, hts]
  rfl

/-- Elsewhere there is nothing to choose. -/
theorem choose_of_one {q : State} (hone : ¬ 1 < q.transitions.length) : choose hooks w q = pure (1, w) := by
  unfold choose
  split
  · next d t₁ t₂ ts _ hts =>
    apply absurd _ hone
    rw [hts, List.length_cons, List.length_cons]
    omega
  · rfl

theorem step_of_leave (hs : s.predictor.network = n) {q : State} (hq : n.state? w.state = .ok q)
    (hstop : q.isStop) : step hooks w s = leave w s := by
  rw [step, Run.bind_apply, Run.get_apply]
  dsimp only
  rw [hs, hq]
  dsimp only
  rw [if_pos hstop]

/-- Before the end of a rule a step chooses a way and goes along it. -/
theorem step_of_choose (hs : s.predictor.network = n) {q : State} (hq : n.state? w.state = .ok q)
    (hstop : ¬ q.isStop) : step hooks w s = (do
      let r ← choose hooks w q
      match q.alternative? r.1 with
      | some t => .inr <$> take hooks r.2 t
      | none => throw (.internal (.noAlternative r.2.state r.1)) : Run (Session σ) (Trace ⊕ Walk)) s := by
  rw [step, Run.bind_apply, Run.get_apply]
  dsimp only
  rw [hs, hq]
  exact congrFun (if_neg hstop) s

/-- A step keeps a session over its network with a cache that holds nothing wrong. -/
theorem sane_step (hs : s.predictor.Sane n fun _ => True) :
    (step hooks w s).2.predictor.Sane n fun _ => True := by
  have hpredict : ∀ outer decision, Run.Preserves (fun t : Session σ => t.predictor.Sane n fun _ => True)
      (Predictor.predict hooks outer decision) :=
    fun outer decision t ht => Predictor.predict_sane hooks outer decision ht
  exact preserves_step (fun _ h => h) (fun _ _ h => h) hpredict w s hs

/-! ## A walk that returns was promising all along -/

section
variable (hg : g.LaidOut p lazy n) (hl : g.layout = .ok n) (hkind : g.kind = .parser)
  (hc : n.Closing top last stop)
include hg hkind hc

/-- A stage from which a run of moves comes to the end of the walk is promising. -/
theorem promising_of_run {a b : Stage} {frame : Invocation} (hm : Relation.ReflTransGen (Moves n) a b)
    (he : Ends n b frame) (h : Underway n top a) : Promising n top last stop a := by
  induction hm using Relation.ReflTransGen.head_induction_on with
  | refl => exact (promising_of_ends hc he h).1
  | head hmove _ ih => exact .of_moves hg hc hmove h (ih (underway_of_moves hg hkind hmove h))

/-- A stage from which a walk returned a trace was promising. -/
theorem promising_of_walk {fuel : Nat} {t : Trace} (hs : s.Ready n) (h : Underway n top ⟨w, s.stream⟩)
    (hwalk : walk hooks fuel w s = (.ok t, s')) : Promising n top last stop ⟨w, s.stream⟩ := by
  obtain ⟨w', frame, hmoves, hends, -⟩ := moves_walk fuel hs hwalk
  exact promising_of_run hg hkind hc hmoves hends h

include hl

/-- Where the way that was chosen leads to a promising stage, a session in which the caller's stack
settles conflicts chooses the same way, unless a limit is hit. -/
theorem choose_retraces (hs : s.predictor.Sane n fun _ => True) (hu : u.Careful n)
    (hstream : u.stream = s.stream) (h : Underway n top ⟨w, s.stream⟩) (hq : ¬ n.isStop w.state)
    {alt : Nat} {w₁ w₂ : Walk} {s₁ s₂ : Session σ} {t : Transition}
    (hchoose : choose hooks w (n.state w.state) s = (.ok (alt, w₁), s₁))
    (ht : (n.state w.state).alternative? alt = some t) (htake : take hooks w₁ t s₁ = (.ok w₂, s₂))
    (hafter : Promising n top last stop ⟨w₂, s₂.stream⟩) :
    Run.Limited (fun r u₁ => r = (alt, w₁) ∧ u₁.Careful n ∧ u₁.stream = s.stream)
      (choose hooks' w (n.state w.state) u) := by
  by_cases hmany : 1 < (n.state w.state).transitions.length
  · obtain ⟨d, hd, hdecision⟩ := hg.exists_decision hl hq hmany
    rw [choose_of_many hd hmany] at hchoose ⊢
    obtain ⟨m, s', hpredict, hrest⟩ := Run.exists_of_bind hchoose
    cases hrest
    have hmem : w.state ∈ n.decisions.toList :=
      Array.mem_toList_iff.mpr (Array.mem_of_getElem? hdecision)
    have hahead : s₁.stream = s.stream := by
      have hplaced := Predictor.stream_predict hooks w.running d h.placed
      rwa [hpredict] at hplaced
    -- the alternative is one from which a machine can finish
    have hviable : n.Viable stop w.state (n.returnStates w.running) s.stream.remaining alt := by
      obtain ⟨z, rfl⟩ := (hg.epsilon_of_decision hl hmem).2 t
        (List.mem_of_getElem? (State.alternative?_eq_some ht).2.2)
      cases htake
      refine ⟨_, ht, ?_⟩
      have hfinishes := hafter.finishes
      rw [ahead_along hc hq (List.mem_of_getElem? (State.alternative?_eq_some ht).2.2) rfl rfl,
        ahead_eq_remaining hc hq hmany, hahead] at hfinishes
      exact hfinishes
    have hlow := Predictor.predict_viable hg hl hkind hc hooks hdecision h.calls hs h.placed ⟨alt, hviable⟩
    rw [hpredict] at hlow
    obtain ⟨hle, -⟩ := hlow.good_of_ok
    rw [← hstream] at hviable hle
    have hplaced : u.stream.Placed := hstream.symm ▸ h.placed
    have hlow' := Predictor.predict_viable hg hl hkind hc hooks' hdecision h.calls hu.sane hplaced ⟨alt, hviable⟩
    have hcareful := hu.predict hooks' w.running d
    have hstream' := Predictor.stream_predict hooks' w.running d hplaced
    rw [Run.bind_apply, hstream]
    generalize Predictor.predict hooks' w.running d u = res at hlow' hcareful hstream' ⊢
    cases hlow' with
    | limit he => exact .limit he
    | @ok m u₁ hm =>
      -- two lowest alternatives are one
      obtain rfl : m = alt := Nat.le_antisymm (hm.1 alt hviable) (hle m (hm.2 hu.mode))
      exact .ok ⟨rfl, hcareful, hstream'.trans hstream⟩
  · rw [choose_of_one hmany] at hchoose ⊢
    cases hchoose
    exact .ok ⟨rfl, hu, hstream⟩

/-- A session in which the caller's stack settles conflicts retraces a walk that returned a trace, whatever
predicted that walk's alternatives, unless a limit is hit. -/
theorem walk_retraces {fuel fuel' : Nat} (hfuel : fuel ≤ fuel') (hs : s.predictor.Sane n fun _ => True)
    (hu : u.Careful n) (hstream : u.stream = s.stream) (h : Underway n top ⟨w, s.stream⟩) {t : Trace}
    (hwalk : walk hooks fuel w s = (.ok t, s')) :
    Run.Limited (fun t' u' => t' = t ∧ u'.stream = s'.stream) (walk hooks' fuel' w u) := by
  induction fuel generalizing fuel' w s u with
  | zero => cases hwalk
  | succ fuel ih =>
    obtain ⟨fuel', rfl⟩ : ∃ k, fuel' = k + 1 := ⟨fuel' - 1, by omega⟩
    have hready : s.Ready n := ⟨hs.network, h.placed⟩
    rw [walk] at hwalk ⊢
    obtain ⟨o, s₂, hstep, hrest⟩ := Run.exists_of_bind hwalk
    have hsane : s₂.predictor.Sane n fun _ => True := by
      have hkept : (step hooks w s).2.predictor.Sane n fun _ => True := sane_step hs
      rwa [hstep] at hkept
    obtain ⟨q, hq, hcases⟩ := step_ok hstep
    rw [hs.network] at hq
    obtain rfl : n.state w.state = q := Network.state_of_state? hq
    rcases hcases with ⟨hstop, hleave⟩ | ⟨hstop, alt, w₁, s₁, tr, w₂, hchoose, htr, htake, rfl⟩
    · -- the end of a rule is left
      have hleave' := leave_congr (u := u) (hu.sane.network.trans hs.network.symm) hstream hleave
      obtain ⟨rfl, -⟩ := leave_ok hleave
      rw [Run.bind_apply, step_of_leave hu.sane.network hq hstop, hleave']
      cases o with
      | inl t =>
        cases hrest
        exact .ok ⟨rfl, hstream⟩
      | inr w₂ =>
        have hnext := moves_step hready hstep
        exact ih (Nat.le_of_succ_le_succ hfuel) hsane hu hstream (reads_of_run hg hkind hc hnext.1 h).1 hrest
    · -- a way is chosen, the same by both, and followed
      have hnext := moves_step hready hstep
      have hunder := (reads_of_run hg hkind hc hnext.1 h).1
      have hpromising := promising_of_walk hg hkind hc hnext.2 hunder hrest
      have hchooses : Run.Limited (fun r u₁ => r = (alt, w₁) ∧ u₁.Careful n ∧ u₁.stream = s.stream)
          (choose hooks' w (n.state w.state) u) :=
        choose_retraces hg hl hkind hc hs hu hstream h hstop hchoose htr htake hpromising
      have hstream₁ : s₁.stream = s.stream := (choose_ok hready hchoose).2.1
      have hnet₁ : s₁.predictor.network = n := (choose_ok hready hchoose).1.network
      have hmem : tr ∈ n.ways w.state := List.mem_of_getElem? (State.alternative?_eq_some htr).2.2
      have hsteps : Run.Limited (fun o u₂ => o = .inr w₂ ∧ u₂.Careful n ∧ u₂.stream = s₂.stream)
          (step hooks' w u) := by
        rw [step_of_choose hu.sane.network hq hstop]
        refine hchooses.bind ?_
        rintro ⟨alt', w'⟩ u₁ ⟨he, hcareful, hu₁⟩
        cases he
        obtain ⟨u₂, htake', hpredictor, hu₂⟩ : ∃ u₂, take hooks' w₁ tr u₁ = (.ok w₂, u₂) ∧
            u₂.predictor = u₁.predictor ∧ u₂.stream = s₂.stream :=
          take_congr hnet₁ hcareful.sane.network (hu₁.trans hstream₁.symm) (hc.unguarded hmem) htake
        have hmap : (Sum.inr <$> take hooks' w₁ tr : Run (Session τ) (Trace ⊕ Walk)) u₁ = (.ok (.inr w₂), u₂) := by
          rw [map_eq_pure_bind, Run.bind_apply, htake']
          rfl
        dsimp only
        rw [htr]
        dsimp only
        rw [hmap]
        exact .ok ⟨rfl, ⟨hpredictor ▸ hcareful.sane, hpredictor ▸ hcareful.mode⟩, hu₂⟩
      refine hsteps.bind ?_
      rintro _ u₂ ⟨rfl, hcareful, hu₂⟩
      exact ih (Nat.le_of_succ_le_succ hfuel) hsane hcareful hu₂ hunder hrest

end

/-! ## Whole parses -/

/-- A session over a network, with a cache that predictions have grown, whichever they were, before a token
of a stream. -/
structure Grown (n : Network) (s : Session σ) : Prop where
  network : s.predictor.network = n
  cache : s.predictor.cache.Grown n fun _ => True
  stream : s.stream.Used

/-- A session in which alternatives are predicted in another way. -/
def inMode (s : Session σ) (mode : PredictionMode) : Session σ :=
  { s with predictor := s.predictor.setMode mode }

/-- A parse stays among the same tokens. -/
theorem seek_parse (h : s.stream.Placed) (rule : Nat) :
    (parse hooks rule s).2.stream.seek s.stream.index = s.stream := by
  let inv : Session σ → Prop := fun t =>
    t.stream.Placed ∧ t.stream.tokens = s.stream.tokens ∧ t.stream.channel = s.stream.channel
  have hconsume : ∀ t, inv t → inv { t with stream := t.stream.consume } := fun t ht =>
    ⟨ht.1.consume, (TokenStream.tokens_consume _).trans ht.2.1, (TokenStream.channel_consume _).trans ht.2.2⟩
  have hpredict : ∀ outer decision, Run.Preserves inv (Predictor.predict hooks outer decision) := by
    intro outer decision t ht
    have hstream := Predictor.stream_predict hooks outer decision ht.1
    show inv _
    simp only [inv]
    rw [hstream]
    exact ht
  have hkept := preserves_parse hconsume (fun _ _ ht => ht) hpredict rule s ⟨h, rfl, rfl⟩
  exact h.seek_index hkept.2.1 hkept.2.2

/-- A parse keeps the settings. -/
theorem settings_parse (rule : Nat) :
    (parse hooks rule s).2.predictor.settings = s.predictor.settings := by
  have hpredict : ∀ outer decision, Run.Preserves (fun t : Session σ =>
      t.predictor.settings = s.predictor.settings) (Predictor.predict hooks outer decision) :=
    fun outer decision t ht =>
      (congrArg (fun f => f.1.2) (Predictor.leaves_predict hooks outer decision t)).trans ht
  exact preserves_parse (fun _ h => h) (fun _ _ h => h) hpredict rule s rfl

/-- A parse keeps a session over its network with a cache that holds nothing wrong. -/
theorem sane_parse (hs : s.predictor.Sane n fun _ => True) (rule : Nat) :
    (parse hooks rule s).2.predictor.Sane n fun _ => True := by
  have hpredict : ∀ outer decision, Run.Preserves (fun t : Session σ => t.predictor.Sane n fun _ => True)
      (Predictor.predict hooks outer decision) :=
    fun outer decision t ht => Predictor.predict_sane hooks outer decision ht
  exact preserves_parse (fun _ h => h) (fun _ _ h => h) hpredict rule s hs

/-- A parse that returned a trace is retraced by every session of the same parser in which the caller's stack
settles conflicts, unless a limit is hit. -/
theorem parse_retraces (hl : g.layout = .ok n) (htop : g.Sentential top)
    (hs : s.predictor.Sane n fun _ => True) (hu : u.Careful n) (hstream : u.stream = s.stream)
    (hpatience : u.predictor.settings.patience = s.predictor.settings.patience) (hplaced : s.stream.Placed)
    {t : Trace} (hparse : (parse hooks top s).1 = .ok t) :
    Run.Limited (fun t' _ => t' = t) (parse hooks' top u) := by
  obtain ⟨p, hg⟩ : ∃ p, g.LaidOut p True n := Grammar.exists_laidOut hl fun hf => absurd trivial hf
  obtain ⟨r, items, hr, -⟩ := htop.sentence
  have hlt := (List.getElem?_eq_some_iff.mp hr).1
  have hfuel : s.predictor.settings.fuel s.stream.size = u.predictor.settings.fuel u.stream.size := by
    rw [Settings.fuel, Settings.fuel, hpatience, hstream]
  rw [parse_eq_walk hg hlt htop.parser hs.network] at hparse
  rw [parse_eq_walk hg hlt htop.parser hu.sane.network, ← hfuel, hstream]
  rcases hwalk : walk hooks (s.predictor.settings.fuel s.stream.size)
    (.start (p.start top) top s.stream.index) s with ⟨_ | t', s'⟩ <;> rw [hwalk] at hparse <;> cases hparse
  exact (walk_retraces hg hl htop.parser (hg.closing htop) le_rfl hs hu hstream
    (underway_start hg hlt hplaced _) hwalk).imp fun _ _ h => h.1

/-- What the second attempt begins with, when the first ended in a session. -/
def again (mode : PredictionMode) (s s₁ : Session σ) : Session σ :=
  inMode { s₁ with stream := s₁.stream.seek s.stream.index } (secondMode mode)

/-- Parsing in two stages is a first attempt, and a second one if the tokens were refused. -/
theorem parseTwoStage_eq (hooks : ParserHooks σ) (rule : Nat) (s : Session σ) :
    parseTwoStage hooks rule s =
      let mode := s.predictor.settings.mode
      let first := parse hooks rule (s.inMode .sll)
      match first.1 with
      | .ok t => (.ok t, first.2.inMode mode)
      | .error e =>
        if e.isSyntaxError then
          let second := parse hooks rule (again mode s first.2)
          (second.1, second.2.inMode mode)
        else (.error e, first.2.inMode mode) := by
  have hattempt : ∀ m : Run (Session σ) Trace, ∀ u : Session σ, (tryCatch
      (do let trace ← m; setMode s.predictor.settings.mode; pure trace)
      (fun e => do setMode s.predictor.settings.mode; throw e) : Run (Session σ) Trace) u =
      ((m u).1, (m u).2.inMode s.predictor.settings.mode) := by
    intro m u
    rw [Run.tryCatch_apply, Run.bind_apply]
    rcases m u with ⟨e | t, v⟩ <;> rfl
  unfold parseTwoStage
  rw [Run.bind_apply, Run.get_apply]
  dsimp only
  rw [hattempt, Run.tryCatch_apply, Run.bind_apply]
  have hset : (setMode .sll : Run (Session σ) Unit) s = (.ok (), s.inMode .sll) := rfl
  rw [hset]
  dsimp only
  rcases parse hooks rule (s.inMode .sll) with ⟨e | t, s₁⟩
  · dsimp only
    by_cases he : e.isSyntaxError
    · rw [if_pos he, if_pos he]
      rfl
    · rw [if_neg he, if_neg he]
      rfl
  · rfl

/-- However parsing in two stages ends, alternatives are predicted afterwards as before. -/
theorem mode_parseTwoStage (hooks : ParserHooks σ) (rule : Nat) (s : Session σ) :
    (parseTwoStage hooks rule s).2.predictor.settings.mode = s.predictor.settings.mode := by
  rw [parseTwoStage_eq]
  dsimp only
  split
  · rfl
  · split <;> rfl

/-- A run that ends with a trace unless a limit is hit, said of its result. -/
theorem ok_or_limit {t : Trace} {r : Ending σ Trace} (h : Run.Limited (fun t' _ => t' = t) r) :
    r.1 = .ok t ∨ ∃ e, r.1 = .error e ∧ e.IsLimit := by
  cases h with
  | ok h => exact .inl (congrArg _ h)
  | limit he => exact .inr ⟨_, rfl, he⟩

/-- **Parsing in two stages agrees with parsing that lets the caller's stack settle conflicts.**  For a rule that
is recognised as a whole, where an attempt without the caller's stack returns a trace, a parse with it from
the same place returns the same trace.  So where such a parse returns a trace, and the first attempt returns
one or refuses the tokens, parsing in two stages returns that trace.  Limits aside, this is so whatever was
predicted before in either session; and afterwards alternatives are predicted in the way they were before,
however the parse ends. -/
theorem parseTwoStage_agrees (hl : g.layout = .ok n) (htop : g.Sentential top) (hs : s.Grown n) (hu : u.Grown n)
    (hmode : u.predictor.settings.mode ≠ .sll) (hstream : u.stream = s.stream)
    (hpatience : u.predictor.settings.patience = s.predictor.settings.patience) (hooks : ParserHooks σ)
    (hooks' : ParserHooks τ) :
    (∀ t, (parse hooks top (s.inMode .sll)).1 = .ok t →
      (parse hooks' top u).1 = .ok t ∨ ∃ e, (parse hooks' top u).1 = .error e ∧ e.IsLimit) ∧
    (∀ t, (parse hooks' top u).1 = .ok t →
      ((∃ t', (parse hooks top (s.inMode .sll)).1 = .ok t') ∨
        ∃ e, (parse hooks top (s.inMode .sll)).1 = .error e ∧ e.isSyntaxError) →
      (parseTwoStage hooks top s).1 = .ok t ∨
        ∃ e, (parseTwoStage hooks top s).1 = .error e ∧ e.IsLimit) ∧
    (parseTwoStage hooks top s).2.predictor.settings.mode = s.predictor.settings.mode := by
  have hplaced : s.stream.Placed := hs.stream.placed
  have hsane : (s.inMode .sll).predictor.Sane n fun _ => True := ⟨hs.network, trivial, hs.cache.faithful⟩
  have hsane' : u.predictor.Sane n fun _ => True := ⟨hu.network, trivial, hu.cache.faithful⟩
  have hfirst : ∀ t, (parse hooks top (s.inMode .sll)).1 = .ok t →
      Run.Limited (fun t' _ => t' = t) (parse hooks' top u) := fun t ht =>
    parse_retraces hl htop hsane ⟨hsane', hmode⟩ hstream hpatience hplaced ht
  refine ⟨fun t ht => ok_or_limit (hfirst t ht), fun t ht hattempt => ?_, mode_parseTwoStage hooks top s⟩
  rw [parseTwoStage_eq]
  dsimp only
  rcases hattempt with ⟨t', ht'⟩ | ⟨e, he, hsyntax⟩
  · -- the first attempt has returned a trace, which can be no other
    rw [ht']
    refine .inl ?_
    rcases ok_or_limit (hfirst t' ht') with h | ⟨e, he, -⟩
    · exact h.symm.trans ht
    · rw [he] at ht
      cases ht
  · -- the second attempt begins where the first began
    rw [he]
    dsimp only
    rw [if_pos hsyntax]
    have hagain : (again s.predictor.settings.mode s (parse hooks top (s.inMode .sll)).2).Careful n := by
      have hkept : (parse hooks top (s.inMode .sll)).2.predictor.Sane n fun _ => True := sane_parse hsane top
      refine ⟨⟨hkept.network, trivial, hkept.cache⟩, ?_⟩
      show secondMode s.predictor.settings.mode ≠ .sll
      cases s.predictor.settings.mode <;> simp [secondMode]
    have hback : (parse hooks top (s.inMode .sll)).2.stream.seek s.stream.index = s.stream :=
      seek_parse (s := s.inMode .sll) hplaced top
    have hlimits : (parse hooks top (s.inMode .sll)).2.predictor.settings =
        (s.inMode .sll).predictor.settings := settings_parse top
    have hsecond : Run.Limited (fun t' _ => t' = t)
        (parse hooks top (again s.predictor.settings.mode s (parse hooks top (s.inMode .sll)).2)) :=
      parse_retraces hl htop hsane' hagain (hback.trans hstream.symm)
        ((congrArg Settings.patience hlimits).trans hpatience.symm) (hstream.symm ▸ hplaced) ht
    have hends := ok_or_limit hsecond
    exact hends

/-- A sentence of a word in one of two surroundings.  In the second the word has to leave nothing over. -/
def surroundedGrammar : Grammar :=
  { kind := .parser, maxSymbol := 5
    rules := [
      ⟨"sentence", .seq [.alt [.seq [.symbol 1, .call "word" 0, .symbol 2], .seq [.symbol 3, .call "word" 0]],
        .endOfInput], unclassified, 0, false⟩,
      ⟨"word", .alt [.symbol 5, .seq [.symbol 5, .symbol 2]], unclassified, 0, false⟩] }

/-- The network of the sentence of a word. -/
def surroundedNetwork : Network :=
  surroundedGrammar.layout.toOption.getD { kind := .parser, maxSymbol := 5 }

/-- A session before a word in the first of the surroundings. -/
def beforeFirst : Session Unit where
  predictor := .ofNetwork surroundedNetwork { mode := .sll, patience := 20 }
  stream := .ofTypes [1, 5, 2]
  author := ()

/-- A session before a word in the second of the surroundings, with the cache from another one, in which the
caller's stack is not asked. -/
def beforeSecond : Session Unit where
  predictor := { Predictor.ofNetwork surroundedNetwork { mode := .sll, patience := 20 } with
    cache := (parse ParserHooks.none 0 beforeFirst).2.predictor.cache }
  stream := .ofTypes [3, 5, 2]
  author := ()

/-- A new session before the same word, in which the caller's stack is asked. -/
def afresh : Session Unit where
  predictor := .ofNetwork surroundedNetwork { patience := 20 }
  stream := .ofTypes [3, 5, 2]
  author := ()

theorem sentential_surrounded : surroundedGrammar.Sentential 0 where
  parser := rfl
  unconditional := by decide
  sentence := ⟨_, [.alt [.seq [.symbol 1, .call "word" 0, .symbol 2], .seq [.symbol 3, .call "word" 0]]], rfl,
    rfl, by decide, by decide⟩
  elsewhere i r hi hr := by
    obtain rfl : i = 1 := by
      have := (List.getElem?_eq_some_iff.mp hr).1
      change i < 2 at this
      omega
    obtain rfl := Option.some.inj hr
    decide

theorem parseTwoStage_agrees_surrounded : surroundedGrammar.layout = .ok surroundedNetwork ∧
    beforeSecond.Grown surroundedNetwork ∧ afresh.Grown surroundedNetwork ∧
    (∀ t, (parse ParserHooks.none 0 (beforeSecond.inMode .sll)).1 = .ok t →
      (parse ParserHooks.none 0 afresh).1 = .ok t ∨
        ∃ e, (parse ParserHooks.none 0 afresh).1 = .error e ∧ e.IsLimit) ∧
    (∀ t, (parse ParserHooks.none 0 afresh).1 = .ok t →
      ((∃ t', (parse ParserHooks.none 0 (beforeSecond.inMode .sll)).1 = .ok t') ∨
        ∃ e, (parse ParserHooks.none 0 (beforeSecond.inMode .sll)).1 = .error e ∧ e.isSyntaxError) →
      (parseTwoStage ParserHooks.none 0 beforeSecond).1 = .ok t ∨
        ∃ e, (parseTwoStage ParserHooks.none 0 beforeSecond).1 = .error e ∧ e.IsLimit) ∧
    (parseTwoStage ParserHooks.none 0 beforeSecond).2.predictor.settings.mode = .sll := by
  have hlayout : surroundedGrammar.layout = .ok surroundedNetwork := by cbv
  have hbefore : beforeSecond.Grown surroundedNetwork :=
    ⟨rfl, grown_parse (s := beforeFirst) rfl trivial .fresh ParserHooks.none 0, .ofTokens _ _⟩
  have hafresh : afresh.Grown surroundedNetwork := ⟨rfl, .fresh, .ofTokens _ _⟩
  exact ⟨hlayout, hbefore, hafresh, parseTwoStage_agrees hlayout sentential_surrounded hbefore hafresh
    (by decide) rfl rfl ParserHooks.none ParserHooks.none⟩

end Session
end AdaptiveLL
