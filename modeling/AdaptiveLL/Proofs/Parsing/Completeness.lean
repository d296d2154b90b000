import Mathlib
import AdaptiveLL.Proofs.Parsing.Prospects

/-! # Every sentence is parsed

A parser that lets the caller's stack settle conflicts keeps its stage promising: each decision goes to an
alternative from which the rest of the input can still be read (`Session.choose_promising`), and whatever
follows does not fail (`Session.step_promising`).  So a rule that is recognised as a whole is recognised
on every word of its language, whatever was predicted before, unless a limit is hit
(`Session.parse_of_derives`).
-/
namespace AdaptiveLL

/-- The alternatives of a state are its ways on, counted from one. -/
theorem Network.exists_alternative {n : Network} {q : Nat} {t : Transition} (h : t ∈ n.ways q) :
    ∃ i, (n.state q).alternative? i = some t := by
  obtain ⟨i, hi⟩ := List.mem_iff_getElem?.mp h
  exact ⟨i + 1, hi⟩

namespace Session
variable {g : Grammar} {p : Plan} {lazy : Prop} {n : Network} {top last stop : Nat} {σ : Type}
  {hooks : ParserHooks σ} {s : Session σ} {w : Walk}

/-- A session in which the caller's stack settles conflicts, with a cache that holds nothing wrong. -/
structure Careful (n : Network) (s : Session σ) : Prop where
  sane : s.predictor.Sane n fun _ => True
  mode : s.predictor.settings.mode ≠ .sll

/-- Predicting keeps a session careful. -/
theorem Careful.predict (h : s.Careful n) (hooks : ParserHooks σ) (outer : List Invocation)
    (decision : Nat) : (Predictor.predict hooks outer decision s).2.Careful n := by
  refine ⟨Predictor.predict_sane hooks outer decision h.sane, ?_⟩
  have hsettings : (Predictor.predict hooks outer decision s).2.predictor.settings =
      s.predictor.settings :=
    congrArg (fun f => f.1.2) (Predictor.leaves_predict hooks outer decision s)
  rw [hsettings]
  exact h.mode

section
variable (hg : g.LaidOut p lazy n) (hl : g.layout = .ok n) (hkind : g.kind = .parser)
  (hc : n.Closing top last stop)
include hg hl hkind hc

/-- The way on that is chosen at a promising stage is one along which a machine can finish, unless a limit
is hit. -/
theorem choose_promising (hs : s.Careful n) (h : Promising n top last stop ⟨w, s.stream⟩)
    (hq : ¬ n.isStop w.state) :
    Run.Limited (fun r s' => s'.Careful n ∧ Promising n top last stop ⟨r.2, s'.stream⟩ ∧
        r.2.state = w.state ∧ ∃ t, (n.state w.state).alternative? r.1 = some t ∧
          n.Onto stop (n.returnStates r.2.running) t (Stage.ahead last stop ⟨r.2, s'.stream⟩))
      (choose hooks w (n.state w.state) s) := by
  obtain ⟨t, ht, honto⟩ := h.finishes.exists_onto hc.isStop hq
  by_cases hmany : 1 < (n.ways w.state).length
  · -- there is a decision, and it is predicted
    obtain ⟨d, hd, hdecision⟩ := hg.exists_decision hl hq hmany
    have hmem : w.state ∈ n.decisions.toList :=
      Array.mem_toList_iff.mpr (Array.mem_of_getElem? hdecision)
    have hahead : Stage.ahead last stop ⟨w, s.stream⟩ = s.stream.remaining :=
      ahead_eq_remaining hc hq hmany
    have hV : ∃ i, n.Viable stop w.state (n.returnStates w.running) s.stream.remaining i := by
      obtain ⟨i, hi⟩ := Network.exists_alternative ht
      refine ⟨i, t, hi, ?_⟩
      rw [← hahead]
      exact (onto_iff_finishes hg hl hmem ht).mp honto
    have hpredict := Predictor.predict_viable hg hl hkind hc hooks hdecision h.calls hs.sane h.placed hV
    have hcareful := hs.predict hooks w.running d
    have hstream := Predictor.stream_predict hooks w.running d h.placed
    obtain ⟨t₁, t₂, ts, hways⟩ : ∃ t₁ t₂ ts, (n.state w.state).transitions = t₁ :: t₂ :: ts := by
      change 1 < (n.state w.state).transitions.length at hmany
      obtain ⟨t₁, rest, hrest⟩ := List.exists_cons_of_length_pos (Nat.lt_of_succ_lt hmany)
      rw [hrest, List.length_cons] at hmany
      obtain ⟨t₂, ts, hts⟩ := List.exists_cons_of_length_pos (Nat.lt_of_succ_lt_succ hmany)
      exact ⟨t₁, t₂, ts, hts ▸ hrest⟩
    simp only [choose, hd, hways, Run.bind_apply, Run.get_apply]
    generalize Predictor.predict hooks w.running d s = res at hpredict hcareful hstream ⊢
    cases hpredict with
    | limit he => exact .limit he
    | @ok m s' hm =>
      obtain ⟨t, ht, hf⟩ := hm.2 hs.mode
      have htmem : t ∈ n.ways w.state := List.mem_of_getElem? (State.alternative?_eq_some ht).2.2
      refine .ok ⟨hcareful, ?_, rfl, t, ht, ?_⟩
      · rw [hstream]
        exact ⟨⟨h.placed, h.calls⟩, h.finishes⟩
      · rw [hstream]
        change n.Onto stop (n.returnStates w.running) t (Stage.ahead last stop ⟨w, s.stream⟩)
        rw [hahead]
        exact (onto_iff_finishes hg hl hmem htmem).mpr hf
  · -- a single way is taken without a prediction
    have hways : n.ways w.state = [t] := by
      obtain ⟨x, hx⟩ := List.length_eq_one_iff.mp
        (Nat.le_antisymm (Nat.le_of_not_lt hmany) (List.length_pos_of_mem ht))
      rw [hx, List.mem_singleton] at ht
      rw [hx, ht]
    have hone : choose hooks w (n.state w.state) = pure (1, w) := by
      unfold choose
      split
      · next d t₁ t₂ ts _ hts =>
        change n.ways w.state = _ at hts
        rw [hways] at hts
        cases hts
      · rfl
    rw [hone]
    refine .ok ⟨hs, h, rfl, t, ?_, honto⟩
    change (n.ways w.state)[0]? = some t
    rw [hways]
    rfl

omit hl in
/-- The end of a rule is left without an error, and nothing changes but the walk. -/
theorem leave_promising (hs : s.predictor.network = n) (h : Promising n top last stop ⟨w, s.stream⟩)
    (hq : n.isStop w.state) : ∃ o, leave w s = (.ok o, s) ∧
      ∀ w', o = .inr w' → Promising n top last stop ⟨w', s.stream⟩ := by
  have hunder := h.toUnderway
  obtain ⟨⟨-, hcalls⟩, hf⟩ := h
  dsimp only at hcalls
  generalize hrun : w.running = running at hcalls
  generalize hrule : (n.state w.state).rule = rule at hcalls
  have hlast : w.running.getLast? = running.getLast? := congrArg List.getLast? hrun
  cases hcalls with
  | root =>
    refine ⟨.inl (w.noting (.exitRule top s.stream.index)).trace, ?_, fun _ he => by cases he⟩
    unfold leave
    rw [hlast]
    rfl
  | @call outer r caller target _ follow level precedence hcalls hcaller ht =>
    have hfollow := hg.follow_of_call ht
    have hcaller : (Invocation.called rule caller precedence).caller = some caller := rfl
    have hmove : Moves n ⟨w, s.stream⟩
        ⟨⟨follow, outer, .exitRule rule s.stream.index :: w.done⟩, s.stream⟩ :=
      .leave hq hrun hcaller hfollow
    refine ⟨.inr ⟨follow, outer, .exitRule rule s.stream.index :: w.done⟩, ?_, fun w' he => ?_⟩
    · unfold leave
      rw [hlast, List.getLast?_concat]
      simp only [Run.bind_apply, Run.get_apply, Invocation.called, hs, hfollow, Walk.noting, hrun,
        List.dropLast_concat]
      rfl
    · cases he
      refine ⟨underway_of_moves hg hkind hmove hunder, ?_⟩
      rw [Stage.spot, hrun, n.returnStates_concat outer rfl hfollow,
        ← ahead_return hc hg (v := ⟨follow, outer, _⟩) hq (hrun ▸ hunder.calls) rfl hfollow] at hf
      exact hf.of_isStop hq

/-- A step from a promising stage leads to a promising stage or ends the walk, unless a limit is hit. -/
theorem step_promising (hs : s.Careful n) (h : Promising n top last stop ⟨w, s.stream⟩) :
    Run.Limited (fun o s' => ∀ w', o = .inr w' →
      s'.Careful n ∧ Promising n top last stop ⟨w', s'.stream⟩) (step hooks w s) := by
  have hn := hs.sane.network
  rw [step, Run.bind_apply, Run.get_apply]
  dsimp only
  rw [hn]
  by_cases hq : n.isStop w.state
  · obtain ⟨o, hleave, ho⟩ := leave_promising hg hkind hc hn h hq
    rw [Network.state?_eq (Network.lt_of_isStop hq)]
    dsimp only
    rw [if_pos (show (n.state w.state).isStop from hq), hleave]
    exact .ok fun w' he => ⟨hs, ho w' he⟩
  · obtain ⟨t, ht, -⟩ := h.finishes.exists_onto hc.isStop hq
    rw [Network.state?_eq (Layout.lt_of_mem_ways ht)]
    dsimp only
    rw [if_neg (show ¬ (n.state w.state).isStop from hq)]
    refine (choose_promising hg hl hkind hc hs h hq).bind ?_
    rintro ⟨alt, w₁⟩ s₁ ⟨hcareful, hpromising, hstate, t, ht, honto⟩
    dsimp only at hpromising hstate honto ⊢
    rw [ht]
    have hmem : t ∈ n.ways w₁.state := by
      rw [hstate]
      exact List.mem_of_getElem? (State.alternative?_eq_some ht).2.2
    obtain ⟨w₂, s₂, htake, hpredictor, hnext⟩ :
        ∃ w₂ s₂, take hooks w₁ t s₁ = (.ok w₂, s₂) ∧ s₂.predictor = s₁.predictor ∧
          Promising n top last stop ⟨w₂, s₂.stream⟩ :=
      take_onto hg hkind hc hcareful.sane.network hpromising.toUnderway (hstate ▸ hq) hmem honto
    have hmap : (Sum.inr <$> take hooks w₁ t : Run (Session σ) (Trace ⊕ Walk)) s₁ =
        (.ok (.inr w₂), s₂) := by
      rw [map_eq_pure_bind, Run.bind_apply, htake]
      rfl
    dsimp only
    rw [hmap]
    refine .ok fun w' he => ?_
    cases he
    exact ⟨⟨hpredictor ▸ hcareful.sane, hpredictor ▸ hcareful.mode⟩, hnext⟩

/-- A walk from a promising stage returns a trace, unless a limit is hit or it is cut off. -/
theorem walk_promising (fuel : Nat) (hs : s.Careful n) (h : Promising n top last stop ⟨w, s.stream⟩) :
    (∃ t, (walk hooks fuel w s).1 = .ok t) ∨
      ∃ e, (walk hooks fuel w s).1 = .error e ∧ (e.IsLimit ∨ e = .outOfFuel) := by
  induction fuel generalizing w s with
  | zero => exact .inr ⟨_, rfl, .inr rfl⟩
  | succ fuel ih =>
    have hstep : Run.Limited (fun o s' => ∀ w', o = .inr w' →
        s'.Careful n ∧ Promising n top last stop ⟨w', s'.stream⟩) (step hooks w s) :=
      step_promising hg hl hkind hc hs h
    rw [walk, Run.bind_apply]
    generalize step hooks w s = r at hstep ⊢
    cases hstep with
    | limit he => exact .inr ⟨_, rfl, .inl he⟩
    | @ok o s' ho =>
      cases o with
      | inl t => exact .inl ⟨t, rfl⟩
      | inr w' =>
        obtain ⟨hs', hnext⟩ := ho w' rfl
        exact ih hs' hnext

end

/-! ## Whole parses -/

/-- However it ends, a parse leaves a cache that predictions have grown. -/
theorem grown_parse {allowed : Settings → Prop} (hs : s.predictor.network = n)
    (hallowed : allowed s.predictor.settings) (hcache : s.predictor.cache.Grown n allowed)
    (hooks : ParserHooks σ) (rule : Nat) :
    (parse hooks rule s).2.predictor.cache.Grown n allowed := by
  let inv : Session σ → Prop := fun t =>
    t.predictor.frame = s.predictor.frame ∧ t.predictor.cache.Grown n allowed
  have hpredict : ∀ outer decision, Run.Preserves inv (Predictor.predict hooks outer decision) := by
    rintro outer decision t ⟨hframe, hgrown⟩
    have hnet : t.predictor.network = n := (congrArg Prod.fst hframe).trans hs
    have hsettings : t.predictor.settings = s.predictor.settings := congrArg Prod.snd hframe
    refine ⟨?_, .predict hooks outer decision hnet (hsettings ▸ hallowed) hgrown⟩
    exact (congrArg Prod.fst (Predictor.leaves_predict hooks outer decision t)).trans hframe
  exact (preserves_parse (fun _ h => h) (fun _ _ h => h) hpredict rule s ⟨rfl, hcache⟩).2

/-- A rule that is recognised as a whole is recognised on every word of its language: a parser that lets
the caller's stack settle conflicts returns a trace, which says that the word was matched, unless a limit
is hit or the run is cut off.  What was predicted before makes no difference. -/
theorem parse_of_derives {g : Grammar} {n : Network} (hl : g.layout = .ok n) {top : Nat}
    (hs : g.Sentential top) {r : Rule} (hr : g.rules[top]? = some r) {types : List Int}
    (hend : endOfInput ∉ types)
    (hw : r.body.Derives g n.minSymbol n.maxSymbol (types ++ [endOfInput])) {σ : Type} {s : Session σ}
    (hn : s.predictor.network = n) (hmode : s.predictor.settings.mode ≠ .sll)
    (hcache : s.predictor.cache.Grown n fun _ => True) (hstream : s.stream = .ofTypes types)
    (hooks : ParserHooks σ) :
    (∃ t, (parse hooks top s).1 = .ok t ∧ t.matched = types ++ [endOfInput]) ∨
      ∃ e, (parse hooks top s).1 = .error e ∧ (e.IsLimit ∨ e = .outOfFuel) := by
  have hlaid : ∃ p, g.LaidOut p True n := Grammar.exists_laidOut hl fun hf => absurd trivial hf
  obtain ⟨p, hg⟩ := hlaid
  have hkind := hs.parser
  have hc := hg.closing hs
  have hlt := (List.getElem?_eq_some_iff.mp hr).1
  have hplaced : s.stream.Placed := hstream ▸ TokenStream.placed_ofTokens _ _
  have hcareful : s.Careful n := ⟨⟨hn, trivial, hcache.faithful⟩, hmode⟩
  -- at the start of the rule the whole word is ahead
  have hbegin := (ahead_start hg hlt s.stream s.stream.index).trans
    ((congrArg TokenStream.remaining hstream).trans (TokenStream.remaining_ofTypes hend))
  have hpromising : Promising n top (p.part top).exit (p.stop top)
      ⟨.start (p.start top) top s.stream.index, s.stream⟩ := by
    refine ⟨underway_start hg hlt hplaced _, ?_⟩
    rw [hbegin]
    exact hg.reads_rule hr (hg.crossings hw).whole []
  have hparse := parse_eq_walk hg hlt hkind hn hooks
  rcases hres : parse hooks top s with ⟨e | t, s'⟩
  · have hwalk : (∃ t, (parse hooks top s).1 = .ok t) ∨
        ∃ e, (parse hooks top s).1 = .error e ∧ (e.IsLimit ∨ e = .outOfFuel) :=
      hparse ▸ walk_promising hg hl hkind hc _ hcareful hpromising
    rw [hres] at hwalk
    rcases hwalk with ⟨t, ht⟩ | ⟨e', he, hlimit⟩
    · cases ht
    · exact .inr ⟨e', he, hlimit⟩
  · rw [hparse] at hres
    obtain ⟨w, frame, hmoves, hends, rfl⟩ := moves_walk _ ⟨hn, hplaced⟩ hres
    obtain ⟨hunder, hsum⟩ := reads_of_run hg hkind hc hmoves hpromising.toUnderway
    rw [(promising_of_ends hc hends hunder).2, List.append_nil, hbegin] at hsum
    refine .inl ⟨_, rfl, ?_⟩
    rw [matched_noting w _ (fun _ _ h => by cases h)]
    exact hsum

/-- A sentence of nested symbols. -/
def nestedGrammar : Grammar :=
  { kind := .parser, maxSymbol := 2
    rules := [⟨"sentence", .seq [.call "nest" 0, .endOfInput], unclassified, 0, false⟩, nestRule] }

/-- The network of the sentence of nested symbols. -/
def nestedNetwork : Network := nestedGrammar.layout.toOption.getD { kind := .parser, maxSymbol := 2 }

/-- A session in which the caller's stack is not asked, before symbols that are no sentence. -/
def earlierSession : Session Unit where
  predictor := .ofNetwork nestedNetwork { mode := .sll, patience := 20 }
  stream := .ofTypes [1, 1, 2]
  author := ()

/-- A session before two nested symbols, with the cache from an earlier one. -/
def nestedSession : Session Unit where
  predictor := { Predictor.ofNetwork nestedNetwork { patience := 20 } with
    cache := (parse ParserHooks.none 0 earlierSession).2.predictor.cache }
  stream := .ofTypes [1, 2]
  author := ()

theorem parse_of_derives_nested : nestedGrammar.layout = .ok nestedNetwork ∧
    nestedSession.predictor.cache.Grown nestedNetwork (fun _ => True) ∧
      ((∃ t, (parse ParserHooks.none 0 nestedSession).1 = .ok t ∧ t.matched = [1, 2, endOfInput]) ∨
        ∃ e, (parse ParserHooks.none 0 nestedSession).1 = .error e ∧ (e.IsLimit ∨ e = .outOfFuel)) := by
  have hlayout : nestedGrammar.layout = .ok nestedNetwork := by cbv
  have hsentential : nestedGrammar.Sentential 0 := by
    refine ⟨rfl, by decide, ⟨_, [.call "nest" 0], rfl, rfl, by decide, by decide⟩, fun i r hi hr => ?_⟩
    obtain rfl : i = 1 := by
      have := (List.getElem?_eq_some_iff.mp hr).1
      change i < 2 at this
      omega
    obtain rfl := Option.some.inj hr
    decide
  have hgrown : nestedSession.predictor.cache.Grown nestedNetwork (fun _ => True) :=
    grown_parse (s := earlierSession) rfl trivial .fresh ParserHooks.none 0
  have hrule : nestRule ∈ nestedGrammar.rules := List.mem_cons_of_mem _ List.mem_cons_self
  have hone : ∀ x : Int, Element.Derives nestedGrammar nestedNetwork.minSymbol nestedNetwork.maxSymbol
      (.symbol x) [x] := fun x => .one (decide_eq_true rfl)
  have hnest : Element.Derives nestedGrammar nestedNetwork.minSymbol nestedNetwork.maxSymbol
      nestRule.body [1, 2] :=
    .take (.next (hone 1) (.next (.call (r := nestRule) hrule .skip) (.next (hone 2) .done)))
  have hwhole : Element.Derives nestedGrammar nestedNetwork.minSymbol nestedNetwork.maxSymbol
      (.seq [.call "nest" 0, .endOfInput]) ([1, 2] ++ [endOfInput]) :=
    .next (.call (r := nestRule) hrule hnest) (.next (hone endOfInput) .done)
  exact ⟨hlayout, hgrown, parse_of_derives hlayout hsentential rfl (by decide) hwhole rfl (by decide)
    hgrown rfl ParserHooks.none⟩

end Session
end AdaptiveLL
