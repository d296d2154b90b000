import Mathlib
import AdaptiveLL.Proofs.Parsing.Soundness
import AdaptiveLL.Proofs.Prediction.LowestViable

/-! # What a parser can still read

In a rule that is recognised as a whole, a walk has something ahead of it: what remains of the tokens, or
nothing once the end of the input was consumed (`Session.Stage.ahead`).  Every move reads a part of it,
as a machine does with the stack of the running rules (`Session.reads_of_moves`).  A stage is promising
if a machine can read all of it from there and stop with an empty stack (`Session.Promising`).

From a promising stage on, some way on keeps the stage promising, and going along it does not fail
(`Session.exists_onto`, `Session.take_onto`).
-/
namespace AdaptiveLL

/-- Whether a machine can finish along a transition, with the stack it has before it. -/
inductive Network.Onto (n : Network) (stop : Nat) (stack : List Nat) (t : Transition) :
    List Symbol → Prop
  | free {w : List Symbol} : t.isFree → n.Finishes stop ⟨t.target, t.onto stack⟩ w →
      Onto n stop stack t w
  | eat {x : Symbol} {w : List Symbol} : t.consumes n.minSymbol n.maxSymbol x →
      n.Finishes stop ⟨t.target, stack⟩ w → Onto n stop stack t (x :: w)

/-- Before the end of a rule, a machine that finishes does so along some way on. -/
theorem Network.Finishes.exists_onto {n : Network} {stop q : Nat} {stack : List Nat} {w : List Symbol}
    (h : n.Finishes stop ⟨q, stack⟩ w) (hstop : n.isStop stop) (hq : ¬ n.isStop q) :
    ∃ t ∈ n.ways q, n.Onto stop stack t w := by
  cases h with
  | refl => exact absurd hstop hq
  | free hfree hrest =>
    cases hfree with
    | @pass _ _ t _ ht hplain =>
      have hfree : t.isFree := by
        cases t <;> first | rfl | cases hplain
      have honto : t.onto stack = stack := by
        cases t <;> first | rfl | cases hplain
      exact ⟨t, ht, .free hfree (by rwa [honto])⟩
    | call _ ht => exact ⟨_, ht, .free rfl hrest⟩
    | pop hq' => exact absurd hq' hq
  | eat heat hrest =>
    cases heat with
    | along _ ht hx => exact ⟨_, ht, .eat hx hrest⟩

/-- At the end of a rule, a machine that finishes does so by returning. -/
theorem Network.Finishes.of_isStop {n : Network} {stop q f : Nat} {stack : List Nat} {w : List Symbol}
    (h : n.Finishes stop ⟨q, f :: stack⟩ w) (hq : n.isStop q) : n.Finishes stop ⟨f, stack⟩ w := by
  cases h with
  | free hfree hrest =>
    cases hfree with
    | pass hq' | call hq' => exact absurd hq hq'
    | pop => exact hrest
  | eat heat =>
    cases heat with
    | along hq' => exact absurd hq hq'

/-- The stop belongs to the rule that is recognised as a whole. -/
theorem Network.Closing.rule_stop {g : Grammar} {p : Plan} {lazy : Prop} {n : Network}
    {top last stop : Nat} (hc : n.Closing top last stop) (hg : g.LaidOut p lazy n) :
    (n.state stop).rule = top := by
  have ht : .epsilon stop ∈ n.ways last := hc.ways_last ▸ List.mem_singleton_self _
  rcases hg.rule_cases hc.not_isStop ht with ⟨hk, -⟩ | ⟨i, hi, ⟨_, _, _, he, -, -⟩ | ⟨hi', -⟩⟩
  · exact absurd hk hc.inRule.2
  · cases he
  · exact hi'.1.trans (hi.1.symm.trans hc.inRule.1)

namespace Session
variable {g : Grammar} {p : Plan} {lazy : Prop} {n : Network} {top last stop : Nat} {a b : Stage}

/-- The symbols that a walk still has to consume: none once the end of the input was consumed. -/
def Stage.ahead (last stop : Nat) (a : Stage) : List Symbol :=
  if a.walk.state = last ∨ a.walk.state = stop then [] else a.stream.remaining

/-- Where a machine stands that did what a walk did. -/
def Stage.spot (n : Network) (a : Stage) : Spot := ⟨a.walk.state, n.returnStates a.walk.running⟩

/-- A walk under a chain of calls, before a token that is seen. -/
structure Underway (n : Network) (top : Nat) (a : Stage) : Prop where
  placed : a.stream.Placed
  calls : n.Calls top a.walk.running (n.state a.walk.state).rule

/-- A walk from which a machine can read what is ahead and stop with an empty stack. -/
structure Promising (n : Network) (top last stop : Nat) (a : Stage) : Prop extends Underway n top a where
  finishes : n.Finishes stop (a.spot n) (a.ahead last stop)

/-! ## Chains of calls -/

/-- Moves keep to chains of calls. -/
theorem calls_of_moves (hg : g.LaidOut p lazy n) (hkind : g.kind = .parser) (hm : Moves n a b)
    (h : n.Calls top a.walk.running (n.state a.walk.state).rule) :
    n.Calls top b.walk.running (n.state b.walk.state).rule := by
  -- A transition that pushes no return state stays in its rule.
  have hstays : ∀ {q : Nat} {t : Transition}, ¬ n.isStop q → t ∈ n.ways q → (∀ s, t.onto s = s) →
      (n.state t.target).rule = (n.state q).rule := by
    intro q t hq ht honto
    rcases hg.rule_cases hq ht with ⟨hk, -⟩ | ⟨i, hi, ⟨_, _, _, rfl, -, -⟩ | ⟨hi', -⟩⟩
    · exact absurd hk (hg.kind_ne_tokensStart hkind q)
    · exact absurd (honto []) (List.cons_ne_nil _ _)
    · exact hi'.1.trans hi.1.symm
  cases hm with
  | decide => exact h
  | pass hq ht _ honto => exact (hstays hq ht honto).symm ▸ h
  | @eat w ts t hq ht hx =>
    have honto : ∀ s, t.onto s = s := by
      cases t <;> first | exact fun _ => rfl | cases hx
    exact (hstays hq ht honto).symm ▸ h
  | @call w ts target rule follow level hq ht =>
    obtain ⟨rfl, hrule, -⟩ := hg.call_cases ht
    have hcalled := Network.Calls.call level h rfl ht
    rwa [(hg.inRule_start hrule).1]
  | @leave w ts calls frame caller follow hq hrunning hcaller hfollow =>
    -- The call that ends is the last of the chain, and its caller goes on in its own rule.
    rw [hrunning] at h
    generalize hrun : calls ++ [frame] = running at h
    generalize (n.state w.state).rule = rule at h
    cases h with
    | root =>
      have hf := (List.append_inj' (hrun.trans (List.nil_append _).symm) rfl).2
      rw [List.singleton_inj.mp hf] at hcaller
      cases hcaller
    | @call outer r caller' target rule follow' level precedence hcalls hrule ht =>
      obtain ⟨rfl, hf⟩ := List.append_inj' hrun rfl
      obtain rfl := List.singleton_inj.mp hf
      obtain rfl : caller' = caller := Option.some.inj hcaller
      obtain rfl : follow' = follow := Except.ok.inj ((hg.follow_of_call ht).symm.trans hfollow)
      obtain ⟨-, -, i, hi, rfl, hlo, hhi⟩ := hg.call_cases ht
      have hsame : (n.state (caller' + 1)).rule = r := by
        rw [← hrule, (hg.inRule_body hi hlo (Nat.lt_of_succ_lt hhi)).1,
          (hg.inRule_body hi (hlo.trans (Nat.le_succ _)) hhi).1]
      exact hsame.symm ▸ hcalls

/-! ## What is ahead -/

section Ahead
variable (hc : n.Closing top last stop)
include hc

/-- Moving freely leaves what is ahead. -/
theorem ahead_along {w w' : Walk} {ts : TokenStream} {t : Transition} (hq : ¬ n.isStop w.state)
    (ht : t ∈ n.ways w.state) (hfree : t.isFree) (hw : w'.state = t.target) :
    Stage.ahead last stop ⟨w', ts⟩ = Stage.ahead last stop ⟨w, ts⟩ := by
  have hiff : w'.state = last ∨ w'.state = stop ↔ w.state = last ∨ w.state = stop := by
    rw [hw]
    constructor
    · rintro (htarget | htarget)
      · rw [hc.enters_last ht htarget] at hfree
        cases hfree
      · exact .inl (hc.enters_stop ht htarget)
    · rintro (hlast | hstop)
      · rw [hlast, hc.ways_last, List.mem_singleton] at ht
        exact .inr (ht ▸ rfl)
      · exact absurd (hstop ▸ hc.isStop) hq
  simp only [Stage.ahead, hiff]

/-- Consuming the next symbol takes it from what is ahead. -/
theorem ahead_eat {w v : Walk} {ts : TokenStream} {t : Transition} (hts : ts.Placed)
    (hq : ¬ n.isStop w.state) (ht : t ∈ n.ways w.state)
    (hx : t.consumes n.minSymbol n.maxSymbol ts.peek) (hw : v.state = t.target) :
    Stage.ahead last stop ⟨w, ts⟩ = ts.peek ::
      Stage.ahead last stop ⟨v, if ts.peek = endOfInput then ts else ts.consume⟩ := by
  have hbefore : ¬ (w.state = last ∨ w.state = stop) := by
    rintro (hlast | hstop)
    · rw [hlast, hc.ways_last, List.mem_singleton] at ht
      rw [ht] at hx
      cases hx
    · exact hq (hstop ▸ hc.isStop)
  obtain ⟨v, hv, hend, hmore⟩ := hts.remaining_cases
  unfold Stage.ahead
  rw [if_neg hbefore, hw, hv]
  congr 1
  by_cases hpeek : ts.peek = endOfInput
  · have hlo : 0 ≤ n.minSymbol := by
      rw [hc.minSymbol]
      decide
    rw [hpeek] at hx
    rw [if_pos (.inl (hc.ends ht hlo hx)), hend.mp hpeek]
  · have hafter : ¬ (t.target = last ∨ t.target = stop) := by
      rintro (htarget | htarget)
      · rw [hc.enters_last ht htarget] at hx
        exact hpeek (of_decide_eq_true hx).symm
      · exact hbefore (.inl (hc.enters_stop ht htarget))
    rw [if_neg hafter, if_neg hpeek, hmore hpeek]

/-- Returning to a caller leaves what is ahead. -/
theorem ahead_return (hg : g.LaidOut p lazy n) {w v : Walk} {ts : TokenStream} {outer : List Invocation}
    {frame : Invocation} {caller : Nat} (hq : n.isStop w.state)
    (hcalls : n.Calls top (outer ++ [frame]) (n.state w.state).rule) (hcaller : frame.caller = some caller)
    (hfollow : n.follow caller = .ok v.state) :
    Stage.ahead last stop ⟨v, ts⟩ = Stage.ahead last stop ⟨w, ts⟩ := by
  obtain ⟨target, rule, level, ht, hrule⟩ : ∃ target rule level,
      .call target rule level v.state ∈ n.ways caller ∧ (n.state w.state).rule = rule := by
    generalize hrun : outer ++ [frame] = running at hcalls
    generalize (n.state w.state).rule = rule at hcalls
    cases hcalls with
    | root =>
      have hf := (List.append_inj' (hrun.trans (List.nil_append _).symm) rfl).2
      rw [List.singleton_inj.mp hf] at hcaller
      cases hcaller
    | @call _ _ caller' target rule follow level _ _ _ ht =>
      obtain rfl := List.singleton_inj.mp (List.append_inj' hrun rfl).2
      obtain rfl : caller' = caller := Option.some.inj hcaller
      obtain rfl : follow = v.state := Except.ok.inj ((hg.follow_of_call ht).symm.trans hfollow)
      exact ⟨target, rule, level, ht, rfl⟩
  obtain ⟨hne, hlast, hstop⟩ := hc.calls ht
  have hafter : ¬ (v.state = last ∨ v.state = stop) := not_or.mpr ⟨hlast, hstop⟩
  have hbefore : ¬ (w.state = last ∨ w.state = stop) := by
    rintro (hq' | hq')
    · exact hc.not_isStop (hq' ▸ hq)
    · rw [hq', hc.rule_stop hg] at hrule
      exact hne hrule.symm
  simp only [Stage.ahead, hafter, hbefore]

end Ahead

/-! ## What moves read -/

section Moving
variable (hg : g.LaidOut p lazy n) (hkind : g.kind = .parser) (hc : n.Closing top last stop)
include hg hkind

theorem underway_of_moves (hm : Moves n a b) (h : Underway n top a) : Underway n top b := by
  refine ⟨?_, calls_of_moves hg hkind hm h.calls⟩
  cases hm with
  | eat =>
    dsimp only
    split
    · exact h.placed
    · exact h.placed.consume
  | _ => exact h.placed

include hc
omit hkind

/-- Every move reads a part of what is ahead, as a machine does with the stack of the running rules. -/
theorem reads_of_moves (hm : Moves n a b) (h : Underway n top a) :
    ∃ v, n.Reads n.minSymbol n.maxSymbol (a.spot n) v (b.spot n) ∧
      a.ahead last stop = v ++ b.ahead last stop ∧
      b.walk.trace.matched = a.walk.trace.matched ++ v := by
  -- A move reads one symbol if it consumes, and none otherwise.
  cases hm with
  | @decide w ts d alt =>
    refine ⟨[], .refl _, rfl, ?_⟩
    rw [List.append_nil]
    exact matched_noting w (.decision d w.state alt ts.index) (fun _ _ h => by cases h)
  | @pass w ts t hq ht hfree honto =>
    have hplain : t.isPlain := by
      have hguard := hc.unguarded ht
      cases t with
      | call => exact absurd (honto []) (List.cons_ne_nil _ _)
      | predicate | precedence => cases hguard
      | symbol | range | set | notSet | wildcard => cases hfree
      | epsilon | ret | action => rfl
    have hmove : n.Free ⟨w.state, n.returnStates w.running⟩ ⟨t.target, n.returnStates w.running⟩ :=
      .pass hq ht hplain
    refine ⟨[], .free hmove (.refl _), (ahead_along hc hq ht hfree rfl).symm, ?_⟩
    exact (List.append_nil _).symm
  | @call w ts target rule follow level hq ht =>
    have hmove : n.Free ⟨w.state, n.returnStates w.running⟩ ⟨target, follow :: n.returnStates w.running⟩ :=
      .call hq ht
    rw [← n.returnStates_concat w.running (f := .called rule w.state level) rfl (hg.follow_of_call ht)]
      at hmove
    refine ⟨[], .free hmove (.refl _), (ahead_along hc hq ht rfl rfl).symm, ?_⟩
    rw [List.append_nil]
    exact matched_noting w (.enterRule rule ts.index) (fun _ _ h => by cases h)
  | @eat w ts t hq ht hx =>
    have hmove : n.Eats n.minSymbol n.maxSymbol ts.peek ⟨w.state, n.returnStates w.running⟩
        ⟨t.target, n.returnStates w.running⟩ := .along hq ht hx
    refine ⟨[ts.peek], .eat hmove (.refl _), ahead_eat hc h.placed hq ht hx rfl, ?_⟩
    change (w.noting (.token ts.peek ts.index)).trace.matched = _
    rw [Trace.matched, Walk.events_noting, List.filterMap_append]
    rfl
  | @leave w ts calls frame caller follow hq hrunning hcaller hfollow =>
    have hcalls := h.calls
    dsimp only at hcalls
    rw [hrunning] at hcalls
    have hmove : n.Free ⟨w.state, follow :: n.returnStates calls⟩ ⟨follow, n.returnStates calls⟩ :=
      .pop hq
    rw [← n.returnStates_concat calls hcaller hfollow, ← hrunning] at hmove
    refine ⟨[], .free hmove (.refl _), ?_, ?_⟩
    · exact (ahead_return hc hg (v := ⟨follow, _, _⟩) hq hcalls hcaller hfollow).symm
    · rw [List.append_nil]
      exact matched_noting w (.exitRule frame.rule ts.index) (fun _ _ h => by cases h)

/-- A stage before a promising one is promising. -/
theorem Promising.of_moves (hm : Moves n a b) (ha : Underway n top a) (hb : Promising n top last stop b) :
    Promising n top last stop a := by
  obtain ⟨v, hreads, hahead, -⟩ := reads_of_moves hg hc hm ha
  refine ⟨ha, ?_⟩
  rw [hahead]
  exact hreads.append hb.finishes

omit hg in
/-- Where a walk is over, nothing is ahead. -/
theorem promising_of_ends {frame : Invocation} (he : Ends n a frame) (h : Underway n top a) :
    Promising n top last stop a ∧ a.ahead last stop = [] := by
  have hrun : a.walk.running = [.root top] ∧ (n.state a.walk.state).rule = top := by
    have hlast := he.innermost
    have hcalls := h.calls
    generalize a.walk.running = running at hlast hcalls
    generalize (n.state a.walk.state).rule = rule at hcalls
    cases hcalls with
    | root => exact ⟨rfl, rfl⟩
    | call precedence =>
      rw [List.getLast?_concat] at hlast
      have hcaller := he.uncalled
      rw [← Option.some.inj hlast] at hcaller
      cases hcaller
  have hstop : a.walk.state = stop := hc.eq_stop he.stop hrun.2
  have hnil : a.ahead last stop = [] := if_pos (.inr hstop)
  refine ⟨⟨h, ?_⟩, hnil⟩
  rw [hnil, Stage.spot, hstop, hrun.1]
  exact .refl _

include hkind

/-- Moves read one after another. -/
theorem reads_of_run (hm : Relation.ReflTransGen (Moves n) a b) (h : Underway n top a) :
    Underway n top b ∧ b.walk.trace.matched ++ b.ahead last stop =
      a.walk.trace.matched ++ a.ahead last stop := by
  induction hm with
  | refl => exact ⟨h, rfl⟩
  | tail _ hmove ih =>
    obtain ⟨hunder, hsum⟩ := ih
    obtain ⟨v, -, hahead, hmatched⟩ := reads_of_moves hg hc hmove hunder
    refine ⟨underway_of_moves hg hkind hmove hunder, ?_⟩
    rw [← hsum, hahead, hmatched, List.append_assoc]

end Moving

/-! ## Where a parse begins -/

section Beginning
variable (hg : g.LaidOut p lazy n) {rule : Nat} (hr : rule < g.rules.length)
include hg hr

/-- At the start of a rule, before a token that is seen. -/
theorem underway_start {ts : TokenStream} (hts : ts.Placed) (i : Nat) :
    Underway n rule ⟨.start (p.start rule) rule i, ts⟩ := by
  refine ⟨hts, ?_⟩
  change n.Calls rule [.root rule] (n.state (p.start rule)).rule
  rw [(hg.inRule_start hr).1]
  exact .root

/-- At the start of a rule everything is ahead that remains of the tokens. -/
theorem ahead_start (ts : TokenStream) (i : Nat) :
    Stage.ahead (p.part rule).exit (p.stop rule) ⟨.start (p.start rule) rule i, ts⟩ = ts.remaining := by
  have hbounds := (hg.laid rule _ (List.getElem?_eq_getElem hr)).bounds
  have hbase := hg.base_le_bound hr.le
  refine if_neg ?_
  change ¬ (p.modes + 2 * rule = (p.part rule).exit ∨ p.modes + 2 * rule = p.modes + 2 * rule + 1)
  omega

/-- A parse is a walk from the start of the rule. -/
theorem parse_eq_walk (hkind : g.kind = .parser) {σ : Type} {s : Session σ}
    (hs : s.predictor.network = n) (hooks : ParserHooks σ) : parse hooks rule s =
      walk hooks (s.predictor.settings.fuel s.stream.size)
        (.start (p.start rule) rule s.stream.index) s := by
  rw [parse, Run.bind_apply, Run.get_apply]
  dsimp only
  rw [hs, hg.toTables.kind, hkind, if_neg (fun h => h rfl), hg.toTables.ruleStart hr]
  rfl

end Beginning

/-! ## Decisions -/

/-- Where there are several ways on, something remains to be read. -/
theorem ahead_eq_remaining (hc : n.Closing top last stop) {w : Walk} {ts : TokenStream}
    (hq : ¬ n.isStop w.state) (hmany : 1 < (n.ways w.state).length) :
    Stage.ahead last stop ⟨w, ts⟩ = ts.remaining := by
  refine if_neg ?_
  rintro (hlast | hstop)
  · have hone : n.ways w.state = [.epsilon stop] := hlast ▸ hc.ways_last
    rw [hone] at hmany
    exact absurd hmany (Nat.lt_irrefl 1)
  · exact hq (hstop ▸ hc.isStop)

/-- At a decision a machine finishes along an alternative as it does from behind it. -/
theorem onto_iff_finishes (hg : g.LaidOut p lazy n) (hl : g.layout = .ok n) {q : Nat}
    (hq : q ∈ n.decisions.toList) {t : Transition} (ht : t ∈ n.ways q) {stack : List Nat}
    {w : List Symbol} : n.Onto stop stack t w ↔ n.Finishes stop ⟨t.target, stack⟩ w := by
  obtain ⟨z, rfl⟩ := (hg.epsilon_of_decision hl hq).2 t ht
  constructor
  · intro h
    cases h with
    | free _ hf => exact hf
    | eat hx _ => cases hx
  · exact fun hf => .free rfl hf

/-! ## Going along -/

variable {σ : Type} {hooks : ParserHooks σ} {s : Session σ} {w : Walk} {t : Transition}

/-- Going along a free transition without a guard does not fail. -/
theorem take_free (hg : g.LaidOut p lazy n) (ht : t ∈ n.ways w.state) (hguard : t.isGuarded = false)
    (hfree : t.isFree) : ∃ w' s', take hooks w t s = (.ok w', s') ∧ s'.predictor = s.predictor ∧
      s'.stream = s.stream ∧ w'.state = t.target ∧
      n.returnStates w'.running = t.onto (n.returnStates w.running) := by
  cases t with
  | symbol | range | set | notSet | wildcard => cases hfree
  | predicate | precedence => cases hguard
  | epsilon | ret | action => exact ⟨_, _, rfl, rfl, rfl, rfl, rfl⟩
  | call target rule level follow =>
    exact ⟨_, _, rfl, rfl, rfl, rfl, n.returnStates_concat w.running rfl (hg.follow_of_call ht)⟩

/-- A transition that consumes the next token matches it. -/
theorem take_eat (hs : s.predictor.network = n)
    (hx : t.consumes n.minSymbol n.maxSymbol s.stream.peek) : take hooks w t s =
      (.ok ((w.noting (.token s.stream.peek s.stream.index)).moveTo t.target),
        { s with stream := if s.stream.peek = endOfInput then s.stream else s.stream.consume }) := by
  subst hs
  have hmatch : take hooks w t = matchToken w t := by
    cases t <;> first | rfl | cases hx
  rw [hmatch, matchToken, Run.bind_apply, Run.get_apply]
  dsimp only
  rw [if_pos hx]
  by_cases hend : s.stream.peek = endOfInput
  · simp only [hend, ne_eq, not_true_eq_false, if_false, if_true]
    rfl
  · simp only [hend, ne_eq, not_false_eq_true, if_true, if_false]
    rfl

/-- Going along a transition from which a machine can finish does not fail, and leads to a promising
stage. -/
theorem take_onto (hg : g.LaidOut p lazy n) (hkind : g.kind = .parser) (hc : n.Closing top last stop)
    (hs : s.predictor.network = n) (hunder : Underway n top ⟨w, s.stream⟩) (hq : ¬ n.isStop w.state)
    (ht : t ∈ n.ways w.state)
    (h : n.Onto stop (n.returnStates w.running) t (Stage.ahead last stop ⟨w, s.stream⟩)) :
    ∃ w' s', take hooks w t s = (.ok w', s') ∧ s'.predictor = s.predictor ∧
      Promising n top last stop ⟨w', s'.stream⟩ := by
  have hgoes : ∀ {w' s'}, take hooks w t s = (.ok w', s') →
      n.Finishes stop (Stage.spot n ⟨w', s'.stream⟩) (Stage.ahead last stop ⟨w', s'.stream⟩) →
      Promising n top last stop ⟨w', s'.stream⟩ := fun htake hf =>
    ⟨underway_of_moves hg hkind (moves_take ⟨hs, hunder.placed⟩ hq ht htake).1 hunder, hf⟩
  generalize hahead : Stage.ahead last stop ⟨w, s.stream⟩ = v at h
  cases h with
  | free hfree hf =>
    obtain ⟨w', s', htake, hpredictor, hstream, hstate, hstack⟩ :
        ∃ w' s', take hooks w t s = (.ok w', s') ∧ s'.predictor = s.predictor ∧
          s'.stream = s.stream ∧ w'.state = t.target ∧
          n.returnStates w'.running = t.onto (n.returnStates w.running) :=
      take_free hg ht (hc.unguarded ht) hfree
    refine ⟨w', s', htake, hpredictor, hgoes htake ?_⟩
    rw [hstream, ahead_along hc hq ht hfree hstate, hahead, Stage.spot, hstate, hstack]
    exact hf
  | @eat x v hx hf =>
    have hpeek : s.stream.peek = x := by
      obtain ⟨u, hu, -⟩ := hunder.placed.remaining_cases
      unfold Stage.ahead at hahead
      split at hahead
      · cases hahead
      · rw [hu] at hahead
        exact (List.cons.inj hahead).1
    rw [← hpeek] at hx
    have htake : take hooks w t s = _ := take_eat hs hx
    refine ⟨_, _, htake, rfl, hgoes htake ?_⟩
    have heat := ahead_eat hc (v := (w.noting (.token s.stream.peek s.stream.index)).moveTo t.target)
      hunder.placed hq ht hx rfl
    rw [hahead] at heat
    rw [← (List.cons.inj heat).2]
    exact hf

end Session
end AdaptiveLL
