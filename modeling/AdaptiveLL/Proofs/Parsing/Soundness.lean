import AdaptiveLL.Proofs.Grammar.Unguarded
import AdaptiveLL.Proofs.Parsing.Walk

/-! # What a trace says

A trace that a parse returns is a derivation of what was matched (`Session.recognised_of_parse`): the
rules begin and end properly nested, the tokens matched are those of the stream from the first place
to the last, alternatives are alternatives of their decisions, and the matched types are a word of the
language of the rule's body in which guards are empty.  Each of these is kept by every move of a walk.
-/
namespace AdaptiveLL

/-- The rules that are open after an event, innermost first, if they were `rules` before it; none if
the event ends another rule than the innermost. -/
def TraceEvent.opens (rules : List Nat) : TraceEvent → Option (List Nat)
  | enterRule rule _ => some (rule :: rules)
  | exitRule rule _ =>
    match rules with
    | [] => none
    | innermost :: rest => if innermost = rule then some rest else none
  | decision .. | token .. => some rules

namespace Trace

/-- The types and places of the tokens matched, in order. -/
def tokens (t : Trace) : List (Int × Nat) :=
  t.events.filterMap fun
    | .token type index => some (type, index)
    | _ => none

theorem matched_eq (t : Trace) : t.matched = t.tokens.map Prod.fst := by
  rw [matched, tokens, List.map_filterMap]
  congr 1
  funext e
  cases e <;> rfl

/-- Rules begin and end properly nested, the first and the last event being those of `rule`. -/
def Nested (rule : Nat) (t : Trace) : Prop :=
  ∃ first last body, t.events = .enterRule rule first :: body ++ [.exitRule rule last] ∧
    body.foldlM TraceEvent.opens [] = some []

end Trace

namespace Session
variable {σ : Type} {g : Grammar} {n : Network} {a b : Stage} {top : Nat}

/-- What a trace says that was recognised between two places of a stream. -/
structure Recognised (g : Grammar) (n : Network) (rule : Nat) (first last : TokenStream) (t : Trace) :
    Prop where
  /-- Rules begin and end properly nested. -/
  nested : t.Nested rule
  /-- The tokens matched are those that are seen between the places; the end of the input may be
  matched any number of times. -/
  tokens : ∃ k, (0 < k → last.peek = endOfInput) ∧ t.tokens =
    (first.seenBetween first.index last.index).map (fun u => (u.1.type, u.2)) ++
      List.replicate k (endOfInput, last.index)
  /-- Nothing but the place in the stream is different. -/
  stream : last.tokens = first.tokens ∧ last.channel = first.channel ∧ first.index ≤ last.index
  /-- Every alternative chosen is an alternative of the decision. -/
  decisions : ∀ d q alt index, .decision d q alt index ∈ t.events →
    (n.state q).decision = some d ∧ 1 ≤ alt ∧ alt ≤ (n.state q).transitions.length
  /-- What was matched is in the language of the rule. -/
  derives : ∃ r, g.rules[rule]? = some r ∧
    r.body.unguarded.Derives g.unguarded n.minSymbol n.maxSymbol t.matched

/-! ## What every move keeps -/

theorem Walk.events_noting (w : Walk) (e : TraceEvent) :
    (w.noting e).trace.events = w.trace.events ++ [e] :=
  List.reverse_cons

/-- The open rules of the events so far are those that run, above the first. -/
def Nests (top : Nat) (w : Walk) : Prop :=
  ∃ calls first body, w.running = .root top :: calls ∧ (∀ f ∈ calls, f.caller ≠ none) ∧
    w.trace.events = .enterRule top first :: body ∧
    body.foldlM TraceEvent.opens [] = some (calls.map Invocation.rule).reverse

theorem Nests.keep {w w' : Walk} {e : TraceEvent} (h : Nests top w) (hrunning : w'.running = w.running)
    (hdone : w'.done = e :: w.done) (he : ∀ rules, e.opens rules = some rules) : Nests top w' := by
  obtain ⟨calls, first, body, hrun, hcalls, hevents, hfold⟩ := h
  refine ⟨calls, first, body ++ [e], hrunning.trans hrun, hcalls, ?_, ?_⟩
  · rw [Walk.trace, hdone, ← List.cons_append, ← hevents]
    exact List.reverse_cons
  · rw [List.foldlM_append, hfold]
    simp [he]

theorem nests_of_moves (hm : Moves n a b) (h : Nests top a.walk) : Nests top b.walk := by
  cases hm with
  | decide => exact h.keep rfl rfl fun _ => rfl
  | pass => exact h
  | eat => exact h.keep rfl rfl fun _ => rfl
  | @call w _ _ rule _ level =>
    obtain ⟨calls, first, body, hrun, hcalls, hevents, hfold⟩ := h
    refine ⟨calls ++ [.called rule w.state level], first, body ++ [.enterRule rule _], ?_, ?_,
      (Walk.events_noting w _).trans (by rw [hevents, List.cons_append]), ?_⟩
    · rw [hrun, List.cons_append]
    · intro f hf
      rcases List.mem_append.mp hf with hf | hf
      · exact hcalls f hf
      · rw [List.mem_singleton.mp hf]
        exact nofun
    · rw [List.foldlM_append, hfold, List.map_append, List.reverse_append]
      rfl
  | @leave w ts outer frame caller follow _ hrunning hcaller _ =>
    obtain ⟨calls, first, body, hrun, hcalls, hevents, hfold⟩ := h
    rw [hrunning] at hrun
    rcases List.eq_nil_or_concat calls with rfl | ⟨inner, f, rfl⟩
    · -- the first rule was not called
      change outer ++ [frame] = [] ++ [.root top] at hrun
      obtain ⟨rfl, hf⟩ := List.append_inj' hrun rfl
      rw [List.singleton_inj.mp hf] at hcaller
      cases hcaller
    · rw [List.concat_eq_append, ← List.cons_append] at hrun
      obtain ⟨rfl, hf⟩ := List.append_inj' hrun rfl
      obtain rfl := List.singleton_inj.mp hf
      refine ⟨inner, first, body ++ [.exitRule frame.rule _], rfl, ?_,
        (Walk.events_noting w _).trans (by rw [hevents, List.cons_append]), ?_⟩
      · exact fun f hf => hcalls f (by simp [hf])
      · rw [List.foldlM_append, hfold, List.concat_eq_append, List.map_append, List.reverse_append]
        change (TraceEvent.opens (frame.rule :: _) _ >>= pure) = _
        rw [bind_pure, TraceEvent.opens, if_pos rfl]
        rfl

/-- The tokens matched so far are those that were seen up to the current place. -/
structure Follows (first : TokenStream) (a : Stage) : Prop where
  placed : a.stream.Placed
  stream : a.stream.tokens = first.tokens ∧ a.stream.channel = first.channel ∧
    first.index ≤ a.stream.index
  tokens : ∃ k, (0 < k → a.stream.peek = endOfInput) ∧ a.walk.trace.tokens =
    (first.seenBetween first.index a.stream.index).map (fun u => (u.1.type, u.2)) ++
      List.replicate k (endOfInput, a.stream.index)

theorem tokens_noting (w : Walk) (e : TraceEvent) (he : ∀ type index, e ≠ .token type index) :
    (w.noting e).trace.tokens = w.trace.tokens := by
  rw [Trace.tokens, Walk.events_noting, List.filterMap_append, ← Trace.tokens]
  cases e with
  | token type index => exact absurd rfl (he type index)
  | enterRule | exitRule | decision => exact List.append_nil _

/-- What is seen between two places depends on the tokens and the channel only. -/
theorem seenBetween_congr {s t : TokenStream} (htokens : s.tokens = t.tokens)
    (hchannel : s.channel = t.channel) (i j : Nat) : s.seenBetween i j = t.seenBetween i j := by
  unfold TokenStream.seenBetween TokenStream.sees
  rw [htokens, hchannel]

theorem follows_of_moves {first : TokenStream} (hm : Moves n a b) (h : Follows first a) :
    Follows first b := by
  have hsame : ∀ {w' : Walk} {w : Walk} {ts : TokenStream}, Follows first ⟨w, ts⟩ →
      w'.trace.tokens = w.trace.tokens → Follows first ⟨w', ts⟩ := by
    intro w' w ts h htokens
    obtain ⟨k, hend, hk⟩ := h.tokens
    exact ⟨h.placed, h.stream, k, hend, htokens.trans hk⟩
  cases hm with
  | decide => exact hsame h (tokens_noting _ _ nofun)
  | pass => exact hsame h rfl
  | @call w => exact hsame h (tokens_noting w _ nofun)
  | @leave w => exact hsame h (tokens_noting w _ nofun)
  | @eat w ts t =>
    obtain ⟨hplaced, ⟨htokens, hchannel, hle⟩, k, hend, hk⟩ := h
    have hnoted : (w.noting (.token ts.peek ts.index)).trace.tokens =
        w.trace.tokens ++ [(ts.peek, ts.index)] := by
      rw [Trace.tokens, Walk.events_noting, List.filterMap_append]
      rfl
    split
    · next hpeek =>
      refine ⟨hplaced, ⟨htokens, hchannel, hle⟩, k + 1, fun _ => hpeek, hnoted.trans ?_⟩
      rw [hk, hpeek, List.append_assoc, List.replicate_succ']
    · next hpeek =>
      have hk0 : k = 0 := by
        by_contra hpos
        exact hpeek (hend (Nat.pos_of_ne_zero hpos))
      obtain ⟨u, hu, hseen⟩ := hplaced.seenBetween_consume hpeek hle
      have hlt := (hplaced.firstSeen_consume hpeek).le
      refine ⟨hplaced.consume, ⟨ts.tokens_consume.trans htokens, ts.channel_consume.trans hchannel, ?_⟩,
        0, fun h0 => absurd h0 (Nat.lt_irrefl 0), hnoted.trans ?_⟩
      · exact hle.trans ((Nat.le_succ _).trans hlt)
      · rw [← seenBetween_congr htokens hchannel] at hk ⊢
        rw [hk, hk0, hseen, List.map_append, hu]
        simp

/-- The alternatives chosen so far are alternatives of their decisions. -/
def Decides (n : Network) (w : Walk) : Prop :=
  ∀ d q alt index, .decision d q alt index ∈ w.done →
    (n.state q).decision = some d ∧ 1 ≤ alt ∧ alt ≤ (n.state q).transitions.length

theorem decides_of_moves (hm : Moves n a b) (h : Decides n a.walk) : Decides n b.walk := by
  cases hm with
  | pass => exact h
  | decide hd hlo hhi =>
    intro d q alt index hmem
    rcases List.mem_cons.mp hmem with he | hmem
    · cases he
      exact ⟨hd, hlo, hhi⟩
    · exact h d q alt index hmem
  | eat | call | leave =>
    intro d q alt index hmem
    rcases List.mem_cons.mp hmem with he | hmem
    · cases he
    · exact h d q alt index hmem

/-- The machine that takes guards for granted reads what was matched so far, and is left with the
stack of the running rules. -/
structure Derived (n : Network) (top start : Nat) (w : Walk) : Prop where
  chained : n.Chained (some top) w.state (n.returnStates w.running)
  reads : n.unguarded.Reads n.minSymbol n.maxSymbol ⟨start, []⟩ w.trace.matched
    ⟨w.state, n.returnStates w.running⟩

theorem matched_noting (w : Walk) (e : TraceEvent) (he : ∀ type index, e ≠ .token type index) :
    (w.noting e).trace.matched = w.trace.matched := by
  rw [Trace.matched_eq, Trace.matched_eq, tokens_noting w e he]

/-- A free transition that calls nothing is a plain one, its guard taken for granted. -/
theorem isPlain_unguarded {t : Transition} (hfree : t.isFree) (honto : ∀ s, t.onto s = s) :
    t.unguarded.isPlain := by
  cases t with
  | call target rule level follow => exact absurd (honto []) (List.cons_ne_nil _ _)
  | symbol | range | set | notSet | wildcard => cases hfree
  | epsilon | ret | action | predicate | precedence => rfl

theorem derived_of_moves {p : Plan} {lazy : Prop} (hg : g.LaidOut p lazy n) {start : Nat}
    (hm : Moves n a b) (h : Derived n top start a.walk) : Derived n top start b.walk := by
  have hways : ∀ {q : Nat} {t : Transition}, t ∈ n.ways q →
      t.unguarded ∈ (n.unguarded.state q).transitions := by
    intro q t ht
    change _ ∈ n.unguarded.ways q
    rw [Network.ways_unguarded]
    exact List.mem_map_of_mem ht
  have hstays : ∀ {q : Nat}, ¬ n.isStop q → ¬ n.unguarded.isStop q := fun hq => by
    rwa [Network.isStop_unguarded]
  obtain ⟨hchained, hreads⟩ := h
  cases hm with
  | @decide w ts d alt =>
    exact ⟨hchained, (matched_noting w (.decision d w.state alt ts.index) nofun).symm ▸ hreads⟩
  | @pass w ts t hq ht hfree honto =>
    have hfollows := hg.chained_along hchained hq ht
    rw [honto] at hfollows
    refine ⟨hfollows, ?_⟩
    have hmove : n.unguarded.Free ⟨w.state, n.returnStates w.running⟩ ⟨_, _⟩ :=
      .pass (hstays hq) (hways ht) (isPlain_unguarded hfree honto)
    rw [Transition.target_unguarded] at hmove
    have hread := hreads.append (.free hmove (.refl _))
    rwa [List.append_nil] at hread
  | @call w ts target rule follow level hq ht =>
    have hfollow := hg.follow_of_call ht
    have hstack := n.returnStates_concat w.running (f := .called rule w.state level) rfl hfollow
    refine ⟨?_, ?_⟩
    · dsimp only
      rw [hstack]
      exact hg.chained_along hchained hq ht
    · have hmove : n.unguarded.Free ⟨w.state, n.returnStates w.running⟩ ⟨_, _⟩ :=
        .call (hstays hq) (hways ht)
      have hread := hreads.append (.free hmove (.refl _))
      rw [List.append_nil] at hread
      dsimp only
      rw [hstack]
      exact (matched_noting w (.enterRule rule ts.index) nofun).symm ▸ hread
  | @eat w ts t hq ht hconsumes =>
    have honto : ∀ s, t.onto s = s := by
      cases t <;> first | exact fun _ => rfl | cases hconsumes
    have hfollows := hg.chained_along hchained hq ht
    rw [honto] at hfollows
    refine ⟨hfollows, ?_⟩
    have hmove : n.unguarded.Eats n.minSymbol n.maxSymbol ts.peek
        ⟨w.state, n.returnStates w.running⟩ ⟨_, _⟩ :=
      .along (hstays hq) (hways ht) (by rw [Transition.consumes_unguarded]; exact hconsumes)
    rw [Transition.target_unguarded] at hmove
    have hmatched : (w.noting (.token ts.peek ts.index)).trace.matched =
        w.trace.matched ++ [ts.peek] := by
      rw [Trace.matched, Walk.events_noting, List.filterMap_append]
      rfl
    change n.unguarded.Reads _ _ _ (w.noting _).trace.matched _
    rw [hmatched]
    exact hreads.append (.eat hmove (.refl _))
  | @leave w ts calls frame caller follow hq hrunning hcaller hfollow =>
    have hstack := n.returnStates_concat calls hcaller hfollow
    rw [hrunning, hstack] at hchained hreads
    refine ⟨hchained.2.2, ?_⟩
    have hmove : n.unguarded.Free ⟨w.state, follow :: n.returnStates calls⟩ ⟨_, _⟩ :=
      .pop (by rw [Network.isStop_unguarded]; exact hq)
    have hread := hreads.append (.free hmove (.refl _))
    rw [List.append_nil] at hread
    exact (matched_noting w (.exitRule frame.rule ts.index) nofun).symm ▸ hread

/-! ## Whole parses -/

/-- What every move keeps holds after any number of moves. -/
theorem keeps_of_moves {P : Stage → Prop} (hstep : ∀ {a b}, Moves n a b → P a → P b)
    (hm : Relation.ReflTransGen (Moves n) a b) (h : P a) : P b := by
  induction hm with
  | refl => exact h
  | tail _ hmove ih => exact hstep hmove ih

/-- Where a walk is over, only the first rule runs. -/
theorem Nests.of_ends {frame : Invocation} (h : Nests top a.walk) (he : Ends n a frame) :
    a.walk.running = [.root top] ∧ frame = .root top := by
  obtain ⟨calls, first, body, hrun, hcalls, -, -⟩ := h
  have hlast := he.innermost
  rw [hrun] at hlast
  rcases List.eq_nil_or_concat calls with rfl | ⟨inner, f, rfl⟩
  · exact ⟨hrun, (Option.some.inj hlast).symm⟩
  · rw [List.concat_eq_append, ← List.cons_append, List.getLast?_concat] at hlast
    have hf := hcalls f (by simp)
    rw [Option.some.inj hlast] at hf
    exact absurd he.uncalled hf

/-- A parse that returns a trace recognised the rule: for all callbacks, settings and automata. -/
theorem recognised_of_parse (hl : g.layout = .ok n) {hooks : ParserHooks σ} {rule : Nat}
    {s s' : Session σ} {t : Trace} (hnet : s.predictor.network = n) (hstream : s.stream.Used)
    (hparse : parse hooks rule s = (.ok t, s')) : Recognised g n rule s.stream s'.stream t := by
  have hlaid : ∃ p, g.LaidOut p True n := Grammar.exists_laidOut hl fun hf => absurd trivial hf
  obtain ⟨p, hg⟩ := hlaid
  have hplaced := hstream.placed
  obtain ⟨hkind, start, w, frame, hstart, hmoves, hends, rfl⟩ := moves_of_parse ⟨hnet, hplaced⟩ hparse
  -- the rule exists, and the walk begins at its start
  have hlt : rule < g.rules.length := by
    have := (Array.getElem?_eq_some_iff.mp hstart).1
    rwa [← Array.length_toList, hg.ruleStarts, List.length_map, List.length_range] at this
  obtain rfl : p.start rule = start :=
    Option.some.inj ((hg.toTables.ruleStart hlt).symm.trans hstart)
  have hnests : Nests rule w := keeps_of_moves (P := fun a => Nests rule a.walk) nests_of_moves hmoves
    ⟨[], _, [], rfl, nofun, rfl, rfl⟩
  have hfollows : Follows s.stream ⟨w, s'.stream⟩ := keeps_of_moves follows_of_moves hmoves
    ⟨hplaced, ⟨rfl, rfl, le_rfl⟩, 0, fun h => absurd h (Nat.lt_irrefl 0), by
      rw [TokenStream.seenBetween_self]
      rfl⟩
  have hdecides : Decides n w := keeps_of_moves (P := fun a => Decides n a.walk) decides_of_moves hmoves
    fun d q alt index hmem => by
      rcases List.mem_cons.mp hmem with he | hmem
      · cases he
      · cases hmem
  have hderived : Derived n rule (p.start rule) w := keeps_of_moves
    (P := fun a => Derived n rule (p.start rule) a.walk) (derived_of_moves hg) hmoves
    ⟨fun r hr => by cases hr; exact hg.inRule_start hlt, .refl _⟩
  obtain ⟨hrunning, rfl⟩ := hnests.of_ends hends
  have htokens := tokens_noting w (.exitRule rule s'.stream.index) nofun
  refine ⟨?_, ?_, hfollows.stream, ?_, _, List.getElem?_eq_getElem hlt, ?_⟩
  · obtain ⟨calls, first, body, hrun, -, hevents, hfold⟩ := hnests
    rw [hrunning] at hrun
    obtain rfl : calls = [] := (List.cons.inj hrun).2.symm
    exact ⟨first, _, body, (Walk.events_noting w _).trans (by rw [hevents]; rfl), hfold⟩
  · obtain ⟨k, hend, hk⟩ := hfollows.tokens
    exact ⟨k, hend, htokens.trans hk⟩
  · intro d q alt index hmem
    rw [Walk.events_noting, List.mem_append, Walk.trace, List.mem_reverse] at hmem
    rcases hmem with hmem | hmem
    · exact hdecides d q alt index hmem
    · cases List.mem_singleton.mp hmem
  · -- without a stack, a stop is that of the rule
    obtain ⟨hchained, hreads⟩ := hderived
    rw [hrunning] at hchained hreads
    obtain ⟨i, hi, hstop⟩ := hg.isStop_iff.mp hends.stop
    have hin : n.InRule rule w.state := hchained rule rfl
    dsimp only at hstop
    rw [hstop] at hin
    obtain rfl : i = rule := (hg.inRule_stop hi).1.symm.trans hin.1
    rw [hstop] at hreads
    rw [matched_noting w (.exitRule (Invocation.root i).rule s'.stream.index) nofun]
    exact hg.derives_unguarded (List.getElem?_eq_getElem hlt) hreads

/-- A rule with a guard and an action around a call of the nesting rule, up to the end. -/
def framedGrammar : Grammar :=
  { kind := .parser, maxSymbol := 2
    rules := [⟨"framed", .seq [.predicate 0 false, .call "nest" 0, .action 0, .endOfInput],
      unclassified, 0, false⟩, nestRule] }

/-- The network of the rule with a guard and an action. -/
def framedNetwork : Network :=
  framedGrammar.layout.toOption.getD { kind := .parser, maxSymbol := 2 }

/-- A session before the tokens `1` and `2`, between which there is one on another channel. -/
def framedSession : Session Unit where
  predictor := .ofNetwork framedNetwork { mode := .sll, patience := 10 }
  stream := .ofTokens [.ofText 1 "(", { Token.ofText 2 " " with channel := 1 }, .ofText 2 ")"]
    defaultChannel
  author := ()

theorem recognised_of_parse_framed : framedGrammar.layout = .ok framedNetwork ∧
    framedSession.predictor.network = framedNetwork ∧ framedSession.stream.Used ∧
      ∃ t s', parse ParserHooks.none 0 framedSession = (.ok t, s') ∧
        t.tokens = [(1, 0), (2, 2), (endOfInput, 3)] ∧
        Recognised framedGrammar framedNetwork 0 framedSession.stream s'.stream t := by
  have hlayout : framedGrammar.layout = .ok framedNetwork := by cbv
  have hused : framedSession.stream.Used := .ofTokens _ _
  obtain ⟨t, s', hparse, htokens⟩ : ∃ t s', parse ParserHooks.none 0 framedSession = (.ok t, s') ∧
      t.tokens = [(1, 0), (2, 2), (endOfInput, 3)] := ⟨_, _, by cbv, by cbv⟩
  exact ⟨hlayout, rfl, hused, t, s', hparse, htokens, recognised_of_parse hlayout rfl hused hparse⟩

end Session
end AdaptiveLL
