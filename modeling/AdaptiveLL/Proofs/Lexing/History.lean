import Mathlib
import AdaptiveLL.Proofs.Grammar.LaidOut
import AdaptiveLL.Proofs.Lexing.Course

/-! # What a match owes to earlier ones

Matches share a cache.  `Cache.Lexed` collects the caches that matches over a network can leave behind,
in any number and order, in any modes, and with cleared caches in between.  Each of them is faithful, so
a match takes the same course whatever was matched before.

One thing may still differ, the distances to which the author's actions are pinned: an edge keeps those
of the match for which it was worked out, though the state that it leaves may be reached at another
distance from the start of the token.  `Scan.next_unplaced_eq_fresh` says that a match owes this to earlier ones
and nothing else.
-/
namespace AdaptiveLL

/-! ## Courses -/

namespace Course
variable {c : Course} {fuel : Nat} {m : Option Mark} {ts us ts' us' : List Thread} {x : Symbol}
  {p q q' : Standpoint} {e e' : RecognitionError}
  {r r' : Except RecognitionError (Option Mark × Symbol)}

/-- Only the settings of the match itself are allowed. -/
def Steady (c : Course) : Prop := ∀ s, c.allowed s → s = c.settings

/-- What a step comes to: threads with what they recognise, or an error. -/
def Steps (c : Course) (p : Standpoint) (x : Symbol) (ts : List Thread) :
    Except RecognitionError (List Thread × Option (Int × Option (List Command))) → Prop
  | .error e => c.Fails p x ts e
  | .ok (ts', o) => c.Moves p x ts ts' ∧ Thread.recognised? c.network ts' = .ok o

/-- Threads with the same outline, and tokens that are the same but for distances. -/
def SameStep (a b : List Thread × Option (Int × Option (List Command))) : Prop :=
  Thread.outline a.1 = Thread.outline b.1 ∧ Thread.unplacedToken a.2 = Thread.unplacedToken b.2

/-- The threads that were gathered, with what they recognise. -/
def recognising (n : Network) (a : Except RecognitionError Thread.Sweep) :
    Except RecognitionError (List Thread × Option (Int × Option (List Command))) := do
  let sweep ← a
  let o ← Thread.recognised? n sweep.threads
  pure (sweep.threads, o)

section
variable {n : Network} {a b : Except RecognitionError Thread.Sweep} {sweep : Thread.Sweep}
  {o : Option (Int × Option (List Command))}

theorem recognising_error
    (h : a = .error e ∨ ∃ sweep, a = .ok sweep ∧ Thread.recognised? n sweep.threads = .error e) :
    recognising n a = .error e := by
  rcases h with rfl | ⟨sweep, rfl, h⟩
  · rfl
  · change (Thread.recognised? n sweep.threads >>= _) = _
    rw [h]
    rfl

/-- Threads that look like those that were gathered recognise the same. -/
theorem recognising_ok (ha : a = .ok sweep) (heq : Thread.outline ts = Thread.outline sweep.threads)
    (ho : Thread.recognised? n ts = .ok o) : Alongside SameStep (.ok (ts, o)) (recognising n a) := by
  obtain ⟨o', ho', htoken⟩ := (Thread.recognised?_alongside heq).exists_ok ho
  subst ha
  change Alongside SameStep _ (Thread.recognised? n sweep.threads >>= _)
  rw [ho']
  exact .ok ⟨heq, htoken⟩

theorem recognising_alike (h : Alongside Thread.Sweep.Alike a b) :
    Alongside SameStep (recognising n a) (recognising n b) :=
  h.bind fun _ _ hlike => (Thread.recognised?_alongside hlike.outline).bind fun _ _ htoken =>
    .ok ⟨hlike.outline, htoken⟩

end

/-- A step depends on the outline of the threads. -/
theorem Steps.unique (hc : c.Steady) (hts : Thread.Sorted ts) (hus : Thread.Sorted us)
    (h : Thread.outline ts = Thread.outline us)
    {a b : Except RecognitionError (List Thread × Option (Int × Option (List Command)))}
    (ha : c.Steps p x ts a) (hb : c.Steps p x us b) : Alongside SameStep a b := by
  -- A step comes to what is worked out under the settings of the match.
  have hwork : ∀ {vs : List Thread}
      {a : Except RecognitionError (List Thread × Option (Int × Option (List Command)))}, c.Steps p x vs a →
      Alongside SameStep a (recognising c.network (Thread.reach (c.view c.settings p x) 0 x vs)) := by
    intro vs a h
    cases a with
    | error e =>
      rw [recognising_error h]
      exact .error e
    | ok a =>
      obtain ⟨⟨-, settings, hall, sweep, hrun, heq⟩, ho⟩ := h
      obtain rfl := hc settings hall
      exact recognising_ok hrun heq ho
  have hreach := recognising_alike (n := c.network)
    (Thread.reach_outline (c.view c.settings p x) 0 0 x hts hus h)
  refine (((hwork ha).trans hreach).trans (hwork hb).symm).imp ?_
  rintro a b ⟨v, ⟨u, hau, huv⟩, hbv⟩
  exact ⟨(hau.1.trans huv.1).trans hbv.1.symm, (hau.2.trans huv.2).trans hbv.2.symm⟩

theorem mark_congr {o o' : Option (Int × Option (List Command))}
    (h : Thread.unplacedToken o = Thread.unplacedToken o') (p : Standpoint) : p.mark o = p.mark o' := by
  rw [Standpoint.mark, Standpoint.mark, h]

theorem isSome_congr {o o' : Option (Int × Option (List Command))}
    (h : Thread.unplacedToken o = Thread.unplacedToken o') : o = none ↔ o' = none := by
  cases o <;> cases o' <;> simp_all [Thread.unplacedToken]

/-- What a course can do next. -/
inductive Goes (c : Course) (fuel : Nat) (m : Option Mark) (ts : List Thread) (x : Symbol)
    (p : Standpoint) (r : Except RecognitionError (Option Mark × Symbol)) (q : Standpoint) : Prop
  | fails {e : RecognitionError} : c.Steps p x ts (.error e) → r = .error e → q = p →
    Goes c fuel m ts x p r q
  | moves {ts' : List Thread} {o : Option (Int × Option (List Command))} :
    c.Steps p x ts (.ok (ts', o)) → Thread.Sorted ts' →
    (ts' = [] → r = .ok (m, x) ∧ q = p) →
    (ts' ≠ [] → x = endOfInput → o ≠ none → r = .ok (p.mark o, endOfInput) ∧ q = p) →
    (ts' ≠ [] → (x = endOfInput → o = none) →
      c.Munches fuel ((p.after x).mark o <|> m) ts' (p.after x).stream.peek (p.after x) r q) →
    Goes c fuel m ts x p r q

theorem Munches.goes (h : c.Munches (fuel + 1) m ts x p r q) : Goes c fuel m ts x p r q := by
  cases h with
  | fails hf => exact .fails hf rfl rfl
  | stuck hm =>
    exact .moves ⟨hm, rfl⟩ .nil (fun _ => ⟨rfl, rfl⟩) (fun h => absurd rfl h)
      fun h => absurd rfl h
  | ends hm hne ho =>
    refine .moves ⟨hm, ho⟩ hm.1 (fun h => absurd h hne) (fun _ _ _ => ⟨rfl, rfl⟩) fun _ hx => ?_
    cases hx rfl
  | on hm hne ho hx hq hrest =>
    subst hq
    exact .moves ⟨hm, ho⟩ hm.1 (fun h => absurd h hne) (fun _ hx' ho' => absurd (hx hx') ho')
      fun _ _ => hrest

/-- A course depends on the outline of the threads from which it begins. -/
theorem Munches.unique (hc : c.Steady) (hts : Thread.Sorted ts) (hus : Thread.Sorted us)
    (heq : Thread.outline ts = Thread.outline us) (h : c.Munches fuel m ts x p r q)
    (h' : c.Munches fuel m us x p r' q') : r = r' ∧ q = q' := by
  induction fuel generalizing m ts us x p with
  | zero =>
    cases h
    cases h'
    exact ⟨rfl, rfl⟩
  | succ fuel ih =>
    -- The outline determines the step, so both courses fail, or stop, or go on together.
    cases h.goes with
    | fails hs hr hq =>
      cases h'.goes with
      | fails hs' hr' hq' =>
        cases Steps.unique hc hts hus heq hs hs'
        exact ⟨hr.trans hr'.symm, hq.trans hq'.symm⟩
      | moves hs' => cases Steps.unique hc hts hus heq hs hs'
    | @moves ts' o hs hsorted hstuck hends hon =>
      cases h'.goes with
      | fails hs' => cases Steps.unique hc hts hus heq hs hs'
      | @moves us' o' hs' hsorted' hstuck' hends' hon' =>
        cases Steps.unique hc hts hus heq hs hs' with
        | ok hsame =>
          have hout : Thread.outline ts' = Thread.outline us' := hsame.1
          have htoken : Thread.unplacedToken o = Thread.unplacedToken o' := hsame.2
          have hnil : ts' = [] ↔ us' = [] := by
            rw [← Thread.outline_eq_nil_iff, hout, Thread.outline_eq_nil_iff]
          by_cases hts' : ts' = []
          · obtain ⟨hr, hq⟩ := hstuck hts'
            obtain ⟨hr', hq'⟩ := hstuck' (hnil.mp hts')
            exact ⟨hr.trans hr'.symm, hq.trans hq'.symm⟩
          · have hus' : us' ≠ [] := fun h => hts' (hnil.mpr h)
            by_cases hend : x = endOfInput ∧ o ≠ none
            · obtain ⟨hr, hq⟩ := hends hts' hend.1 hend.2
              obtain ⟨hr', hq'⟩ := hends' hus' hend.1 fun h => hend.2 ((isSome_congr htoken).mpr h)
              rw [← mark_congr htoken] at hr'
              exact ⟨hr.trans hr'.symm, hq.trans hq'.symm⟩
            · have hx : x = endOfInput → o = none := fun hx =>
                not_not.mp fun ho => hend ⟨hx, ho⟩
              have hrest := hon hts' hx
              have hrest' := hon' hus' fun h => (isSome_congr htoken).mp (hx h)
              rw [← mark_congr htoken] at hrest'
              exact ih hsorted hsorted' hout hrest hrest'

/-- A match takes one course. -/
theorem Takes.unique (hc : c.Steady) {mode start : Nat} {a b : Outcome}
    (h : c.Takes mode start p a q) (h' : c.Takes mode start p b q') : a = b ∧ q = q' := by
  cases h with
  | @failsToStart e hf =>
    have hfails := recognising_error hf
    cases h' with
    | failsToStart hf' =>
      obtain rfl := Except.error.inj (hfails.symm.trans (recognising_error hf'))
      exact ⟨rfl, rfl⟩
    | runs hall hrun _ hout ho _ =>
      obtain rfl := hc _ hall
      have hruns := recognising_ok hrun hout ho
      rw [hfails] at hruns
      cases hruns
  | runs hall hrun hsorted hout ho hm =>
    obtain rfl := hc _ hall
    have hruns := recognising_ok hrun hout ho
    cases h' with
    | failsToStart hf' =>
      rw [recognising_error hf'] at hruns
      cases hruns
    | runs hall' hrun' hsorted' hout' ho' hm' =>
      obtain rfl := hc _ hall'
      obtain rfl := Except.ok.inj (hrun.symm.trans hrun')
      have hsame := hout.trans hout'.symm
      have htoken := Thread.recognised?_alongside (n := c.network) hsame
      rw [ho, ho'] at htoken
      cases htoken with
      | ok htoken =>
        rw [mark_congr htoken] at hm
        obtain ⟨rfl, rfl⟩ := Munches.unique hc hsorted hsorted' hsame hm hm'
        exact ⟨rfl, rfl⟩

end Course

/-! ## Histories -/

/-- The caches that matches over a network leave behind, made one after another under allowed settings,
starting without anything.  Each match may be in any mode and have its own text and author, whose
predicates do not depend on the author's state. -/
inductive Cache.Lexed (n : Network) (allowed : Settings → Prop) : Cache → Prop
  /-- Nothing was matched yet. -/
  | fresh : Lexed n allowed (Cache.ofNetwork n)
  /-- After a match, whatever it came to. -/
  | next {σ : Type} {s : Scan σ} (hooks : LexerHooks σ) (answers : Nat → Nat → Cursor → Bool)
      (mode : Nat) : hooks.Answers answers → s.matcher.network = n → allowed s.matcher.settings →
      Lexed n allowed s.matcher.cache →
      Lexed n allowed (Scan.next hooks mode s).2.matcher.cache
  /-- After a mode's automaton was cleared, or all of them. -/
  | clear {c : Cache} (decision : Option Nat) : Lexed n allowed c → Lexed n allowed (c.clear decision)

namespace Scan
variable {σ : Type} {n : Network} {allowed : Settings → Prop} {s : Scan σ}

/-- Matches keep the cache faithful. -/
theorem next_sane {hooks : LexerHooks σ} {answers : Nat → Nat → Cursor → Bool}
    (ha : hooks.Answers answers) (hapart : n.ModesApart) (h : s.Sane n allowed) (mode : Nat) :
    (next hooks mode s).2.Sane n allowed := by
  rcases next_takes ha hapart h mode with ⟨e, -, hrun⟩ | ⟨d, start, -, -, hends⟩
  · rw [hrun]
    exact h
  · exact hends.sane

end Scan

/-- A cache stays faithful over any history of matches. -/
theorem Cache.Lexed.faithful {n : Network} {allowed : Settings → Prop} (hapart : n.ModesApart)
    {c : Cache} (h : c.Lexed n allowed) :
    c.Keeps n fun _ g a => a.FaithfulLexer n allowed g := by
  induction h with
  | fresh => exact keeps_ofNetwork n fun _ _ a => Automaton.Filled.clear a
  | next hooks answers mode ha hn hall _ ih =>
    exact (Scan.next_sane ha hapart ⟨hn, hall, ih⟩ mode).cache
  | clear decision _ ih => exact ih.clear (fun _ _ a => Automaton.Filled.clear a) decision

/-- The modes of a grammar's network keep their automata apart. -/
theorem Network.modesApart_of_layout {g : Grammar} {n : Network} (h : g.layout = .ok n) :
    n.ModesApart := by
  have hlaid : ∃ p, g.LaidOut p True n := Grammar.exists_laidOut h fun hf => absurd trivial hf
  obtain ⟨p, hl⟩ := hlaid
  intro mode start s d hmode hs hd
  rw [← Array.getElem?_toList, hl.toTables.modeStarts] at hmode
  obtain ⟨hlt, rfl⟩ : mode < p.modes ∧ mode = start := by
    obtain ⟨hlt, he⟩ := List.getElem?_eq_some_iff.mp hmode
    rw [List.length_range] at hlt
    exact ⟨hlt, by rw [← he, List.getElem_range]⟩
  obtain ⟨u, hu, -, -, -, hdecision⟩ := hl.mode mode hlt
  obtain rfl : u = s := by
    rw [Network.state?, hu] at hs
    exact Except.ok.inj hs
  obtain rfl := Option.some.inj (hdecision.symm.trans hd)
  obtain ⟨rest, hrest⟩ := hl.decisions
  rw [← Array.getElem?_toList, ← hrest, List.getElem?_append_left (by rwa [List.length_range])]
  exact hmode

namespace Scan
variable {σ : Type}

/-- **Matches depend on earlier ones by the distances to which actions are pinned, and in no other
way.**  A lexer whose cache was filled by any history of matches, under its own settings, makes of any
text at any place what a new lexer makes of it: the same token with the same commands, but for distances,
or the same error, and it leads to the same place. -/
theorem next_unplaced_eq_fresh (m : Matcher) (hapart : m.network.ModesApart)
    (hm : m.cache.Lexed m.network (· = m.settings)) (stream : CharStream) (author author' : σ)
    (hooks : LexerHooks σ) (answers : Nat → Nat → Cursor → Bool) (ha : hooks.Answers answers)
    (mode : Nat) :
    let warm := next hooks mode ⟨m, stream, author⟩
    let cold := next hooks mode
      ⟨(Matcher.ofNetwork m.network m.settings).setPosition m.position, stream, author'⟩
    warm.1.map TokenMatch.unplaced = cold.1.map TokenMatch.unplaced ∧
      warm.2.standpoint = cold.2.standpoint := by
  intro warm cold
  have hwarm : Scan.Sane m.network (· = m.settings) (⟨m, stream, author⟩ : Scan σ) :=
    ⟨rfl, rfl, hm.faithful hapart⟩
  have hcold : Scan.Sane m.network (· = m.settings)
      (⟨(Matcher.ofNetwork m.network m.settings).setPosition m.position, stream, author'⟩ : Scan σ) :=
    ⟨rfl, rfl, Cache.Lexed.fresh.faithful hapart⟩
  have hdecision : ((Matcher.ofNetwork m.network m.settings).setPosition m.position).modeDecision mode =
      m.modeDecision mode := rfl
  rcases next_takes ha hapart hwarm mode with ⟨e, he, hrun⟩ | ⟨d, start, hd, hmode, hends⟩
  · rcases next_takes ha hapart hcold mode with ⟨e', he', hrun'⟩ | ⟨d', start', hd', -, -⟩
    · obtain rfl := Except.error.inj (he.symm.trans he')
      have hw : warm = (.error e, _) := hrun
      have hc : cold = (.error e, _) := hrun'
      rw [hw, hc]
      exact ⟨rfl, rfl⟩
    · rw [hdecision, he] at hd'
      cases hd'
  · rcases next_takes ha hapart hcold mode with ⟨e', he', -⟩ | ⟨d', start', -, hmode', hends'⟩
    · rw [hdecision, hd] at he'
      cases he'
    · obtain rfl := Option.some.inj (hmode.symm.trans hmode')
      exact Course.Takes.unique (fun _ h => h) hends.takes hends'.takes

end Scan

/-- A token rule with an action between a repetition and its last character. -/
def loopRule : Rule :=
  ⟨"T", .seq [.star (.char 'a') true, .action 0, .char 'b'], 1, 0, false⟩

/-- The lexer's grammar of this rule. -/
def loopGrammar : Grammar := { Grammar.lexer with rules := [loopRule] }

/-- Its network. -/
def loopNetwork : Network := loopGrammar.layout.toOption.getD { kind := .lexer, maxSymbol := 0 }

namespace Scan

/-- The scan of a text whose first token is matched. -/
def loopScan : Scan Unit :=
  (next .none 0 ⟨.ofNetwork loopNetwork {}, .ofText "abaab", ()⟩).2

theorem next_unplaced_eq_fresh_loop :
    let m := loopScan.matcher
    loopGrammar.layout = .ok loopNetwork ∧ m.network.ModesApart ∧
      m.cache.Lexed m.network (· = m.settings) ∧
      let warm := next .none 0 loopScan
      let cold := next .none 0
        ⟨(Matcher.ofNetwork m.network m.settings).setPosition m.position, loopScan.stream, ()⟩
      warm.1.map TokenMatch.unplaced = cold.1.map TokenMatch.unplaced ∧
        warm.2.standpoint = cold.2.standpoint := by
  obtain ⟨hlayout, hnetwork, hsettings⟩ : loopGrammar.layout = .ok loopNetwork ∧
      loopScan.matcher.network = loopNetwork ∧
      (Matcher.ofNetwork loopNetwork {}).settings = loopScan.matcher.settings := by
    cbv
  have hapart : loopScan.matcher.network.ModesApart := by
    rw [hnetwork]
    exact Network.modesApart_of_layout hlayout
  have hlexed : loopScan.matcher.cache.Lexed loopScan.matcher.network
      (· = loopScan.matcher.settings) := by
    rw [hnetwork]
    exact .next LexerHooks.none (fun _ _ _ => true) 0 (fun _ _ _ _ => rfl) rfl hsettings .fresh
  exact ⟨hlayout, hapart, hlexed, next_unplaced_eq_fresh loopScan.matcher hapart hlexed loopScan.stream ()
    () .none (fun _ _ _ => true) (fun _ _ _ _ => rfl) 0⟩

/-- The second token has its action two characters from its start, but an edge that was stored for the
first token says that it is one. -/
example :
    (next .none 0 loopScan).1 = .ok ⟨1, some [.pinned 1 (.custom 0 0)]⟩ ∧
      (next .none 0 { loopScan with matcher := { loopScan.matcher with
        cache := .ofNetwork loopNetwork } }).1 = .ok ⟨1, some [.pinned 2 (.custom 0 0)]⟩ := by
  cbv

end Scan
end AdaptiveLL
