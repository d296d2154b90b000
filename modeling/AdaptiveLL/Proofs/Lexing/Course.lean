import Mathlib
import AdaptiveLL.Proofs.Lexing.Faithful

/-! # The course of a match

A match goes from threads to threads, one character after another, and remembers the last place at
which they recognised a token.  `Course.Munches` and `Course.Takes` say this without a cache, so that a
match depends on the network, the settings, the answers to predicates and the text.

A match with a cache takes such a course (`Scan.next_takes`), whatever was matched before, and keeps the
cache faithful.  Commands are compared without the distances to which they are pinned.
-/
namespace AdaptiveLL
open StackGraph (Extends)

/-- Where a match stands. -/
structure Standpoint where
  /-- The characters and the place among them. -/
  stream : CharStream
  /-- The position of the next character. -/
  position : Position

/-- Behind the next character. -/
def Standpoint.past (p : Standpoint) : Standpoint := ⟨p.stream.consume, p.position.past p.stream.peek⟩

/-- Behind the next symbol: the end of the input is not passed. -/
def Standpoint.after (p : Standpoint) (x : Symbol) : Standpoint :=
  if x = endOfInput then p else p.past

/-- A place at which a token was recognised, with the token. -/
structure Mark where
  /-- The index of the next character. -/
  index : Nat
  /-- The position of the next character. -/
  position : Position
  /-- The type of the token. -/
  type : Int
  /-- Its commands, distances aside. -/
  commands : Option (List Command)

/-- The mark for a token that is recognised at a spot. -/
def Standpoint.mark (p : Standpoint) (o : Option (Int × Option (List Command))) : Option Mark :=
  (Thread.unplacedToken o).map fun v => ⟨p.stream.index, p.position, v.1, v.2⟩

/-- What a match depends on besides the text. -/
structure Course where
  /-- The network. -/
  network : Network
  /-- The settings. -/
  settings : Settings
  /-- The settings of the matches that came before. -/
  allowed : Settings → Prop
  /-- The answers to predicates. -/
  answers : Nat → Nat → Cursor → Bool
  /-- Where the token begins. -/
  tokenStart : Nat

namespace Course
variable (c : Course)

/-- What closures see at a spot. -/
def sight (settings : Settings) (p : Standpoint) (endIsFree : Bool) : Outlook Unit :=
  .told c.network settings
    (fun rule index => c.answers rule index ⟨p.stream.index, p.position, c.tokenStart⟩) endIsFree

/-- What closures see while a character is consumed: predicates are decided behind it. -/
def view (settings : Settings) (p : Standpoint) (x : Symbol) : Outlook Unit :=
  c.sight settings p.past (x = endOfInput)

/-- Consuming `x` leads from threads to threads. -/
def Moves (p : Standpoint) (x : Symbol) (ts ts' : List Thread) : Prop :=
  Thread.Sorted ts' ∧ ∃ settings, c.allowed settings ∧
    ∃ sweep, Thread.reach (c.view settings p x) 0 x ts = .ok sweep ∧
      Thread.outline ts' = Thread.outline sweep.threads

/-- Consuming `x` fails. -/
def Fails (p : Standpoint) (x : Symbol) (ts : List Thread) (e : RecognitionError) : Prop :=
  Thread.reach (c.view c.settings p x) 0 x ts = .error e ∨
    ∃ sweep, Thread.reach (c.view c.settings p x) 0 x ts = .ok sweep ∧
      Thread.recognised? c.network sweep.threads = .error e

/-- The course of a match from threads at a spot, where `x` is next and `last` is the last mark: to the
last mark and the symbol at which no thread was left, or to an error; and to a spot. -/
inductive Munches : Nat → Option Mark → List Thread → Symbol → Standpoint →
    Except RecognitionError (Option Mark × Symbol) → Standpoint → Prop
  | outOfFuel {last : Option Mark} {ts : List Thread} {x : Symbol} {p : Standpoint} :
    Munches 0 last ts x p (.error .outOfFuel) p
  | fails {fuel : Nat} {last : Option Mark} {ts : List Thread} {x : Symbol} {p : Standpoint}
    {e : RecognitionError} : c.Fails p x ts e → Munches (fuel + 1) last ts x p (.error e) p
  | stuck {fuel : Nat} {last : Option Mark} {ts : List Thread} {x : Symbol} {p : Standpoint} :
    c.Moves p x ts [] → Munches (fuel + 1) last ts x p (.ok (last, x)) p
  | ends {fuel : Nat} {last : Option Mark} {ts ts' : List Thread} {p : Standpoint}
    {v : Int × Option (List Command)} : c.Moves p endOfInput ts ts' → ts' ≠ [] →
      Thread.recognised? c.network ts' = .ok (some v) →
      Munches (fuel + 1) last ts endOfInput p (.ok (p.mark (some v), endOfInput)) p
  | on {fuel : Nat} {last : Option Mark} {ts ts' : List Thread} {x : Symbol} {p q : Standpoint}
    {o : Option (Int × Option (List Command))} {r : Except RecognitionError (Option Mark × Symbol)}
    {q' : Standpoint} : c.Moves p x ts ts' → ts' ≠ [] → Thread.recognised? c.network ts' = .ok o →
      (x = endOfInput → o = none) → q = p.after x →
      Munches fuel (q.mark o <|> last) ts' q.stream.peek q r q' →
      Munches (fuel + 1) last ts x p r q'

/-- What a match comes to: the type of a token and its commands, distances aside, or an error; and where
it leads. -/
abbrev Outcome := Except RecognitionError (Int × Option (List Command))

/-- What a match in a mode comes to that began at `p` and got to `q`: the token of the last mark; without
a mark the end of the input, if nothing was read and nothing is left, or else an error. -/
def outcome (mode : Nat) (p q : Standpoint) :
    Except RecognitionError (Option Mark × Symbol) → Outcome
  | .error e => .error e
  | .ok (some m, _) => .ok (m.type, m.commands)
  | .ok (none, x) =>
    if x = endOfInput && q.stream.index = p.stream.index then .ok (endOfInput, none)
    else .error (.lexerNoViableAlt mode p.stream.index q.stream.index p.position.line
      p.position.column)

/-- Where a match that got to `q` leads: back to the last mark, if there is one. -/
def landing (q : Standpoint) : Except RecognitionError (Option Mark × Symbol) → Standpoint
  | .ok (some m, _) => ⟨q.stream.seek m.index, m.position⟩
  | _ => q

/-- The course of a match in a mode. -/
inductive Takes (mode start : Nat) (p : Standpoint) : Outcome → Standpoint → Prop
  | failsToStart {e : RecognitionError} :
    (Thread.starts (c.sight c.settings p false) start = .error e ∨
      ∃ sweep, Thread.starts (c.sight c.settings p false) start = .ok sweep ∧
        Thread.recognised? c.network sweep.threads = .error e) →
    Takes mode start p (.error e) p
  | runs {settings : Settings} {sweep : Thread.Sweep} {ts : List Thread}
    {o : Option (Int × Option (List Command))}
    {r : Except RecognitionError (Option Mark × Symbol)} {q : Standpoint} : c.allowed settings →
    Thread.starts (c.sight settings p false) start = .ok sweep → Thread.Sorted ts →
    Thread.outline ts = Thread.outline sweep.threads → Thread.recognised? c.network ts = .ok o →
    c.Munches (c.settings.fuel p.stream.size) (p.mark o) ts p.stream.peek p r q →
    Takes mode start p (outcome mode p q r) (landing q r)

end Course

/-! ## Matches with a cache -/

namespace Scan
variable {σ : Type} {n : Network} {allowed : Settings → Prop} {d : Nat} {s s' s'' : Scan σ}

/-- Where a scan stands. -/
def standpoint (s : Scan σ) : Standpoint := ⟨s.stream, s.matcher.position⟩

/-- What a match of a scan depends on besides the text. -/
def course (allowed : Settings → Prop) (answers : Nat → Nat → Cursor → Bool) (s : Scan σ) : Course where
  network := s.matcher.network
  settings := s.matcher.settings
  allowed
  answers
  tokenStart := s.matcher.tokenStart

/-- How a scan changes in the course of a match. -/
structure Goes (n : Network) (allowed : Settings → Prop) (d : Nat) (s s' : Scan σ) : Prop where
  sane : s'.Sane n allowed
  settings : s'.matcher.settings = s.matcher.settings
  tokenStart : s'.matcher.tokenStart = s.matcher.tokenStart
  automaton : Automaton.Extends (s.matcher.cache.automaton d) (s'.matcher.cache.automaton d)

theorem Stays.goes (h : Stays n allowed d s s') : Goes n allowed d s s' :=
  ⟨h.sane, h.settings, h.tokenStart, h.automaton⟩

theorem Stays.standpoint_eq (h : Stays n allowed d s s') : s'.standpoint = s.standpoint := by
  rw [standpoint, h.stream, h.position, standpoint]

theorem Goes.refl (h : s.Sane n allowed) : Goes n allowed d s s :=
  ⟨h, rfl, rfl, Automaton.Extends.refl _⟩

theorem Goes.trans (h : Goes n allowed d s s') (h' : Goes n allowed d s' s'') :
    Goes n allowed d s s'' :=
  ⟨h'.sane, h'.settings.trans h.settings, h'.tokenStart.trans h.tokenStart,
    h.automaton.trans h'.automaton⟩

/-- A scan that goes on takes its course under the same conditions. -/
theorem Goes.course (h : s.Sane n allowed) (hg : Goes n allowed d s s')
    (answers : Nat → Nat → Cursor → Bool) : s'.course allowed answers = s.course allowed answers := by
  unfold Scan.course
  rw [hg.sane.network, h.network, hg.settings, hg.tokenStart]

/-- A checkpoint is where a mark is, and its state recognises the token of the mark. -/
structure Marks (a : Automaton) (place : Checkpoint) (m : Mark) : Prop where
  index : place.index = m.index
  position : place.position = m.position
  token : ∃ e, Automaton.Names a place.target (some e) ∧ e.tokenType = m.type ∧
    e.commands.map (List.map Command.unplaced) = m.commands

theorem Marks.mono {a b : Automaton} (h : Automaton.Extends a b) {place : Checkpoint} {m : Mark}
    (hm : Marks a place m) : Marks b place m := by
  obtain ⟨e, hn, he⟩ := hm.token
  exact { hm with token := ⟨e, hn.mono h, he⟩ }

theorem marks_mono {a b : Automaton} (h : Automaton.Extends a b) {place : Option Checkpoint}
    {m : Option Mark} (hm : Option.Rel (Marks a) place m) : Option.Rel (Marks b) place m := by
  cases hm with
  | none => exact .none
  | some hm => exact .some (hm.mono h)

theorem marks_orElse {a : Automaton} {here last : Option Checkpoint} {m m' : Option Mark}
    (h : Option.Rel (Marks a) here m) (h' : Option.Rel (Marks a) last m') :
    Option.Rel (Marks a) (here <|> last) (m <|> m') := by
  cases h with
  | none => exact h'
  | some h => exact .some h

/-- The place reached is a checkpoint exactly if a token is recognised there. -/
theorem checkpoint_ends {t : Target} {e : AutomatonState} {ts : List Thread} {g : StackGraph}
    (ht : Automaton.Names (s.matcher.cache.automaton d) t (some e)) (he : e.Holds n g ts)
    {o : Option (Int × Option (List Command))} (ho : Thread.recognised? n ts = .ok o) :
    ∃ place, checkpoint? d t s = (.ok place, s) ∧
      Option.Rel (Marks (s.matcher.cache.automaton d)) place (s.standpoint.mark o) ∧
      place.isSome = o.isSome := by
  obtain ⟨o', ho', haccept, htoken⟩ := he.token
  obtain rfl := Except.ok.inj (ho'.symm.trans ho)
  obtain ⟨u, hu, rfl⟩ := automatonState_ends ht
  refine ⟨if u.isAccept then some ⟨s.stream.index, s.matcher.position, t⟩ else none, ?_, ?_⟩
  · unfold checkpoint?
    rw [Run.bind_apply, hu]
    rfl
  · have haccept' : u.isAccept = o'.isSome := haccept
    rw [haccept']
    cases o' with
    | none => exact ⟨.none, rfl⟩
    | some v =>
      obtain ⟨htype, hcommands⟩ := htoken v rfl
      refine ⟨.some ⟨rfl, rfl, u.bare, ht, htype, ?_⟩, rfl⟩
      exact congrArg (Option.map (List.map Command.unplaced)) hcommands

/-- How running the automaton ends: as a course of the match does. -/
def MunchEnds (n : Network) (allowed : Settings → Prop) (d : Nat)
    (answers : Nat → Nat → Cursor → Bool) (fuel : Nat) (m : Option Mark) (s : Scan σ)
    (ts : List Thread) (x : Symbol) (r : Ending (Scan σ) (Option Checkpoint × Symbol)) : Prop :=
  Goes n allowed d s r.2 ∧
    match r.1 with
    | .error e => (s.course allowed answers).Munches fuel m ts x s.standpoint (.error e) r.2.standpoint
    | .ok (place, y) => ∃ m', Option.Rel (Marks (r.2.matcher.cache.automaton d)) place m' ∧
      (s.course allowed answers).Munches fuel m ts x s.standpoint (.ok (m', y)) r.2.standpoint

/-- A scan behind the next character. -/
theorem Goes.consume (h : s.Sane n allowed) : Goes n allowed d s s.consume :=
  ⟨⟨h.network, h.settings, h.cache⟩, rfl, rfl, Automaton.Extends.refl _⟩

theorem outline_of_leads_none {g : StackGraph} {ts : List Thread}
    (h : AutomatonState.Leads n g none ts) : ts = [] := by
  cases h
  rfl

/-- Changing the state on a condition before going on. -/
theorem modifyIf_apply {τ α : Type} (b : Prop) [Decidable b] (f : τ → τ) (k : Run τ α) (s : τ) :
    (do
      if b then modify f
      k : Run τ α) s = k (if b then f s else s) := by
  by_cases hb : b
  · simp only [hb, if_true]
    rfl
  · simp only [hb, if_false]

/-- A scan without a change of where it stands takes the course of the scan before it. -/
theorem MunchEnds.of_stays {answers : Nat → Nat → Cursor → Bool} {fuel : Nat} {m : Option Mark} {ts : List Thread}
    {x : Symbol} {r : Ending (Scan σ) (Option Checkpoint × Symbol)} (h : s.Sane n allowed)
    (hstays : Stays n allowed d s s') (hends : MunchEnds n allowed d answers fuel m s' ts x r) :
    MunchEnds n allowed d answers fuel m s ts x r := by
  obtain ⟨hgoes, hends⟩ := hends
  rw [hstays.goes.course h answers, hstays.standpoint_eq] at hends
  exact ⟨hstays.goes.trans hgoes, hends⟩

/-- Past a symbol that leads to a state, the match ends with the end of the input, or goes on from that state. -/
def onward (hooks : LexerHooks σ) (d fuel : Nat) (last : Option Checkpoint) (t : Target) (x : Symbol) :
    Run (Scan σ) (Option Checkpoint × Symbol) := do
  if x ≠ endOfInput then modify consume
  let here ← checkpoint? d t
  if x = endOfInput && here.isSome then pure (here, x)
  else munch hooks d fuel (here <|> last) t (← get).stream.peek

/-- Going on takes the course of the match, if the rest of the match does. -/
theorem onward_ends {hooks : LexerHooks σ} {answers : Nat → Nat → Cursor → Bool} {fuel i : Nat} {u : AutomatonState}
    {ts ts' : List Thread}
    (hrest : ∀ {s : Scan σ} {last : Option Checkpoint} {m : Option Mark}, s.Sane n allowed →
      Option.Rel (Marks (s.matcher.cache.automaton d)) last m →
      Automaton.Names (s.matcher.cache.automaton d) (.state i) (some u) → u.Holds n s.matcher.cache.graph ts' →
      MunchEnds n allowed d answers fuel m s ts' s.stream.peek
        (munch hooks d fuel last (.state i) s.stream.peek s))
    (h : s.Sane n allowed) {last : Option Checkpoint} {m : Option Mark}
    (hlast : Option.Rel (Marks (s.matcher.cache.automaton d)) last m)
    (hn : Automaton.Names (s.matcher.cache.automaton d) (.state i) (some u))
    (hu : u.Holds n s.matcher.cache.graph ts') {x : Symbol}
    (hmoves : (s.course allowed answers).Moves s.standpoint x ts ts') (hne : ts' ≠ []) :
    MunchEnds n allowed d answers (fuel + 1) m s ts x (onward hooks d fuel last (.state i) x s) := by
  obtain ⟨token, htoken, -⟩ := hu.token
  have hnet : (s.course allowed answers).network = n := h.network
  refine (congrArg (MunchEnds n allowed d answers (fuel + 1) m s ts x)
    (modifyIf_apply (x ≠ endOfInput) consume _ s)).mpr ?_
  -- The scan behind the character, if there is one.
  obtain ⟨s₁, hs₁, hgoes, hcache, hspot⟩ : ∃ s₁ : Scan σ,
      (if x ≠ endOfInput then s.consume else s) = s₁ ∧ Goes n allowed d s s₁ ∧
        s₁.matcher.cache = s.matcher.cache ∧ s₁.standpoint = s.standpoint.after x := by
    refine ⟨_, rfl, ?_⟩
    unfold Standpoint.after
    by_cases hx : x = endOfInput
    · rw [if_neg (not_not.mpr hx), if_pos hx]
      exact ⟨.refl h, rfl, rfl⟩
    · rw [if_pos hx, if_neg hx]
      exact ⟨.consume h, rfl, rfl⟩
  rw [hs₁]
  have hn₁ : Automaton.Names (s₁.matcher.cache.automaton d) (.state i) (some u) := hcache ▸ hn
  have hu₁ : u.Holds n s₁.matcher.cache.graph ts' := hcache ▸ hu
  have hlast₁ := marks_mono hgoes.automaton hlast
  obtain ⟨here, hhere, hmark, hsome⟩ := checkpoint_ends hn₁ hu₁ htoken
  rw [Run.bind_apply, hhere]
  by_cases hend : x = endOfInput ∧ here.isSome
  · obtain ⟨rfl, hhere'⟩ := hend
    simp only [hhere', decide_true, Bool.and_self, if_true]
    rw [hsome, Option.isSome_iff_exists] at hhere'
    obtain ⟨v, rfl⟩ := hhere'
    refine ⟨hgoes, _, hmark, ?_⟩
    rw [Standpoint.after, if_pos rfl] at hspot
    change Course.Munches _ _ _ _ _ _ _ s₁.standpoint
    rw [hspot]
    exact .ends hmoves hne (hnet ▸ htoken)
  · have hcond : (decide (x = endOfInput) && here.isSome) = false := by
      rw [← Bool.not_eq_true, Bool.and_eq_true, decide_eq_true_eq]
      exact hend
    have hon : x = endOfInput → token = none := by
      intro hx
      rw [← Option.not_isSome_iff_eq_none, ← hsome]
      exact fun hh => hend ⟨hx, hh⟩
    have hmunch := hrest hgoes.sane (marks_orElse hmark hlast₁) hn₁ hu₁
    simp only [hcond, Bool.false_eq_true, if_false, Run.bind_apply, Run.get_apply]
    generalize munch hooks d fuel (here <|> last) (.state i) s₁.stream.peek s₁ = r at hmunch ⊢
    obtain ⟨hgoes', hr⟩ := hmunch
    rw [hgoes.course h answers] at hr
    refine ⟨hgoes.trans hgoes', ?_⟩
    obtain ⟨err | ⟨place, y⟩, s₂⟩ := r
    · exact .on hmoves hne (hnet ▸ htoken) hon hspot hr
    · obtain ⟨m', hm', hmunches⟩ := hr
      exact ⟨m', hm', .on hmoves hne (hnet ▸ htoken) hon hspot hmunches⟩

theorem course_view (h : s.Sane n allowed) (answers : Nat → Nat → Cursor → Bool) (settings : Settings) (x : Symbol) :
    (s.course allowed answers).view settings s.standpoint x = s.view n settings answers x := by
  unfold Course.view Course.sight view course
  rw [h.network]
  rfl

/-- Running the automaton takes a course of the match. -/
theorem munch_ends {hooks : LexerHooks σ} {answers : Nat → Nat → Cursor → Bool}
    (ha : hooks.Answers answers) (hd : d < n.decisions.size) (fuel : Nat) (h : s.Sane n allowed)
    {last : Option Checkpoint} {m : Option Mark}
    (hlast : Option.Rel (Marks (s.matcher.cache.automaton d)) last m) {source : Target}
    {e : AutomatonState} {ts : List Thread}
    (hs : Automaton.Names (s.matcher.cache.automaton d) source (some e))
    (he : e.Holds n s.matcher.cache.graph ts) (x : Symbol) :
    MunchEnds n allowed d answers fuel m s ts x (munch hooks d fuel last source x s) := by
  induction fuel generalizing s last m source e ts x with
  | zero => exact ⟨.refl h, .outOfFuel⟩
  | succ fuel ih =>
    have hstep := step_ends h hd ha hs he x
    unfold munch
    rw [Run.bind_apply]
    generalize step hooks d source x s = r at hstep ⊢
    obtain ⟨err | t, s₁⟩ := r
    · obtain ⟨hstays, herr⟩ := hstep
      refine ⟨hstays.goes, ?_⟩
      dsimp only
      rw [hstays.standpoint_eq]
      refine .fails ?_
      have hnet : (s.course allowed answers).network = n := h.network
      rw [Course.Fails, course_view h, hnet]
      exact herr
    · obtain ⟨hstays, o, ts', hn, hleads, settings, hall, sweep, hrun, heq⟩ := hstep
      have hlast' := marks_mono hstays.automaton hlast
      have hsorted : Thread.Sorted ts' := by
        cases hleads with
        | nowhere => exact .nil
        | state he' _ => exact he'.sorted
      -- Whether the edge was stored or not, the threads move as the course says.
      have hmoves : (s₁.course allowed answers).Moves s₁.standpoint x ts ts' := by
        rw [hstays.goes.course h answers, hstays.standpoint_eq]
        exact ⟨hsorted, settings, hall, sweep, by rwa [course_view h], heq⟩
      refine .of_stays h hstays ?_
      dsimp only
      cases hn with
      | error =>
        obtain rfl := outline_of_leads_none hleads
        exact ⟨.refl hstays.sane, m, hlast', .stuck hmoves⟩
      | @state i u hu =>
        cases hleads with
        | state hu' hne =>
          exact onward_ends (fun hsane hm hn hu => ih hsane hm hn hu _) hstays.sane hlast' (.state hu) hu' hmoves hne

end Scan

/-- Modes keep their automata apart: the decision made at the start of a mode is that of the start. -/
def Network.ModesApart (n : Network) : Prop :=
  ∀ (mode start : Nat) (s : State) (d : Nat), n.modeStarts[mode]? = some start →
    n.state? start = .ok s → s.decision = some d → n.decisions[d]? = some start

/-- A match without the distances to which its commands are pinned. -/
def TokenMatch.unplaced (m : TokenMatch) : Int × Option (List Command) :=
  (m.type, m.commands.map (List.map Command.unplaced))

namespace TokenMatch
variable {r : Except RecognitionError TokenMatch}

/-- A match that leaves an error, distances aside, ends with it. -/
theorem eq_error_of_unplaced {e : RecognitionError} (h : r.map unplaced = .error e) : r = .error e := by
  cases r with
  | error e' => exact congrArg _ (Except.error.inj h)
  | ok t => cases h

/-- A match that leaves a token, distances aside, ends with it. -/
theorem exists_of_unplaced {v : Int × Option (List Command)} (h : r.map unplaced = .ok v) :
    ∃ t, r = .ok t ∧ t.unplaced = v := by
  cases r with
  | error e => cases h
  | ok t => exact ⟨t, rfl, Except.ok.inj h⟩

/-- Where the token has no commands there are no distances. -/
theorem eq_of_unplaced {type : Int} (h : r.map unplaced = .ok (type, none)) : r = .ok ⟨type, none⟩ := by
  obtain ⟨⟨type', commands⟩, rfl, hv⟩ := exists_of_unplaced h
  obtain rfl : type' = type := congrArg Prod.fst hv
  obtain rfl : commands = none := Option.map_eq_none_iff.mp (congrArg Prod.snd hv)
  rfl

end TokenMatch

namespace Scan
variable {σ : Type} {n : Network} {allowed : Settings → Prop} {d : Nat} {s s' : Scan σ}

theorem exists_start_of_modeDecision {m : Matcher} {mode : Nat} (hm : m.network = n)
    (hapart : n.ModesApart) (h : m.modeDecision mode = .ok d) :
    ∃ start, n.modeStarts[mode]? = some start ∧ n.decisions[d]? = some start := by
  unfold Matcher.modeDecision at h
  rw [hm] at h
  split at h
  · cases h
  · split at h
    · cases h
    · next start hstart =>
      split at h
      · cases h
      · next q hq =>
        split at h
        · next d' hd' =>
          split at h
          · cases h
            exact ⟨start, hstart, hapart mode start q d hstart hq hd'⟩
          · cases h
        · cases h

/-- Taking the token of a mark. -/
theorem commit_ends (h : s.Sane n allowed) {place : Checkpoint} {m : Mark}
    (hm : Marks (s.matcher.cache.automaton d) place m) :
    ∃ t s', commit d place s = (.ok t, s') ∧ Goes n allowed d s s' ∧
      t.unplaced = (m.type, m.commands) ∧
      s'.standpoint = ⟨s.stream.seek m.index, m.position⟩ := by
  obtain ⟨e, hn, htype, hcommands⟩ := hm.token
  have hn' : Automaton.Names (({ s with
      matcher := s.matcher.setPosition place.position
      stream := s.stream.seek place.index } : Scan σ).matcher.cache.automaton d) place.target
      (some e) := hn
  obtain ⟨u, hu, rfl⟩ := automatonState_ends hn'
  refine ⟨⟨u.tokenType, u.commands⟩, { s with
    matcher := s.matcher.setPosition place.position
    stream := s.stream.seek place.index }, ?_, ⟨⟨h.network, h.settings, h.cache⟩, rfl, rfl,
    Automaton.Extends.refl _⟩, Prod.ext htype hcommands, ?_⟩
  · unfold commit
    rw [Run.bind_apply, Run.modify_apply]
    dsimp only
    rw [Run.bind_apply, hu]
    rfl
  · change Standpoint.mk (s.stream.seek place.index) place.position = _
    rw [hm.index, hm.position]

/-- The scan at the beginning of a token. -/
def begun (s : Scan σ) : Scan σ :=
  { s with matcher := { s.matcher with tokenStart := s.stream.index } }

/-- How a match ends: the cache is faithful again, and the match took its course. -/
structure NextEnds (n : Network) (allowed : Settings → Prop) (answers : Nat → Nat → Cursor → Bool)
    (mode start : Nat) (s : Scan σ) (r : Ending (Scan σ) TokenMatch) : Prop where
  sane : r.2.Sane n allowed
  settings : r.2.matcher.settings = s.matcher.settings
  takes : (s.begun.course allowed answers).Takes mode start s.standpoint
    (r.1.map TokenMatch.unplaced) r.2.standpoint

/-- What a match does when no character can be added to the token any more. -/
def settle (mode d : Nat) (begin : Scan σ) : Option Checkpoint × Symbol → Run (Scan σ) TokenMatch
  | (some place, _) => commit d place
  | (none, x) => do
    let index := (← get).stream.index
    if x = endOfInput && index = begin.stream.index then pure ⟨endOfInput, none⟩
    else
      throw (.lexerNoViableAlt mode begin.stream.index index begin.matcher.position.line
        begin.matcher.position.column)

/-- Matches from the state in which the automaton of a decision begins. -/
def matchFrom (hooks : LexerHooks σ) (mode d : Nat) (begin : Scan σ) : Run (Scan σ) TokenMatch := do
  let start ← startState hooks mode d
  let first ← checkpoint? d start
  let fuel := begin.matcher.settings.fuel begin.stream.size
  let reached ← munch hooks d fuel first start begin.stream.peek
  settle mode d begin reached

/-- A match in a mode without a decision changes nothing; in any other mode it is made with the automaton
of the decision. -/
theorem next_eq (hooks : LexerHooks σ) (mode : Nat) (s : Scan σ) :
    next hooks mode s = match s.matcher.modeDecision mode with
      | .error e => (.error e, s)
      | .ok d => matchFrom hooks mode d s.begun s.begun := by
  unfold next
  rw [Run.bind_apply, Run.get_apply]
  dsimp only
  rw [Run.bind_apply]
  cases s.matcher.modeDecision mode <;> rfl

/-- Taking the token of the last mark, or saying that there is none, ends the course of the match. -/
theorem settle_ends {mode : Nat} (h : s.Sane n allowed) {place : Option Checkpoint} {m : Option Mark}
    (hm : Option.Rel (Marks (s.matcher.cache.automaton d)) place m) (begin : Scan σ) (x : Symbol) :
    ∃ r s', settle mode d begin (place, x) s = (r, s') ∧ Goes n allowed d s s' ∧
      r.map TokenMatch.unplaced = Course.outcome mode begin.standpoint s.standpoint (.ok (m, x)) ∧
      s'.standpoint = Course.landing s.standpoint (.ok (m, x)) := by
  cases hm with
  | @some place m hm =>
    obtain ⟨t, s', hcommit, hgoes, hsame, hspot⟩ := commit_ends h hm
    exact ⟨.ok t, s', hcommit, hgoes, congrArg Except.ok hsame, hspot⟩
  | none =>
    have houtcome : Course.outcome mode begin.standpoint s.standpoint (.ok (none, x)) =
        if x = endOfInput && s.stream.index = begin.stream.index then .ok (endOfInput, none)
        else .error (.lexerNoViableAlt mode begin.stream.index s.stream.index begin.matcher.position.line
          begin.matcher.position.column) := rfl
    rw [houtcome]
    unfold settle
    dsimp only
    rw [Run.bind_apply, Run.get_apply]
    dsimp only
    by_cases hend : (decide (x = endOfInput) && decide (s.stream.index = begin.stream.index)) = true
    · rw [if_pos hend, if_pos hend]
      exact ⟨_, s, rfl, .refl h, rfl, rfl⟩
    · rw [if_neg hend, if_neg hend]
      exact ⟨_, s, rfl, .refl h, rfl, rfl⟩

/-- A match takes its course, whatever was matched before. -/
theorem next_takes {hooks : LexerHooks σ} {answers : Nat → Nat → Cursor → Bool}
    (ha : hooks.Answers answers) (hapart : n.ModesApart) (h : s.Sane n allowed) (mode : Nat) :
    (∃ e, s.matcher.modeDecision mode = .error e ∧ next hooks mode s = (.error e, s)) ∨
      ∃ d start, s.matcher.modeDecision mode = .ok d ∧ n.modeStarts[mode]? = some start ∧
        NextEnds n allowed answers mode start s (next hooks mode s) := by
  rw [next_eq]
  cases hdecision : s.matcher.modeDecision mode with
  | error e => exact .inl ⟨e, rfl, rfl⟩
  | ok d =>
    obtain ⟨start, hmode, hd⟩ := exists_start_of_modeDecision h.network hapart hdecision
    have hlt : d < n.decisions.size := (Array.getElem?_eq_some_iff.mp hd).1
    refine .inr ⟨d, start, rfl, hmode, ?_⟩
    have h₁ : s.begun.Sane n allowed := ⟨h.network, h.settings, h.cache⟩
    have hstart := startState_ends h₁ ha hmode hd
    have hnet : (s.begun.course allowed answers).network = n := h.network
    have hsight : ∀ settings, (s.begun.course allowed answers).sight settings s.standpoint false =
        .told n settings (fun rule index => answers rule index s.begun.cursor) false := by
      intro settings
      unfold Course.sight
      rw [hnet]
      rfl
    dsimp only
    unfold matchFrom
    rw [Run.bind_apply]
    generalize startState hooks mode d s.begun = r at hstart ⊢
    obtain ⟨e | t, s₁⟩ := r
    · obtain ⟨hstays, herr⟩ := hstart
      refine ⟨hstays.sane, hstays.settings, ?_⟩
      dsimp only
      rw [hstays.standpoint_eq]
      refine .failsToStart ?_
      rw [hsight, hnet]
      exact herr
    · obtain ⟨hstays, e, ts, hn, he, settings, hall, sweep, hrun, heq⟩ := hstart
      have hspot : s₁.standpoint = s.standpoint := hstays.standpoint_eq
      obtain ⟨token, htoken, -⟩ := he.token
      obtain ⟨first, hfirst, hmark, -⟩ := checkpoint_ends hn he htoken
      have hmunch := munch_ends ha hlt (s.matcher.settings.fuel s.stream.size) hstays.sane hmark hn he
        s.stream.peek
      have hstream : s.begun.stream = s.stream := rfl
      have hsettings : s.begun.matcher.settings = s.matcher.settings := rfl
      dsimp only
      rw [Run.bind_apply, hfirst]
      dsimp only
      rw [Run.bind_apply, hstream, hsettings]
      generalize munch hooks d (s.matcher.settings.fuel s.stream.size) first t s.stream.peek s₁ = r
        at hmunch ⊢
      obtain ⟨hgoes, hr⟩ := hmunch
      rw [hstays.goes.course h₁ answers, hspot] at hr
      -- However the run of the automaton ends, the match takes the course that begins with these threads.
      have htakes : ∀ {r : Except RecognitionError (Option Mark × Symbol)} {q : Standpoint},
          (s.begun.course allowed answers).Munches (s.matcher.settings.fuel s.stream.size)
            (s.standpoint.mark token) ts s.stream.peek s.standpoint r q →
          (s.begun.course allowed answers).Takes mode start s.standpoint
            (Course.outcome mode s.standpoint q r) (Course.landing q r) := fun hm =>
        .runs hall (by rwa [hsight]) he.sorted heq (hnet ▸ htoken) hm
      obtain ⟨err | ⟨place, y⟩, s₂⟩ := r
      · exact ⟨hgoes.sane, hgoes.settings.trans hstays.settings, htakes hr⟩
      · obtain ⟨m, hm, hr⟩ := hr
        obtain ⟨result, s₃, hsettle, hgoes', hout, hland⟩ := settle_ends hgoes.sane hm s.begun y
        dsimp only
        rw [hsettle]
        refine ⟨hgoes'.sane, hgoes'.settings.trans (hgoes.settings.trans hstays.settings), ?_⟩
        dsimp only
        rw [hout, hland]
        exact htakes hr

end Scan
end AdaptiveLL
