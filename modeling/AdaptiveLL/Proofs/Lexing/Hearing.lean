import Mathlib
import AdaptiveLL.Proofs.DepthFirst
import AdaptiveLL.Proofs.Lexing.Requests

/-! # What callbacks are told

An author's predicates are decided in the course of a match, and an author's actions are run behind it.
Either is told where the lexer stands.  To say of which places, let something be known of the author's state
that every callback keeps when it is told a place of a certain kind.  Then it is known in the end as well:
a match asks predicates at such places only (`Scan.next_hears`), and commands run actions at such places
only (`Lexer.runAll_hears`).

A predicate is asked where the lexer begins its match, or behind the character that is being consumed.  At
the end of the input there is no such character, and the column that it is told is one too high.  An action
that is pinned is run at its place, and is told the line and column at which the match ended.
-/
namespace AdaptiveLL

/-- A part that is left alone keeps what held of it. -/
theorem Run.Leaves.preserves {σ α γ : Type} {part : σ → γ} {m : Run σ α} (h : Leaves part m)
    (good : γ → Prop) : Preserves (fun s => good (part s)) m := fun s hs => (congrArg good (h s)).mpr hs

/-! ## Closures -/

namespace Outlook
open Run
variable {σ : Type} {I : σ → Prop} {env : Outlook σ}

/-- Deciding predicates keeps what is known of the author's state. -/
def Spares (I : σ → Prop) (env : Outlook σ) : Prop := ∀ rule index a, I a → I (env.ask rule index a).2

/-- What is known of the author's state while a closure is under way. -/
abbrev Knows (I : σ → Prop) {α : Type} (m : Run (Progress σ) α) : Prop :=
  Preserves (fun p => I p.work.author) m

/-- What leaves the author's state alone keeps what is known of it. -/
theorem knows_of_leaves {α : Type} {m : Run (Progress σ) α} (h : Leaves (fun p => p.work.author) m) : Knows I m :=
  h.preserves I

theorem collect_knows (c : Config) : Knows I (collect c) := knows_of_leaves (.modify fun _ => rfl)

theorem finish_knows (c : Config) : Knows I (finish c) :=
  (collect_knows c).bind fun _ => .modify fun _ hp => hp

theorem push_knows (below : StackRef) (state : Nat) : Knows I (push below state) :=
  knows_of_leaves (.modifyGet fun _ => rfl)

theorem markVisited_knows (c : Config) : Knows I (markVisited c) :=
  knows_of_leaves (.modifyGet fun p => by
    dsimp only
    split <;> rfl)

theorem leaves_lookUp {τ γ : Type} {part : τ → γ} (n : Network) (id : Nat) :
    Leaves part (lookUp n id : Run τ State) := by
  unfold lookUp
  split
  · exact .pure _
  · exact .throw _

theorem leaves_moveTo {τ γ : Type} {part : τ → γ} (n : Network) (c : Config) (target : Nat) :
    Leaves part (moveTo n c target : Run τ Config) := (leaves_lookUp n target).bind fun _ => .pure _

theorem moveTo_knows (n : Network) (c : Config) (target : Nat) :
    Knows I (moveTo n c target : Run (Progress σ) Config) :=
  knows_of_leaves (leaves_moveTo n c target)

theorem decidePredicate_knows (h : env.Spares I) (rule index : Nat) :
    Knows I (decidePredicate env rule index) := fun _ hp => h rule index _ hp

theorem arrive_knows (c : Config) : Knows I (arrive env c) := by
  have hlook : Knows I (lookUp env.network c.state : Run (Progress σ) State) :=
    knows_of_leaves (leaves_lookUp _ _)
  refine hlook.bind fun s => .ite ?_ ?_
  · refine .ite ((finish_knows c).bind fun _ => .pure _) (Preserves.get.bind fun p => ?_)
    have hpops : Knows I (do
        let p ← MonadState.get
        pure (some ((p.work.graph.frames c.stack).map (Item.pop c)))) := Preserves.get.bind fun _ => .pure _
    exact .ite ((finish_knows _).bind fun _ => hpops) hpops
  · refine (markVisited_knows c).bind fun fresh => .ite (Preserves.get.bind fun p => ?_) (.pure _)
    exact .ite ((collect_knows c).bind fun _ => .pure _) (.pure _)

theorem target?_knows (h : env.Spares I) (c : Config) (t : Transition) : Knows I (target? env c t) := by
  have hmove : ∀ target, Knows I (some <$> moveTo env.network c target) := fun target =>
    (moveTo_knows _ c target).bind fun _ => .pure _
  cases t with
  | call target rule level follow =>
    exact (push_knows _ _).bind fun _ => (moveTo_knows _ c target).bind fun _ => .pure _
  | predicate target rule index contextual =>
    exact (decidePredicate_knows h rule index).bind fun _ => .ite (hmove target) (.pure _)
  | action target rule index contextual =>
    exact (moveTo_knows _ c target).bind fun _ => Preserves.get.bind fun _ => .pure _
  | epsilon target | ret target => exact hmove target
  | symbol target label | range target lo hi | set target set => exact .ite (hmove target) (.pure _)
  | precedence | notSet | wildcard => exact .pure _

theorem visit_knows (h : env.Spares I) (i : Item) : Knows I (visit env i) := by
  cases i with
  | arrive c => exact arrive_knows c
  | pop c f =>
    change Knows I (pop env c f)
    unfold pop
    split
    · exact arrive_knows _
    · exact .pure _
  | follow c t =>
    refine (target?_knows h c t).bind fun o => ?_
    cases o with
    | none => exact .pure _
    | some d => exact arrive_knows d

/-- What is known of the author's state while configurations are closed. -/
abbrev Minds (I : σ → Prop) {α : Type} (m : Run (Workspace σ) α) : Prop :=
  Preserves (fun w => I w.author) m

theorem close_minds (h : env.Spares I) (finished : Bool) (out : ConfigSet) (c : Config) :
    Minds I (close env finished out c) := by
  rintro ⟨graph, author, closures⟩ hw
  have hvisit : ∀ i : Item, True → Run.Meets (fun p : Progress σ => I p.work.author) (visit env i)
      (fun o p => I p.work.author ∧ ∀ j ∈ o.getD [], True) fun _ p => I p.work.author := by
    intro i _ p hp
    have hkept := visit_knows h i p hp
    rcases hr : visit env i p with ⟨e | o, q⟩ <;> rw [hr] at hkept
    · exact hkept
    · exact ⟨hkept, fun _ _ => trivial⟩
  have hmeets : Run.Meets (fun p : Progress σ => I p.work.author)
      (DepthFirst.walk (visit env) (.closureDepthExceeded (env.maxDepth + 1) env.maxDepth)
        env.maxDepth (.arrive c)) (fun _ p => I p.work.author) fun _ p => I p.work.author :=
    DepthFirst.walk_meets hvisit (fun _ hp => hp) env.maxDepth trivial
  have hwalk := hmeets ⟨⟨graph, author, closures + 1⟩, out, ∅, finished⟩ hw
  unfold close
  dsimp only
  rcases hr : DepthFirst.walk (visit env) (.closureDepthExceeded (env.maxDepth + 1) env.maxDepth)
    env.maxDepth (.arrive c) ⟨⟨graph, author, closures + 1⟩, out, ∅, finished⟩ with ⟨e | u, p⟩ <;>
    rw [hr] at hwalk
  · exact hwalk
  · exact hwalk

theorem minds_of_leaves {α : Type} {m : Run (Workspace σ) α} (h : Leaves (fun w => w.author) m) : Minds I m :=
  h.preserves I

theorem lookUp_minds (n : Network) (id : Nat) : Minds I (lookUp n id : Run (Workspace σ) State) :=
  minds_of_leaves (leaves_lookUp n id)

theorem startFrom_minds (h : env.Spares I) (alt : Nat) (out : ConfigSet) (ts : List Transition) :
    Minds I (startFrom env alt out ts) := by
  induction ts generalizing alt out with
  | nil => exact .pure _
  | cons t rest ih => exact (close_minds h false out _).bind fun r => ih (alt + 1) r.2

theorem startConfigs_minds (h : env.Spares I) (state : Nat) : Minds I (startConfigs env state) :=
  (lookUp_minds _ state).bind fun _ => startFrom_minds h 1 _ _

theorem reachFrom_minds (h : env.Spares I) (offset : Nat) (finished : Bool) (c : Config)
    (out : ConfigSet) (ts : List Transition) : Minds I (reachFrom env offset finished c out ts) := by
  induction ts generalizing out with
  | nil => exact .pure _
  | cons t rest ih =>
    have hcross : Minds I (cross env offset c t) :=
      minds_of_leaves ((leaves_moveTo _ c t.target).bind fun _ => .pure _)
    refine hcross.bind fun d => (close_minds h finished out d).bind fun r => ?_
    obtain ⟨_ | _, out⟩ := r
    · exact ih out
    · exact .pure _

theorem reachAll_minds (h : env.Spares I) (offset : Nat) (x : Symbol) (done : Option Nat)
    (out : ConfigSet) (cs : List Config) : Minds I (reachAll env offset x done out cs) := by
  induction cs generalizing done out with
  | nil => exact .pure _
  | cons c rest ih =>
    refine .ite (ih done out) ((lookUp_minds _ _).bind fun s => ?_)
    exact (reachFrom_minds h offset _ c out _).bind fun r => ih _ _

theorem reach_minds (h : env.Spares I) (offset : Nat) (x : Symbol) (configs : ConfigSet) :
    Minds I (reach env offset x configs) := reachAll_minds h offset x none _ _

end Outlook
/-! ## A match -/

/-- Callbacks that keep what is known of the author's state when predicates are told places of a kind. -/
def LexerHooks.Heeds {σ : Type} (I : σ → Prop) (hooks : LexerHooks σ) (told : Cursor → Prop) : Prop :=
  ∀ rule index cursor a, told cursor → I a → I (hooks.predicate rule index cursor a).2

/-- Where a predicate may be asked in a match that begins at `start`: before a character or at the end, with
the position of that place, or at the end with a position that is a column beyond. -/
inductive Cursor.Asked (chars : Array Char) (start : Nat) : Cursor → Prop
  | at {i : Nat} : start ≤ i → i ≤ chars.size → Asked chars start ⟨i, .behind (chars.toList.take i), start⟩
  | beyond : start ≤ chars.size →
      Asked chars start ⟨chars.size, (Position.behind chars.toList).past endOfInput, start⟩

namespace Scan
open Run
variable {σ : Type} {I : σ → Prop} {chars : Array Char} {settings : Settings} {start d : Nat}
  {hooks : LexerHooks σ}

/-- Everything about a scan that a match only changes by moving on: its place, its settings, where the token
begins, and the author's state. -/
def outside (s : Scan σ) : (Standpoint × Settings) × Nat × σ :=
  (s.footing, s.matcher.tokenStart, s.author)

/-- A scan in the course of a match that began at `start`. -/
structure Hears (I : σ → Prop) (chars : Array Char) (settings : Settings) (start : Nat) (s : Scan σ) :
    Prop where
  stands : s.Stands chars settings start
  tokenStart : s.matcher.tokenStart = start
  author : I s.author

theorem Hears.of_footing {s s' : Scan σ} (h : s.Hears I chars settings start)
    (hfooting : s'.footing = s.footing) (hstart : s'.matcher.tokenStart = s.matcher.tokenStart)
    (hauthor : I s'.author) : s'.Hears I chars settings start :=
  ⟨h.stands.of_footing hfooting, hstart.trans h.tokenStart, hauthor⟩

theorem Hears.of_outside {s s' : Scan σ} (h : s.Hears I chars settings start)
    (houtside : s'.outside = s.outside) : s'.Hears I chars settings start := by
  obtain ⟨hfooting, hrest⟩ := Prod.mk.inj houtside
  obtain ⟨hstart, hauthor⟩ := Prod.mk.inj hrest
  exact h.of_footing hfooting hstart (hauthor ▸ h.author)

/-- A predicate that is asked where the scan stands. -/
theorem Hears.asked {s : Scan σ} (h : s.Hears I chars settings start) : s.cursor.Asked chars start := by
  have hcursor : s.cursor = ⟨s.stream.index, .behind (chars.toList.take s.stream.index), start⟩ := by
    rw [cursor, h.stands.position_eq, h.tokenStart]
  rw [hcursor]
  exact .at h.stands.le_index h.stands.index_le

/-- A predicate that is asked behind the next character, or beyond the end. -/
theorem Hears.asked_consume {s : Scan σ} (h : s.Hears I chars settings start) :
    s.consume.cursor.Asked chars start := by
  by_cases hend : s.stream.peek = endOfInput
  · have hindex := h.stands.peek_eq_end_iff.mp hend
    have hcursor : s.consume.cursor =
        ⟨chars.size, (Position.behind chars.toList).past endOfInput, start⟩ := by
      have hstay : s.stream.consume = s.stream :=
        if_neg (by rw [h.stands.chars_eq, hindex]; exact Nat.lt_irrefl _)
      have htake : chars.toList.take chars.size = chars.toList := by
        rw [← Array.length_toList, List.take_length]
      simp only [cursor, consume, hstay, hend, h.stands.position_eq, hindex, htake, h.tokenStart]
    rw [hcursor]
    exact .beyond (hindex ▸ h.stands.le_index)
  · exact Hears.asked ⟨h.stands.consume hend, h.tokenStart, h.author⟩

/-- What keeps a scan in the course of its match. -/
abbrev Listens (I : σ → Prop) (chars : Array Char) (settings : Settings) (start : Nat) {α : Type}
    (m : Run (Scan σ) α) : Prop := Preserves (Hears I chars settings start) m

theorem listens_of_leaves {α : Type} {m : Run (Scan σ) α} (h : Leaves outside m) :
    Listens I chars settings start m := fun s hs => hs.of_outside (h s)

theorem listens_addState (configs : ConfigSet) :
    Listens I chars settings start (addState d configs : Run (Scan σ) Target) :=
  listens_of_leaves (leaves_addState (fun _ _ => rfl) d configs)

theorem listens_changeAutomaton (f : Automaton → Automaton) :
    Listens I chars settings start (changeAutomaton d f : Run (Scan σ) Unit) :=
  listens_of_leaves (.modify fun _ => rfl)

theorem listens_withStacks {α : Type} {act : Run (Workspace σ) α} (h : Outlook.Minds I act) :
    Listens I chars settings start (withStacks act) := fun s hs =>
  hs.of_footing rfl rfl (h ⟨s.matcher.cache.graph, s.author, 0⟩ hs.author)

/-- What does not move the scan leaves the same character ahead. -/
theorem meets_facing {α : Type} {m : Run (Scan σ) α} (h : Listens I chars settings start m)
    (hfooting : Leaves footing m) (x : Symbol) :
    Meets (fun s => s.Hears I chars settings start ∧ s.stream.peek = x) m
      (fun _ s => s.Hears I chars settings start ∧ s.stream.peek = x) fun _ => Hears I chars settings start := by
  rintro s ⟨hs, hpeek⟩
  have hkept := h s hs
  have hstream : (m s).2.stream = s.stream := congrArg (fun p => p.1.stream) (hfooting s)
  rcases hr : m s with ⟨e | a, s'⟩ <;> rw [hr] at hkept hstream
  · exact hkept
  · exact ⟨hkept, (congrArg CharStream.peek hstream).trans hpeek⟩

variable (hheeds : hooks.Heeds I (Cursor.Asked chars start))
include hheeds

theorem listens_startState (mode : Nat) : Listens I chars settings start (startState hooks mode d) := by
  intro s hs
  unfold startState
  rw [Run.bind_apply, Run.get_apply]
  dsimp only
  cases (s.matcher.cache.automaton d).start with
  | some t => exact hs
  | none =>
    have hspares : (s.outlook hooks s.cursor false).Spares I := fun rule index a ha =>
      hheeds rule index _ a hs.asked ha
    refine Preserves.bind (listens_withStacks (Outlook.startConfigs_minds hspares _)) (fun configs => ?_) s hs
    refine (listens_addState _).bind fun t => ?_
    exact .ite ((listens_changeAutomaton _).bind fun _ => .pure _) (.pure _)

theorem listens_computeEdge (source : Target) (x : Symbol) :
    Listens I chars settings start (computeEdge hooks d source x) := by
  refine (listens_of_leaves (leaves_automatonState d source)).bind fun state => ?_
  intro s hs
  rw [Run.bind_apply, Run.get_apply]
  dsimp only
  have hspares : (s.outlook hooks s.consume.cursor (x = endOfInput)).Spares I := fun rule index a ha =>
    hheeds rule index _ a hs.asked_consume ha
  refine Preserves.bind (listens_withStacks (Outlook.reach_minds hspares _ x _)) (fun configs => ?_) s hs
  have hstore : ∀ t : Target, Listens I chars settings start (do
      if !configs.hasGuards && Matcher.isStored x then changeAutomaton d (·.setEdge source x t)
      pure t : Run (Scan σ) Target) := fun t =>
    .ite ((listens_changeAutomaton _).bind fun _ => .pure _) (.pure _)
  exact .ite (Preserves.bind (.pure _) hstore) ((listens_addState _).bind hstore)

theorem listens_step (source : Target) (x : Symbol) :
    Listens I chars settings start (step hooks d source x) := by
  have hcount : ∀ f : Counters → Counters, Leaves outside
      (change fun m => { m with counters := f m.counters } : Run (Scan σ) Unit) := fun f => .modify fun _ => rfl
  refine Preserves.get.bind fun s => ?_
  dsimp only
  split
  · exact (listens_of_leaves (hcount fun c => { c with hits := c.hits + 1 })).bind fun _ => .pure _
  · exact (listens_of_leaves (hcount fun c => { c with misses := c.misses + 1 })).bind fun _ =>
      listens_computeEdge hheeds source x

/-- The run of the automaton, by induction on its steps. -/
theorem munch_hears (fuel : Nat) (last : Option Checkpoint) (source : Target) (x : Symbol) :
    Meets (fun s => s.Hears I chars settings start ∧ s.stream.peek = x)
      (munch hooks d fuel last source x) (fun _ => Hears I chars settings start)
      fun _ => Hears I chars settings start := by
  induction fuel generalizing last source x with
  | zero => exact .throw fun s hs => hs.1
  | succ fuel ih =>
    have hrest : ∀ t : Target, Run.Meets (Hears I chars settings start) (do
        let here ← checkpoint? d t
        if x = endOfInput && here.isSome then pure (here, x)
        else munch hooks d fuel (here <|> last) t (← MonadState.get).stream.peek)
        (fun _ => Hears I chars settings start) fun _ => Hears (σ := σ) I chars settings start := by
      intro t
      refine ((leaves_checkpoint? d t).meets fun s s' h hs => hs.of_outside h).bind fun here =>
        Run.Meets.ite (fun _ => .pure fun s hs => hs) fun _ => ?_
      intro s hs
      rw [Run.bind_apply, Run.get_apply]
      exact ih _ t s.stream.peek s ⟨hs, rfl⟩
    unfold munch
    refine (meets_facing (listens_step hheeds source x) ((leaves_step hooks d source x).map Prod.fst) x).bind
      fun t => Run.Meets.ite (fun _ => .pure fun s hs => hs.1) fun _ => ?_
    refine Run.Meets.ite (fun hx => ?_) fun _ => (hrest t).imp (fun _ h => h.1) (fun _ _ h => h) fun _ _ h => h
    refine Run.Meets.bind (.modify fun s hs => ?_) fun _ => hrest t
    exact ⟨hs.1.stands.consume fun hend => hx (hs.2.symm.trans hend), hs.1.tokenStart, hs.1.author⟩

omit hheeds in
/-- Going back to where a token was recognised does not concern the author. -/
theorem settle_hears (mode decision : Nat) (begin : Scan σ) (reached : Option Checkpoint × Symbol) :
    Meets (Hears I chars settings start) (settle mode decision begin reached)
      (fun _ s => s.matcher.tokenStart = start ∧ I s.author) fun _ s => I s.author := by
  have hleaves : Leaves (fun s : Scan σ => (s.matcher.tokenStart, s.author))
      (settle mode decision begin reached) := by
    obtain ⟨_ | place, x⟩ := reached
    · exact Leaves.get.bind fun _ => .ite (.pure _) (.throw _)
    · refine Leaves.bind (.modify fun _ => rfl) fun _ => ?_
      exact (leaves_automatonState decision place.target).bind fun _ => .pure _
  have hmeets : Meets (fun s => s.matcher.tokenStart = start ∧ I s.author) (settle mode decision begin reached)
      (fun _ s => s.matcher.tokenStart = start ∧ I s.author)
      fun _ s => s.matcher.tokenStart = start ∧ I s.author := hleaves.meets fun s t h hs => by
    obtain ⟨hstart, hauthor⟩ := Prod.mk.inj h
    exact ⟨hstart.trans hs.1, (congrArg I hauthor).mpr hs.2⟩
  exact hmeets.imp (fun _ h => ⟨h.tokenStart, h.author⟩) (fun _ _ h => h) fun _ _ h => h.2

/-- In the course of a match predicates are asked where it begins, and behind the characters that it
consumes.  Distances are counted from where it begins. -/
theorem next_hears (mode : Nat) :
    Meets (fun s => s.Stands chars settings start ∧ s.stream.index = start ∧ I s.author) (next hooks mode)
      (fun _ s => s.matcher.tokenStart = start ∧ I s.author) fun _ s => I s.author := by
  have hrest : ∀ (decision : Nat) (begin : Scan σ), Meets
      (fun s => s.Hears I chars settings start ∧ s.stream.peek = begin.stream.peek)
      (matchFrom hooks mode decision begin)
      (fun _ s => s.matcher.tokenStart = start ∧ I s.author) fun _ s => I s.author := by
    intro decision begin
    refine ((meets_facing (listens_startState hheeds mode)
      ((leaves_startState hooks mode decision).map Prod.fst) _).imp
      (fun _ h => h) (fun _ _ h => h) fun _ _ h => h.author).bind fun t => ?_
    refine ((meets_facing (listens_of_leaves (leaves_checkpoint? decision t)) (leaves_checkpoint? decision t) _).imp
      (fun _ h => h) (fun _ _ h => h) fun _ _ h => h.author).bind fun first => ?_
    refine ((munch_hears hheeds _ first t _).imp (fun _ h => h) (fun _ _ h => h) fun _ _ h => h.author).bind
      fun reached => ?_
    exact settle_hears mode decision begin reached
  rintro s ⟨hstands, hstart, hauthor⟩
  rw [next_eq]
  cases s.matcher.modeDecision mode with
  | error e => exact hauthor
  | ok decision =>
    exact hrest decision s.begun s.begun ⟨⟨Stands.of_footing (by rfl) hstands, hstart, hauthor⟩, rfl⟩

end Scan
/-! ## The commands of a match -/

namespace Command

/-- What a command does when it is carried out, pinned or not. -/
def core : Command → Command
  | pinned _ c => c.core
  | c => c

/-- Where an action is run in a text of so many characters, behind a match that ended at `stop`: if it is
pinned, at its distance from `start`, which wraps around at 64 bits. -/
def place (size start stop : Nat) : Command → Nat
  | pinned offset _ => min (replayIndex start offset) size
  | _ => stop

end Command

namespace Lexer
open Run
variable {σ : Type} {I : σ → Prop} {l₀ l : Lexer σ} {start stop : Nat}

/-- What commands hold on to, and what is known of the author's state. -/
structure Holds (I : σ → Prop) (l₀ l : Lexer σ) : Prop where
  grip : l.grip = l₀.grip
  hooks : l.hooks = l₀.hooks
  author : I l.scan.author

/-- Where an action is run when the input is at a place. -/
theorem Holds.cursor_eq (h : Holds I l₀ l) :
    l.cursor = ⟨l.scan.stream.index, l₀.scan.matcher.position, l₀.draft.start⟩ := by
  have hgrip := h.grip
  simp only [Lexer.grip, Prod.mk.injEq] at hgrip
  obtain ⟨-, hmatcher, -, -, hstart, -⟩ := hgrip
  rw [cursor, Scan.cursor, hmatcher, hstart]

theorem Holds.seek (h : Holds I l₀ l) (i : Nat) : Holds I l₀ (CommandTarget.seek i l) :=
  ⟨h.grip, h.hooks, h.author⟩

theorem Holds.index_seek (h : Holds I l₀ l) (i : Nat) :
    (CommandTarget.seek i l).scan.stream.index = min i l₀.scan.stream.chars.size := by
  have hchars : l.scan.stream.chars = l₀.scan.stream.chars := congrArg Prod.fst h.grip
  change min i l.scan.stream.chars.size = _
  rw [hchars]

/-- What is known of a place at which a command may be carried out. -/
def Allows (I : σ → Prop) (l₀ : Lexer σ) (c : Command) (i : Nat) : Prop :=
  ∀ rule index a, c.core = .custom rule index → I a →
    I (l₀.hooks.action rule index ⟨i, l₀.scan.matcher.position, l₀.draft.start⟩ a)

/-- A single command does not move the input. -/
theorem run_holds (c : Command) (h : Holds I l₀ l) (hc : Allows I l₀ c l.scan.stream.index) :
    Holds I l₀ (c.run l).2 ∧ (c.run l).2.scan.stream = l.scan.stream := by
  induction c with
  | pinned offset c ih => exact ih hc
  | custom rule index =>
    refine ⟨⟨h.grip, h.hooks, ?_⟩, rfl⟩
    change I (l.hooks.action rule index l.cursor l.scan.author)
    rw [h.hooks, h.cursor_eq]
    exact hc rule index _ rfl h.author
  | popMode =>
    change Holds I l₀ (Lexer.popMode l).2 ∧ (Lexer.popMode l).2.scan.stream = l.scan.stream
    unfold Lexer.popMode
    rw [Run.bind_apply, Run.get_apply]
    dsimp only
    cases l.suspended with
    | nil => exact ⟨h, rfl⟩
    | cons mode suspended => exact ⟨⟨h.grip, h.hooks, h.author⟩, rfl⟩
  | _ => exact ⟨⟨h.grip, h.hooks, h.author⟩, rfl⟩

/-- A command that is carried out with the input at a place; if it fails, the input is moved back. -/
theorem runOne_holds (c : Command) (away : Bool) :
    Meets (fun l => Holds I l₀ l ∧ Allows I l₀ c l.scan.stream.index ∧
        (away = false → l.scan.stream.index = stop))
      (tryCatch c.run fun e => do
        if away then modify (CommandTarget.seek stop)
        throw e)
      (fun _ l => Holds I l₀ l ∧ (away = false → l.scan.stream.index = stop))
      fun _ l => Holds I l₀ l := by
  rintro l ⟨h, hc, hhome⟩
  obtain ⟨hholds, hstream⟩ := run_holds c h hc
  rw [Run.tryCatch_apply]
  rcases hr : c.run l with ⟨e | u, t⟩ <;> rw [hr] at hholds hstream
  · cases away with
    | true => exact hholds.seek stop
    | false => exact hholds
  · exact ⟨hholds, fun ha => (congrArg CharStream.index hstream).trans (hhome ha)⟩

/-- Commands run actions at their places only, by induction on the commands. -/
theorem runFrom_holds (hstop : stop ≤ l₀.scan.stream.chars.size) {commands : List Command}
    (hcommands : ∀ c ∈ commands, Allows I l₀ c (c.place l₀.scan.stream.chars.size start stop)) (away : Bool) :
    Meets (fun l => Holds I l₀ l ∧ (away = false → l.scan.stream.index = stop))
      (Command.runFrom start stop away commands : Run (Lexer σ) Unit)
      (fun _ l => Holds I l₀ l) fun _ l => Holds I l₀ l := by
  induction commands generalizing away with
  | nil =>
    unfold Command.runFrom
    exact Run.Meets.ite (fun _ => .modify fun l hl => hl.1.seek stop) fun _ => .pure fun l hl => hl.1
  | cons c rest ih =>
    obtain ⟨hc, hrest⟩ := List.forall_mem_cons.mp hcommands
    have hgo : ∀ (away : Bool) (d : Command), Meets (fun l => Holds I l₀ l ∧
        Allows I l₀ d l.scan.stream.index ∧ (away = false → l.scan.stream.index = stop))
        (do
          tryCatch d.run fun e => do
            if away then modify (CommandTarget.seek stop)
            throw e
          Command.runFrom start stop away rest)
        (fun _ l => Holds I l₀ l) fun _ l => Holds I l₀ l :=
      fun away d => (runOne_holds d away).bind fun _ => ih hrest away
    have hback : ∀ l, Holds I l₀ l → (CommandTarget.seek stop l).scan.stream.index = stop := fun l hl => by
      rw [hl.index_seek, Nat.min_eq_left hstop]
    -- What does not depend on the position is no action.
    have hany : c.dependsOnPosition = false → ∀ i, Allows I l₀ c i := by
      intro hdepends i rule index a he
      cases c with
      | custom => cases hdepends
      | pinned => cases hdepends
      | _ => cases he
    unfold Command.runFrom
    cases c with
    | pinned offset inner =>
      refine Run.Meets.bind (.modify fun l hl => ?_) fun _ =>
        hgo (decide (Command.replayIndex start offset ≠ stop)) inner
      refine ⟨hl.1.seek _, ?_, fun ha => ?_⟩
      · rw [hl.1.index_seek]
        exact hc
      · have hplace : Command.replayIndex start offset = stop := by simpa using ha
        rw [hplace]
        exact hback l hl.1
    | custom rule index =>
      refine Run.Meets.bind (.modify fun l hl => ?_) fun _ => hgo false (.custom rule index)
      refine ⟨hl.1.seek _, ?_, fun _ => hback l hl.1⟩
      rw [hback l hl.1]
      exact hc
    | channel | mode | more | popMode | pushMode | skip | type =>
      intro l hl
      exact hgo away _ l ⟨hl.1, hany rfl _, hl.2⟩

end Lexer
end AdaptiveLL
