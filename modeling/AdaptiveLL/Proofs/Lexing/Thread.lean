import Mathlib
import AdaptiveLL.Lexing.Closure
import AdaptiveLL.Proofs.Coupling
import AdaptiveLL.Proofs.DepthFirst

/-! # Threads

A lexer never merges stacks, so each of its configurations has one stack.  Written out with this
stack it is a *thread*, and nothing of the stack graph is left.

`Thread.trace` closes a thread as `Outlook.close` closes a configuration, and lists what is collected
on the way.  It neither grows a graph nor adds to a set, so what it gives depends on the thread
alone.  A configuration that stands for a thread (`Config.IsThread`) is closed alike, whatever graph
its stack is kept in and whatever set is added to (`Outlook.close_agree`); and so is what comes of
consuming a character (`Outlook.reach_agree`) and of beginning (`Outlook.startConfigs_agree`).
-/
namespace AdaptiveLL
open StackGraph (Extends)

/-- A configuration of a lexer with its stack. -/
structure Thread where
  /-- The state reached. -/
  state : Nat
  /-- The alternative taken. -/
  alt : Nat
  /-- The states to return to, innermost first. -/
  stack : List Nat := []
  /-- The commands collected. -/
  commands : Option (List Command) := none
  /-- Whether the path went through a decision that prefers to leave. -/
  passedLazy : Bool := false
deriving DecidableEq

namespace Thread

/-! ## Closing a thread -/

/-- What closing a thread has come to. -/
structure Progress where
  /-- The threads collected, in order. -/
  collected : List Thread := []
  /-- The threads visited. -/
  visited : List Thread := []
  /-- Whether a token rule was finished. -/
  finished : Bool
  /-- Whether a predicate was met. -/
  asked : Bool := false

/-- An item of the walk. -/
inductive Item where
  /-- A thread reached. -/
  | arrive (t : Thread)
  /-- A transition to follow from a thread. -/
  | follow (t : Thread) (tr : Transition)

/-- Collects a thread. -/
def collect (t : Thread) : Run Progress Unit :=
  modify fun p => { p with collected := p.collected ++ [t] }

/-- Collects a thread that has finished a token rule. -/
def finish (t : Thread) : Run Progress Unit := do
  collect t
  modify fun p => { p with finished := true }

/-- Marks a thread as visited, and says whether it is the first of its kind. -/
def markVisited (t : Thread) : Run Progress Bool :=
  modifyGet fun p =>
    if t ∈ p.visited then (false, p) else (true, { p with visited := t :: p.visited })

/-- The thread at another state, where it may have to make a decision that prefers to leave. -/
def moveTo {τ : Type} (n : Network) (t : Thread) (target : Nat) : Run τ Thread := do
  let s ← Outlook.lookUp n target
  pure { t with
    state := target, passedLazy := t.passedLazy || (s.nonGreedy && s.kind.isDecision) }

/-- A thread that was reached. -/
def arrive (env : Outlook Unit) (t : Thread) : Run Progress (Option (List Item)) := do
  let s ← Outlook.lookUp env.network t.state
  if s.isStop then
    match t.stack with
    | [] => do
      finish t
      pure none
    | x :: rest => pure (some [.arrive { t with state := x, stack := rest }])
  else if ← markVisited t then
    let wanted := !(← get).finished || !t.passedLazy
    if !s.freeOnly && wanted then collect t
    pure (some (s.transitions.map (Item.follow t)))
  else pure none

/-- Decides a predicate, and notes that one was met. -/
def decidePredicate (env : Outlook Unit) (rule index : Nat) : Run Progress Bool :=
  modifyGet fun p => ((env.ask rule index ()).1, { p with asked := true })

/-- A thread's commands with one more from the network's list, if it is in a token rule. -/
def withCommand (n : Network) (t : Thread) (index : Nat) : Option (List Command) :=
  if t.stack = [] then
    match n.commands[index]? with
    | some command => some (t.commands.getD [] ++ [command])
    | none => t.commands
  else t.commands

/-- Where a transition leads without a character being consumed, if it does. -/
def target? (env : Outlook Unit) (t : Thread) (tr : Transition) : Run Progress (Option Thread) := do
  match tr with
  | .call target _ _ follow => do
    let d ← moveTo env.network t target
    pure (some { d with stack := follow :: t.stack })
  | .predicate target rule index _ => do
    if ← decidePredicate env rule index then some <$> moveTo env.network t target
    else pure none
  | .action target _ index _ => do
    let d ← moveTo env.network t target
    pure (some { d with commands := withCommand env.network t index })
  | .epsilon target | .ret target => some <$> moveTo env.network t target
  | .symbol target _ | .range target _ _ | .set target _ =>
    if env.endIsFree && tr.consumes minCodePoint maxCodePoint endOfInput then
      some <$> moveTo env.network t target
    else pure none
  | .precedence .. | .notSet .. | .wildcard _ => pure none

/-- A transition of a thread. -/
def follow (env : Outlook Unit) (t : Thread) (tr : Transition) :
    Run Progress (Option (List Item)) := do
  match ← target? env t tr with
  | some d => arrive env d
  | none => pure none

/-- Visits an item. -/
def visit (env : Outlook Unit) : Item → Run Progress (Option (List Item))
  | .arrive t => arrive env t
  | .follow t tr => follow env t tr

/-- Closes a thread; `finished` says whether its alternative had finished a token rule before. -/
def trace (env : Outlook Unit) (finished : Bool) (t : Thread) : Except RecognitionError Progress :=
  match DepthFirst.walk (visit env) (.closureDepthExceeded (env.maxDepth + 1) env.maxDepth)
      env.maxDepth (.arrive t) { finished } with
  | (.ok _, p) => .ok p
  | (.error e, _) => .error e

/-! ### What a visit can do -/

theorem lookUp_apply {τ : Type} (n : Network) (id : Nat) (p : τ) :
    (Outlook.lookUp n id : Run τ State) p = (n.state? id, p) := by
  unfold Outlook.lookUp
  cases n.state? id <;> rfl

theorem markVisited_apply (t : Thread) (p : Progress) :
    markVisited t p =
      if t ∈ p.visited then (.ok false, p) else (.ok true, { p with visited := t :: p.visited }) := by
  rw [markVisited, Run.modifyGet_apply]
  split <;> rfl

/-- What reaching a thread does where it has not finished a rule: it is collected if something can be
consumed there, and its transitions are to be followed. -/
def opened (s : State) (t : Thread) (p : Progress) : Ending Progress (Option (List Item)) :=
  (.ok (some (s.transitions.map (Item.follow t))),
    { p with
      visited := t :: p.visited
      collected := if !s.freeOnly && (!p.finished || !t.passedLazy) then p.collected ++ [t]
        else p.collected })

/-- What reaching a thread does. -/
theorem arrive_apply (env : Outlook Unit) (t : Thread) (p : Progress) :
    arrive env t p =
      match env.network.state? t.state with
      | .error e => (.error e, p)
      | .ok s =>
        if s.isStop then
          match t.stack with
          | [] => (.ok none, { p with collected := p.collected ++ [t], finished := true })
          | x :: rest => (.ok (some [.arrive { t with state := x, stack := rest }]), p)
        else if t ∈ p.visited then (.ok none, p)
        else opened s t p := by
  unfold arrive
  rw [Run.bind_apply, lookUp_apply]
  cases env.network.state? t.state with
  | error e => rfl
  | ok s =>
    dsimp only
    split
    · cases t.stack <;> rfl
    · rw [Run.bind_apply, markVisited_apply]
      by_cases ht : t ∈ p.visited
      · rw [if_pos ht, if_pos ht]
        rfl
      · rw [if_neg ht, if_neg ht]
        simp only [if_true, Run.bind_apply, Run.get_apply, opened]
        split <;> rfl

/-- Whether a transition asks a predicate. -/
def asks : Transition → Bool
  | .predicate .. => true
  | _ => false

/-- Whether a transition can be followed without a character being consumed. -/
def isFree (env : Outlook Unit) : Transition → Bool
  | .call .. | .action .. | .epsilon _ | .ret _ => true
  | .predicate _ rule index _ => (env.ask rule index ()).1
  | .symbol target label =>
    env.endIsFree && (Transition.symbol target label).consumes minCodePoint maxCodePoint endOfInput
  | .range target lo hi =>
    env.endIsFree && (Transition.range target lo hi).consumes minCodePoint maxCodePoint endOfInput
  | .set target set =>
    env.endIsFree && (Transition.set target set).consumes minCodePoint maxCodePoint endOfInput
  | .precedence .. | .notSet .. | .wildcard _ => false

/-- A thread moved along a free transition to a state: a call pushes the state where it continues, and
an action may add a command. -/
def along (n : Network) (t : Thread) (tr : Transition) (s : State) : Thread where
  state := tr.target
  alt := t.alt
  stack := match tr with
    | .call _ _ _ follow => follow :: t.stack
    | _ => t.stack
  commands := match tr with
    | .action _ _ index _ => withCommand n t index
    | _ => t.commands
  passedLazy := t.passedLazy || (s.nonGreedy && s.kind.isDecision)

/-- Where a free transition leads. -/
def next? (env : Outlook Unit) (t : Thread) (tr : Transition) :
    Except RecognitionError (Option Thread) :=
  if isFree env tr then (env.network.state? tr.target).map fun s => some (along env.network t tr s)
  else .ok none

theorem moveTo_apply {τ : Type} (n : Network) (t : Thread) (target : Nat) (p : τ) :
    (moveTo n t target : Run τ Thread) p =
      ((n.state? target).map fun s => { t with
        state := target, passedLazy := t.passedLazy || (s.nonGreedy && s.kind.isDecision) }, p) := by
  unfold moveTo
  rw [Run.bind_apply, lookUp_apply]
  cases n.state? target <;> rfl

/-- Asking where a transition leads tells this and notes whether a predicate was met. -/
theorem target?_apply (env : Outlook Unit) (t : Thread) (tr : Transition) (p : Progress) :
    target? env t tr p = (next? env t tr, { p with asked := p.asked || asks tr }) := by
  -- Merely moving the thread is settled first, without and with a condition.
  have hsome : ∀ (target : Nat) (q : Progress), (some <$> moveTo env.network t target : Run Progress (Option Thread)) q =
      ((env.network.state? target).map fun s => some { t with
        state := target, passedLazy := t.passedLazy || (s.nonGreedy && s.kind.isDecision) }, q) := by
    intro target q
    rw [map_eq_pure_bind, Run.bind_apply, moveTo_apply]
    cases env.network.state? target <;> rfl
  have hwhen : ∀ (b : Bool) (target : Nat) (q : Progress),
      (if b then some <$> moveTo env.network t target else pure none :
        Run Progress (Option Thread)) q =
        (if b then (env.network.state? target).map fun s => some { t with
          state := target, passedLazy := t.passedLazy || (s.nonGreedy && s.kind.isDecision) }
        else .ok none, q) := by
    intro b target q
    cases b with
    | false => rfl
    | true => exact hsome target q
  unfold target? next?
  cases tr with
  | call target rule level follow =>
    simp only [isFree, asks, Bool.or_false, if_true, Run.bind_apply, moveTo_apply, Transition.target]
    cases env.network.state? target <;> rfl
  | predicate target rule index contextual =>
    simp only [isFree, asks, Bool.or_true, decidePredicate, Run.bind_apply, Run.modifyGet_apply,
      Transition.target]
    exact hwhen _ target _
  | action target rule index contextual =>
    simp only [isFree, asks, Bool.or_false, if_true, Run.bind_apply, moveTo_apply, Transition.target]
    cases env.network.state? target <;> rfl
  | epsilon target | ret target =>
    simp only [isFree, asks, Bool.or_false, if_true, hsome, Transition.target]
    rfl
  | symbol | range | set =>
    simp only [isFree, asks, Bool.or_false]
    exact hwhen _ _ p
  | precedence | notSet | wildcard =>
    simp only [isFree, asks, Bool.or_false, Bool.false_eq_true, if_false]
    rfl

/-- What following a transition does. -/
theorem visit_follow (env : Outlook Unit) (t : Thread) (tr : Transition) (p : Progress) :
    visit env (.follow t tr) p =
      match next? env t tr with
      | .error e => (.error e, { p with asked := p.asked || asks tr })
      | .ok none => (.ok none, { p with asked := p.asked || asks tr })
      | .ok (some d) => arrive env d { p with asked := p.asked || asks tr } := by
  change follow env t tr p = _
  unfold follow
  rw [Run.bind_apply, target?_apply]
  cases next? env t tr with
  | error e => rfl
  | ok o => cases o <;> rfl

/-- A closure that came to its end is a walk that did. -/
theorem run_of_trace {env : Outlook Unit} {finished : Bool} {t : Thread} {p : Progress}
    (h : trace env finished t = .ok p) :
    DepthFirst.run (visit env) (.closureDepthExceeded (env.maxDepth + 1) env.maxDepth) env.maxDepth
      [[.arrive t]] { finished } = (.ok (), p) := by
  unfold trace DepthFirst.walk at h
  generalize DepthFirst.run _ _ _ _ _ = r at h ⊢
  obtain ⟨_ | _, q⟩ := r
  · cases h
  · cases h
    rfl

/-! ## Starting and consuming -/

/-- Threads that were gathered, and whether a predicate was met on the way. -/
structure Sweep where
  /-- The threads, in order. -/
  threads : List Thread := []
  /-- Whether a predicate was met. -/
  asked : Bool := false

/-- What was gathered first, with what a closure adds. -/
def Sweep.add (s : Sweep) (p : Progress) : Sweep := ⟨s.threads ++ p.collected, s.asked || p.asked⟩

/-- Closes the threads with which alternatives begin, counted from `alt`. -/
def startFrom (env : Outlook Unit) (alt : Nat) (s : Sweep) :
    List Transition → Except RecognitionError Sweep
  | [] => .ok s
  | tr :: rest => do
    let p ← trace env false { state := tr.target, alt }
    startFrom env (alt + 1) (s.add p) rest

/-- The closed threads with which the alternatives of a state begin. -/
def starts (env : Outlook Unit) (state : Nat) : Except RecognitionError Sweep := do
  let s ← env.network.state? state
  startFrom env 1 {} s.transitions

/-- A thread moved along a transition that consumes the character at a distance from the start of the
token. -/
def cross (n : Network) (offset : Nat) (t : Thread) (tr : Transition) :
    Except RecognitionError Thread := do
  let s ← n.state? tr.target
  pure { t with
    state := tr.target
    passedLazy := t.passedLazy || (s.nonGreedy && s.kind.isDecision)
    commands := t.commands.map (Command.pinAll offset) }

/-- Closes what a thread reaches by transitions that consume a character, up to the first one by which
its alternative finishes a token rule; says whether there was one. -/
def reachFrom (env : Outlook Unit) (offset : Nat) (finished : Bool) (t : Thread) (s : Sweep) :
    List Transition → Except RecognitionError (Bool × Sweep)
  | [] => .ok (false, s)
  | tr :: rest => do
    let d ← cross env.network offset t tr
    let p ← trace env finished d
    if p.finished then .ok (true, s.add p)
    else reachFrom env offset finished t (s.add p) rest

/-- Closes what threads reach by consuming `x`, where `done` is the alternative that was the last to
finish a token rule. -/
def reachAll (env : Outlook Unit) (offset : Nat) (x : Symbol) (done : Option Nat) (s : Sweep) :
    List Thread → Except RecognitionError Sweep
  | [] => .ok s
  | t :: rest =>
    if done = some t.alt && t.passedLazy then reachAll env offset x done s rest
    else do
      let q ← env.network.state? t.state
      let r ← reachFrom env offset (done = some t.alt) t s
        (q.transitions.filter (Transition.consumes minCodePoint maxCodePoint x))
      reachAll env offset x (if r.1 then some t.alt else done) r.2 rest

/-- The closed threads reached by consuming `x` at a distance from the start of the token. -/
def reach (env : Outlook Unit) (offset : Nat) (x : Symbol) (ts : List Thread) :
    Except RecognitionError Sweep :=
  reachAll env offset x none {} ts

end Thread

/-! ## Configurations that stand for threads -/

/-- A configuration stands for a thread: it says the same, and its node has the thread's stack and no
other. -/
structure Config.IsThread (g : StackGraph) (c : Config) (t : Thread) : Prop where
  state : c.state = t.state
  alt : c.alt = t.alt
  commands : c.commands = t.commands
  passedLazy : c.passedLazy = t.passedLazy
  guard : c.guard = .always
  known : g.knows c.stack
  path : g.stackSet c.stack = {t.stack}

namespace Config.IsThread
variable {g h : StackGraph} {c d : Config} {t u : Thread}

theorem mono (hg : g.Truthful) (hh : h.Truthful) (e : Extends g h) (i : IsThread g c t) :
    IsThread h c t :=
  { i with
    known := e.knows i.known
    path := (e.stackSet hg.toSound hh.toSound i.known).trans i.path }

/-- Configurations of one graph are the same exactly if they stand for the same thread. -/
theorem identity_eq_iff (hg : g.Truthful) (i : IsThread g c t) (j : IsThread g d u) :
    c.identity = d.identity ↔ t = u := by
  have hstack : c.stack = d.stack ↔ t.stack = u.stack := by
    constructor
    · intro h
      have := i.path.symm.trans (h ▸ j.path)
      exact Set.singleton_injective this
    · intro h
      exact hg.eq_of_stackSet_eq i.known j.known (by rw [i.path, j.path, h])
  obtain ⟨ts, ta, tk, tc, tl⟩ := t
  obtain ⟨us, ua, uk, uc, ul⟩ := u
  simp only [Config.identity, Config.mk.injEq, Thread.mk.injEq, i.state, i.alt, i.commands,
    i.passedLazy, i.guard, j.state, j.alt, j.commands, j.passedLazy, j.guard, hstack] at hstack ⊢
  tauto

theorem isBottom_iff (hg : g.Truthful) (i : IsThread g c t) :
    c.stack.isBottom ↔ t.stack = [] := by
  rw [StackGraph.isBottom_iff, ← hg.stackSet_eq_bottom_iff i.known, i.path]
  exact Set.singleton_eq_singleton_iff

theorem hasEmptyStack_iff (hg : g.Truthful) (i : IsThread g c t) :
    g.hasEmptyStack c.stack ↔ t.stack = [] := by
  rw [hg.hasEmptyStack_iff i.known, i.path, Set.mem_singleton_iff, eq_comm]

/-- A stack that is not empty has one frame. -/
theorem frames (hg : g.Truthful) (i : IsThread g c t) {x : Nat} {rest : List Nat}
    (ht : t.stack = x :: rest) :
    ∃ f, g.frames c.stack = [f] ∧ f.returnTo = some x ∧ g.knows f.parent ∧
      g.stackSet f.parent = {rest} := by
  have hpath : g.stackSet c.stack = {x :: rest} := ht ▸ i.path
  have hreturn : ∀ f ∈ g.frames c.stack, f.returnTo = some x := by
    intro f hf
    have hmem := (hg.mem_returns_iff i.known f.returnTo).mp (List.mem_map_of_mem hf)
    rw [hpath] at hmem
    cases hx : f.returnTo with
    | none => simp [hx] at hmem
    | some y =>
      simp only [hx, Set.mem_singleton_iff, List.cons.injEq] at hmem
      obtain ⟨_, rfl, -⟩ := hmem
      rfl
  have hasc := hg.ascending i.known
  obtain ⟨f, hf⟩ := hg.frames_ne_nil i.known
  have hsingle : g.frames c.stack = [f] := by
    cases hfs : g.frames c.stack with
    | nil => simp [hfs] at hf
    | cons a l =>
      rw [hfs] at hasc hreturn hf
      cases l with
      | nil => rw [List.mem_singleton.mp hf]
      | cons b l =>
        have hab := (List.pairwise_cons.mp hasc).1 b List.mem_cons_self
        rw [hreturn a List.mem_cons_self, hreturn b (by simp)] at hab
        simp [Frame.before] at hab
  refine ⟨f, hsingle, hreturn f hf, hg.knows_parent i.known hf, ?_⟩
  ext l
  rw [hg.mem_parent_iff i.known hf (hreturn f hf), hpath]
  simp

end Config.IsThread

/-! ## Sets that list threads -/

namespace Thread

/-- Adds a thread to a list, unless it is there. -/
def put (ts : List Thread) (t : Thread) : List Thread := if t ∈ ts then ts else ts ++ [t]

/-- Adds threads from left to right. -/
def putAll (ts us : List Thread) : List Thread := us.foldl put ts

theorem putAll_append (ts us vs : List Thread) :
    putAll ts (us ++ vs) = putAll (putAll ts us) vs := List.foldl_append

end Thread

/-- An ordered set lists configurations that stand for threads, one by one. -/
structure ConfigSet.Lists (g : StackGraph) (s : ConfigSet) (ts : List Thread) : Prop where
  configs : List.Forall₂ (Config.IsThread g) s.toList ts
  ordered : s.ordered = true
  unsealed : s.sealed = 0

namespace ConfigSet
variable {g h : StackGraph} {s : ConfigSet} {ts : List Thread} {c : Config} {t : Thread}

theorem lists_emptyOrdered (g : StackGraph) : emptyOrdered.Lists g [] := ⟨.nil, rfl, rfl⟩

theorem Lists.mono (hg : g.Truthful) (hh : h.Truthful) (e : Extends g h) (l : Lists g s ts) :
    Lists h s ts :=
  { l with configs := l.configs.imp fun _ _ i => i.mono hg hh e }

/-- What adding to an ordered set does: nothing if the configuration is there, and otherwise it is put
last. -/
theorem insert_of_ordered (hs : s.ordered = true) (hu : s.sealed = 0) (c : Config)
    (g : StackGraph) :
    s.insert c g =
      if s.toList.any c.same then (s.noting c, g)
      else ({ s.noting c with configs := s.configs.push c }, g) := by
  have hentry : (s.noting c).entryFor? c = s.toList.findIdx? c.same := by
    unfold entryFor? noting toList
    simp only [hu, List.drop_zero, Nat.add_zero, Option.map_id']
    refine congrArg (s.configs.toList.findIdx? ·) (funext fun d => ?_)
    simp [joins, hs]
  have hord : (s.noting c).ordered = true := hs
  unfold insert add
  simp only [hentry, hord, if_true]
  cases hi : s.toList.findIdx? c.same with
  | none =>
    rw [List.findIdx?_eq_none_iff] at hi
    rw [if_neg]
    · rfl
    · rw [List.any_eq_true]
      rintro ⟨d, hd, hsame⟩
      rw [hi d hd] at hsame
      contradiction
  | some i =>
    obtain ⟨hlt, hsame, -⟩ := List.findIdx?_eq_some_iff_getElem.mp hi
    rw [if_pos (List.any_eq_true.mpr ⟨_, List.getElem_mem hlt, hsame⟩)]

/-- Adding a configuration that stands for a thread. -/
theorem Lists.insert (hg : g.Truthful) (l : Lists g s ts) (i : Config.IsThread g c t) :
    (s.insert c g).2 = g ∧ Lists g (s.insert c g).1 (Thread.put ts t) ∧
      (s.insert c g).1.hasGuards = s.hasGuards := by
  have hany : s.toList.any c.same ↔ t ∈ ts := by
    rw [List.any_eq_true]
    constructor
    · rintro ⟨d, hd, hsame⟩
      obtain ⟨k, hk, rfl⟩ := List.mem_iff_getElem.mp hd
      have hj := (List.forall₂_iff_get.mp l.configs).2 k hk (l.configs.length_eq ▸ hk)
      rw [(i.identity_eq_iff hg hj).mp (of_decide_eq_true hsame)]
      exact List.get_mem _ _
    · intro ht
      obtain ⟨k, hk, rfl⟩ := List.mem_iff_getElem.mp ht
      have hj := (List.forall₂_iff_get.mp l.configs).2 k (l.configs.length_eq ▸ hk) hk
      exact ⟨_, List.get_mem s.toList ⟨k, _⟩, decide_eq_true ((i.identity_eq_iff hg hj).mpr rfl)⟩
  have hguards : (s.noting c).hasGuards = s.hasGuards := by
    simp [noting, Config.isGuarded, i.guard, Guard.isAlways]
  rw [insert_of_ordered l.ordered l.unsealed, Thread.put]
  by_cases ht : t ∈ ts
  · rw [if_pos (hany.mpr ht), if_pos ht]
    exact ⟨rfl, { l with }, hguards⟩
  · rw [if_neg (fun h => ht (hany.mp h)), if_neg ht]
    refine ⟨rfl, ⟨?_, l.ordered, l.unsealed⟩, hguards⟩
    change List.Forall₂ _ (s.configs.push c).toList _
    rw [Array.toList_push]
    exact List.rel_append l.configs (.cons i .nil)

end ConfigSet

/-! ## Closing side by side -/

namespace Outlook
variable {σ : Type}

/-- Outlooks in which closures take the same course.  The author's answers do not depend on the
author's state. -/
structure Agrees (env : Outlook σ) (view : Outlook Unit) : Prop where
  network : env.network = view.network
  endIsFree : env.endIsFree = view.endIsFree
  maxDepth : env.maxDepth = view.maxDepth
  ask : ∀ (rule index : Nat) (s : σ), (env.ask rule index s).1 = (view.ask rule index ()).1

/-- A closure of a configuration and one of the thread that it stands for, when both have come equally
far.  The set held `base` in the beginning, and `asked` says whether a predicate had been met. -/
structure Follows (base : List Thread) (asked : Bool) (p : Progress σ) (q : Thread.Progress) :
    Prop where
  truthful : p.work.graph.Truthful
  out : p.out.Lists p.work.graph (Thread.putAll base q.collected)
  hasGuards : p.out.hasGuards = (asked || q.asked)
  visited : ∀ v ∈ p.visited, ∃ (c : Config) (t : Thread), v = c.identity ∧ t ∈ q.visited ∧
    c.IsThread p.work.graph t
  covered : ∀ t ∈ q.visited, ∃ c : Config, c.identity ∈ p.visited ∧ c.IsThread p.work.graph t
  finished : p.finished = q.finished

/-- Closures side by side; a thread has no graph. -/
def coupling (base : List Thread) (asked : Bool) : Coupling (Progress σ) Thread.Progress where
  graph p := p.work.graph
  graph' _ := StackGraph.empty
  related := Follows base asked
  truthful h := ⟨h.truthful, StackGraph.truthful_empty⟩

/-- Items of the two walks that lead on alike. -/
inductive SameItem (g : StackGraph) : Item → Thread.Item → Prop
  | arrive {c : Config} {t : Thread} : c.IsThread g t → SameItem g (.arrive c) (.arrive t)
  | pop {c : Config} {t : Thread} {f : Frame} {x : Nat} {rest : List Nat} : c.IsThread g t →
      f.returnTo = some x → g.knows f.parent → g.stackSet f.parent = {rest} →
      SameItem g (.pop c f) (.arrive { t with state := x, stack := rest })
  | follow {c : Config} {t : Thread} (tr : Transition) : c.IsThread g t →
      SameItem g (.follow c tr) (.follow t tr)

variable {base : List Thread} {asked : Bool} {p : Progress σ} {q : Thread.Progress} {c : Config}
  {t : Thread} {env : Outlook σ} {view : Outlook Unit}

theorem later_of {p' : Progress σ} {q' : Thread.Progress} (h : Follows base asked p' q')
    (e : Extends p.work.graph p'.work.graph) : (coupling base asked).Later p q p' q' :=
  ⟨h, ⟨h.truthful, StackGraph.truthful_empty, e, Extends.refl _⟩⟩

theorem lookUp_agree (h : Follows base asked p q) (n : Network) (id : Nat) :
    (coupling base asked).Agree p q (fun _ _ s s' => s = s') (lookUp n id p) (lookUp n id q) := by
  unfold lookUp
  cases hs : n.state? id with
  | ok s => exact Coupling.Agree.pure h rfl
  | error e => exact Coupling.Agree.error e h

theorem collect_agree (h : Follows base asked p q) (i : c.IsThread p.work.graph t) :
    (coupling base asked).Agree p q (fun _ _ _ _ => True) (collect c p) (Thread.collect t q) := by
  obtain ⟨⟨g, author, closures⟩, out, visited, finished⟩ := p
  obtain ⟨hgraph, hlists, hguards⟩ := h.out.insert h.truthful i
  refine Matches.ok ⟨later_of ⟨?_, ?_, ?_, ?_, ?_, h.finished⟩ ?_, trivial⟩
  · change (out.insert c g).2.Truthful
    exact hgraph ▸ h.truthful
  · change (out.insert c g).1.Lists (out.insert c g).2 (Thread.putAll base (q.collected ++ [t]))
    rw [hgraph, Thread.putAll_append]
    exact hlists
  · exact hguards.trans h.hasGuards
  · change ∀ v ∈ visited, ∃ (c' : Config) (t' : Thread), v = c'.identity ∧ t' ∈ q.visited ∧
      c'.IsThread (out.insert c g).2 t'
    exact hgraph ▸ h.visited
  · change ∀ t' ∈ q.visited, ∃ c' : Config, c'.identity ∈ visited ∧
      c'.IsThread (out.insert c g).2 t'
    exact hgraph ▸ h.covered
  · change Extends g (out.insert c g).2
    exact hgraph ▸ Extends.refl g

theorem finish_agree (h : Follows base asked p q) (i : c.IsThread p.work.graph t) :
    (coupling base asked).Agree p q (fun _ _ _ _ => True) (finish c p) (Thread.finish t q) := by
  refine (collect_agree h i).bind fun _ _ p' q' hl _ => ?_
  have hfinished : Follows base asked { p' with finished := true } { q' with finished := true } :=
    { hl.related with finished := rfl }
  exact Matches.ok ⟨later_of hfinished (Extends.refl _), trivial⟩

theorem push_agree (h : Follows base asked p q) {r : StackRef} {l : List Nat}
    (hk : p.work.graph.knows r) (hr : p.work.graph.stackSet r = {l}) (x : Nat) :
    (coupling base asked).Agree p q
      (fun g _ r' l' => l' = x :: l ∧ g.knows r' ∧ g.stackSet r' = {l'})
      (push r x p) ((pure (x :: l) : Run Thread.Progress (List Nat)) q) := by
  obtain ⟨⟨g, author, closures⟩, out, visited, finished⟩ := p
  have hpush := h.truthful.push hk (some x)
  have hkeep : ∀ {c : Config} {t : Thread}, c.IsThread g t → c.IsThread (g.push r (some x)).2 t :=
    fun i => i.mono h.truthful hpush.truthful hpush.grows
  refine Matches.ok ⟨later_of ⟨hpush.truthful, h.out.mono h.truthful hpush.truthful hpush.grows,
    h.hasGuards, ?_, ?_, h.finished⟩ hpush.grows, rfl, hpush.known, ?_⟩
  · intro v hv
    obtain ⟨c, t, hc, ht, i⟩ := h.visited v hv
    exact ⟨c, t, hc, ht, hkeep i⟩
  · intro t ht
    obtain ⟨c, hc, i⟩ := h.covered t ht
    exact ⟨c, hc, hkeep i⟩
  · refine (h.truthful.toSound.stackSet_push hk x).trans ?_
    rw [hr, Set.image_singleton]

/-- A configuration was visited before exactly if its thread was. -/
theorem mem_visited_iff (h : Follows base asked p q) (i : c.IsThread p.work.graph t) :
    c.identity ∈ p.visited ↔ t ∈ q.visited := by
  constructor
  · intro hc
    obtain ⟨d, u, hd, hu, j⟩ := h.visited _ hc
    rwa [(i.identity_eq_iff h.truthful j).mp hd]
  · intro ht
    obtain ⟨d, hd, j⟩ := h.covered t ht
    rwa [(i.identity_eq_iff h.truthful j).mpr rfl]

theorem markVisited_agree (h : Follows base asked p q) (i : c.IsThread p.work.graph t) :
    (coupling base asked).Agree p q (fun _ _ x y => x = y) (markVisited c p)
      (Thread.markVisited t q) := by
  have hmark : markVisited c p = if c.identity ∈ p.visited then (.ok false, p)
      else (.ok true, { p with visited := p.visited.insert c.identity }) := by
    rw [markVisited, Run.modifyGet_apply]
    simp only [← Std.HashSet.mem_iff_contains]
    split <;> rfl
  have hmark' : Thread.markVisited t q = if t ∈ q.visited then (.ok false, q)
      else (.ok true, { q with visited := t :: q.visited }) := by
    rw [Thread.markVisited, Run.modifyGet_apply]
    split <;> rfl
  rw [hmark, hmark']
  by_cases ht : t ∈ q.visited
  · rw [if_pos ((mem_visited_iff h i).mpr ht), if_pos ht]
    exact Coupling.Agree.pure h rfl
  · rw [if_neg (fun hc => ht ((mem_visited_iff h i).mp hc)), if_neg ht]
    refine Matches.ok ⟨later_of { h with visited := ?_, covered := ?_ } (Extends.refl _), rfl⟩
    · intro v hv
      rcases Std.HashSet.mem_insert.mp hv with heq | hv
      · exact ⟨c, t, (eq_of_beq heq).symm, List.mem_cons_self, i⟩
      · obtain ⟨d, u, hd, hu, j⟩ := h.visited v hv
        exact ⟨d, u, hd, List.mem_cons_of_mem _ hu, j⟩
    · intro u hu
      rcases List.mem_cons.mp hu with rfl | hu
      · exact ⟨c, Std.HashSet.mem_insert_self, i⟩
      · obtain ⟨d, hd, j⟩ := h.covered u hu
        exact ⟨d, Std.HashSet.mem_insert.mpr (.inr hd), j⟩

theorem decidePredicate_agree (he : env.Agrees view) (h : Follows base asked p q)
    (rule index : Nat) :
    (coupling base asked).Agree p q (fun _ _ x y => x = y) (decidePredicate env rule index p)
      (Thread.decidePredicate view rule index q) := by
  obtain ⟨⟨g, author, closures⟩, out, visited, finished⟩ := p
  refine Matches.ok ⟨later_of { h with out := { h.out with }, hasGuards := ?_ } (Extends.refl _),
    he.ask rule index author⟩
  exact (Bool.or_true _).symm

/-! ## Visits -/

/-- What a visit opens on both sides. -/
def Opened (g _h : StackGraph) (o : Option (List Item)) (o' : Option (List Thread.Item)) : Prop :=
  Option.Rel (List.Forall₂ (SameItem g)) o o'

theorem follows_same {g : StackGraph} (i : c.IsThread g t) (ts : List Transition) :
    Opened g .empty (some (ts.map (Item.follow c))) (some (ts.map (Thread.Item.follow t))) := by
  refine .some ?_
  rw [List.forall₂_map_left_iff, List.forall₂_map_right_iff, List.forall₂_same]
  exact fun tr _ => .follow tr i

theorem arrive_agree (he : env.Agrees view) (h : Follows base asked p q)
    (i : c.IsThread p.work.graph t) :
    (coupling base asked).Agree p q Opened (arrive env c p) (Thread.arrive view t q) := by
  unfold arrive Thread.arrive
  rw [he.network, i.state]
  refine (lookUp_agree h view.network t.state).bind fun s s' p' q' hl hs => ?_
  subst hs
  have i' := i.mono h.truthful hl.related.truthful hl.paired.leftGrows
  have hg := hl.related.truthful
  -- At a stop both tell in the same way whether the stack ends, elsewhere both mark the thread.
  split
  · cases ht : t.stack with
    | nil =>
      rw [if_pos ((i'.isBottom_iff hg).mpr ht)]
      refine (finish_agree hl.related i').bind fun _ _ p'' q'' hl' _ => ?_
      exact .pure hl'.related .none
    | cons x rest =>
      have hbottom : ¬ c.stack.isBottom := fun hb => by
        rw [(i'.isBottom_iff hg).mp hb] at ht
        contradiction
      have hempty : ¬ p'.work.graph.hasEmptyStack c.stack := fun hb => by
        rw [(i'.hasEmptyStack_iff hg).mp hb] at ht
        contradiction
      obtain ⟨f, hf, hx, hk, hpath⟩ := i'.frames hg ht
      rw [if_neg hbottom]
      simp only [Run.bind_apply, Run.get_apply, if_neg hempty, Run.pure_apply]
      refine Coupling.Agree.pure hl.related (.some ?_)
      rw [hf]
      exact .cons (.pop i' hx hk hpath) .nil
  · refine (markVisited_agree hl.related i').bind fun x y p'' q'' hl' hxy => ?_
    subst hxy
    have i'' := i'.mono hg hl'.related.truthful hl'.paired.leftGrows
    cases x with
    | false => exact .pure hl'.related .none
    | true =>
      simp only [if_true, Run.bind_apply, Run.get_apply, hl'.related.finished, i.passedLazy]
      split
      · refine (collect_agree hl'.related i'').bind fun _ _ p₃ q₃ hl₃ _ => ?_
        exact .pure hl₃.related (follows_same
          (i''.mono hl'.related.truthful hl₃.related.truthful hl₃.paired.leftGrows) _)
      · exact .pure hl'.related (follows_same i'' _)

/-- Popping a frame is reaching the state to return to. -/
theorem pop_agree (he : env.Agrees view) (h : Follows base asked p q)
    (i : c.IsThread p.work.graph t) {f : Frame} {x : Nat} {rest : List Nat}
    (hx : f.returnTo = some x) (hk : p.work.graph.knows f.parent)
    (hpath : p.work.graph.stackSet f.parent = {rest}) :
    (coupling base asked).Agree p q Opened (pop env c f p)
      (Thread.arrive view { t with state := x, stack := rest } q) := by
  unfold pop
  rw [hx]
  exact arrive_agree he h { i with state := rfl, known := hk, path := hpath }

theorem moveTo_agree (h : Follows base asked p q) (i : c.IsThread p.work.graph t) (n : Network)
    (target : Nat) :
    (coupling base asked).Agree p q (fun g _ d u => d.IsThread g u ∧ d.stack = c.stack ∧
      u.stack = t.stack) (moveTo n c target p) (Thread.moveTo n t target q) := by
  unfold moveTo Thread.moveTo
  refine (lookUp_agree h n target).bind fun s s' p' q' hl hs => ?_
  subst hs
  have i' := i.mono h.truthful hl.related.truthful hl.paired.leftGrows
  refine .pure hl.related ⟨{ i' with state := rfl, passedLazy := ?_ }, rfl, rfl⟩
  change (c.passedLazy || _) = (t.passedLazy || _)
  rw [i.passedLazy]

/-- Configurations to go on with, or none on both sides. -/
def Goes (g _h : StackGraph) (o : Option Config) (o' : Option Thread) : Prop :=
  Option.Rel (Config.IsThread g) o o'

theorem some_moveTo_agree (h : Follows base asked p q) (i : c.IsThread p.work.graph t)
    (n : Network) (target : Nat) :
    (coupling base asked).Agree p q Goes ((some <$> moveTo n c target : Run _ _) p)
      ((some <$> Thread.moveTo n t target : Run _ _) q) := by
  rw [map_eq_pure_bind, map_eq_pure_bind]
  refine (moveTo_agree h i n target).bind fun d u p' q' hl hd => ?_
  exact .pure hl.related (.some hd.1)

theorem target?_agree (he : env.Agrees view) (h : Follows base asked p q)
    (i : c.IsThread p.work.graph t) (tr : Transition) :
    (coupling base asked).Agree p q Goes (target? env c tr p) (Thread.target? view t tr q) := by
  unfold target? Thread.target?
  rw [he.network, he.endIsFree]
  cases tr with
  | call target rule level follow =>
    -- The thread pushes after it has moved, and needs no graph for it.
    have hpush := push_agree h i.known i.path follow
    have hcommute : ((do
        let l ← (pure (follow :: t.stack) : Run Thread.Progress (List Nat))
        let d ← Thread.moveTo view.network t target
        pure (some { d with stack := l }) : Run Thread.Progress (Option Thread)) q) =
      (do
        let d ← Thread.moveTo view.network t target
        pure (some { d with stack := follow :: t.stack } : Option Thread)) q := rfl
    dsimp only
    rw [← hcommute]
    refine hpush.bind fun r l p' q' hl hr => ?_
    have i' := i.mono h.truthful hl.related.truthful hl.paired.leftGrows
    refine (moveTo_agree hl.related i' view.network target).bind fun d u p'' q'' hl' hd => ?_
    have hg := hl'.related.truthful
    exact .pure hl'.related (.some { hd.1 with
      known := hl'.paired.leftGrows.knows hr.2.1
      path := (hl'.paired.leftGrows.stackSet hl.related.truthful.toSound hg.toSound hr.2.1).trans
        hr.2.2 })
  | predicate target rule index contextual =>
    refine (decidePredicate_agree he h rule index).bind fun x y p' q' hl hxy => ?_
    subst hxy
    cases x with
    | false => exact .pure hl.related .none
    | true =>
      exact some_moveTo_agree hl.related
        (i.mono h.truthful hl.related.truthful hl.paired.leftGrows) view.network target
  | action target rule index contextual =>
    refine (moveTo_agree h i view.network target).bind fun d u p' q' hl hd => ?_
    have i' := i.mono h.truthful hl.related.truthful hl.paired.leftGrows
    have hcommands : withCommand view.network p'.work.graph c index =
        Thread.withCommand view.network t index := by
      unfold withCommand
      simp only [i'.hasEmptyStack_iff hl.related.truthful, i.commands]
      rfl
    rw [Run.bind_apply, Run.get_apply]
    exact Coupling.Agree.pure hl.related (.some { hd.1 with commands := hcommands })
  | epsilon | ret => exact some_moveTo_agree h i view.network _
  | symbol | range | set =>
    dsimp only
    split
    · exact some_moveTo_agree h i view.network _
    · exact .pure h .none
  | precedence | notSet | wildcard => exact .pure h .none

theorem follow_agree (he : env.Agrees view) (h : Follows base asked p q)
    (i : c.IsThread p.work.graph t) (tr : Transition) :
    (coupling base asked).Agree p q Opened (follow env c tr p) (Thread.follow view t tr q) := by
  unfold follow Thread.follow
  refine (target?_agree he h i tr).bind fun x y p' q' hl hxy => ?_
  cases hxy with
  | none => exact .pure hl.related .none
  | some hd => exact arrive_agree he hl.related hd

theorem SameItem.mono {g g' : StackGraph} (hg : g.Truthful) (hg' : g'.Truthful)
    (e : Extends g g') {a : Item} {b : Thread.Item} (s : SameItem g a b) : SameItem g' a b := by
  cases s with
  | arrive i => exact .arrive (i.mono hg hg' e)
  | pop i hx hk hp =>
    exact .pop (i.mono hg hg' e) hx (e.knows hk)
      ((e.stackSet hg.toSound hg'.toSound hk).trans hp)
  | follow tr i => exact .follow tr (i.mono hg hg' e)

theorem visit_agree (he : env.Agrees view) (h : Follows base asked p q) {a : Item}
    {b : Thread.Item} (s : SameItem p.work.graph a b) :
    (coupling base asked).Agree p q Opened (visit env a p) (Thread.visit view b q) := by
  cases s with
  | arrive i => exact arrive_agree he h i
  | pop i hx hk hp => exact pop_agree he h i hx hk hp
  | follow tr i => exact follow_agree he h i tr

/-- Walks through items that lead on alike. -/
theorem walk_agree (he : env.Agrees view) (h : Follows base asked p q) {a : Item}
    {b : Thread.Item} (s : SameItem p.work.graph a b) (tooDeep : RecognitionError) (limit : Nat) :
    (coupling base asked).Agree p q (fun _ _ _ _ => True)
      (DepthFirst.walk (visit env) tooDeep limit a p)
      (DepthFirst.walk (Thread.visit view) tooDeep limit b q) := by
  have hrun : Matches (fun _ p' _ q' => (coupling base asked).Later p q p' q')
      ((coupling base asked).Later p q) (DepthFirst.run (visit env) tooDeep limit [[a]] p)
      (DepthFirst.run (Thread.visit view) tooDeep limit [[b]] q) := DepthFirst.run_matches tooDeep
    ((coupling base asked).Later p q)
    (fun p₁ q₁ p₂ q₂ => Follows base asked p₁ q₁ ∧ (coupling base asked).Later p₁ q₁ p₂ q₂)
    (fun p' _ => SameItem p'.work.graph)
    (fun hl hs => hs.mono hl.1.truthful hl.2.related.truthful hl.2.paired.leftGrows)
    (fun hw hs => Matches.imp (visit_agree he hw.related hs)
      (fun _ _ _ _ hr => ⟨hw.trans hr.1, ⟨hw.related, hr.1⟩, hr.2⟩)
      fun _ _ hl => hw.trans hl)
    (.refl h) (.cons (.cons s .nil) .nil)
  exact hrun.imp (fun _ _ _ _ hl => ⟨hl, trivial⟩) fun _ _ hl => hl

/-- What corresponds when threads are gathered: a set lists what was gathered, and has noted whether a
predicate was met. -/
structure Gathered (g : StackGraph) (out : ConfigSet) (s : Thread.Sweep) : Prop where
  lists : out.Lists g (Thread.putAll [] s.threads)
  hasGuards : out.hasGuards = s.asked

/-- How gathering ends: alike, in a graph that has grown. -/
def Gathers {α β : Type} (w : Workspace σ) (R : StackGraph → α → β → Prop)
    (a : Ending (Workspace σ) α) (b : Except RecognitionError β) : Prop :=
  Matches (fun x w' y (_ : Unit) => w'.graph.Truthful ∧ Extends w.graph w'.graph ∧ R w'.graph x y)
    (fun w' _ => w'.graph.Truthful ∧ Extends w.graph w'.graph) a (b, ())

/-- Closing a configuration gathers what closing its thread gives. -/
theorem close_gathers (he : env.Agrees view) {w : Workspace σ} (hw : w.graph.Truthful)
    {out : ConfigSet} {s : Thread.Sweep} (ho : Gathered w.graph out s)
    (i : c.IsThread w.graph t) (finished : Bool) :
    Gathers w (fun g x p => x.1 = p.finished ∧ Gathered g x.2 (s.add p))
      (close env finished out c w) (Thread.trace view finished t) := by
  obtain ⟨g, author, closures⟩ := w
  have hbegin : Follows (Thread.putAll [] s.threads) s.asked
      (⟨⟨g, author, closures + 1⟩, out, ∅, finished⟩ : Progress σ)
      { finished := finished } := by
    refine ⟨hw, ho.lists, ?_, fun v hv => ?_, fun u hu => ?_, rfl⟩
    · exact ho.hasGuards.trans (Bool.or_false _).symm
    · exact absurd hv Std.HashSet.not_mem_empty
    · cases hu
  have hwalk := walk_agree he hbegin (.arrive i)
    (.closureDepthExceeded (view.maxDepth + 1) view.maxDepth) view.maxDepth
  unfold close Thread.trace
  rw [he.maxDepth]
  dsimp only
  generalize DepthFirst.walk (visit env) _ _ _ _ = r at hwalk ⊢
  generalize DepthFirst.walk (Thread.visit view) _ _ _ _ = r' at hwalk ⊢
  cases hwalk with
  | error e hl => exact .error e ⟨hl.related.truthful, hl.paired.leftGrows⟩
  | ok hl =>
    obtain ⟨hl, -⟩ := hl
    refine .ok ⟨hl.related.truthful, hl.paired.leftGrows, hl.related.finished, ?_, ?_⟩
    · rw [Thread.Sweep.add, Thread.putAll_append]
      exact hl.related.out
    · exact hl.related.hasGuards

/-! ## Starting and consuming side by side -/

section
variable {α β γ δ : Type} {w : Workspace σ} {R : StackGraph → α → β → Prop}

theorem Gathers.ok {x : α} {y : β} (hw : w.graph.Truthful) (h : R w.graph x y) :
    Gathers w R (.ok x, w) (.ok y) :=
  Matches.ok ⟨hw, Extends.refl _, h⟩

theorem Gathers.error (hw : w.graph.Truthful) (e : RecognitionError) :
    Gathers w R ((.error e, w) : Ending (Workspace σ) α) (.error e) :=
  Matches.error e ⟨hw, Extends.refl _⟩

theorem Gathers.bind {Q : StackGraph → γ → δ → Prop} {m : Run (Workspace σ) α}
    {b : Except RecognitionError β} {k : α → Run (Workspace σ) γ}
    {k' : β → Except RecognitionError δ} (h : Gathers w R (m w) b)
    (hk : ∀ x w' y, w'.graph.Truthful → Extends w.graph w'.graph → R w'.graph x y →
      Gathers w' Q (k x w') (k' y)) :
    Gathers w Q ((m >>= k) w) (b >>= k') := by
  rw [Run.bind_apply]
  unfold Gathers at h
  rcases hm : m w with ⟨e | x, w'⟩
  · rw [hm] at h
    cases h with
    | error _ hb => exact Matches.error e hb
  · rw [hm] at h
    cases h with
    | ok hr =>
      obtain ⟨ht, hext, hxy⟩ := hr
      refine (hk x w' _ ht hext hxy).imp (fun _ _ _ _ hg => ?_) fun _ _ hb => ?_
      · exact ⟨hg.1, hext.trans hg.2.1, hg.2.2⟩
      · exact ⟨hb.1, hext.trans hb.2⟩

end

theorem Gathered.mono {g h : StackGraph} (hg : g.Truthful) (hh : h.Truthful) (e : Extends g h)
    {out : ConfigSet} {s : Thread.Sweep} (o : Gathered g out s) : Gathered h out s :=
  { o with lists := o.lists.mono hg hh e }

variable {w : Workspace σ} {out : ConfigSet} {s : Thread.Sweep}

theorem lookUp_gathers (hw : w.graph.Truthful) (n : Network) (id : Nat) :
    Gathers w (fun _ x y => x = y) (lookUp n id w) (n.state? id) := by
  unfold lookUp
  cases n.state? id with
  | ok s => exact .ok hw rfl
  | error e => exact .error hw e

theorem startFrom_gathers (he : env.Agrees view) (hw : w.graph.Truthful) (alt : Nat)
    (ho : Gathered w.graph out s) (ts : List Transition) :
    Gathers w Gathered (startFrom env alt out ts w) (Thread.startFrom view alt s ts) := by
  induction ts generalizing alt w out s with
  | nil => exact .ok hw ho
  | cons tr rest ih =>
    have i : Config.IsThread w.graph { state := tr.target, alt, stack := StackRef.bottom }
        { state := tr.target, alt } :=
      ⟨rfl, rfl, rfl, rfl, rfl, hw.knows_bottom, hw.stackSet_bottom⟩
    exact (close_gathers he hw ho i false).bind fun x w' y hw' _ hxy => ih hw' (alt + 1) hxy.2

/-- Beginning with the alternatives of a state. -/
theorem startConfigs_gathers (he : env.Agrees view) (hw : w.graph.Truthful) (state : Nat) :
    Gathers w Gathered (startConfigs env state w) (Thread.starts view state) := by
  unfold startConfigs Thread.starts
  rw [he.network]
  refine (lookUp_gathers hw view.network state).bind fun x w' y hw' hext hxy => ?_
  subst hxy
  exact startFrom_gathers he hw' 1 ⟨ConfigSet.lists_emptyOrdered _, rfl⟩ x.transitions

theorem cross_gathers (hn : env.network = view.network) (hw : w.graph.Truthful) (offset : Nat)
    (i : c.IsThread w.graph t) (tr : Transition) :
    Gathers w (fun g d u => d.IsThread g u) (cross env offset c tr w)
      (Thread.cross view.network offset t tr) := by
  unfold cross moveTo Thread.cross
  rw [hn]
  simp only [bind_assoc, pure_bind]
  refine (lookUp_gathers hw view.network tr.target).bind fun x w' y hw' hext hxy => ?_
  subst hxy
  have i' := i.mono hw hw' hext
  refine .ok hw' { i' with state := rfl, commands := ?_, passedLazy := ?_ }
  · exact congrArg (Option.map (Command.pinAll offset)) i.commands
  · exact congrArg (· || _) i.passedLazy

theorem reachFrom_gathers (he : env.Agrees view) (hw : w.graph.Truthful) (offset : Nat)
    (finished : Bool) (i : c.IsThread w.graph t) (ho : Gathered w.graph out s)
    (ts : List Transition) :
    Gathers w (fun g x y => x.1 = y.1 ∧ Gathered g x.2 y.2)
      (reachFrom env offset finished c out ts w)
      (Thread.reachFrom view offset finished t s ts) := by
  induction ts generalizing w out s with
  | nil => exact .ok hw ⟨rfl, ho⟩
  | cons tr rest ih =>
    unfold reachFrom Thread.reachFrom
    refine (cross_gathers he.network hw offset i tr).bind fun d w' u hw' hext j => ?_
    have ho' := ho.mono hw hw' hext
    refine (close_gathers he hw' ho' j finished).bind fun x w'' p hw'' hext' hxp => ?_
    obtain ⟨b, out''⟩ := x
    obtain ⟨rfl, ho''⟩ := hxp
    cases hf : p.finished with
    | true => exact .ok hw'' ⟨rfl, ho''⟩
    | false => exact ih hw'' ((i.mono hw hw' hext).mono hw' hw'' hext') ho''

theorem reachAll_gathers (he : env.Agrees view) (hw : w.graph.Truthful) (offset : Nat) (x : Symbol)
    (done : Option Nat) (ho : Gathered w.graph out s) {cs : List Config} {us : List Thread}
    (hcs : List.Forall₂ (Config.IsThread w.graph) cs us) :
    Gathers w Gathered (reachAll env offset x done out cs w)
      (Thread.reachAll view offset x done s us) := by
  induction cs generalizing w out s done us with
  | nil =>
    obtain rfl := List.forall₂_nil_left_iff.mp hcs
    exact .ok hw ho
  | cons c cs ih =>
    obtain ⟨t, us, i, hrest, rfl⟩ := List.forall₂_cons_left_iff.mp hcs
    unfold reachAll Thread.reachAll
    simp only [i.alt, i.passedLazy, i.state, he.network]
    split
    · exact ih hw done ho hrest
    · refine (lookUp_gathers hw view.network t.state).bind fun q w' _ hw' hext hq => ?_
      subst hq
      have ho' := ho.mono hw hw' hext
      refine (reachFrom_gathers he hw' offset _ (i.mono hw hw' hext) ho' _).bind
        fun r w'' r' hw'' hext' hr => ?_
      obtain ⟨stopped, out''⟩ := r
      obtain ⟨rfl, ho''⟩ := hr
      exact ih hw'' _ ho'' (hrest.imp fun _ _ j => (j.mono hw hw' hext).mono hw' hw'' hext')

/-- Consuming a character. -/
theorem reach_gathers (he : env.Agrees view) (hw : w.graph.Truthful) (offset : Nat) (x : Symbol)
    {configs : ConfigSet} {ts : List Thread}
    (hl : List.Forall₂ (Config.IsThread w.graph) configs.toList ts) :
    Gathers w Gathered (reach env offset x configs w) (Thread.reach view offset x ts) :=
  reachAll_gathers he hw offset x none ⟨ConfigSet.lists_emptyOrdered _, rfl⟩ hl

end Outlook

end AdaptiveLL
