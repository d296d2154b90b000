import Mathlib
import AdaptiveLL.Proofs.Lexing.Collecting

/-! # Where commands are pinned does not matter

A command that is pinned keeps its distance from the start of the token, and threads that differ in
such a distance are different threads.  But what becomes of a thread does not depend on it: consuming a
character leads, distances aside, from the same threads to the same threads.

Leaving distances aside can make several threads of a list one, so lists are compared without repeats
(`Thread.outline`).  A repeat adds nothing, since what it reaches was reached before: the earlier thread
was closed as far, or farther (`Thread.yield_lean`).  That needs all threads of an alternative to follow one
another in the list, and they do (`Thread.sorted_reach`).  So the outline of the threads that are reached
depends on the outline of the threads from which they are reached (`Thread.reach_outline`).
-/
namespace AdaptiveLL

/-- Two outcomes correspond: both are results, related by `R`, or both are the same error. -/
inductive Alongside {α β : Type} (R : α → β → Prop) :
    Except RecognitionError α → Except RecognitionError β → Prop
  | ok {x : α} {y : β} : R x y → Alongside R (.ok x) (.ok y)
  | error (e : RecognitionError) : Alongside R (.error e) (.error e)

namespace Alongside
variable {α β γ δ : Type} {R : α → β → Prop} {Q : γ → δ → Prop}

theorem bind {a : Except RecognitionError α} {b : Except RecognitionError β}
    {k : α → Except RecognitionError γ} {k' : β → Except RecognitionError δ} (h : Alongside R a b)
    (hk : ∀ x y, R x y → Alongside Q (k x) (k' y)) : Alongside Q (a >>= k) (b >>= k') := by
  cases h with
  | ok h => exact hk _ _ h
  | error e => exact .error e

theorem imp {R' : α → β → Prop} {a : Except RecognitionError α} {b : Except RecognitionError β}
    (h : Alongside R a b) (hi : ∀ x y, R x y → R' x y) : Alongside R' a b := by
  cases h with
  | ok h => exact .ok (hi _ _ h)
  | error e => exact .error e

theorem same (a : Except RecognitionError α) : Alongside (· = ·) a a := by
  cases a with
  | ok x => exact .ok rfl
  | error e => exact .error e

theorem exists_ok {a : Except RecognitionError α} {b : Except RecognitionError β} {x : α} (h : Alongside R a b)
    (ha : a = .ok x) : ∃ y, b = .ok y ∧ R x y := by
  cases h with
  | ok h =>
    cases ha
    exact ⟨_, rfl, h⟩
  | error e => cases ha

theorem eq_error {a : Except RecognitionError α} {b : Except RecognitionError β} {e : RecognitionError}
    (h : Alongside R a b) (ha : a = .error e) : b = .error e := by
  cases h with
  | ok h => cases ha
  | error e' =>
    cases ha
    rfl

theorem symm {a : Except RecognitionError α} {b : Except RecognitionError β}
    (h : Alongside R a b) : Alongside (fun y x => R x y) b a := by
  cases h with
  | ok h => exact .ok h
  | error e => exact .error e

theorem trans {R' : β → γ → Prop} {a : Except RecognitionError α} {b : Except RecognitionError β}
    {c : Except RecognitionError γ} (h : Alongside R a b) (h' : Alongside R' b c) :
    Alongside (fun x z => ∃ y, R x y ∧ R' y z) a c := by
  cases h with
  | ok h =>
    cases h' with
    | ok h' => exact .ok ⟨_, h, h'⟩
  | error e =>
    cases h' with
    | error => exact .error e

end Alongside

/-! ## Leaving distances aside -/

namespace Command

/-- A command without the distance to which it is pinned. -/
def unplaced : Command → Command
  | pinned _ command => pinned 0 command
  | command => command

theorem unplaced_pin (offset : Nat) (c : Command) : (c.pin offset).unplaced = c.unplaced.pin 0 := by
  cases c <;> rfl

theorem unplaced_unplaced (c : Command) : c.unplaced.unplaced = c.unplaced := by
  cases c <;> rfl

end Command

namespace Thread

/-- A thread without the distances to which its commands are pinned. -/
def unplaced (t : Thread) : Thread :=
  { t with commands := t.commands.map (List.map Command.unplaced) }

theorem unplaced_unplaced (t : Thread) : t.unplaced.unplaced = t.unplaced := by
  obtain ⟨q, a, k, _ | cs, l⟩ := t
  · rfl
  · simp [unplaced, Function.comp_def, Command.unplaced_unplaced]

@[simp] theorem state_unplaced (t : Thread) : t.unplaced.state = t.state := rfl

@[simp] theorem alt_unplaced (t : Thread) : t.unplaced.alt = t.alt := rfl

@[simp] theorem passedLazy_unplaced (t : Thread) : t.unplaced.passedLazy = t.passedLazy := rfl

/-! ## Closing threads that differ in distances -/

/-- The commands of a thread after others were added. -/
def extendBy (commands : Option (List Command)) : List Command → Option (List Command)
  | [] => commands
  | cs => some (commands.getD [] ++ cs)

theorem extendBy_injective {b : Option (List Command)} {cs ds : List Command}
    (h : extendBy b cs = extendBy b ds) : cs = ds := by
  cases b <;> cases cs <;> cases ds <;> simp_all [extendBy]

theorem extendBy_append (b : Option (List Command)) (cs : List Command) (c : Command) :
    some ((extendBy b cs).getD [] ++ [c]) = extendBy b (cs ++ [c]) := by
  cases b <;> cases cs <;> simp [extendBy]

/-- Threads that came by the same way from threads with the commands `b` and `b'`. -/
structure Rebased (b b' : Option (List Command)) (t u : Thread) : Prop where
  state : t.state = u.state
  alt : t.alt = u.alt
  stack : t.stack = u.stack
  passedLazy : t.passedLazy = u.passedLazy
  commands : ∃ cs, t.commands = extendBy b cs ∧ u.commands = extendBy b' cs

namespace Rebased
variable {b b' : Option (List Command)} {t u t' u' : Thread}

theorem eq_iff (h : Rebased b b' t u) (h' : Rebased b b' t' u') : t = t' ↔ u = u' := by
  obtain ⟨q, a, k, c, l⟩ := t
  obtain ⟨q', a', k', c', l'⟩ := t'
  obtain ⟨h1, h2, h3, h4, cs, rfl, h5⟩ := h
  obtain ⟨h1', h2', h3', h4', cs', rfl, h5'⟩ := h'
  obtain ⟨r, e, m, d, n⟩ := u
  obtain ⟨r', e', m', d', n'⟩ := u'
  simp only at h1 h2 h3 h4 h5 h1' h2' h3' h4' h5'
  subst h1 h2 h3 h4 h5 h1' h2' h3' h4' h5'
  have hcs : extendBy b cs = extendBy b cs' ↔ extendBy b' cs = extendBy b' cs' :=
    ⟨fun h => by rw [extendBy_injective h], fun h => by rw [extendBy_injective h]⟩
  simp only [Thread.mk.injEq, hcs]

theorem unplaced_eq (hb : b.map (List.map Command.unplaced) = b'.map (List.map Command.unplaced))
    (h : Rebased b b' t u) : t.unplaced = u.unplaced := by
  obtain ⟨h1, h2, h3, h4, cs, h5, h6⟩ := h
  have hcommands : (extendBy b cs).map (List.map Command.unplaced) =
      (extendBy b' cs).map (List.map Command.unplaced) := by
    cases b <;> cases b' <;> cases cs <;> simp_all [extendBy]
  simp only [unplaced, h1, h2, h3, h4, h5, h6, hcommands]

end Rebased

/-- A closure under way follows another one, from a thread that differs in distances.  A lean closure,
of an alternative that had finished a token rule before, may collect less. -/
structure Lags (b b' : Option (List Command)) (lean : Bool) (p q : Progress) : Prop where
  visited : List.Forall₂ (Rebased b b') p.visited q.visited
  asked : p.asked = q.asked
  collected : if lean then p.finished ∧ ∀ t ∈ p.collected, t.unplaced ∈ q.collected.map unplaced
    else p.finished = q.finished ∧ p.collected.map unplaced = q.collected.map unplaced

/-- Items that lead on alike. -/
inductive Item.Rebased (b b' : Option (List Command)) : Item → Item → Prop
  | arrive {t u : Thread} : Thread.Rebased b b' t u → Item.Rebased b b' (.arrive t) (.arrive u)
  | follow {t u : Thread} (tr : Transition) : Thread.Rebased b b' t u →
      Item.Rebased b b' (.follow t tr) (.follow u tr)

/-- How visits that lead on alike end. -/
def VisitsLag (b b' : Option (List Command)) (lean : Bool) {α : Type} (R : α → α → Prop)
    (x y : Ending Progress α) : Prop :=
  Matches (fun o p o' q => Lags b b' lean p q ∧ R o o') (Lags b b' lean) x y

variable {b b' : Option (List Command)} {lean : Bool} {p q : Progress} {t u : Thread}

theorem lookUp_lags (h : Lags b b' lean p q) (n : Network) (id : Nat) :
    VisitsLag b b' lean (· = ·) (Outlook.lookUp n id p) (Outlook.lookUp n id q) := by
  unfold Outlook.lookUp
  cases n.state? id with
  | ok s => exact .ok ⟨h, rfl⟩
  | error e => exact .error e h

theorem collect_lags (h : Lags b b' lean p q)
    (hb : b.map (List.map Command.unplaced) = b'.map (List.map Command.unplaced))
    (r : Rebased b b' t u) :
    VisitsLag b b' lean (fun _ _ => True) (collect t p) (collect u q) := by
  refine .ok ⟨{ h with collected := ?_ }, trivial⟩
  have hc := h.collected
  cases lean with
  | true =>
    refine ⟨hc.1, fun v hv => ?_⟩
    rcases List.mem_append.mp hv with hv | hv
    · exact List.mem_map.mpr ((List.mem_map.mp (hc.2 v hv)).imp fun w hw =>
        ⟨List.mem_append_left _ hw.1, hw.2⟩)
    · rw [List.mem_singleton.mp hv, r.unplaced_eq hb]
      exact List.mem_map_of_mem (List.mem_append_right _ (List.mem_singleton_self u))
  | false =>
    refine ⟨hc.1, ?_⟩
    change (p.collected ++ [t]).map unplaced = (q.collected ++ [u]).map unplaced
    rw [List.map_append, List.map_append, hc.2, List.map_singleton, List.map_singleton,
      r.unplaced_eq hb]

/-- Only the closure that may collect more collects something. -/
theorem Lags.collect_right (h : Lags b b' true p q) (u : Thread) :
    Lags b b' true p { q with collected := q.collected ++ [u] } := by
  refine { h with collected := ⟨h.collected.1, fun v hv => ?_⟩ }
  rw [List.map_append]
  exact List.mem_append_left _ (h.collected.2 v hv)

/-- What is collected where something can be consumed.  A lean closure passes over what went through a
decision that prefers to leave. -/
theorem collectIf_lags (h : Lags b b' lean p q)
    (hb : b.map (List.map Command.unplaced) = b'.map (List.map Command.unplaced))
    (r : Rebased b b' t u) (wanted : Bool) {α : Type} (o : α) (o' : α) (R : α → α → Prop)
    (hR : R o o') :
    VisitsLag b b' lean R
      ((if wanted && (!p.finished || !u.passedLazy) then do
          collect t
          pure o
        else pure o : Run Progress α) p)
      ((if wanted && (!q.finished || !u.passedLazy) then do
          collect u
          pure o'
        else pure o' : Run Progress α) q) := by
  have hboth : VisitsLag b b' lean R ((do collect t; pure o : Run Progress α) p)
      ((do collect u; pure o' : Run Progress α) q) :=
    (collect_lags h hb r).bind fun _ p' _ q' hl => .ok ⟨hl.1, hR⟩
  have hc := h.collected
  cases wanted with
  | false => exact .ok ⟨h, hR⟩
  | true =>
    cases lean with
    | false =>
      rw [show p.finished = q.finished from hc.1]
      split
      · exact hboth
      · exact .ok ⟨h, hR⟩
    | true =>
      rw [show p.finished = true from hc.1]
      cases u.passedLazy with
      | false => simpa using hboth
      | true =>
        cases q.finished with
        | false => exact .ok ⟨h.collect_right u, hR⟩
        | true => exact .ok ⟨h, hR⟩

theorem finish_lags (h : Lags b b' lean p q)
    (hb : b.map (List.map Command.unplaced) = b'.map (List.map Command.unplaced))
    (r : Rebased b b' t u) :
    VisitsLag b b' lean (fun _ _ => True) (finish t p) (finish u q) := by
  refine (collect_lags h hb r).bind fun _ p' _ q' hl => ?_
  have hc := hl.1.collected
  refine .ok ⟨{ hl.1 with collected := ?_ }, trivial⟩
  cases lean with
  | true => exact ⟨rfl, hc.2⟩
  | false => exact ⟨rfl, hc.2⟩

theorem mem_iff_of_rebased {ts us : List Thread} (h : List.Forall₂ (Rebased b b') ts us)
    (r : Rebased b b' t u) : t ∈ ts ↔ u ∈ us := by
  induction h with
  | nil => simp
  | cons r' _ ih => rw [List.mem_cons, List.mem_cons, r.eq_iff r', ih]

theorem markVisited_lags (h : Lags b b' lean p q) (r : Rebased b b' t u) :
    VisitsLag b b' lean (· = ·) (markVisited t p) (markVisited u q) := by
  rw [markVisited_apply, markVisited_apply]
  by_cases hu : u ∈ q.visited
  · rw [if_pos ((mem_iff_of_rebased h.visited r).mpr hu), if_pos hu]
    exact .ok ⟨h, rfl⟩
  · rw [if_neg (fun ht => hu ((mem_iff_of_rebased h.visited r).mp ht)), if_neg hu]
    exact .ok ⟨{ h with visited := .cons r h.visited }, rfl⟩

theorem decidePredicate_lags (h : Lags b b' lean p q) (env : Outlook Unit) (rule index : Nat) :
    VisitsLag b b' lean (· = ·) (decidePredicate env rule index p)
      (decidePredicate env rule index q) :=
  .ok ⟨{ h with asked := rfl }, rfl⟩

theorem moveTo_lags (h : Lags b b' lean p q) (r : Rebased b b' t u) (n : Network) (target : Nat) :
    VisitsLag b b' lean (Rebased b b') (moveTo n t target p) (moveTo n u target q) := by
  refine (lookUp_lags h n target).bind fun x p' y q' hl => ?_
  obtain ⟨hl, rfl⟩ := hl
  refine .ok ⟨hl, { r with state := rfl, passedLazy := ?_ }⟩
  exact congrArg (· || _) r.passedLazy

/-- What a visit opens on both sides. -/
def Opens (b b' : Option (List Command)) (o o' : Option (List Item)) : Prop :=
  Option.Rel (List.Forall₂ (Item.Rebased b b')) o o'

theorem arrive_lags (env : Outlook Unit) (h : Lags b b' lean p q)
    (hb : b.map (List.map Command.unplaced) = b'.map (List.map Command.unplaced))
    (r : Rebased b b' t u) :
    VisitsLag b b' lean (Opens b b') (arrive env t p) (arrive env u q) := by
  unfold arrive
  rw [r.state]
  refine (lookUp_lags h env.network u.state).bind fun s p' s' q' hl => ?_
  obtain ⟨hl, rfl⟩ := hl
  split
  · rw [r.stack]
    cases u.stack with
    | nil =>
      refine (finish_lags hl hb r).bind fun _ p'' _ q'' hl' => ?_
      exact .ok ⟨hl'.1, .none⟩
    | cons x rest => exact .ok ⟨hl, .some (.cons (.arrive { r with state := rfl, stack := rfl }) .nil)⟩
  · refine (markVisited_lags hl r).bind fun x p'' y q'' hl' => ?_
    obtain ⟨hl', rfl⟩ := hl'
    have hopen : Opens b b' (some (s.transitions.map (Item.follow t)))
        (some (s.transitions.map (Item.follow u))) := by
      refine .some ?_
      rw [List.forall₂_map_left_iff, List.forall₂_map_right_iff, List.forall₂_same]
      exact fun tr _ => .follow tr r
    cases x with
    | false => exact .ok ⟨hl', .none⟩
    | true =>
      simp only [if_true, r.passedLazy]
      exact collectIf_lags hl' hb r (!s.freeOnly) _ _ _ hopen

/-- What a transition leads to, or nothing on both sides. -/
def Goes (b b' : Option (List Command)) (o o' : Option Thread) : Prop :=
  Option.Rel (Rebased b b') o o'

theorem some_moveTo_lags (h : Lags b b' lean p q) (r : Rebased b b' t u) (n : Network)
    (target : Nat) :
    VisitsLag b b' lean (Goes b b') ((some <$> moveTo n t target : Run _ _) p)
      ((some <$> moveTo n u target : Run _ _) q) := by
  rw [map_eq_pure_bind, map_eq_pure_bind]
  exact (moveTo_lags h r n target).bind fun x p' y q' hl => .ok ⟨hl.1, .some hl.2⟩

theorem withCommand_rebased (r : Rebased b b' t u) (n : Network) (index : Nat) :
    ∃ cs, withCommand n t index = extendBy b cs ∧ withCommand n u index = extendBy b' cs := by
  obtain ⟨cs, ht, hu⟩ := r.commands
  unfold withCommand
  rw [r.stack]
  split
  · cases n.commands[index]? with
    | none => exact ⟨cs, ht, hu⟩
    | some c =>
      refine ⟨cs ++ [c], ?_, ?_⟩
      · rw [ht]
        exact extendBy_append b cs c
      · rw [hu]
        exact extendBy_append b' cs c
  · exact ⟨cs, ht, hu⟩

theorem target?_lags (env : Outlook Unit) (h : Lags b b' lean p q) (r : Rebased b b' t u)
    (tr : Transition) :
    VisitsLag b b' lean (Goes b b') (target? env t tr p) (target? env u tr q) := by
  unfold target?
  cases tr with
  | call target rule level follow =>
    refine (moveTo_lags h r env.network target).bind fun x p' y q' hl => ?_
    exact .ok ⟨hl.1, .some { hl.2 with stack := congrArg (List.cons follow) r.stack }⟩
  | predicate target rule index contextual =>
    refine (decidePredicate_lags h env rule index).bind fun x p' y q' hl => ?_
    obtain ⟨hl, rfl⟩ := hl
    cases x with
    | false => exact .ok ⟨hl, .none⟩
    | true => exact some_moveTo_lags hl r env.network target
  | action target rule index contextual =>
    refine (moveTo_lags h r env.network target).bind fun x p' y q' hl => ?_
    exact .ok ⟨hl.1, .some { hl.2 with commands := withCommand_rebased r env.network index }⟩
  | epsilon | ret => exact some_moveTo_lags h r env.network _
  | symbol | range | set =>
    dsimp only
    split
    · exact some_moveTo_lags h r env.network _
    · exact .ok ⟨h, .none⟩
  | precedence | notSet | wildcard => exact .ok ⟨h, .none⟩

theorem visit_lags (env : Outlook Unit) (h : Lags b b' lean p q)
    (hb : b.map (List.map Command.unplaced) = b'.map (List.map Command.unplaced))
    {x y : Item} (r : Item.Rebased b b' x y) :
    VisitsLag b b' lean (Opens b b') (visit env x p) (visit env y q) := by
  cases r with
  | arrive r => exact arrive_lags env h hb r
  | follow tr r =>
    change VisitsLag b b' lean (Opens b b') (follow env _ tr p) (follow env _ tr q)
    unfold follow
    refine (target?_lags env h r tr).bind fun x p' y q' hl => ?_
    obtain ⟨hl, hxy⟩ := hl
    cases hxy with
    | none => exact .ok ⟨hl, .none⟩
    | some r' => exact arrive_lags env hl hb r'

/-- Threads that differ in distances are closed alike.  If the first one's alternative had finished a
token rule before, and the second one's had not, what the first one collects the second one collects
too. -/
theorem trace_lags (env : Outlook Unit) (h : t.unplaced = u.unplaced) {f f' : Bool}
    (hf : if lean then f = true else f = f') :
    Alongside (fun p q => ∃ b b', Lags b b' lean p q) (trace env f t) (trace env f' u) := by
  obtain ⟨s, a, k, b, l⟩ := t
  obtain ⟨s', a', k', b', l'⟩ := u
  simp only [unplaced, Thread.mk.injEq] at h
  obtain ⟨rfl, rfl, rfl, hb, rfl⟩ := h
  have hbegin : Lags b b' lean { finished := f } { finished := f' } := by
    refine ⟨.nil, rfl, ?_⟩
    cases lean with
    | true => exact ⟨hf, fun _ ht => absurd ht List.not_mem_nil⟩
    | false => exact ⟨hf, rfl⟩
  have hrun : Matches (fun _ p _ q => Lags b b' lean p q) (Lags b b' lean)
      (DepthFirst.run (visit env) (.closureDepthExceeded (env.maxDepth + 1) env.maxDepth)
        env.maxDepth [[.arrive ⟨s, a, k, b, l⟩]] { finished := f })
      (DepthFirst.run (visit env) (.closureDepthExceeded (env.maxDepth + 1) env.maxDepth)
        env.maxDepth [[.arrive ⟨s, a, k, b', l⟩]] { finished := f' }) :=
    DepthFirst.run_matches _ (Lags b b' lean) (fun _ _ _ _ => True)
      (fun _ _ => Item.Rebased b b') (fun _ h => h)
      (fun hw hx => (visit_lags env hw hb hx).imp (fun _ _ _ _ hr => ⟨hr.1, trivial, hr.2⟩)
        fun _ _ hl => hl)
      hbegin (.cons (.cons (.arrive ⟨rfl, rfl, rfl, rfl, [], rfl, rfl⟩) .nil) .nil)
  unfold trace DepthFirst.walk
  generalize DepthFirst.run (visit env) _ _ [[.arrive ⟨s, a, k, b, l⟩]] _ = r at hrun ⊢
  generalize DepthFirst.run (visit env) _ _ [[.arrive ⟨s, a, k, b', l⟩]] _ = r' at hrun ⊢
  cases hrun with
  | ok hl => exact .ok ⟨b, b', hl⟩
  | error e _ => exact .error e

/-! ## What one thread yields -/

/-- What was gathered first, and what was gathered after it. -/
def Sweep.append (s s' : Sweep) : Sweep := ⟨s.threads ++ s'.threads, s.asked || s'.asked⟩

theorem Sweep.append_add (s s' : Sweep) (p : Progress) :
    (s.append s').add p = s.append (s'.add p) := by
  simp [append, add, List.append_assoc, Bool.or_assoc]

theorem Sweep.append_empty (s : Sweep) : s.append {} = s := by
  simp [append]

/-- What was gathered before does not matter. -/
theorem reachFrom_append (env : Outlook Unit) (offset : Nat) (f : Bool) (t : Thread) (s s' : Sweep)
    (ts : List Transition) :
    reachFrom env offset f t (s.append s') ts =
      (reachFrom env offset f t s' ts).map fun r => (r.1, s.append r.2) := by
  induction ts generalizing s' with
  | nil => rfl
  | cons tr rest ih =>
    rw [reachFrom, reachFrom]
    cases cross env.network offset t tr with
    | error e => rfl
    | ok d =>
      change (trace env f d >>= _) = Except.map _ (trace env f d >>= _)
      cases trace env f d with
      | error e => rfl
      | ok p =>
        change (if p.finished then _ else _) = Except.map _ (if p.finished then _ else _)
        rw [Sweep.append_add]
        split
        · rfl
        · exact ih (s'.add p)

/-- What a thread reaches by consuming `x`, and whether its alternative finishes a token rule by it.
`finished` says whether it had before. -/
def yield (env : Outlook Unit) (offset : Nat) (x : Symbol) (finished : Bool) (t : Thread) :
    Except RecognitionError (Bool × Sweep) :=
  if finished && t.passedLazy then .ok (false, {})
  else do
    let q ← env.network.state? t.state
    reachFrom env offset finished t {}
      (q.transitions.filter (Transition.consumes minCodePoint maxCodePoint x))

/-- Consuming a character goes from thread to thread. -/
theorem reachAll_cons (env : Outlook Unit) (offset : Nat) (x : Symbol) (done : Option Nat)
    (s : Sweep) (t : Thread) (rest : List Thread) :
    reachAll env offset x done s (t :: rest) =
      (yield env offset x (done = some t.alt) t >>= fun r =>
        reachAll env offset x (if r.1 then some t.alt else done) (s.append r.2) rest) := by
  rw [reachAll, yield]
  split
  · change _ = reachAll env offset x done (s.append {}) rest
    rw [Sweep.append_empty]
  · cases env.network.state? t.state with
    | error e => rfl
    | ok q =>
      change (reachFrom env offset _ t s _ >>= _) = (reachFrom env offset _ t {} _ >>= _)
      rw [← Sweep.append_empty s, reachFrom_append, Sweep.append_empty]
      cases reachFrom env offset _ t {} _ <;> rfl

/-- What a thread yields is collected behind transitions that consume the character. -/
theorem mem_yield {env : Outlook Unit} {offset : Nat} {x : Symbol} {f : Bool} {r : Bool × Sweep}
    (h : yield env offset x f t = .ok r) (hu : u ∈ r.2.threads) :
    ∃ tr ∈ (env.network.state t.state).transitions, tr.consumes minCodePoint maxCodePoint x ∧ ∃ d p,
      cross env.network offset t tr = .ok d ∧ trace env f d = .ok p ∧ u ∈ p.collected := by
  unfold yield at h
  split at h
  · cases h
    exact absurd hu List.not_mem_nil
  · obtain ⟨q, hq, h⟩ := ok_of_bind h
    obtain ⟨tr, htr, hfrom⟩ := (mem_reachFrom h hu).resolve_left List.not_mem_nil
    obtain ⟨hmem, hx⟩ := List.mem_filter.mp htr
    rw [Network.state_of_state? hq]
    exact ⟨tr, hmem, hx, hfrom⟩

/-- What is reached over a character is yielded by one of the threads. -/
theorem mem_reachAll {env : Outlook Unit} {offset : Nat} {x : Symbol} {done : Option Nat} {s s' : Sweep}
    {ts : List Thread} (h : reachAll env offset x done s ts = .ok s') (hu : u ∈ s'.threads) :
    u ∈ s.threads ∨ ∃ t ∈ ts, ∃ f r, yield env offset x f t = .ok r ∧ u ∈ r.2.threads := by
  induction ts generalizing done s with
  | nil =>
    cases h
    exact .inl hu
  | cons t rest ih =>
    rw [reachAll_cons] at h
    obtain ⟨r, hr, h⟩ := ok_of_bind h
    rcases ih h with hu | ⟨t', ht', hfrom⟩
    · rcases List.mem_append.mp hu with hu | hu
      · exact .inl hu
      · exact .inr ⟨t, List.mem_cons_self, _, r, hr, hu⟩
    · exact .inr ⟨t', List.mem_cons_of_mem t ht', hfrom⟩

/-- Threads that differ in distances, moved over the same character at any two distances. -/
theorem cross_unplaced (n : Network) (offset offset' : Nat) (h : t.unplaced = u.unplaced)
    (tr : Transition) :
    Alongside (fun d e => d.unplaced = e.unplaced) (cross n offset t tr) (cross n offset' u tr) := by
  unfold cross
  refine (Alongside.same (n.state? tr.target)).bind fun q q' hq => ?_
  subst hq
  refine .ok ?_
  obtain ⟨s, a, k, b, l⟩ := t
  obtain ⟨s', a', k', b', l'⟩ := u
  simp only [unplaced, Thread.mk.injEq] at h ⊢
  obtain ⟨rfl, rfl, rfl, hb, rfl⟩ := h
  refine ⟨trivial, rfl, rfl, ?_, rfl⟩
  have hpin : ∀ (o : Nat) (c : Option (List Command)),
      (c.map (Command.pinAll o)).map (List.map Command.unplaced) =
        (c.map (List.map Command.unplaced)).map (List.map (Command.pin 0)) := by
    intro o c
    cases c with
    | none => rfl
    | some cs => simp [Command.pinAll, Function.comp_def, Command.unplaced_pin]
  rw [hpin, hpin, hb]

/-- Sweeps that differ in distances only. -/
structure Sweep.Same (s s' : Sweep) : Prop where
  threads : s.threads.map unplaced = s'.threads.map unplaced
  asked : s.asked = s'.asked

theorem Sweep.Same.add {s s' : Sweep} (h : Same s s') {b b' : Option (List Command)}
    (hl : Lags b b' false p q) : Same (s.add p) (s'.add q) where
  threads := by
    rw [Sweep.add, Sweep.add, List.map_append, List.map_append, h.threads, hl.collected.2]
  asked := by
    rw [Sweep.add, Sweep.add, h.asked, hl.asked]

theorem reachFrom_same (env : Outlook Unit) (offset offset' : Nat) (f : Bool)
    (h : t.unplaced = u.unplaced) {s s' : Sweep} (hs : s.Same s') (ts : List Transition) :
    Alongside (fun r r' => r.1 = r'.1 ∧ r.2.Same r'.2) (reachFrom env offset f t s ts)
      (reachFrom env offset' f u s' ts) := by
  induction ts generalizing s s' with
  | nil => exact .ok ⟨rfl, hs⟩
  | cons tr rest ih =>
    rw [reachFrom, reachFrom]
    refine (cross_unplaced env.network offset offset' h tr).bind fun d e hde => ?_
    have hlag : Alongside (fun p q => ∃ b b', Lags b b' false p q) (trace env f d)
        (trace env f e) := trace_lags env hde rfl
    refine hlag.bind fun p q hpq => ?_
    obtain ⟨b, b', hl⟩ := hpq
    rw [show p.finished = q.finished from hl.collected.1]
    split
    · exact .ok ⟨rfl, hs.add hl⟩
    · exact ih (hs.add hl)

/-- What a thread yields does not depend on distances. -/
theorem yield_same (env : Outlook Unit) (offset offset' : Nat) (x : Symbol) (f : Bool)
    (h : t.unplaced = u.unplaced) :
    Alongside (fun r r' => r.1 = r'.1 ∧ r.2.Same r'.2) (yield env offset x f t)
      (yield env offset' x f u) := by
  have hstate : t.unplaced.state = u.unplaced.state := congrArg Thread.state h
  have hlazy : t.unplaced.passedLazy = u.unplaced.passedLazy := congrArg Thread.passedLazy h
  rw [state_unplaced, state_unplaced] at hstate
  rw [passedLazy_unplaced, passedLazy_unplaced] at hlazy
  unfold yield
  rw [hstate, hlazy]
  split
  · exact .ok ⟨rfl, rfl, rfl⟩
  · refine (Alongside.same (env.network.state? u.state)).bind fun q q' hq => ?_
    subst hq
    exact reachFrom_same env offset offset' f h ⟨rfl, rfl⟩ _

/-- What was gathered is among other threads, distances aside, and asks only if they do. -/
structure Sweep.Within (s s' : Sweep) : Prop where
  threads : ∀ t ∈ s.threads, t.unplaced ∈ s'.threads.map unplaced
  asked : s.asked → s'.asked

theorem Sweep.within_empty (s : Sweep) : Within {} s := ⟨fun _ h => absurd h List.not_mem_nil, nofun⟩

theorem Sweep.Within.append_left {s s' : Sweep} (h : Within s s') (before : Sweep) :
    Within s (before.append s') where
  threads t ht := by
    rw [append, List.map_append]
    exact List.mem_append_right _ (h.threads t ht)
  asked ha := by
    rw [append, h.asked ha, Bool.or_true]

theorem Sweep.Within.append_right {s s' : Sweep} (h : Within s s') (after : Sweep) :
    Within s (s'.append after) where
  threads t ht := by
    rw [append, List.map_append]
    exact List.mem_append_left _ (h.threads t ht)
  asked ha := by
    rw [append, h.asked ha, Bool.true_or]

/-- A closure that was gathered first is within what is gathered from there on. -/
theorem within_reachFrom {env : Outlook Unit} {offset : Nat} {f : Bool} {s s' : Sweep}
    (h : s'.Within s) {ts : List Transition} {r : Bool × Sweep}
    (hr : reachFrom env offset f t s ts = .ok r) : s'.Within r.2 := by
  rw [← Sweep.append_empty s, reachFrom_append] at hr
  obtain ⟨r', -, hr⟩ := ok_of_bind hr
  cases hr
  exact h.append_right r'.2

/-- After its alternative has finished a token rule a thread yields nothing that it had not yielded
before. -/
theorem yield_lean {env : Outlook Unit} {offset : Nat} {x : Symbol} (t : Thread)
    {r : Bool × Sweep} (hr : yield env offset x false t = .ok r) :
    ∃ r', yield env offset x true t = .ok r' ∧ r'.2.Within r.2 := by
  unfold yield at hr ⊢
  rw [Bool.false_and, if_neg Bool.false_ne_true] at hr
  split
  · exact ⟨_, rfl, Sweep.within_empty _⟩
  · obtain ⟨q, hq, hr⟩ := ok_of_bind hr
    rw [hq]
    change ∃ r', reachFrom env offset true t {} _ = .ok r' ∧ _
    generalize q.transitions.filter (Transition.consumes minCodePoint maxCodePoint x) = ts at hr ⊢
    cases ts with
    | nil => exact ⟨_, rfl, Sweep.within_empty _⟩
    | cons tr rest =>
      obtain ⟨d, hd, hr⟩ := ok_of_bind hr
      obtain ⟨p, hp, hr⟩ := ok_of_bind hr
      rw [reachFrom, hd]
      change ∃ r', (trace env true d >>= _) = _ ∧ _
      have hlag : Alongside (fun p q => ∃ b b', Lags b b' true p q) (trace env true d)
          (trace env false d) := trace_lags env rfl rfl
      rw [hp] at hlag
      generalize trace env true d = a at hlag ⊢
      cases hlag with
      | @ok p' _ hl =>
        obtain ⟨b, b', hl⟩ := hl
        have hwithin : Sweep.Within (({} : Sweep).add p') (({} : Sweep).add p) :=
          ⟨hl.collected.2, fun ha => (congrArg (false || ·) hl.asked).symm.trans ha⟩
        change ∃ r', (if p'.finished then _ else _) = Except.ok r' ∧ _
        rw [if_pos hl.collected.1]
        refine ⟨_, rfl, ?_⟩
        split at hr
        · cases hr
          exact hwithin
        · exact within_reachFrom hwithin hr

/-! ## Lists without repeats -/

theorem mem_put {ts : List Thread} : u ∈ put ts t ↔ u ∈ ts ∨ u = t := by
  unfold put
  split
  · next ht =>
    constructor
    · exact .inl
    · rintro (h | rfl)
      · exact h
      · exact ht
  · rw [List.mem_append, List.mem_singleton]

theorem mem_putAll {ts us : List Thread} : t ∈ putAll ts us ↔ t ∈ ts ∨ t ∈ us := by
  induction us generalizing ts with
  | nil => simp [putAll]
  | cons u us ih =>
    change t ∈ putAll (put ts u) us ↔ _
    rw [ih, mem_put, List.mem_cons, or_assoc]

theorem putAll_cons (ts us : List Thread) (u : Thread) :
    putAll ts (u :: us) = putAll (put ts u) us := rfl

/-- Adding what is there changes nothing. -/
theorem putAll_of_subset {ts us : List Thread} (h : ∀ u ∈ us, u ∈ ts) : putAll ts us = ts := by
  induction us with
  | nil => rfl
  | cons u us ih =>
    rw [putAll_cons, put, if_pos (h u List.mem_cons_self)]
    exact ih fun v hv => h v (List.mem_cons_of_mem u hv)

/-- The threads of a list in order of their first appearance, distances aside. -/
def outline (ts : List Thread) : List Thread := putAll [] (ts.map unplaced)

theorem outline_append (ts us : List Thread) :
    outline (ts ++ us) = putAll (outline ts) (us.map unplaced) := by
  rw [outline, outline, List.map_append, putAll_append]

theorem mem_outline {ts : List Thread} : t ∈ outline ts ↔ t ∈ ts.map unplaced := by
  rw [outline, mem_putAll]
  simp

theorem putAll_concat (ts us : List Thread) (u : Thread) :
    putAll ts (us ++ [u]) = put (putAll ts us) u := by
  rw [putAll_append]
  rfl

/-- Repeats may be dropped before distances. -/
theorem outline_putAll (ts : List Thread) : outline (putAll [] ts) = outline ts := by
  induction ts using List.reverseRecOn with
  | nil => rfl
  | append_singleton ts t ih =>
    rw [putAll_concat, outline_append, ← ih, put]
    split
    · next ht =>
      refine (putAll_of_subset fun u hu => ?_).symm
      rw [List.map_singleton, List.mem_singleton] at hu
      rw [hu, mem_outline]
      exact List.mem_map_of_mem ht
    · rw [outline_append]

/-! ## Alternatives in order -/

/-- The threads of each alternative follow one another. -/
def Sorted (ts : List Thread) : Prop := ts.Pairwise fun t u => t.alt ≤ u.alt

/-- What a closure collects has the alternative of the thread that was closed. -/
theorem alt_of_trace {env : Outlook Unit} {f : Bool} (h : trace env f t = .ok p) :
    ∀ u ∈ p.collected, u.alt = t.alt := by
  have hkept : Kept env fun u => u.alt = t.alt := ⟨fun hu _ _ => hu, fun hu _ _ _ => hu⟩
  exact fun u hu => (trace_keeps hkept rfl h u hu).1

/-- What a thread yields has its alternative. -/
theorem alt_of_yield {env : Outlook Unit} {offset : Nat} {x : Symbol} {f : Bool}
    {r : Bool × Sweep} (h : yield env offset x f t = .ok r) : ∀ u ∈ r.2.threads, u.alt = t.alt := by
  intro u hu
  obtain ⟨tr, -, -, d, p, hd, hp, hu⟩ := mem_yield h hu
  exact (alt_of_trace hp u hu).trans (eq_of_cross hd).2

theorem Sorted.append {ts us : List Thread} {a : Nat} (h : Sorted ts) (hts : ∀ t ∈ ts, t.alt ≤ a)
    (hus : ∀ u ∈ us, u.alt = a) : Sorted (ts ++ us) := by
  refine List.pairwise_append.mpr ⟨h, List.pairwise_of_forall_mem_list fun u hu v hv => ?_, ?_⟩
  · rw [hus u hu, hus v hv]
  · intro t ht u hu
    rw [hus u hu]
    exact hts t ht

theorem sorted_reachAll {env : Outlook Unit} {offset : Nat} {x : Symbol} {done : Option Nat}
    {s s' : Sweep} {ts : List Thread} (hs : Sorted s.threads) (hts : Sorted ts)
    (hle : ∀ u ∈ s.threads, ∀ t ∈ ts, u.alt ≤ t.alt)
    (h : reachAll env offset x done s ts = .ok s') : Sorted s'.threads := by
  induction ts generalizing s done with
  | nil =>
    cases h
    exact hs
  | cons t rest ih =>
    obtain ⟨hhead, htail⟩ := List.pairwise_cons.mp hts
    rw [reachAll_cons] at h
    obtain ⟨r, hr, h⟩ := ok_of_bind h
    have halt := alt_of_yield hr
    refine ih (hs.append (fun u hu => hle u hu t List.mem_cons_self) halt) htail ?_ h
    intro u hu v hv
    rcases List.mem_append.mp hu with hu | hu
    · exact hle u hu v (List.mem_cons_of_mem t hv)
    · rw [halt u hu]
      exact hhead v hv

/-- Consuming a character keeps the alternatives in order. -/
theorem sorted_reach {env : Outlook Unit} {offset : Nat} {x : Symbol} {ts : List Thread}
    {s : Sweep} (hts : Sorted ts) (h : reach env offset x ts = .ok s) : Sorted s.threads :=
  sorted_reachAll (s := {}) .nil hts (fun _ hu => absurd hu List.not_mem_nil) h

theorem sorted_startFrom {env : Outlook Unit} {alt : Nat} {s s' : Sweep} {ts : List Transition}
    (hs : Sorted s.threads) (hlt : ∀ u ∈ s.threads, u.alt < alt)
    (h : startFrom env alt s ts = .ok s') : Sorted s'.threads := by
  induction ts generalizing alt s with
  | nil =>
    cases h
    exact hs
  | cons tr rest ih =>
    obtain ⟨p, hp, h⟩ := ok_of_bind h
    have halt := alt_of_trace hp
    refine ih (hs.append (fun u hu => (hlt u hu).le) halt) (fun u hu => ?_) h
    rcases List.mem_append.mp hu with hu | hu
    · exact Nat.lt_succ_of_lt (hlt u hu)
    · rw [halt u hu]
      exact Nat.lt_succ_self alt

/-- Alternatives begin in order. -/
theorem sorted_starts {env : Outlook Unit} {state : Nat} {s : Sweep}
    (h : starts env state = .ok s) : Sorted s.threads := by
  obtain ⟨q, -, h⟩ := ok_of_bind h
  exact sorted_startFrom (s := {}) .nil (fun _ hu => absurd hu List.not_mem_nil) h

theorem sublist_putAll (ts us : List Thread) : (putAll ts us).Sublist (ts ++ us) := by
  induction us generalizing ts with
  | nil => simp [putAll]
  | cons u us ih =>
    rw [putAll_cons]
    refine (ih (put ts u)).trans ?_
    unfold put
    split
    · exact (List.sublist_cons_self u us).append_left ts
    · rw [List.append_assoc]
      exact List.Sublist.refl _

/-- Dropping repeats keeps the alternatives in order. -/
theorem Sorted.putAll {ts : List Thread} (h : Sorted ts) : Sorted (putAll [] ts) :=
  h.sublist (sublist_putAll [] ts)

/-! ## What is reached depends on the outline -/

/-- The threads of a list that are not among those seen, in order of their first appearance, distances
aside. -/
def fresh (seen : List Thread) : List Thread → List Thread
  | [] => []
  | t :: rest =>
    if t.unplaced ∈ seen then fresh seen rest
    else t.unplaced :: fresh (seen ++ [t.unplaced]) rest

theorem putAll_eq_fresh (seen ts : List Thread) :
    putAll seen (ts.map unplaced) = seen ++ fresh seen ts := by
  induction ts generalizing seen with
  | nil => simp [fresh, putAll]
  | cons t rest ih =>
    rw [List.map_cons, putAll_cons, ih, fresh, put]
    split
    · rfl
    · rw [List.append_assoc]
      rfl

theorem outline_eq_fresh (ts : List Thread) : outline ts = fresh [] ts := putAll_eq_fresh [] ts

/-- Sweeps with one outline. -/
structure Sweep.Alike (s s' : Sweep) : Prop where
  outline : outline s.threads = outline s'.threads
  asked : s.asked = s'.asked

theorem Sweep.Same.append {s s' d d' : Sweep} (h : s.Alike s') (hd : d.Same d') :
    (s.append d).Alike (s'.append d') where
  outline := by
    rw [Sweep.append, Sweep.append, outline_append, outline_append, h.outline, hd.threads]
  asked := by
    rw [Sweep.append, Sweep.append, h.asked, hd.asked]

/-- Appending what was gathered before changes nothing. -/
theorem Sweep.Alike.append_within {s s' d : Sweep} (h : s.Alike s') (hd : d.Within s') :
    (s.append d).Alike s' where
  outline := by
    rw [Sweep.append, outline_append, h.outline]
    refine putAll_of_subset fun u hu => ?_
    obtain ⟨v, hv, rfl⟩ := List.mem_map.mp hu
    exact mem_outline.mpr (hd.threads v hv)
  asked := by
    rw [Sweep.append, h.asked]
    cases hda : d.asked with
    | false => exact Bool.or_false _
    | true => rw [hd.asked hda, Bool.or_true]

/-- What a thread seen before would yield again was gathered; and if its alternative has not finished a
token rule yet, the thread does not finish one. -/
structure Spent (env : Outlook Unit) (offset : Nat) (x : Symbol) (done : Option Nat) (s : Sweep)
    (u : Thread) : Prop where
  lean : ∃ r, yield env offset x true u = .ok r ∧ r.2.Within s
  full : done = some u.alt ∨ ∃ r, yield env offset x false u = .ok r ∧ r.1 = false ∧ r.2.Within s

theorem Spent.mono {env : Outlook Unit} {offset : Nat} {x : Symbol} {done done' : Option Nat}
    {s : Sweep} (h : Spent env offset x done s u) (after : Sweep)
    (hdone : done' = done ∨ done' = some u.alt) : Spent env offset x done' (s.append after) u where
  lean := by
    obtain ⟨r, hr, hw⟩ := h.lean
    exact ⟨r, hr, hw.append_right after⟩
  full := by
    rcases hdone with rfl | hdone
    · refine h.full.imp id ?_
      rintro ⟨r, hr, hf, hw⟩
      exact ⟨r, hr, hf, hw.append_right after⟩
    · exact .inl hdone

/-- A thread that has just yielded is spent. -/
theorem spent_of_yield {env : Outlook Unit} {offset : Nat} {x : Symbol} {done : Option Nat}
    {r : Bool × Sweep} (h : yield env offset x (done = some t.alt) t = .ok r) (before : Sweep) :
    Spent env offset x (if r.1 then some t.alt else done) (before.append r.2) t := by
  have hself : r.2.Within r.2 := ⟨fun u hu => List.mem_map_of_mem hu, id⟩
  by_cases hdone : done = some t.alt
  · simp only [hdone, decide_true] at h
    refine ⟨⟨r, h, hself.append_left before⟩, .inl ?_⟩
    split
    · rfl
    · exact hdone
  · simp only [hdone, decide_false] at h
    obtain ⟨r', hr', hw⟩ := yield_lean t h
    refine ⟨⟨r', hr', hw.append_left before⟩, ?_⟩
    cases hr : r.1 with
    | true => exact .inl (if_pos rfl)
    | false => exact .inr ⟨r, h, hr, hself.append_left before⟩

/-- Repeats and distances do not matter from anywhere on. -/
theorem reachAll_fresh (env : Outlook Unit) (offset offset' : Nat) (x : Symbol) {ts seen : List Thread}
    {done : Option Nat} {s s' : Sweep} (hts : Sorted ts) (hs : s.Alike s')
    (hle : ∀ u ∈ seen, ∀ t ∈ ts, u.alt ≤ t.alt)
    (hspent : ∀ u ∈ seen, (∃ t ∈ ts, t.alt = u.alt) → Spent env offset' x done s' u) :
    Alongside Sweep.Alike (reachAll env offset x done s ts)
      (reachAll env offset' x done s' (fresh seen ts)) := by
  induction ts generalizing seen done s s' with
  | nil => exact .ok hs
  | cons t rest ih =>
    obtain ⟨hhead, htail⟩ := List.pairwise_cons.mp hts
    have hlive : ∀ {u : Thread}, u.alt ≤ t.alt → (∃ v ∈ rest, v.alt = u.alt) → t.alt = u.alt := by
      rintro u hu ⟨v, hv, hvu⟩
      exact le_antisymm (hvu ▸ hhead v hv) hu
    rw [reachAll_cons, fresh]
    split
    · next hseen =>
      -- A repeat: what it yields is there.
      have hsp := hspent _ hseen ⟨t, List.mem_cons_self, rfl⟩
      have hsame := yield_same env offset offset' x (done = some t.alt)
        (unplaced_unplaced t).symm
      have hagain : ∃ r', yield env offset' x (done = some t.alt) t.unplaced = .ok r' ∧
          r'.2.Within s' ∧ (if r'.1 then some t.alt else done) = done := by
        by_cases hdone : done = some t.alt
        · obtain ⟨r', hr', hw⟩ := hsp.lean
          refine ⟨r', by simpa only [hdone, decide_true] using hr', hw, ?_⟩
          rw [hdone, ite_self]
        · obtain hd | ⟨r', hr', hf, hw⟩ := hsp.full
          · exact absurd hd hdone
          · refine ⟨r', by simpa only [hdone, decide_false] using hr', hw, ?_⟩
            rw [hf, if_neg Bool.false_ne_true]
      obtain ⟨r', hr', hw, hdone⟩ := hagain
      rw [hr'] at hsame
      generalize yield env offset x (done = some t.alt) t = a at hsame ⊢
      cases hsame with
      | @ok r _ hrr =>
        obtain ⟨hflag, hsweep⟩ := hrr
        have hw' : r.2.Within s' := by
          refine ⟨fun u hu => ?_, fun ha => hw.asked (hsweep.asked.symm.trans ha)⟩
          have hu' : u.unplaced ∈ r'.2.threads.map unplaced :=
            hsweep.threads ▸ List.mem_map_of_mem hu
          obtain ⟨v, hv, hvu⟩ := List.mem_map.mp hu'
          exact hvu ▸ hw.threads v hv
        change Alongside _ (reachAll env offset x (if r.1 then some t.alt else done) _ rest) _
        rw [hflag, hdone]
        exact ih htail (hs.append_within hw') (fun u hu v hv => hle u hu v (List.mem_cons_of_mem t hv))
          fun u hu ⟨v, hv, hvu⟩ => hspent u hu ⟨v, List.mem_cons_of_mem t hv, hvu⟩
    · rw [reachAll_cons]
      have hsame := yield_same env offset offset' x (done = some t.alt)
        (unplaced_unplaced t).symm
      generalize yield env offset x (done = some t.alt) t = a at hsame ⊢
      rw [alt_unplaced]
      cases hy : yield env offset' x (done = some t.alt) t.unplaced with
      | error e =>
        rw [hy] at hsame
        cases hsame with
        | error => exact .error e
      | ok r' =>
        rw [hy] at hsame
        cases hsame with
        | @ok r _ hrr =>
          obtain ⟨hflag, hsweep⟩ := hrr
          change Alongside _ (reachAll env offset x (if r.1 then some t.alt else done) _ rest)
            (reachAll env offset' x (if r'.1 then some t.alt else done) _ _)
          rw [hflag]
          refine ih htail (Sweep.Same.append hs hsweep) (fun u hu v hv => ?_) fun u hu hl => ?_
          · rcases List.mem_append.mp hu with hu | hu
            · exact hle u hu v (List.mem_cons_of_mem t hv)
            · rw [List.mem_singleton.mp hu]
              exact hhead v hv
          · rcases List.mem_append.mp hu with hu | hu
            · have halt := hlive (hle u hu t List.mem_cons_self) hl
              refine (hspent u hu ⟨t, List.mem_cons_self, halt⟩).mono _ ?_
              split
              · exact .inr (congrArg some halt)
              · exact .inl rfl
            · rw [List.mem_singleton.mp hu]
              exact spent_of_yield (t := t.unplaced) hy s'

/-- What is reached depends on the outline of the threads that consume, not on the distances to which
commands were pinned and are pinned now. -/
theorem reach_outline (env : Outlook Unit) (offset offset' : Nat) (x : Symbol)
    {ts us : List Thread} (hts : Sorted ts) (hus : Sorted us) (h : outline ts = outline us) :
    Alongside Sweep.Alike (reach env offset x ts) (reach env offset' x us) := by
  have hempty : Sweep.Alike {} {} := ⟨rfl, rfl⟩
  have hts' : Alongside Sweep.Alike (reach env offset x ts) (reachAll env 0 x none {} (fresh [] ts)) :=
    reachAll_fresh env offset 0 x hts hempty nofun nofun
  have hus' : Alongside Sweep.Alike (reach env offset' x us)
      (reachAll env 0 x none {} (fresh [] us)) :=
    reachAll_fresh env offset' 0 x hus hempty nofun nofun
  rw [← outline_eq_fresh] at hts' hus'
  rw [← h] at hus'
  refine (hts'.trans hus'.symm).imp ?_
  rintro s s' ⟨s'', h₁, h₂⟩
  exact ⟨h₁.outline.trans h₂.outline.symm, h₁.asked.trans h₂.asked.symm⟩

/-! ## Where no predicate was met -/

/-- Outlooks that differ in the answers to predicates only. -/
structure SameButAnswers (env env' : Outlook Unit) : Prop where
  network : env.network = env'.network
  endIsFree : env.endIsFree = env'.endIsFree
  maxDepth : env.maxDepth = env'.maxDepth

variable {env env' : Outlook Unit}

theorem asked_of_arrive {r : Except RecognitionError (Option (List Item))}
    (h : arrive env t p = (r, q)) : q.asked = p.asked := by
  rw [arrive_apply] at h
  cases hs : env.network.state? t.state with
  | error e =>
    rw [hs] at h
    cases h
    rfl
  | ok s =>
    rw [hs] at h
    dsimp only at h
    split at h
    · split at h <;> (cases h; rfl)
    · split at h <;> (cases h; rfl)

theorem asked_of_visit {i : Item} {r : Except RecognitionError (Option (List Item))}
    (h : visit env i p = (r, q)) (hp : p.asked = true) : q.asked = true := by
  cases i with
  | arrive t => exact (asked_of_arrive h).trans hp
  | follow t tr =>
    rw [visit_follow] at h
    split at h
    · cases h
      exact Bool.or_eq_true_iff.mpr (.inl hp)
    · cases h
      exact Bool.or_eq_true_iff.mpr (.inl hp)
    · exact (asked_of_arrive h).trans (Bool.or_eq_true_iff.mpr (.inl hp))

theorem arrive_congr (he : SameButAnswers env env') (t : Thread) (p : Progress) :
    arrive env t p = arrive env' t p := by
  rw [arrive_apply, arrive_apply, he.network]

/-- A visit that meets no predicate does not depend on the answers. -/
theorem visit_congr (he : SameButAnswers env env') {i : Item}
    {r : Except RecognitionError (Option (List Item))} (h : visit env i p = (r, q))
    (hq : q.asked ≠ true) : visit env' i p = (r, q) := by
  cases i with
  | arrive t => exact (arrive_congr he t p).symm.trans h
  | follow t tr =>
    have hasks : asks tr = false := by
      refine Bool.eq_false_iff.mpr fun hasks => hq ?_
      rw [visit_follow, hasks] at h
      split at h
      · cases h
        exact Bool.or_true _
      · cases h
        exact Bool.or_true _
      · exact (asked_of_arrive h).trans (Bool.or_true _)
    have hnext : next? env' t tr = next? env t tr := by
      unfold next? isFree
      rw [he.network, he.endIsFree]
      cases tr <;> first | rfl | cases hasks
    rw [visit_follow, hnext]
    rw [visit_follow] at h
    simp only [← arrive_congr he]
    exact h

/-- A closure that meets no predicate does not depend on the answers. -/
theorem trace_congr (he : SameButAnswers env env') {f : Bool} (h : trace env f t = .ok p)
    (hp : p.asked = false) : trace env' f t = .ok p := by
  have hrun := DepthFirst.run_congr (fun _ _ _ _ hv hq => visit_congr he hv hq)
    (fun _ _ _ _ hv hq => asked_of_visit hv hq) (run_of_trace h) (Bool.eq_false_iff.mp hp)
  unfold trace DepthFirst.walk
  rw [← he.maxDepth, hrun]

theorem asked_of_add {s : Sweep} (h : (s.add p).asked = false) : s.asked = false ∧ p.asked = false :=
  Bool.or_eq_false_iff.mp h

theorem startFrom_congr (he : SameButAnswers env env') {alt : Nat} {s s' : Sweep}
    {ts : List Transition} (h : startFrom env alt s ts = .ok s') (hs : s'.asked = false) :
    startFrom env' alt s ts = .ok s' ∧ s.asked = false := by
  induction ts generalizing alt s with
  | nil =>
    cases h
    exact ⟨rfl, hs⟩
  | cons tr rest ih =>
    obtain ⟨p, hp, h⟩ := ok_of_bind h
    obtain ⟨hrest, hadd⟩ := ih h
    obtain ⟨hs, hask⟩ := asked_of_add hadd
    rw [startFrom, trace_congr he hp hask]
    exact ⟨hrest, hs⟩

/-- A beginning that meets no predicate does not depend on the answers. -/
theorem starts_congr (he : SameButAnswers env env') {state : Nat} {s : Sweep}
    (h : starts env state = .ok s) (hs : s.asked = false) : starts env' state = .ok s := by
  obtain ⟨q, hq, h⟩ := ok_of_bind h
  rw [starts, ← he.network, hq]
  exact (startFrom_congr he h hs).1

theorem reachFrom_congr (he : SameButAnswers env env') {offset : Nat} {f : Bool} {s : Sweep}
    {ts : List Transition} {r : Bool × Sweep} (h : reachFrom env offset f t s ts = .ok r)
    (hs : r.2.asked = false) : reachFrom env' offset f t s ts = .ok r ∧ s.asked = false := by
  induction ts generalizing s with
  | nil =>
    cases h
    exact ⟨rfl, hs⟩
  | cons tr rest ih =>
    obtain ⟨d, hd, h⟩ := ok_of_bind h
    obtain ⟨p, hp, h⟩ := ok_of_bind h
    rw [reachFrom, ← he.network, hd]
    change (trace env' f d >>= _) = _ ∧ _
    have hquiet : (s.add p).asked = false → (trace env' f d >>= fun p =>
        if p.finished then .ok (true, s.add p) else reachFrom env' offset f t (s.add p) rest) =
        (if p.finished then .ok (true, s.add p)
          else reachFrom env' offset f t (s.add p) rest) ∧ s.asked = false := by
      intro hadd
      obtain ⟨hs, hask⟩ := asked_of_add hadd
      rw [trace_congr he hp hask]
      exact ⟨rfl, hs⟩
    split at h
    · next hf =>
      cases h
      obtain ⟨heq, hs⟩ := hquiet hs
      rw [if_pos hf] at heq
      exact ⟨heq, hs⟩
    · next hf =>
      obtain ⟨hrest, hadd⟩ := ih h
      obtain ⟨heq, hs⟩ := hquiet hadd
      rw [if_neg hf, hrest] at heq
      exact ⟨heq, hs⟩

theorem reachAll_congr (he : SameButAnswers env env') {offset : Nat} {x : Symbol} {done : Option Nat}
    {s s' : Sweep} {ts : List Thread} (h : reachAll env offset x done s ts = .ok s')
    (hs : s'.asked = false) : reachAll env' offset x done s ts = .ok s' ∧ s.asked = false := by
  induction ts generalizing s done with
  | nil =>
    cases h
    exact ⟨rfl, hs⟩
  | cons t rest ih =>
    rw [reachAll] at h ⊢
    split at h
    · next hskip =>
      rw [if_pos hskip]
      exact ih h
    · next hskip =>
      obtain ⟨q, hq, h⟩ := ok_of_bind h
      obtain ⟨r, hr, h⟩ := ok_of_bind h
      obtain ⟨hrest, hask⟩ := ih h
      obtain ⟨hfrom, hs⟩ := reachFrom_congr he hr hask
      rw [if_neg hskip, ← he.network, hq]
      change (reachFrom env' offset _ t s _ >>= _) = _ ∧ _
      rw [hfrom]
      exact ⟨hrest, hs⟩

/-- Consuming a character without meeting a predicate does not depend on the answers. -/
theorem reach_congr (he : SameButAnswers env env') {offset : Nat} {x : Symbol} {ts : List Thread}
    {s : Sweep} (h : reach env offset x ts = .ok s) (hs : s.asked = false) :
    reach env' offset x ts = .ok s :=
  (reachAll_congr he h hs).1

end Thread
end AdaptiveLL
