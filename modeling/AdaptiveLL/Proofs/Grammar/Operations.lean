import Mathlib
import AdaptiveLL.Proofs.Grammar.Laid

/-! # Operations of a layout

An element is laid out by operations that append states to a network and connect them.
`Network.ways` gives the transitions of a state by its number, also where there is no such state;
making a state does not change them, and connecting one appends to them.  `Layout.Grows` says what
else is left alone.

`Layout.Adds` follows operations one after another: how many states they made, and which transitions
they added to each state.
-/
namespace AdaptiveLL

/-- The transitions of a state. -/
def Network.ways (n : Network) (q : Nat) : List Transition := (n.state q).transitions

/-- How names of rules are resolved by the tables of a network. -/
def Network.callees (n : Network) : Callees := fun name =>
  (n.rule? name).map fun i => (n.ruleStarts[i]?.getD 0, i)

namespace StateKind

/-- Whether this is the role of a state within a rule's body. -/
def isInner : StateKind → Bool
  | ruleStart | ruleStop | tokensStart => false
  | _ => true

end StateKind

namespace Layout
variable {α β : Type} {n n' n'' : Network} {rule b : Nat} {lazy : Prop}

theorem exists_of_bind {m : Layout α} {k : α → Layout β} {r : β}
    (h : (m >>= k) n = .ok (r, n'')) : ∃ a n', m n = .ok (a, n') ∧ k a n' = .ok (r, n'') := by
  change (m n).bind (fun p => k p.1 p.2) = _ at h
  cases hm : m n with
  | error e =>
    rw [hm] at h
    cases h
  | ok p => exact ⟨p.1, p.2, rfl, by rwa [hm] at h⟩

theorem bind_apply_of_eq {m : Layout α} {k : α → Layout β} {a : α} (h : m n = .ok (a, n')) :
    (m >>= k) n = k a n' := by
  change (m n).bind (fun p => k p.1 p.2) = _
  rw [h]
  rfl

/-! ## What is left alone -/

/-- The states from `b` on belong to the body of a rule. -/
def Inner (rule : Nat) (lazy : Prop) (b : Nat) (n : Network) : Prop :=
  ∀ q s, b ≤ q → n.states[q]? = some s →
    s.id = q ∧ s.rule = rule ∧ s.kind.isInner ∧ (s.nonGreedy → lazy)

/-- The network `n` grew to `n'`: states below `b` were left alone, and so were the tables. -/
structure Grows (rule : Nat) (lazy : Prop) (b : Nat) (n n' : Network) : Prop where
  size : n.states.size ≤ n'.states.size
  old : ∀ q < b, n'.states[q]? = n.states[q]?
  inner : Inner rule lazy b n → Inner rule lazy b n'
  kind : n'.kind = n.kind
  maxSymbol : n'.maxSymbol = n.maxSymbol
  ruleStarts : n'.ruleStarts = n.ruleStarts
  ruleStops : n'.ruleStops = n.ruleStops
  ruleNames : n'.ruleNames = n.ruleNames
  tokenTypes : n'.tokenTypes = n.tokenTypes
  modeStarts : n'.modeStarts = n.modeStarts
  decisions : n.decisions.toList <+: n'.decisions.toList

namespace Grows

theorem refl (n : Network) : Grows rule lazy b n n :=
  ⟨le_rfl, fun _ _ => rfl, id, rfl, rfl, rfl, rfl, rfl, rfl, rfl, List.prefix_refl _⟩

theorem trans (h : Grows rule lazy b n n') (h' : Grows rule lazy b n' n'') :
    Grows rule lazy b n n'' where
  size := h.size.trans h'.size
  old q hq := (h'.old q hq).trans (h.old q hq)
  inner hi := h'.inner (h.inner hi)
  kind := h'.kind.trans h.kind
  maxSymbol := h'.maxSymbol.trans h.maxSymbol
  ruleStarts := h'.ruleStarts.trans h.ruleStarts
  ruleStops := h'.ruleStops.trans h.ruleStops
  ruleNames := h'.ruleNames.trans h.ruleNames
  tokenTypes := h'.tokenTypes.trans h.tokenTypes
  modeStarts := h'.modeStarts.trans h.modeStarts
  decisions := h.decisions.trans h'.decisions

/-- What left the states below a later bound alone did so below an earlier one. -/
theorem lower {b' : Nat} (h : Grows rule lazy b' n n') (hb : b ≤ b') (hs : n.states.size ≤ b') :
    Grows rule lazy b n n' where
  __ := h
  old q hq := h.old q (by omega)
  inner hi := by
    have hempty : Inner rule lazy b' n := fun q s hq hget => by
      obtain ⟨hlt, -⟩ := Array.getElem?_eq_some_iff.mp hget
      omega
    have hnew := h.inner hempty
    intro q s hq hget
    by_cases hlt : q < b'
    · rw [h.old q hlt] at hget
      exact hi q s hq hget
    · exact hnew q s (by omega) hget

theorem callees (h : Grows rule lazy b n n') : n'.callees = n.callees := by
  unfold Network.callees Network.rule?
  rw [h.ruleNames, h.ruleStarts]

theorem ways (h : Grows rule lazy b n n') {q : Nat} (hq : q < b) : n'.ways q = n.ways q := by
  rw [Network.ways, Network.ways, Network.state, Network.state, h.old q hq]

end Grows

/-! ## Single operations -/

theorem ways_of_size_le {q : Nat} (h : n.states.size ≤ q) : n.ways q = [] := by
  rw [Network.ways, Network.state, Array.getElem?_eq_none h]
  rfl

theorem commandIndex_eq (c : Command) (n : Network) : commandIndex c n = .ok
    (match n.commands.findIdx? (· = c) with
      | some i => (i, n)
      | none => (n.commands.size, { n with commands := n.commands.push c })) := rfl

theorem newState_eq (rule : Nat) (kind : StateKind) (n : Network) :
    newState rule kind n = .ok (n.states.size,
      { n with states := n.states.push { id := n.states.size, rule, kind } }) := rfl

theorem ways_push {s : State} (hs : s.transitions = []) (q : Nat) :
    ({ n with states := n.states.push s } : Network).ways q = n.ways q := by
  rw [Network.ways, Network.ways, Network.state, Network.state, Array.getElem?_push]
  split
  · next h =>
    rw [h, Array.getElem?_eq_none le_rfl]
    exact hs
  · rfl

theorem grows_push {kind : StateKind} (hk : kind.isInner) (hb : b ≤ n.states.size) :
    Grows rule lazy b n
      { n with states := n.states.push { id := n.states.size, rule, kind } } where
  __ : Grows rule lazy b n n := .refl n
  size := by simp
  old q hq := by
    dsimp only
    rw [Array.getElem?_push, if_neg (by omega)]
  inner hi q s hq hget := by
    dsimp only at hget
    rw [Array.getElem?_push] at hget
    split at hget
    · next h =>
      cases hget
      exact ⟨h.symm, rfl, hk, fun hs => nomatch hs⟩
    · exact hi q s hq hget

/-- Changing a state in a way that keeps what it is. -/
theorem grows_modify {f : State → State} {id : Nat} (hb : b ≤ id)
    (hf : ∀ s, (f s).id = s.id ∧ (f s).rule = s.rule ∧ (f s).kind = s.kind ∧
      ((f s).nonGreedy → s.nonGreedy ∨ lazy)) :
    Grows rule lazy b n { n with states := n.states.modify id f } where
  __ : Grows rule lazy b n n := .refl n
  size := by simp
  old q hq := by
    dsimp only
    rw [Array.getElem?_modify, if_neg (by omega)]
  inner hi q s hq hget := by
    dsimp only at hget
    rw [Array.getElem?_modify] at hget
    split at hget
    · obtain ⟨u, hu, rfl⟩ := Option.map_eq_some_iff.mp hget
      obtain ⟨h1, h2, h3, h4⟩ := hi q u hq hu
      obtain ⟨f1, f2, f3, f4⟩ := hf u
      refine ⟨f1.trans h1, f2.trans h2, f3 ▸ h3, fun hg => ?_⟩
      rcases f4 hg with hg | hg
      exacts [h4 hg, hg]
    · exact hi q s hq hget

theorem connect_eq (id : Nat) (t : Transition) (n : Network) :
    connect id t n = .ok ((), { n with states := n.states.modify id (·.addTransition t) }) := rfl

theorem ways_connect {id : Nat} (hid : id < n.states.size) (t : Transition) (q : Nat) :
    ({ n with states := n.states.modify id (·.addTransition t) } : Network).ways q =
      n.ways q ++ if q = id then [t] else [] := by
  rw [Network.ways, Network.ways, Network.state, Network.state, Array.getElem?_modify]
  by_cases h : q = id
  · subst h
    rw [if_pos rfl, if_pos rfl, Array.getElem?_eq_getElem hid]
    rfl
  · rw [if_neg (Ne.symm h), if_neg h, List.append_nil]

theorem grows_connect {id : Nat} (hb : b ≤ id) (t : Transition) :
    Grows rule lazy b n { n with states := n.states.modify id (·.addTransition t) } :=
  grows_modify hb fun _ => ⟨rfl, rfl, rfl, .inl⟩

theorem preferLeaving_eq (id : Nat) (n : Network) :
    preferLeaving id n = .ok ((), { n with
      states := n.states.modify id fun s => { s with nonGreedy := true } }) := rfl

/-- Changing a state without changing its transitions. -/
theorem ways_modify {f : State → State} (hf : ∀ s, (f s).transitions = s.transitions)
    (decisions : Array Nat) (id q : Nat) :
    ({ n with decisions, states := n.states.modify id f } : Network).ways q = n.ways q := by
  rw [Network.ways, Network.ways, Network.state, Network.state, Array.getElem?_modify]
  split
  · next h =>
    subst h
    cases n.states[id]? with
    | none => rfl
    | some s => exact hf s
  · rfl

theorem grows_makeDecision {id : Nat} (hb : b ≤ id) :
    Grows rule lazy b n { n with
      decisions := n.decisions.push id
      states := n.states.modify id fun s => { s with decision := some n.decisions.size } } where
  __ : Grows rule lazy b n _ :=
    grows_modify (f := fun s => { s with decision := some n.decisions.size }) hb
      fun _ => ⟨rfl, rfl, rfl, .inl⟩
  decisions := by simp

theorem grows_preferLeaving {id : Nat} (hb : b ≤ id) (hlazy : lazy) :
    Grows rule lazy b n { n with
      states := n.states.modify id fun s => { s with nonGreedy := true } } :=
  grows_modify hb fun _ => ⟨rfl, rfl, rfl, fun _ => .inr hlazy⟩

/-! ## Decisions -/

end Layout

/-- Whether a state is a decision. -/
def Network.Decided (n : Network) (q : Nat) : Prop := (n.state q).decision.isSome

namespace Network
variable {n : Network} {q : Nat}

theorem Decided.push (h : n.Decided q) (s : State) :
    ({ n with states := n.states.push s } : Network).Decided q := by
  unfold Decided state at h ⊢
  dsimp only
  cases hq : n.states[q]? with
  | none =>
    rw [hq] at h
    cases h
  | some u =>
    have hlt := (Array.getElem?_eq_some_iff.mp hq).1
    rw [hq] at h
    rw [Array.getElem?_push, if_neg (by omega), hq]
    exact h

/-- Changing a state in a way that does not undo decisions. -/
theorem Decided.modify (h : n.Decided q) (decisions : Array Nat) (id : Nat) {f : State → State}
    (hf : ∀ s : State, s.decision.isSome → (f s).decision.isSome) :
    ({ n with decisions, states := n.states.modify id f } : Network).Decided q := by
  unfold Decided state at h ⊢
  dsimp only
  cases hq : n.states[q]? with
  | none =>
    rw [hq] at h
    cases h
  | some u =>
    rw [hq] at h
    rw [Array.getElem?_modify, hq]
    split
    · exact hf u h
    · exact h

/-- Making a state a decision. -/
theorem decided_modify (decisions : Array Nat) (hq : q < n.states.size) {f : State → State}
    (hf : ∀ s : State, (f s).decision.isSome) :
    ({ n with decisions, states := n.states.modify q f } : Network).Decided q := by
  unfold Decided state
  dsimp only
  rw [Array.getElem?_modify, if_pos rfl, Array.getElem?_eq_getElem hq]
  exact hf _

theorem Decided.congr {n' : Network} (h : n.Decided q) (hq : n'.states[q]? = n.states[q]?) :
    n'.Decided q := by
  unfold Decided state at h ⊢
  rwa [hq]

theorem Decided.lt (h : n.Decided q) : q < n.states.size := by
  by_contra hq
  unfold Decided state at h
  rw [Array.getElem?_eq_none (Nat.le_of_not_lt hq)] at h
  cases h

end Network

namespace Layout
variable {α β : Type} {n n' n'' : Network} {rule b : Nat} {lazy : Prop}

/-! ## Operations one after another -/

/-- Operations on the states from `b` on made so many states and added these transitions, and by now
these states are decisions. -/
structure Adds (rule : Nat) (lazy : Prop) (b : Nat) (n n' : Network) (count : Nat)
    (added : Nat → List Transition) (decisions : Nat → Prop) : Prop where
  base : b ≤ n.states.size
  size : n'.states.size = n.states.size + count
  ways : ∀ q, n'.ways q = n.ways q ++ added q
  grows : Grows rule lazy b n n'
  decided : ∀ q, decisions q → n'.Decided q

/-- What `spread` adds to a state. -/
def spreadAt (start stop q : Nat) (ss : List Stretch) : List Transition :=
  ss.flatMap fun s =>
    (if q = start then [.epsilon s.entry] else []) ++ if q = s.exit then [.epsilon stop] else []

/-- What `chain` adds to a state. -/
def chainAt (q : Nat) : List Stretch → List Transition
  | s :: s' :: ss => (if q = s.exit then [.epsilon s'.entry] else []) ++ chainAt q (s' :: ss)
  | _ => []

namespace Adds
variable {c id : Nat} {f : Nat → List Transition} {D : Nat → Prop} {u : Unit}

theorem start (rule : Nat) (lazy : Prop) (hb : b ≤ n.states.size) (hD : ∀ q, D q → n.Decided q) :
    Adds rule lazy b n n 0 (fun _ => []) D :=
  ⟨hb, rfl, fun _ => (List.append_nil _).symm, .refl n, hD⟩

theorem refl (rule : Nat) (lazy : Prop) (hb : b ≤ n.states.size) :
    Adds rule lazy b n n 0 (fun _ => []) fun _ => False :=
  .start rule lazy hb fun _ h => h.elim

/-- An operation that makes no state. -/
theorem then_ways {f' : Nat → List Transition} (h : Adds rule lazy b n n' c f D)
    (hsize : n''.states.size = n'.states.size) (hways : ∀ q, n''.ways q = n'.ways q ++ f' q)
    (hgrows : Grows rule lazy b n' n'') (hkeeps : ∀ q, n'.Decided q → n''.Decided q) :
    Adds rule lazy b n n'' c (fun q => f q ++ f' q) D where
  base := h.base
  size := hsize.trans h.size
  ways q := by rw [hways, h.ways, List.append_assoc]
  grows := h.grows.trans hgrows
  decided q hq := hkeeps q (h.decided q hq)

/-- An operation that makes no state and adds no transition. -/
theorem then_grows {D' : Nat → Prop} (h : Adds rule lazy b n n' c f D)
    (hsize : n''.states.size = n'.states.size) (hways : ∀ q, n''.ways q = n'.ways q)
    (hgrows : Grows rule lazy b n' n'') (hdecided : ∀ q, D' q → n''.Decided q) :
    Adds rule lazy b n n'' c f D' where
  base := h.base
  size := hsize.trans h.size
  ways q := by rw [hways, h.ways]
  grows := h.grows.trans hgrows
  decided := hdecided

theorem newState {kind : StateKind} {a : Nat} (h : Adds rule lazy b n n' c f D)
    (hop : newState rule kind n' = .ok (a, n'')) (hk : kind.isInner) :
    a = n.states.size + c ∧ Adds rule lazy b n n'' (c + 1) f D := by
  cases hop
  have hb := h.base.trans (Nat.le_add_right _ c)
  refine ⟨h.size, h.base, ?_, fun q => ?_, h.grows.trans (grows_push hk (h.size ▸ hb)), fun q hq => ?_⟩
  · rw [Array.size_push, h.size, Nat.add_assoc]
  · rw [ways_push rfl, h.ways]
  · exact (h.decided q hq).push _

theorem firstState {kind : StateKind} {a : Nat} (h : Adds rule lazy b n n' 0 f D)
    (hop : Layout.newState rule kind n' = .ok (a, n'')) (hk : kind.isInner) :
    a = n.states.size ∧ Adds rule lazy b n n'' 1 f D :=
  h.newState hop hk

theorem makeDecision (h : Adds rule lazy b n n' c f D)
    (hop : makeDecision id n' = .ok (u, n'')) (hid : id < n.states.size + c) (hb : b ≤ id) :
    Adds rule lazy b n n'' c f fun q => D q ∨ q = id := by
  cases hop
  refine h.then_grows (by simp) (fun q => ?_) (grows_makeDecision hb) fun q hq => ?_
  · exact ways_modify (f := fun s => { s with decision := some n'.decisions.size })
      (fun _ => rfl) _ _ _
  · rcases hq with hq | rfl
    · exact (h.decided q hq).modify _ _ fun _ _ => rfl
    · exact Network.decided_modify _ (h.size ▸ hid) fun _ => rfl

theorem preferLeaving (h : Adds rule lazy b n n' c f D)
    (hop : preferLeaving id n' = .ok (u, n'')) (hb : b ≤ id) (hlazy : lazy) :
    Adds rule lazy b n n'' c f D := by
  cases hop
  refine h.then_grows (by simp) (fun q => ?_) (grows_preferLeaving hb hlazy) fun q hq => ?_
  · exact ways_modify (f := fun s => { s with nonGreedy := true }) (fun _ => rfl) n'.decisions _ _
  · exact (h.decided q hq).modify _ _ fun _ hs => hs

theorem connect {t : Transition} (h : Adds rule lazy b n n' c f D)
    (hop : connect id t n' = .ok (u, n'')) (hid : id < n.states.size + c) (hb : b ≤ id) :
    Adds rule lazy b n n'' c (fun q => f q ++ if q = id then [t] else []) D := by
  cases hop
  exact h.then_ways (by simp) (ways_connect (h.size ▸ hid) t) (grows_connect hb t)
    fun q hq => hq.modify _ _ fun _ hs => hs

theorem spread {start stop : Nat} {ss : List Stretch} (h : Adds rule lazy b n n' c f D)
    (hop : spread start stop ss n' = .ok (u, n'')) (hstart : start < n.states.size + c)
    (hexit : ∀ s ∈ ss, b ≤ s.exit ∧ s.exit < n.states.size + c) (hb : b ≤ start) :
    Adds rule lazy b n n'' c (fun q => f q ++ spreadAt start stop q ss) D := by
  induction ss generalizing n' f u with
  | nil =>
    cases hop
    exact h.then_ways rfl (fun q => (List.append_nil _).symm) (.refl _) fun _ hq => hq
  | cons s ss ih =>
    obtain ⟨_, n₁, h₁, hop⟩ := exists_of_bind hop
    obtain ⟨_, n₂, h₂, hop⟩ := exists_of_bind hop
    have hs := hexit s List.mem_cons_self
    have ha := ih ((h.connect h₁ hstart hb).connect h₂ hs.2 hs.1) hop
      fun s hs => hexit s (List.mem_cons_of_mem _ hs)
    exact { ha with ways := fun q => by rw [ha.ways]; simp [spreadAt] }

theorem chain {ss : List Stretch} (h : Adds rule lazy b n n' c f D)
    (hop : chain ss n' = .ok (u, n''))
    (hexit : ∀ s ∈ ss, b ≤ s.exit ∧ s.exit < n.states.size + c) :
    Adds rule lazy b n n'' c (fun q => f q ++ chainAt q ss) D := by
  induction ss generalizing n' f u with
  | nil =>
    cases hop
    exact h.then_ways rfl (fun q => (List.append_nil _).symm) (.refl _) fun _ hq => hq
  | cons s ss ih =>
    cases ss with
    | nil =>
      cases hop
      exact h.then_ways rfl (fun q => (List.append_nil _).symm) (.refl _) fun _ hq => hq
    | cons s' ss =>
      obtain ⟨_, n₁, h₁, hop⟩ := exists_of_bind hop
      have hs := hexit s List.mem_cons_self
      have ha := ih (h.connect h₁ hs.2 hs.1) hop fun s hs => hexit s (List.mem_cons_of_mem _ hs)
      exact { ha with ways := fun q => by rw [ha.ways, List.append_assoc]; rfl }

/-- Two states joined by a transition. -/
theorem single {t : Nat → Transition} {s : Stretch} (h : Adds rule lazy b n n' c f D)
    (hop : single rule t n' = .ok (s, n'')) :
    s = ⟨n.states.size + c, n.states.size + c + 1⟩ ∧
      Adds rule lazy b n n'' (c + 2)
        (fun q => f q ++ if q = n.states.size + c then [t (n.states.size + c + 1)] else []) D := by
  obtain ⟨x, n₁, h₁, hop⟩ := exists_of_bind hop
  obtain ⟨y, n₂, h₂, hop⟩ := exists_of_bind hop
  obtain ⟨_, n₃, h₃, hop⟩ := exists_of_bind hop
  cases hop
  obtain ⟨rfl, h⟩ := h.newState h₁ rfl
  obtain ⟨rfl, h⟩ := h.newState h₂ rfl
  have hb := h.base
  exact ⟨rfl, h.connect h₃ (by omega) (by omega)⟩

/-- The number of a command is looked up, and the command added if it is new. -/
theorem commandIndex {command : Command} {i : Nat} (h : Adds rule lazy b n n' c f D)
    (hop : commandIndex command n' = .ok (i, n'')) : Adds rule lazy b n n'' c f D := by
  rw [commandIndex_eq] at hop
  split at hop
  · cases hop
    exact h
  · cases hop
    exact h.then_grows rfl (fun _ => rfl) { Grows.refl n' with } h.decided

variable {greedy : Bool} {k : Unit → Layout α} {r : α} {n₃ : Network}

/-- A state may be made a decision. -/
theorem exists_decision {p : Prop} [Decidable p] (h : Adds rule lazy b n n' c f D)
    (hop : (if p then Layout.makeDecision id >>= k else k ()) n' = .ok (r, n₃))
    (hid : id < n.states.size + c) (hb : b ≤ id) :
    ∃ n'', Adds rule lazy b n n'' c f (fun q => D q ∨ p ∧ q = id) ∧ k () n'' = .ok (r, n₃) := by
  split at hop
  · obtain ⟨_, n₁, h₁, hop⟩ := exists_of_bind hop
    have ha := h.makeDecision h₁ hid hb
    exact ⟨n₁, { ha with decided := fun q hq => ha.decided q (hq.imp_right And.right) }, hop⟩
  · next hp =>
    refine ⟨n', { h with decided := fun q hq => h.decided q ?_ }, hop⟩
    exact hq.resolve_right fun hpq => hp hpq.1

/-- The way out of an element that may be left out comes first if leaving is preferred ... -/
theorem exists_early {start stop : Nat} (h : Adds rule lazy b n n' c f D)
    (hop : (if !greedy then join start stop >>= fun _ => Layout.preferLeaving start >>= k
      else k ()) n' = .ok (r, n₃))
    (hstart : start < n.states.size + c) (hb : b ≤ start) (hlazy : greedy = false → lazy) :
    ∃ n'', Adds rule lazy b n n'' c
        (fun q => f q ++ if q = start ∧ greedy = false then [.epsilon stop] else []) D ∧
      k () n'' = .ok (r, n₃) := by
  cases greedy with
  | true => exact ⟨n', h.then_ways rfl (fun q => by simp) (.refl _) fun _ hq => hq, hop⟩
  | false =>
    obtain ⟨_, n₁, h₁, hop⟩ := exists_of_bind hop
    obtain ⟨_, n₂, h₂, hop⟩ := exists_of_bind hop
    have ha := (h.connect h₁ hstart hb).preferLeaving h₂ hb (hlazy rfl)
    exact ⟨n₂, { ha with ways := fun q => by rw [ha.ways]; simp }, hop⟩

/-- ... and last if not. -/
theorem exists_late {start stop : Nat} (h : Adds rule lazy b n n' c f D)
    (hop : (if greedy then join start stop >>= k else k ()) n' = .ok (r, n₃))
    (hstart : start < n.states.size + c) (hb : b ≤ start) :
    ∃ n'', Adds rule lazy b n n'' c
        (fun q => f q ++ if q = start ∧ greedy then [.epsilon stop] else []) D ∧
      k () n'' = .ok (r, n₃) := by
  cases greedy with
  | false => exact ⟨n', h.then_ways rfl (fun q => by simp) (.refl _) fun _ hq => hq, hop⟩
  | true =>
    obtain ⟨_, n₁, h₁, hop⟩ := exists_of_bind hop
    have ha := h.connect h₁ hstart hb
    exact ⟨n₁, { ha with ways := fun q => by rw [ha.ways]; simp }, hop⟩

/-- The ways on from the decision of a repetition. -/
theorem exists_onward {again out : Nat} (h : Adds rule lazy b n n' c f D)
    (hop : (if greedy then join id again >>= fun _ => join id out >>= k
      else join id out >>= fun _ => join id again >>= fun _ => Layout.preferLeaving id >>= k) n' =
      .ok (r, n₃)) (hid : id < n.states.size + c) (hb : b ≤ id) (hlazy : greedy = false → lazy) :
    ∃ n'', Adds rule lazy b n n'' c
        (fun q => f q ++ if q = id then onward greedy again out else []) D ∧
      k () n'' = .ok (r, n₃) := by
  cases greedy with
  | true =>
    obtain ⟨_, n₁, h₁, hop⟩ := exists_of_bind hop
    obtain ⟨_, n₂, h₂, hop⟩ := exists_of_bind hop
    have ha := (h.connect h₁ hid hb).connect h₂ hid hb
    refine ⟨n₂, { ha with ways := fun q => ?_ }, hop⟩
    rw [ha.ways, List.append_assoc]
    split <;> rfl
  | false =>
    obtain ⟨_, n₁, h₁, hop⟩ := exists_of_bind hop
    obtain ⟨_, n₂, h₂, hop⟩ := exists_of_bind hop
    obtain ⟨_, n₃, h₃, hop⟩ := exists_of_bind hop
    have ha := ((h.connect h₁ hid hb).connect h₂ hid hb).preferLeaving h₃ hb (hlazy rfl)
    refine ⟨n₃, { ha with ways := fun q => ?_ }, hop⟩
    rw [ha.ways, List.append_assoc]
    split <;> rfl

end Adds

end Layout
end AdaptiveLL
