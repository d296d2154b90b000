import AdaptiveLL.Proofs.Grammar.Layout

/-! # When a layout succeeds

Laying out fails in three places only: a rule is called that there is not, a command stands in the grammar of
a parser, or a name is given to two rules.  `Layout.Succeeds` says of some work when it succeeds, and what
becomes of a network by it.

What is to be known of the networks that a grammar is laid out on is a parameter.  `Layout.Stable` lists what
has to be shown of it, one field for each kind of change that a layout makes; by the recursion of the layout
it then holds when an element was laid out (`Layout.element_succeeds`), and when a grammar was
(`Layout.grammar_succeeds`).
-/
namespace AdaptiveLL

/-- Whether a state in this role may be a decision. -/
def StateKind.parts : StateKind → Bool
  | basic | ruleStop => false
  | _ => true

namespace Element

/-- Whether an element can be laid out among rules with these names. -/
def isPlaceable (kind : NetworkKind) (names : List String) : Element → Bool
  | call name _ => decide (name ∈ names)
  | command _ => decide (kind = .lexer)
  | _ => true

/-- A test that lets choices pass is a test of the parts. -/
theorem everywhere_iff {p : Element → Bool} (halt : ∀ items, p (alt items)) (e : Element) :
    e.everywhere p ↔ p e ∧ ∀ b ∈ e.parts, b.everywhere p := by
  have hbranches : ∀ body : Element, body.everywhere p ↔ ∀ b ∈ body.branches, b.everywhere p := by
    intro body
    cases body with
    | alt items => rw [everywhere, Bool.and_eq_true, everywhereIn_iff, branches, and_iff_right (halt items)]
    | _ => simp [branches]
  cases e with
  | seq items | alt items => rw [everywhere, Bool.and_eq_true, everywhereIn_iff, parts]
  | optional body greedy | star body greedy | plus body greedy =>
    rw [everywhere, Bool.and_eq_true, hbranches, parts]
  | _ => simp [everywhere, parts]

end Element

namespace Layout
variable {α β : Type} {P P' Q R : Network → Prop} {ok ok' : Prop}

/-- From a network with `P`, work succeeds exactly if `ok` holds, and leaves a network with `Q`. -/
def Succeeds (P : Network → Prop) (ok : Prop) (Q : Network → Prop) (m : Layout α) : Prop :=
  ∀ ⦃n : Network⦄, P n →
    (ok → ∃ r n', m n = .ok (r, n')) ∧ ∀ ⦃r : α⦄ ⦃n' : Network⦄, m n = .ok (r, n') → ok ∧ Q n'

/-- Work that cannot fail and after which a network is as before. -/
abbrev Keeps (P : Network → Prop) (m : Layout α) : Prop := Succeeds P True P m

/-! ## One thing after another -/

namespace Succeeds
variable {m : Layout α} {k : α → Layout β}

theorem congr (h : Succeeds P ok Q m) (hok : ok ↔ ok') : Succeeds P ok' Q m := fun _ hn =>
  ⟨fun hok' => (h hn).1 (hok.mpr hok'), fun _ _ hr => ((h hn).2 hr).imp_left hok.mp⟩

/-- Work that cannot fail, where it need not. -/
theorem of_holds (h : Succeeds P True Q m) (hok : ok) : Succeeds P ok Q m := h.congr (iff_of_true trivial hok)

theorem mono (h : Succeeds P ok Q m) (hP : ∀ n, P' n → P n) : Succeeds P' ok Q m :=
  fun n hn => h (hP n hn)

theorem weaken (h : Succeeds P ok Q m) (hQ : ∀ n, Q n → R n) : Succeeds P ok R m := fun _ hn =>
  ⟨(h hn).1, fun _ n' hr => ((h hn).2 hr).imp_right (hQ n')⟩

theorem of_eq {r : Network → α} {f : Network → Network} (hm : ∀ n, m n = .ok (r n, f n))
    (h : ∀ n, P n → Q (f n)) : Succeeds P True Q m := fun n hn => by
  refine ⟨fun _ => ⟨_, _, hm n⟩, fun _ _ hr => ⟨trivial, ?_⟩⟩
  cases (hm n).symm.trans hr
  exact h n hn

theorem pure (a : α) : Keeps P (Pure.pure a : Layout α) := of_eq (fun _ => rfl) fun _ h => h

theorem throw (e : RecognitionError) : Succeeds P False Q (throw e : Layout α) := fun _ _ =>
  ⟨False.elim, fun _ _ hr => nomatch hr⟩

/-- Nothing comes after a failure. -/
theorem throw_bind (e : RecognitionError) : Succeeds P False Q ((MonadExcept.throw e : Layout α) >>= k) :=
  fun _ _ => ⟨False.elim, fun _ _ hr => nomatch hr⟩

theorem bind (hm : Succeeds P ok Q m) (hk : ∀ a, Succeeds Q ok' R (k a)) :
    Succeeds P (ok ∧ ok') R (m >>= k) := fun n hn => by
  constructor
  · rintro ⟨hok, hok'⟩
    obtain ⟨a, n₁, h₁⟩ := (hm hn).1 hok
    rw [bind_apply_of_eq h₁]
    exact (hk a ((hm hn).2 h₁).2).1 hok'
  · intro r n' hr
    obtain ⟨a, n₁, h₁, hr⟩ := exists_of_bind hr
    obtain ⟨hok, hQ⟩ := (hm hn).2 h₁
    obtain ⟨hok', hR⟩ := (hk a hQ).2 hr
    exact ⟨⟨hok, hok'⟩, hR⟩

/-- What cannot fail does not count at the beginning, -/
theorem first (hm : Succeeds P True Q m) (hk : ∀ a, Succeeds Q ok R (k a)) : Succeeds P ok R (m >>= k) :=
  (hm.bind hk).congr (by rw [true_and])

/-- nor at the end. -/
theorem last (hm : Succeeds P ok Q m) (hk : ∀ a, Succeeds Q True R (k a)) : Succeeds P ok R (m >>= k) :=
  (hm.bind hk).congr (by rw [and_true])

/-- Looking at the network. -/
theorem look {k : Network → Layout β} (h : ∀ n, P n → Succeeds (· = n) ok Q (k n)) :
    Succeeds P ok Q (MonadState.get >>= k) := fun n hn => h n hn rfl

end Succeeds

/-! ## Single changes -/

/-- What can be known of a network throughout a layout. -/
structure Stable (P : Network → Prop) : Prop where
  push : ∀ {n : Network} (rule : Nat) (kind : StateKind), P n →
    P { n with states := n.states.push { id := n.states.size, rule, kind } }
  decide : ∀ {n : Network} (rule : Nat) {kind : StateKind}, kind.parts → P n → P { n with
    decisions := n.decisions.push n.states.size
    states := (n.states.push { id := n.states.size, rule, kind }).modify n.states.size
      fun s => { s with decision := some n.decisions.size } }
  join : ∀ {n : Network} (source target : Nat), P n →
    P { n with states := n.states.modify source (·.addTransition (.epsilon target)) }
  prefer : ∀ {n : Network} (id : Nat), P n →
    P { n with states := n.states.modify id fun s => { s with nonGreedy := true } }
  single : ∀ {n : Network} (rule : Nat) (t : Transition),
    (n.kind = .lexer → ∀ target r i c, t = .action target r i c → i < n.commands.size) → P n →
    P { n with
      states := ((n.states.push { id := n.states.size, rule, kind := .basic }).push
        { id := n.states.size + 1, rule, kind := .basic }).modify n.states.size (·.addTransition t) }
  command : ∀ {n : Network} (c : Command), P n → P { n with commands := n.commands.push c }

theorem single_eq (rule : Nat) (t : Nat → Transition) (n : Network) :
    single rule t n = .ok (⟨n.states.size, n.states.size + 1⟩, { n with
      states := ((n.states.push { id := n.states.size, rule, kind := .basic }).push
        { id := n.states.size + 1, rule, kind := .basic }).modify n.states.size
        (·.addTransition (t (n.states.size + 1))) }) := by
  show Except.ok _ = _
  simp only [Array.size_push]

namespace Stable
variable (hP : Stable P)
include hP

theorem newState (rule : Nat) (kind : StateKind) : Keeps P (newState rule kind) :=
  .of_eq (newState_eq rule kind) fun _ => hP.push rule kind

/-- Making a state, and making it a decision at once. -/
theorem newDecision (rule : Nat) {kind : StateKind} (hk : kind.parts) {k : Nat → Unit → Layout β}
    (hrest : ∀ a, Succeeds P ok Q (k a ())) :
    Succeeds P ok Q (Layout.newState rule kind >>= fun a => makeDecision a >>= k a) := fun n hn =>
  hrest n.states.size (hP.decide rule hk hn)

/-- Making a state, and perhaps making it a decision. -/
theorem newChoice (rule : Nat) {kind : StateKind} (hk : kind.parts) (p : Prop) [Decidable p]
    {k : Nat → Unit → Layout β} (hrest : ∀ a, Succeeds P ok Q (k a ())) :
    Succeeds P ok Q (Layout.newState rule kind >>= fun a =>
      if p then makeDecision a >>= k a else k a ()) := by
  by_cases hp : p
  · simp only [if_pos hp]
    exact hP.newDecision rule hk hrest
  · simp only [if_neg hp]
    exact (hP.newState rule kind).first hrest

theorem joined (source target : Nat) : Keeps P (Layout.join source target) :=
  .of_eq (connect_eq source (.epsilon target)) fun _ => hP.join source target

theorem preferLeaving (id : Nat) : Keeps P (preferLeaving id) :=
  .of_eq (preferLeaving_eq id) fun _ => hP.prefer id

/-- An element on its own that is no action. -/
theorem singled (rule : Nat) {t : Nat → Transition} (ht : ∀ b target r i c, t b ≠ .action target r i c) :
    Keeps P (Layout.single rule t) :=
  .of_eq (single_eq rule t) fun _ => hP.single rule _ fun _ target r i c he => absurd he (ht _ target r i c)

/-- An action of a parser is what its author says. -/
theorem acted (rule index : Nat) (hkind : ∀ n, P n → n.kind ≠ .lexer) : Keeps P (actionStretch rule index) :=
  .of_eq (single_eq rule _) fun n hn => hP.single rule _ (fun hk => absurd hk (hkind n hn)) hn

/-- An action of a lexer is a command of its list. -/
theorem commanded (rule : Nat) (c : Command) :
    Keeps P (commandIndex c >>= fun i => actionStretch rule i) := fun n hn => by
  have hindex : ∃ i n', commandIndex c n = .ok (i, n') ∧ P n' ∧ i < n'.commands.size := by
    rw [commandIndex_eq]
    split
    · next i hi => exact ⟨i, n, rfl, hn, (Array.findIdx?_eq_some_iff_getElem.mp hi).1⟩
    · exact ⟨n.commands.size, _, rfl, hP.command c hn, by simp⟩
  obtain ⟨i, n', hrun, hn', hi⟩ := hindex
  rw [bind_apply_of_eq hrun]
  have hacted : Succeeds (· = n') True P (actionStretch rule i) := .of_eq (single_eq rule _) fun m hm => by
    subst hm
    exact hP.single rule _ (fun _ _ _ _ _ he => by cases he; exact hi) hn'
  exact hacted rfl

theorem spread (start stop : Nat) (ss : List Stretch) : Keeps P (spread start stop ss) := by
  induction ss with
  | nil => exact .pure ()
  | cons s ss ih => exact (hP.joined _ _).first fun _ => (hP.joined _ _).first fun _ => ih

theorem chain (ss : List Stretch) : Keeps P (chain ss) := by
  induction ss with
  | nil => exact .pure ()
  | cons s ss ih =>
    cases ss with
    | nil => exact .pure ()
    | cons s' ss => exact (hP.joined _ _).first fun _ => ih

theorem sequence (rule : Nat) (ss : List Stretch) : Keeps P (sequence rule ss) := by
  cases ss with
  | nil => exact hP.singled rule fun _ _ _ _ _ => nofun
  | cons s ss => exact (hP.chain _).first fun _ => .pure _

/-- The ways on from the decision of a repetition. -/
theorem onward {id again out : Nat} (greedy : Bool) {k : Unit → Layout β} (hk : Keeps P (k ())) :
    Keeps P (if greedy then Layout.join id again >>= fun _ => Layout.join id out >>= k
      else Layout.join id out >>= fun _ => Layout.join id again >>= fun _ =>
        Layout.preferLeaving id >>= k) := by
  split
  · exact (hP.joined _ _).first fun _ => (hP.joined _ _).first fun _ => hk
  · exact (hP.joined _ _).first fun _ => (hP.joined _ _).first fun _ =>
      (hP.preferLeaving _).first fun _ => hk

end Stable

/-! ## Elements -/

/-- Elements are laid out if each of them is. -/
theorem elements_succeeds {rule : Nat} {fits : Element → Prop} {items : List Element}
    (h : ∀ e ∈ items, Succeeds P (fits e) P (element rule e)) :
    Succeeds P (∀ e ∈ items, fits e) P (elements rule items) := by
  induction items with
  | nil =>
    rw [elements]
    exact (Succeeds.pure []).congr (by simp)
  | cons e items ih =>
    rw [List.forall_mem_cons] at h
    rw [elements]
    refine (h.1.bind fun _ => (ih h.2).last fun _ => .pure _).congr ?_
    rw [List.forall_mem_cons]

theorem branches_eq {rule : Nat} {body : Element} {k : List Stretch → Layout β} :
    (match body with
      | .alt items => elements rule items >>= k
      | e => element rule e >>= fun s => Pure.pure [s] >>= k) = elements rule body.branches >>= k := by
  cases body <;> simp [Element.branches, elements]

/-- The branches of a body that is repeated or left out. -/
theorem branches_succeeds {rule : Nat} {fits : Element → Prop} {body : Element}
    (h : ∀ e ∈ body.branches, Succeeds P (fits e) P (element rule e)) {k : List Stretch → Layout β}
    (hk : ∀ ss, Keeps P (k ss)) :
    Succeeds P (∀ e ∈ body.branches, fits e) P (match body with
      | .alt items => elements rule items >>= k
      | e => element rule e >>= fun s => Pure.pure [s] >>= k) := by
  rw [branches_eq]
  exact (elements_succeeds h).last hk

/-- A network with a property, of a kind and with certain names. -/
structure Among (P : Network → Prop) (kind : NetworkKind) (names : List String) (n : Network) : Prop where
  holds : P n
  kind_eq : n.kind = kind
  names_eq : n.ruleNames.toList = names

theorem Stable.among (hP : Stable P) (kind : NetworkKind) (names : List String) :
    Stable (Among P kind names) where
  push rule kind h := ⟨hP.push rule kind h.holds, h.kind_eq, h.names_eq⟩
  decide rule _ hk h := ⟨hP.decide rule hk h.holds, h.kind_eq, h.names_eq⟩
  join source target h := ⟨hP.join source target h.holds, h.kind_eq, h.names_eq⟩
  prefer id h := ⟨hP.prefer id h.holds, h.kind_eq, h.names_eq⟩
  single rule t ht h := ⟨hP.single rule t ht h.holds, h.kind_eq, h.names_eq⟩
  command c h := ⟨hP.command c h.holds, h.kind_eq, h.names_eq⟩

theorem isSome_rule?_iff {n : Network} {name : String} :
    (n.rule? name).isSome ↔ name ∈ n.ruleNames.toList := by
  rw [Network.rule?, Array.findIdx?_isSome]
  simp [Array.mem_iff_getElem]

variable {kind : NetworkKind} {names : List String}

/-- An element is laid out if the rules that it calls are there, and if its commands stand in a lexer. -/
theorem element_succeeds (hP : Stable P) (rule : Nat) (e : Element) :
    Succeeds (Among P kind names) (e.everywhere (·.isPlaceable kind names)) (Among P kind names)
      (element rule e) := by
  have hA := hP.among kind names
  induction e using Element.induction with | _ e ih
  rw [Element.everywhere_iff fun _ => rfl]
  have hparts : ∀ {e : Element}, e.isPlaceable kind names = true → (∀ b ∈ e.parts,
      b.everywhere (·.isPlaceable kind names)) = (e.isPlaceable kind names ∧ ∀ b ∈ e.parts,
        b.everywhere (·.isPlaceable kind names)) := fun he => by simp [he]
  -- Laying out an element is a sequence of steps, and it succeeds if each of them does.
  cases e with
  | symbol | range | set | notSet | wildcard | predicate | precedence =>
    rw [element]
    refine Succeeds.congr (hA.singled rule ?_) (by simp [Element.isPlaceable, Element.parts])
    simp
  | call name level =>
    rw [element]
    refine .look fun n hn => ?_
    have hname : (n.rule? name).isSome ↔ name ∈ names := hn.names_eq ▸ isSome_rule?_iff
    split
    · next callee hc =>
      rw [hc] at hname
      refine Succeeds.congr (Succeeds.mono (hA.singled rule ?_) fun m (h : m = n) => h ▸ hn) ?_
      · simp
      · simpa [Element.isPlaceable, Element.parts] using hname
    · next hc =>
      rw [hc] at hname
      refine (Succeeds.throw _).congr ?_
      simpa [Element.isPlaceable, Element.parts] using hname
  | seq items =>
    rw [element, ← hparts rfl]
    exact (elements_succeeds ih).last fun ss => hA.sequence rule ss
  | alt items =>
    rw [← hparts rfl]
    by_cases hlen : items.length = 1
    · obtain ⟨item, rfl⟩ := List.length_eq_one_iff.mp hlen
      rw [element]
      exact (ih item (List.mem_singleton_self _)).congr (by simp [Element.parts])
    · rw [element]
      rotate_left
      · exact fun e he => hlen (by rw [he, List.length_singleton])
      refine hA.newChoice rule rfl _ fun start => (hA.newState rule _).first fun stop => ?_
      exact (elements_succeeds ih).last fun ss => (hA.spread _ _ ss).first fun _ => .pure _
  | optional body greedy =>
    rw [element, ← hparts rfl]
    refine hA.newDecision rule rfl fun start => (hA.newState rule _).first fun stop => ?_
    cases greedy with
    | false =>
      exact branches_succeeds ih fun ss => (hA.joined _ _).first fun _ =>
        (hA.preferLeaving _).first fun _ => (hA.spread _ _ ss).first fun _ => .pure _
    | true =>
      exact branches_succeeds ih fun ss => (hA.spread _ _ ss).first fun _ =>
        (hA.joined _ _).first fun _ => .pure _
  | star body greedy =>
    rw [element, ← hparts rfl]
    refine hA.newDecision rule rfl fun entry => hA.newChoice rule rfl _ fun start => ?_
    refine (hA.newState rule _).first fun stop => branches_succeeds ih fun ss =>
      (hA.spread _ _ ss).first fun _ => ?_
    refine (hA.newState rule _).first fun back => (hA.newState rule _).first fun leave => ?_
    exact (hA.joined _ _).first fun _ => (hA.joined _ _).first fun _ => hA.onward greedy (.pure _)
  | plus body greedy =>
    rw [element, ← hparts rfl]
    refine hA.newChoice rule rfl _ fun start => (hA.newState rule _).first fun stop => ?_
    refine branches_succeeds ih fun ss => (hA.spread _ _ ss).first fun _ =>
      hA.newDecision rule rfl fun back => ?_
    exact (hA.newState rule _).first fun leave => (hA.joined _ _).first fun _ =>
      hA.onward greedy (.pure _)
  | action index =>
    rw [element]
    refine .look fun n hn => ?_
    split
    · exact ((hA.commanded rule _).mono fun m (h : m = n) => h ▸ hn).congr
        (by simp [Element.isPlaceable, Element.parts])
    · next hk =>
      refine Succeeds.of_holds ?_ (by simp [Element.isPlaceable, Element.parts])
      refine Succeeds.mono (P := Among P .parser names) ?_ fun m (h : m = n) =>
        h ▸ ⟨hn.holds, hk, hn.names_eq⟩
      have hparser : kind = .parser := hn.kind_eq.symm.trans hk
      exact hparser ▸ (hP.among .parser names).acted rule index fun n hn => by
        rw [hn.kind_eq]
        decide
  | command c =>
    rw [element]
    refine .look fun n hn => ?_
    have hkind := hn.kind_eq
    split
    · next hk =>
      refine ((hA.commanded rule _).mono fun m (h : m = n) => h ▸ hn).congr ?_
      simp [Element.isPlaceable, Element.parts, ← hkind, hk]
    · next hk =>
      refine (Succeeds.throw _).congr ?_
      simp [Element.isPlaceable, Element.parts, ← hkind, hk]

/-! ## Rules and modes -/

/-- What does not depend on the tables of the modes and rules. -/
structure Untabled (P : Network → Prop) : Prop where
  modes : ∀ {n : Network} (modeStarts : Array Nat) (modeNames : Array String), P n →
    P { n with modeStarts, modeNames }
  rules : ∀ {n : Network} (ruleStarts ruleStops : Array Nat) (ruleNames : Array String)
    (tokenTypes : Array Int), P n → P { n with ruleStarts, ruleStops, ruleNames, tokenTypes }

variable (hP : Stable P) (hT : Untabled P)

include hP hT in
theorem addModes_succeeds (modes : List String) : Keeps (Among P kind names) (modes.forM addMode) := by
  induction modes with
  | nil => exact .pure _
  | cons name modes ih =>
    refine Succeeds.first ((hP.among kind names).newDecision 0 rfl fun start => ?_) fun _ => ih
    exact .of_eq (fun _ => rfl) fun n hn => ⟨hT.modes _ _ hn.holds, hn.kind_eq, hn.names_eq⟩

include hP hT in
/-- A rule is added unless there is one with its name. -/
theorem addRule_succeeds (index : Nat) (r : Rule) :
    Succeeds (Among P kind names) (r.name ∉ names) (Among P kind (names ++ [r.name])) (addRule index r) := by
  have hA := hP.among kind names
  refine .look fun n hn => ?_
  have hname : (n.rule? r.name).isSome ↔ r.name ∈ names := hn.names_eq ▸ isSome_rule?_iff
  dsimp only
  split
  · next hsome => exact (Succeeds.throw_bind _).congr (by simpa using hname.mp hsome)
  · next hnone =>
    refine Succeeds.of_holds ?_ fun h => hnone (hname.mpr h)
    refine Succeeds.mono (P := Among P kind names) ?_ fun m (h : m = n) => h ▸ hn
    refine (hA.newState _ _).first fun start => (hA.newState _ _).first fun stop => ?_
    exact .of_eq (fun _ => rfl) fun n hn =>
      ⟨hT.rules _ _ _ _ hn.holds, hn.kind_eq, by rw [Array.toList_push, hn.names_eq]⟩

include hP hT in
/-- Rules are added if they have names of their own. -/
theorem addRules_succeeds (index : Nat) (rules : List Rule) :
    Succeeds (Among P kind names) ((rules.map Rule.name).Nodup ∧ ∀ r ∈ rules, r.name ∉ names)
      (Among P kind (names ++ rules.map Rule.name)) (forRules addRule index rules) := by
  induction rules generalizing names index with
  | nil =>
    rw [List.map_nil, List.append_nil]
    exact (Succeeds.pure _).congr (by simp)
  | cons r rules ih =>
    rw [List.map_cons, List.append_cons]
    refine ((addRule_succeeds hP hT index r).bind fun _ => ih (index + 1)).congr ?_
    simp only [List.nodup_cons, List.forall_mem_cons, List.mem_append, List.mem_singleton, not_or,
      List.mem_map, not_exists, not_and, forall_and]
    tauto

include hP in
/-- Bodies are laid out if each of them can be. -/
theorem addBodies_succeeds (index : Nat) (rules : List Rule) :
    Succeeds (Among P kind names) (∀ r ∈ rules, r.body.everywhere (·.isPlaceable kind names))
      (Among P kind names) (forRules addBody index rules) := by
  have hA := hP.among kind names
  induction rules generalizing index with
  | nil => exact (Succeeds.pure _).congr (by simp)
  | cons r rules ih =>
    rw [List.forall_mem_cons]
    refine Succeeds.bind (Succeeds.last (element_succeeds hP index r.body) fun s => ?_) fun _ => ih (index + 1)
    refine .look fun n hn => Succeeds.mono ?_ fun m (h : m = n) => h ▸ hn
    exact (hA.joined _ _).first fun _ => hA.joined _ _

include hP in
theorem addToModes_succeeds (index : Nat) (rules : List Rule) :
    Keeps (Among P kind names) (forRules addToMode index rules) := by
  have hA := hP.among kind names
  induction rules generalizing index with
  | nil => exact .pure _
  | cons r rules ih =>
    refine Succeeds.first ?_ fun _ => ih (index + 1)
    unfold addToMode
    split
    · exact .look fun n hn => (hA.joined _ _).mono fun m (h : m = n) => h ▸ hn
    · exact .pure _

include hP hT in
/-- A grammar is laid out if its rules have names of their own and their bodies can be laid out. -/
theorem grammar_succeeds {g : Grammar} (hempty : P { kind := g.kind, maxSymbol := g.maxSymbol }) :
    Succeeds (· = { kind := g.kind, maxSymbol := g.maxSymbol }) ((g.rules.map Rule.name).Nodup ∧
      ∀ r ∈ g.rules, r.body.everywhere (·.isPlaceable g.kind (g.rules.map Rule.name))) P (grammar g) := by
  refine Succeeds.mono (P := Among P g.kind []) ?_ fun n (h : n = _) => h ▸ ⟨hempty, rfl, rfl⟩
  have hrules : Succeeds (Among P g.kind []) (g.rules.map Rule.name).Nodup
      (Among P g.kind (g.rules.map Rule.name)) (forRules addRule 0 g.rules) :=
    (addRules_succeeds hP hT 0 g.rules).congr (by simp)
  have hbodies : Succeeds (Among P g.kind (g.rules.map Rule.name)) _ _ (forRules addBody 0 g.rules) :=
    addBodies_succeeds hP 0 g.rules
  refine Succeeds.weaken ?_ fun n (h : Among P g.kind (g.rules.map Rule.name) n) => h.holds
  unfold grammar
  cases hk : g.kind with
  | lexer =>
    rw [hk] at hrules hbodies
    exact (addModes_succeeds hP hT g.modes).first fun _ => hrules.bind fun _ => hbodies.last fun _ =>
      addToModes_succeeds hP 0 g.rules
  | parser =>
    rw [hk] at hrules hbodies
    exact hrules.bind fun _ => hbodies.last fun _ => .pure _

end Layout
end AdaptiveLL
