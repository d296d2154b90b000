import Mathlib
import AdaptiveLL.Proofs.Grammar.Layout

/-! # Laying out the rules

A grammar is laid out in passes: the starts of the modes, the ends of the rules, the bodies rule by
rule, and the ways from a mode to its rules.  `Plan` says where the states are, and `Bodies` what is
known of the network when so many bodies were laid out.

A pass over the rules keeps what each of its steps keeps (`Layout.forRules_run`).
-/
namespace AdaptiveLL

/-- Where the states of a grammar are.  The starts of the modes come first, then start and stop of
every rule, and then the bodies. -/
structure Plan where
  /-- How many modes there are. -/
  modes : Nat
  /-- Where a body begins, which is where the one before it ends. -/
  bound : Nat → Nat
  /-- The stretch of a body. -/
  part : Nat → Stretch

namespace Plan

/-- The start of a rule. -/
def start (p : Plan) (i : Nat) : Nat := p.modes + 2 * i

/-- The stop of a rule. -/
def stop (p : Plan) (i : Nat) : Nat := p.modes + 2 * i + 1

/-- The plan with one more body. -/
def extend (p : Plan) (k hi : Nat) (s : Stretch) : Plan :=
  ⟨p.modes, Function.update p.bound (k + 1) hi, Function.update p.part k s⟩

section Extend
variable (p : Plan) (k hi : Nat) (s : Stretch)

theorem bound_extend_of_le {i : Nat} (h : i ≤ k) : (p.extend k hi s).bound i = p.bound i :=
  Function.update_of_ne (by omega) _ _

theorem bound_succ_extend_of_lt {i : Nat} (h : i < k) : (p.extend k hi s).bound (i + 1) = p.bound (i + 1) :=
  p.bound_extend_of_le k hi s h

@[simp] theorem bound_extend_self : (p.extend k hi s).bound (k + 1) = hi := Function.update_self _ _ _

theorem part_extend_of_lt {i : Nat} (h : i < k) : (p.extend k hi s).part i = p.part i :=
  Function.update_of_ne h.ne _ _

@[simp] theorem part_extend_self : (p.extend k hi s).part k = s := Function.update_self _ _ _

end Extend

/-- Every state is the start of a mode, an end of a rule, or in a body. -/
theorem state_cases (p : Plan) {count k q : Nat} (hbase : p.bound 0 = p.modes + 2 * count)
    (hq : q < p.bound k) : q < p.modes ∨ (∃ i < count, q = p.start i ∨ q = p.stop i) ∨
      ∃ i < k, p.bound i ≤ q ∧ q < p.bound (i + 1) := by
  by_cases hm : q < p.modes
  · exact .inl hm
  by_cases hb : q < p.bound 0
  · refine .inr (.inl ⟨(q - p.modes) / 2, by omega, ?_⟩)
    rw [start, stop]
    omega
  · exact .inr (.inr (exists_part (Nat.le_of_not_lt hb) hq))

/-- What a state is where there are so many rules.  `lazy` holds if it may prefer to leave. -/
inductive StateAt (p : Plan) (count : Nat) (lazy : Prop) (q : Nat) (s : State) : Prop
  | mode : q < p.modes → s.id = q → s.kind = .tokensStart → StateAt p count lazy q s
  | start {i : Nat} : i < count → q = p.start i → s.id = q → s.kind = .ruleStart → StateAt p count lazy q s
  | stop {i : Nat} : i < count → q = p.stop i → s.id = q → s.kind = .ruleStop → StateAt p count lazy q s
  | inner : s.id = q → s.kind.isInner → (s.nonGreedy → lazy) → StateAt p count lazy q s

namespace StateAt
variable {p : Plan} {count q : Nat} {lazy : Prop} {s : State}

/-- The number of a state is its position. -/
theorem id_eq (h : p.StateAt count lazy q s) : s.id = q := by
  cases h <;> assumption

/-- The ends of rules are the only stop states. -/
theorem exists_stop (h : p.StateAt count lazy q s) (hstop : s.isStop) : ∃ i < count, q = p.stop i := by
  rw [State.isStop, decide_eq_true_iff] at hstop
  cases h with
  | mode _ _ hk =>
    rw [hk] at hstop
    cases hstop
  | start _ _ _ hk =>
    rw [hk] at hstop
    cases hstop
  | stop hi hq => exact ⟨_, hi, hq⟩
  | inner _ hk =>
    rw [hstop] at hk
    cases hk

/-- Only modes begin where tokens start. -/
theorem lt_modes (h : p.StateAt count lazy q s) (hkind : s.kind = .tokensStart) : q < p.modes := by
  cases h with
  | mode hm => exact hm
  | start _ _ _ hk | stop _ _ _ hk =>
    rw [hk] at hkind
    cases hkind
  | inner _ hk =>
    rw [hkind] at hk
    cases hk

/-- Decisions outside the modes prefer to leave only where an element does. -/
theorem eager (h : p.StateAt count False q s) (hkind : s.kind ≠ .tokensStart) :
    (s.nonGreedy && s.kind.isDecision) = false := by
  cases h with
  | mode _ _ hk => exact absurd hk hkind
  | start _ _ _ hk | stop _ _ _ hk =>
    rw [hk]
    exact Bool.and_false _
  | inner _ _ heager =>
    rw [Bool.eq_false_iff.mpr heager]
    exact Bool.false_and _

end StateAt
end Plan

/-- The ways from a mode to those of the first `k` rules of a grammar that make tokens in it. -/
def Grammar.modeWays (g : Grammar) (p : Plan) (k m : Nat) : List Transition :=
  ((List.range k).filter fun i => g.rules[i]?.any fun r => !r.isFragment && r.mode == m).map
    fun i => .epsilon (p.start i)

/-- One more rule is led to from its mode, unless it is a fragment. -/
theorem Grammar.modeWays_succ {g : Grammar} {j : Nat} {r : Rule} (hr : g.rules[j]? = some r) (p : Plan) (m : Nat) :
    g.modeWays p (j + 1) m =
      g.modeWays p j m ++ if !r.isFragment && r.mode == m then [.epsilon (p.start j)] else [] := by
  rw [modeWays, modeWays, List.range_succ, List.filter_append, List.map_append]
  congr 1
  cases hc : !r.isFragment && r.mode == m <;> simp [hr, hc]

/-- The tables of a network name the ends of the first `k` rules of a grammar. -/
structure Tables (g : Grammar) (modes k : Nat) (n : Network) : Prop where
  kind : n.kind = g.kind
  maxSymbol : n.maxSymbol = g.maxSymbol
  modeStarts : n.modeStarts.toList = List.range modes
  ruleStarts : n.ruleStarts.toList = (List.range k).map (modes + 2 * ·)
  ruleStops : n.ruleStops.toList = (List.range k).map (modes + 2 * · + 1)
  ruleNames : n.ruleNames.toList = (g.rules.take k).map Rule.name
  nodup : ((g.rules.take k).map Rule.name).Nodup
  tokenTypes : g.kind = .lexer → n.tokenTypes.toList = (g.rules.take k).map Rule.tokenType

namespace Tables
variable {g : Grammar} {n n' : Network} {modes k : Nat}

theorem ruleStart (h : Tables g modes k n) {i : Nat} (hi : i < k) :
    n.ruleStarts[i]? = some (modes + 2 * i) := by
  rw [← Array.getElem?_toList, h.ruleStarts]
  simp [hi]

theorem ruleStop (h : Tables g modes k n) {i : Nat} (hi : i < k) :
    n.ruleStops[i]? = some (modes + 2 * i + 1) := by
  rw [← Array.getElem?_toList, h.ruleStops]
  simp [hi]

/-- A name of a rule is resolved to the one rule that has it. -/
theorem callees_eq_some_iff (h : Tables g modes g.rules.length n) {name : String} {a i : Nat} :
    n.callees name = some (a, i) ↔ a = modes + 2 * i ∧ ∃ r, g.rules[i]? = some r ∧ r.name = name := by
  have hnames := h.ruleNames
  have hnodup := h.nodup
  rw [List.take_length] at hnames hnodup
  have hget : ∀ i, n.ruleNames[i]? = g.rules[i]?.map Rule.name := fun i => by
    rw [← Array.getElem?_toList, hnames, List.getElem?_map]
  have hrule : n.rule? name = some i ↔ ∃ r, g.rules[i]? = some r ∧ r.name = name := by
    rw [Network.rule?, Array.findIdx?_eq_some_iff_getElem]
    constructor
    · rintro ⟨hi, hname, -⟩
      have hi' := hget i
      rw [Array.getElem?_eq_getElem hi] at hi'
      obtain ⟨r, hr, hn⟩ := Option.map_eq_some_iff.mp hi'.symm
      exact ⟨r, hr, hn.trans (by simpa using hname)⟩
    · rintro ⟨r, hr, rfl⟩
      have hi := hget i
      rw [hr, Option.map_some] at hi
      obtain ⟨hlt, hname⟩ := Array.getElem?_eq_some_iff.mp hi
      -- No other rule has the name, since the names are distinct.
      refine ⟨hlt, by simp [hname], fun j hj => ?_⟩
      have hne : n.ruleNames[j] ≠ r.name := by
        intro he
        have hlist : n.ruleNames.toList.Nodup := hnames ▸ hnodup
        have hi' : i < n.ruleNames.toList.length := by simpa using hlt
        have hj' : j < n.ruleNames.toList.length := hj.trans hi'
        have heq : n.ruleNames.toList[j] = n.ruleNames.toList[i] := by simpa using he.trans hname.symm
        exact absurd (hlist.getElem_inj_iff.mp heq) (by omega)
      simpa using hne
  rw [Network.callees, Option.map_eq_some_iff]
  constructor
  · rintro ⟨j, hj, he⟩
    obtain ⟨rfl, rfl⟩ := Prod.mk.inj he
    have hr := hrule.mp hj
    refine ⟨?_, hr⟩
    obtain ⟨r, hr, -⟩ := hr
    rw [h.ruleStart (List.getElem?_eq_some_iff.mp hr).1, Option.getD_some]
  · rintro ⟨rfl, hr⟩
    refine ⟨i, hrule.mpr hr, ?_⟩
    obtain ⟨r, hr, -⟩ := hr
    rw [h.ruleStart (List.getElem?_eq_some_iff.mp hr).1, Option.getD_some]

/-- A stop belongs to one rule. -/
theorem eq_of_ruleStop (h : Tables g modes k n) {i j : Nat}
    (hj : n.ruleStops[j]? = some (modes + 2 * i + 1)) : j = i := by
  have hlt : j < k := by
    have := (Array.getElem?_eq_some_iff.mp hj).1
    rwa [← Array.length_toList, h.ruleStops, List.length_map, List.length_range] at this
  have := Option.some.inj ((h.ruleStop hlt).symm.trans hj)
  omega

/-- What leaves the tables alone keeps what they are. -/
theorem grows {rule b : Nat} {lazy : Prop} (h : Tables g modes k n)
    (hg : Layout.Grows rule lazy b n n') : Tables g modes k n' where
  kind := hg.kind.trans h.kind
  maxSymbol := hg.maxSymbol.trans h.maxSymbol
  modeStarts := hg.modeStarts ▸ h.modeStarts
  ruleStarts := hg.ruleStarts ▸ h.ruleStarts
  ruleStops := hg.ruleStops ▸ h.ruleStops
  ruleNames := hg.ruleNames ▸ h.ruleNames
  nodup := h.nodup
  tokenTypes hk := hg.tokenTypes ▸ h.tokenTypes hk

end Tables

namespace Layout
variable {g : Grammar} {n n' : Network} {modes k j : Nat} {p : Plan} {lazy : Prop}

/-! ## Passes -/

/-- A pass over the rules keeps what its steps keep. -/
theorem forRules_run {act : Nat → Rule → Layout Unit} {P : Nat → Network → Prop}
    {rules : List Rule} {u : Unit}
    (hstep : ∀ i r n n' u, rules[i]? = some r → P i n → act i r n = .ok (u, n') → P (i + 1) n')
    (h0 : P 0 n) (h : forRules act 0 rules n = .ok (u, n')) : P rules.length n' := by
  have hgo : ∀ (rest : List Rule) (i : Nat) (n : Network) (u : Unit), rules.drop i = rest → P i n →
      forRules act i rest n = .ok (u, n') → P (i + rest.length) n' := by
    intro rest
    induction rest with
    | nil =>
      intro i n u _ hp h
      cases h
      exact hp
    | cons r rest ih =>
      intro i n u hdrop hp h
      obtain ⟨u₁, n₁, h₁, h⟩ := exists_of_bind h
      have hr : rules[i]? = some r := by
        rw [← List.head?_drop, hdrop]
        rfl
      have hrest : rules.drop (i + 1) = rest := by
        rw [← List.tail_drop, hdrop]
        rfl
      have := ih (i + 1) n₁ u hrest (hstep i r n n₁ u₁ hr hp h₁) h
      rwa [List.length_cons, Nat.add_comm rest.length, ← Nat.add_assoc]
  simpa using hgo rules 0 n u rfl h0 h

/-- A pass over the modes keeps what its steps keep. -/
theorem forM_run {act : String → Layout PUnit} {P : Nat → Network → Prop} {names : List String}
    {u : PUnit} (hstep : ∀ i name n n' u, P i n → act name n = .ok (u, n') → P (i + 1) n')
    (h0 : P 0 n) (h : names.forM act n = .ok (u, n')) : P names.length n' := by
  have hgo : ∀ (names : List String) (i : Nat) (n : Network), P i n →
      names.forM act n = .ok (u, n') → P (i + names.length) n' := by
    intro names
    induction names with
    | nil =>
      intro i n hp h
      cases h
      exact hp
    | cons name names ih =>
      intro i n hp h
      change (act name >>= fun _ => names.forM act) n = _ at h
      obtain ⟨u₁, n₁, h₁, h⟩ := exists_of_bind h
      have := ih (i + 1) n₁ (hstep i name n n₁ u₁ hp h₁) h
      rwa [List.length_cons, Nat.add_comm names.length, ← Nat.add_assoc]
  simpa using hgo names 0 n h0 h

/-! ## The ends of the rules -/

/-- The network holds the starts of the modes and the ends of the first `k` rules, and nothing leads
on from them. -/
structure Ends (g : Grammar) (modes k : Nat) (n : Network) : Prop extends Tables g modes k n where
  size : n.states.size = modes + 2 * k
  decisions : n.decisions.toList = List.range modes
  mode : ∀ m < modes, n.states[m]? =
    some { id := m, rule := 0, kind := .tokensStart, decision := some m }
  start : ∀ i < k, n.states[modes + 2 * i]? =
    some { id := modes + 2 * i, rule := i, kind := .ruleStart }
  stop : ∀ i < k, n.states[modes + 2 * i + 1]? =
    some { id := modes + 2 * i + 1, rule := i, kind := .ruleStop }

theorem ends_empty (g : Grammar) : Ends g 0 0 { kind := g.kind, maxSymbol := g.maxSymbol } where
  kind := rfl
  maxSymbol := rfl
  modeStarts := rfl
  ruleStarts := rfl
  ruleStops := rfl
  ruleNames := by simp
  nodup := by simp
  tokenTypes _ := by simp
  size := rfl
  decisions := rfl
  mode m hm := by omega
  start i hi := by omega
  stop i hi := by omega

theorem Ends.addMode {name : String} {u : Unit} (h : Ends g modes 0 n)
    (hop : addMode name n = .ok (u, n')) : Ends g (modes + 1) 0 n' := by
  obtain ⟨a, n₁, h₁, hop⟩ := exists_of_bind hop
  obtain ⟨u₂, n₂, h₂, hop⟩ := exists_of_bind hop
  cases h₁
  cases h₂
  cases hop
  have hsize : n.states.size = modes := h.size
  have hdec : n.decisions.size = modes := by
    rw [← Array.length_toList, h.decisions, List.length_range]
  refine { h with
    modeStarts := ?_, ruleStarts := ?_, ruleStops := ?_, size := ?_, decisions := ?_, mode := ?_
    start := fun i hi => by omega
    stop := fun i hi => by omega }
  · simp [h.modeStarts, hsize, List.range_succ]
  · simpa using h.ruleStarts
  · simpa using h.ruleStops
  · simp [hsize]
  · simp [h.decisions, hsize, List.range_succ]
  · intro m hm
    dsimp only
    rw [Array.getElem?_modify, Array.getElem?_push]
    by_cases hlt : m = n.states.size
    · rw [if_pos hlt.symm, if_pos hlt, hlt, hsize, hdec]
      rfl
    · rw [if_neg (Ne.symm hlt), if_neg hlt]
      exact h.mode m (by omega)

theorem Ends.addRule {r : Rule} {u : Unit} (h : Ends g modes k n) (hr : g.rules[k]? = some r)
    (hop : addRule k r n = .ok (u, n')) : Ends g modes (k + 1) n' := by
  obtain ⟨_, n₀, h₀, hop⟩ := exists_of_bind hop
  cases h₀
  have htake : g.rules.take (k + 1) = g.rules.take k ++ [r] := by
    rw [List.take_add_one, hr, Option.toList_some]
  cases hnone : n.rule? r.name with
  | some i =>
    rw [hnone] at hop
    cases hop
  | none =>
    rw [hnone] at hop
    obtain ⟨a, n₁, h₁, hop⟩ := exists_of_bind hop
    obtain ⟨b, n₂, h₂, hop⟩ := exists_of_bind hop
    cases h₁
    cases h₂
    cases hop
    have hsize := h.size
    have hfresh : r.name ∉ (g.rules.take k).map Rule.name := by
      rw [← h.ruleNames, Array.mem_toList_iff]
      intro hmem
      have := (Array.findIdx?_eq_none_iff.mp hnone) r.name hmem
      simp at this
    -- The two new states come behind those of the modes and of the earlier rules.
    refine { kind := h.kind, maxSymbol := h.maxSymbol, modeStarts := h.modeStarts,
             ruleStarts := ?_, ruleStops := ?_, ruleNames := ?_, nodup := ?_, tokenTypes := ?_
             size := ?_, decisions := h.decisions, mode := ?_, start := ?_, stop := ?_ }
    · simp [h.ruleStarts, List.range_succ, hsize]
    · simp [h.ruleStops, List.range_succ, hsize]
    · simp [h.ruleNames, htake]
    · rw [htake, List.map_append, List.nodup_append]
      refine ⟨h.nodup, by simp, fun x hx y hy he => hfresh ?_⟩
      rw [List.map_singleton, List.mem_singleton] at hy
      rwa [← hy, ← he]
    · intro hk
      have : n.kind = .lexer := h.kind.trans hk
      simp [this, h.tokenTypes hk, htake]
    · simp [hsize]
      omega
    · intro m hm
      dsimp only
      rw [Array.getElem?_push, Array.getElem?_push, if_neg, if_neg (by omega)]
      · exact h.mode m hm
      · rw [Array.size_push]
        omega
    · intro i hi
      dsimp only
      rw [Array.getElem?_push, Array.getElem?_push, if_neg]
      · by_cases hlt : i = k
        · subst hlt
          rw [if_pos hsize.symm, hsize]
        · rw [if_neg (by omega)]
          exact h.start i (by omega)
      · rw [Array.size_push]
        omega
    · intro i hi
      dsimp only
      rw [Array.getElem?_push, Array.getElem?_push, Array.size_push]
      by_cases hlt : i = k
      · subst hlt
        rw [if_pos (by omega), hsize]
      · rw [if_neg (by omega), if_neg (by omega)]
        exact h.stop i (by omega)

/-! ## The bodies -/

/-- The network holds the first `k` bodies between the ends of their rules, and the ways from the
modes to the first `j` rules. -/
structure Bodies (g : Grammar) (p : Plan) (lazy : Prop) (k j : Nat) (n : Network) : Prop
    extends Tables g p.modes g.rules.length n where
  base : p.bound 0 = p.modes + 2 * g.rules.length
  size : n.states.size = p.bound k
  decisions : List.range p.modes <+: n.decisions.toList
  mode : ∀ m < p.modes, ∃ s, n.states[m]? = some s ∧ s.id = m ∧ s.rule = 0 ∧
    s.kind = .tokensStart ∧ s.decision = some m
  modeWays : ∀ m < p.modes, n.ways m = g.modeWays p j m
  start : ∀ i < g.rules.length, ∃ s, n.states[p.start i]? = some s ∧ s.id = p.start i ∧
    s.rule = i ∧ s.kind = .ruleStart ∧ s.decision = none
  stop : ∀ i < g.rules.length, n.states[p.stop i]? =
    some { id := p.stop i, rule := i, kind := .ruleStop }
  inner : ∀ i < k, ∀ q s, p.bound i ≤ q → q < p.bound (i + 1) → n.states[q]? = some s →
    s.id = q ∧ s.rule = i ∧ s.kind.isInner ∧ (s.nonGreedy → lazy)
  laid : ∀ i r, i < k → g.rules[i]? = some r →
    Laid n.ways n.callees i r.body (p.bound i) (p.bound (i + 1)) (p.part i)
  enter : ∀ i < k, n.ways (p.start i) = [.epsilon (p.part i).entry]
  unentered : ∀ i, k ≤ i → i < g.rules.length → n.ways (p.start i) = []
  leave : ∀ i < k, n.ways (p.part i).exit = [.epsilon (p.stop i)]
  choices : ∀ i < k, ∀ q, p.bound i ≤ q → q < p.bound (i + 1) → 1 < (n.ways q).length → n.Decided q

theorem ways_of_eq {q : Nat} {s : State} (h : n.states[q]? = some s) : n.ways q = s.transitions := by
  rw [Network.ways, Network.state, h, Option.getD_some]

theorem mem_ways {q : Nat} {t : Transition} :
    t ∈ n.ways q ↔ ∃ s, n.states[q]? = some s ∧ t ∈ s.transitions := by
  rw [Network.ways, Network.state]
  cases n.states[q]? with
  | none => simp
  | some s => simp

/-- A state from which there is a way on is there. -/
theorem lt_of_mem_ways {q : Nat} {t : Transition} (h : t ∈ n.ways q) : q < n.states.size := by
  obtain ⟨s, hs, -⟩ := mem_ways.mp h
  exact (Array.getElem?_eq_some_iff.mp hs).1

theorem Ends.bodies (h : Ends g modes g.rules.length n) :
    Bodies g ⟨modes, fun _ => modes + 2 * g.rules.length, fun _ => ⟨0, 0⟩⟩ lazy 0 0 n where
  __ := h.toTables
  base := rfl
  size := h.size
  decisions := h.decisions ▸ List.prefix_refl _
  mode m hm := ⟨_, h.mode m hm, rfl, rfl, rfl, rfl⟩
  modeWays m hm := ways_of_eq (h.mode m hm)
  start i hi := ⟨_, h.start i hi, rfl, rfl, rfl, rfl⟩
  stop := h.stop
  inner i hi := by omega
  laid i r hi := by omega
  enter i hi := by omega
  unentered i _ hi := ways_of_eq (h.start i hi)
  leave i hi := by omega
  choices i hi := by omega

/-- A free transition was added to a state. -/
structure Joined (source target : Nat) (n n' : Network) : Prop where
  size : n'.states.size = n.states.size
  ways : ∀ q, n'.ways q = n.ways q ++ if q = source then [.epsilon target] else []
  old : ∀ q, q ≠ source → n'.states[q]? = n.states[q]?
  new : ∀ s, n.states[source]? = some s →
    n'.states[source]? = some (s.addTransition (.epsilon target))
  grows : Grows 0 False 0 n n'

theorem join_joined {source target : Nat} {u : Unit} (hop : join source target n = .ok (u, n'))
    (hs : source < n.states.size) : Joined source target n n' := by
  cases hop
  refine ⟨by simp, ways_connect hs _, fun q hq => ?_, fun s hget => ?_,
    grows_connect (Nat.zero_le _) _⟩
  · dsimp only
    rw [Array.getElem?_modify, if_neg (Ne.symm hq)]
  · dsimp only
    rw [Array.getElem?_modify, if_pos rfl, hget]
    rfl

/-- Joining states changes none of them otherwise. -/
theorem Joined.inner {source target rule b : Nat} (h : Joined source target n n')
    (hi : Inner rule lazy b n) : Inner rule lazy b n' := by
  intro q s hq hget
  by_cases hs : q = source
  · subst hs
    have hlt := (Array.getElem?_eq_some_iff.mp hget).1
    rw [h.size] at hlt
    rw [h.new _ (Array.getElem?_eq_getElem hlt)] at hget
    cases hget
    have hq' := hi q n.states[q] hq (Array.getElem?_eq_getElem hlt)
    exact hq'
  · rw [h.old q hs] at hget
    exact hi q s hq hget

/-- A body was placed behind the states of a network, and its rule leads into it and out of it.  Only the start of
the rule changes among the states that were there. -/
structure Placed (rule : Nat) (lazy : Prop) (start stop : Nat) (n n' : Network) (body : Element) (s : Stretch) :
    Prop where
  tables : ∀ {g : Grammar} {modes k : Nat}, Tables g modes k n → Tables g modes k n'
  callees : n'.callees = n.callees
  decisions : n.decisions.toList <+: n'.decisions.toList
  old : ∀ q < n.states.size, q ≠ start → n'.states[q]? = n.states[q]?
  entered : ∀ u, n.states[start]? = some u → n'.states[start]? = some (u.addTransition (.epsilon s.entry))
  enter : n'.ways start = n.ways start ++ [.epsilon s.entry]
  leave : n'.ways s.exit = [.epsilon stop]
  inner : Inner rule lazy n.states.size n'
  laid : Laid n'.ways n.callees rule body n.states.size n'.states.size s
  choices : ∀ q, n.states.size ≤ q → 1 < (n'.ways q).length → n'.Decided q

namespace Placed
variable {rule start stop : Nat} {body : Element} {s : Stretch} {n₁ n₂ : Network}

theorem ways (h : Placed rule lazy start stop n n' body s) {q : Nat} (hq : q < n.states.size) (hne : q ≠ start) :
    n'.ways q = n.ways q := by
  rw [Network.ways, Network.ways, Network.state, Network.state, h.old q hq hne]

/-- An element that was built is placed by joining the start to its entry, and its exit to the stop. -/
theorem of_built (hbuilt : Built rule lazy n n₁ body s) (henter : Joined start s.entry n₁ n₂)
    (hleave : Joined s.exit stop n₂ n') (hstart : start < n.states.size) :
    Placed rule lazy start stop n n' body s := by
  have hbounds := hbuilt.laid.bounds
  have hne : start ≠ s.exit := by omega
  have hsize : n'.states.size = n₁.states.size := hleave.size.trans henter.size
  have hstates : ∀ q, q ≠ start → q ≠ s.exit → n'.states[q]? = n₁.states[q]? := fun q h₁ h₂ =>
    (hleave.old q h₂).trans (henter.old q h₁)
  have hways : ∀ q, q ≠ start → q ≠ s.exit → n'.ways q = n₁.ways q := fun q h₁ h₂ => by
    rw [hleave.ways, henter.ways, if_neg h₁, if_neg h₂, List.append_nil, List.append_nil]
  have hleft : n'.ways s.exit = [.epsilon stop] := by
    rw [hleave.ways, henter.ways, hbuilt.last, if_neg hne.symm, if_pos rfl]
    rfl
  have hempty : Inner rule lazy n.states.size n := fun q u hq hget => by
    have := (Array.getElem?_eq_some_iff.mp hget).1
    omega
  exact {
    tables := fun h => ((h.grows hbuilt.grows).grows henter.grows).grows hleave.grows
    callees := by rw [hleave.grows.callees, henter.grows.callees, hbuilt.grows.callees]
    decisions := (hbuilt.grows.decisions.trans henter.grows.decisions).trans hleave.grows.decisions
    old := fun q hq hqs => (hstates q hqs (by omega)).trans (hbuilt.grows.old q hq)
    entered := fun u hu => by
      rw [← hbuilt.grows.old _ hstart] at hu
      exact (hleave.old _ hne).trans (henter.new u hu)
    enter := by
      rw [hleave.ways, henter.ways, hbuilt.grows.ways hstart, if_pos rfl, if_neg hne, List.append_nil]
    leave := hleft
    inner := hleave.inner (henter.inner (hbuilt.grows.inner hempty))
    laid := by
      rw [hsize]
      exact hbuilt.laid.mono fun q hlo _ hq => hways q (by omega) hq
    choices := fun q hlo hmany => by
      by_cases hq : q = s.exit
      · rw [hq, hleft] at hmany
        simp at hmany
      · rw [hways q (by omega) hq] at hmany
        exact (hbuilt.choices q hlo hmany).congr (hstates q (by omega) hq) }

end Placed

namespace Bodies

/-- The bounds of the bodies ascend. -/
theorem bound_le_succ (h : Bodies g p lazy k j n) (hk : k ≤ g.rules.length) :
    ∀ i < k, p.bound i ≤ p.bound (i + 1) := fun i hi => by
  have := (h.laid i _ hi (List.getElem?_eq_getElem (by omega))).bounds
  omega

/-- The ends of the rules are in front of the bodies. -/
theorem ends_lt (h : Bodies g p lazy k j n) (hk : k ≤ g.rules.length) {i : Nat}
    (hi : i < g.rules.length) : p.start i < p.bound 0 ∧ p.stop i < p.bound 0 ∧
      p.bound 0 ≤ n.states.size := by
  have := bound_le (h.bound_le_succ hk) (Nat.zero_le k) le_rfl
  rw [Plan.start, Plan.stop, h.base, h.size]
  have := h.base
  omega

/-- Where the first bodies are: behind the ends of the rules, and in front of what is laid out next. -/
theorem bounds (h : Bodies g p lazy k j n) (hk : k ≤ g.rules.length) {i : Nat} (hi : i < k) :
    p.bound 0 ≤ p.bound i ∧ p.bound (i + 1) ≤ n.states.size := by
  rw [h.size]
  exact ⟨bound_le (h.bound_le_succ hk) (Nat.zero_le i) hi.le, bound_le (h.bound_le_succ hk) hi le_rfl⟩

/-- One more body is placed. -/
theorem placed {r : Rule} {u : Unit} (h : Bodies g p lazy k j n) (hr : g.rules[k]? = some r)
    (hlazy : ¬lazy → r.body.everywhere fun e => !e.isLazy) (hop : Layout.addBody k r n = .ok (u, n')) :
    ∃ s, Placed k lazy (p.start k) (p.stop k) n n' r.body s := by
  obtain ⟨hklt, -⟩ := List.getElem?_eq_some_iff.mp hr
  obtain ⟨s, n₁, h₁, hop⟩ := exists_of_bind hop
  obtain ⟨_, n₂, h₂, hop⟩ := exists_of_bind hop
  cases h₂
  obtain ⟨_, n₂, h₂, hop⟩ := exists_of_bind hop
  have hnames : n.ruleNames.size = n.ruleStarts.size := by
    rw [← Array.length_toList, h.ruleNames, ← Array.length_toList, h.ruleStarts]
    simp
  have hbuilt := element_built hlazy hnames h₁
  have hstart : n₁.ruleStarts[k]?.getD n₁.states.size = p.start k := by
    rw [hbuilt.grows.ruleStarts, h.toTables.ruleStart hklt]
    rfl
  have hstop : n₁.ruleStops[k]?.getD n₁.states.size = p.stop k := by
    rw [hbuilt.grows.ruleStops, h.toTables.ruleStop hklt]
    rfl
  rw [hstart] at h₂
  rw [hstop] at hop
  have hbounds := hbuilt.laid.bounds
  have hlt : p.start k < n.states.size := by
    have := h.ends_lt hklt.le hklt
    omega
  have hgrow := hbuilt.grows.size
  have henter := join_joined h₂ (by omega)
  have hleave := join_joined hop (by rw [henter.size]; omega)
  exact ⟨s, .of_built hbuilt henter hleave hlt⟩

/-- A body that was placed is one more. -/
theorem extend {r : Rule} {s : Stretch} (h : Bodies g p lazy k j n) (hr : g.rules[k]? = some r)
    (hplaced : Placed k lazy (p.start k) (p.stop k) n n' r.body s) :
    Bodies g (p.extend k n'.states.size s) lazy (k + 1) j n' := by
  obtain ⟨hklt, -⟩ := List.getElem?_eq_some_iff.mp hr
  have hbase := h.base
  have hends := fun i => h.ends_lt hklt.le (i := i)
  have hk := hends k hklt
  have hbounds := fun i => h.bounds hklt.le (i := i)
  -- Only the start of the rule changes among the states that were there.
  have hstates : ∀ q, q < n.states.size → q ≠ p.start k → n'.states[q]? = n.states[q]? := fun q => hplaced.old q
  have hways : ∀ q, q < n.states.size → q ≠ p.start k → n'.ways q = n.ways q := fun q => hplaced.ways
  have hcases : ∀ {i}, i < k + 1 → i < k ∨ i = k := fun hi => Nat.lt_or_eq_of_le (Nat.le_of_lt_succ hi)
  have hboundk : (p.extend k n'.states.size s).bound k = n.states.size :=
    (p.bound_extend_of_le k _ s le_rfl).trans h.size.symm
  exact {
    toTables := hplaced.tables h.toTables
    base := (p.bound_extend_of_le k _ s (Nat.zero_le k)).trans h.base
    size := (p.bound_extend_self k _ s).symm
    decisions := h.decisions.trans hplaced.decisions
    mode := fun m (hm : m < p.modes) => by
      rw [hstates m (by omega) (by rw [Plan.start]; omega)]
      exact h.mode m hm
    modeWays := fun m (hm : m < p.modes) => by
      rw [hways m (by omega) (by rw [Plan.start]; omega)]
      exact h.modeWays m hm
    start := fun i hi => by
      obtain ⟨u, hu, hid⟩ := h.start i hi
      have := hends i hi
      by_cases hik : i = k
      · subst hik
        exact ⟨_, hplaced.entered u hu, hid⟩
      · rw [← hstates _ (by omega) (by rw [Plan.start, Plan.start]; omega)] at hu
        exact ⟨u, hu, hid⟩
    stop := fun i hi => by
      have := hends i hi
      change n'.states[p.stop i]? = _
      rw [hstates _ (by omega) (by rw [Plan.stop, Plan.start]; omega)]
      exact h.stop i hi
    inner := fun i hi q u hlo hhi hget => by
      rcases hcases hi with hik | rfl
      · rw [p.bound_extend_of_le k _ s hik.le] at hlo
        rw [p.bound_succ_extend_of_lt k _ s hik] at hhi
        have := hbounds i hik
        rw [hstates q (by omega) (by omega)] at hget
        exact h.inner i hik q u hlo hhi hget
      · rw [hboundk] at hlo
        exact hplaced.inner q u hlo hget
    laid := fun i r' hi hr' => by
      rw [hplaced.callees]
      rcases hcases hi with hik | rfl
      · rw [p.bound_extend_of_le k _ s hik.le, p.bound_succ_extend_of_lt k _ s hik, p.part_extend_of_lt k _ s hik]
        have := hbounds i hik
        exact (h.laid i r' hik hr').mono fun q hlo hhi _ => hways q (by omega) (by omega)
      · obtain rfl := Option.some.inj (hr.symm.trans hr')
        rw [hboundk, Plan.bound_extend_self, Plan.part_extend_self]
        exact hplaced.laid
    enter := fun i hi => by
      change n'.ways (p.start i) = _
      rcases hcases hi with hik | rfl
      · have := hends i (by omega)
        rw [p.part_extend_of_lt k _ s hik, hways _ (by omega) (by rw [Plan.start, Plan.start]; omega)]
        exact h.enter i hik
      · rw [Plan.part_extend_self, hplaced.enter, h.unentered i le_rfl hklt, List.nil_append]
    unentered := fun i hi hi' => by
      have := hends i hi'
      change n'.ways (p.start i) = _
      rw [hways _ (by omega) (by rw [Plan.start, Plan.start]; omega)]
      exact h.unentered i (by omega) hi'
    leave := fun i hi => by
      rcases hcases hi with hik | rfl
      · have := hbounds i hik
        have := (h.laid i _ hik (List.getElem?_eq_getElem (by omega))).bounds
        rw [p.part_extend_of_lt k _ s hik, hways _ (by omega) (by omega)]
        exact h.leave i hik
      · rw [Plan.part_extend_self]
        exact hplaced.leave
    choices := fun i hi q hlo hhi hmany => by
      rcases hcases hi with hik | rfl
      · rw [p.bound_extend_of_le k _ s hik.le] at hlo
        rw [p.bound_succ_extend_of_lt k _ s hik] at hhi
        have := hbounds i hik
        rw [hways q (by omega) (by omega)] at hmany
        exact (h.choices i hik q hlo hhi hmany).congr (hstates q (by omega) (by omega))
      · rw [hboundk] at hlo
        exact hplaced.choices q hlo hmany }

/-- One more body is laid out. -/
theorem addBody {r : Rule} {u : Unit} (h : Bodies g p lazy k j n) (hr : g.rules[k]? = some r)
    (hlazy : ¬lazy → r.body.everywhere fun e => !e.isLazy)
    (hop : addBody k r n = .ok (u, n')) :
    ∃ hi s, Bodies g (p.extend k hi s) lazy (k + 1) j n' := by
  obtain ⟨s, hplaced⟩ := h.placed hr hlazy hop
  exact ⟨_, s, h.extend hr hplaced⟩

/-- The starts of the modes are in front of all else. -/
theorem mode_lt (h : Bodies g p lazy k j n) (hk : k ≤ g.rules.length) {m : Nat} (hm : m < p.modes) :
    m < p.bound 0 ∧ p.bound 0 ≤ n.states.size := by
  have := bound_le (h.bound_le_succ hk) (Nat.zero_le k) le_rfl
  rw [h.base, h.size]
  have := h.base
  omega

/-- A way from a mode to a rule was added. -/
theorem enterMode {mode : Nat} (h : Bodies g p lazy g.rules.length j n) (hmode : mode < p.modes)
    (hjoined : Joined mode (p.start j) n n')
    (hnext : ∀ m, g.modeWays p (j + 1) m = g.modeWays p j m ++ if m = mode then [.epsilon (p.start j)] else []) :
    Bodies g p lazy g.rules.length (j + 1) n' := by
  have hways : ∀ q, p.modes ≤ q → n'.ways q = n.ways q := fun q hq => by
    rw [hjoined.ways, if_neg (by omega), List.append_nil]
  have hbase := h.base
  have hend := fun i => h.ends_lt le_rfl (i := i)
  have hfirst : ∀ i ≤ g.rules.length, p.modes ≤ p.bound i := fun i hi => by
    have := bound_le (h.bound_le_succ le_rfl) (Nat.zero_le i) hi
    omega
  exact {
    toTables := h.toTables.grows hjoined.grows
    base := h.base
    size := hjoined.size.trans h.size
    decisions := h.decisions.trans hjoined.grows.decisions
    mode := fun m hm => by
      obtain ⟨s, hs, hid⟩ := h.mode m hm
      by_cases hmr : m = mode
      · subst hmr
        exact ⟨_, hjoined.new s hs, hid⟩
      · exact ⟨s, (hjoined.old m hmr).trans hs, hid⟩
    modeWays := fun m hm => by rw [hjoined.ways, h.modeWays m hm, hnext]
    start := fun i hi => by
      obtain ⟨s, hs, hrest⟩ := h.start i hi
      exact ⟨s, (hjoined.old _ (by rw [Plan.start]; omega)).trans hs, hrest⟩
    stop := fun i hi => (hjoined.old _ (by rw [Plan.stop]; omega)).trans (h.stop i hi)
    inner := fun i hi q s hlo hhi hget => by
      have := hfirst i hi.le
      rw [hjoined.old q (by omega)] at hget
      exact h.inner i hi q s hlo hhi hget
    laid := fun i r' hi hr' => by
      rw [hjoined.grows.callees]
      have := hfirst i hi.le
      exact (h.laid i r' hi hr').mono fun q hlo _ _ => hways q (by omega)
    enter := fun i hi => (hways _ (by rw [Plan.start]; omega)).trans (h.enter i hi)
    unentered := fun i hi hi' => by omega
    leave := fun i hi => by
      have := (h.laid i _ hi (List.getElem?_eq_getElem hi)).bounds
      have := hfirst i hi.le
      exact (hways _ (by omega)).trans (h.leave i hi)
    choices := fun i hi q hlo hhi hmany => by
      have := hfirst i hi.le
      rw [hways q (by omega)] at hmany
      exact (h.choices i hi q hlo hhi hmany).congr (hjoined.old q (by omega)) }

/-- One more rule is entered into its mode. -/
theorem addToMode {r : Rule} {u : Unit} (h : Bodies g p lazy g.rules.length j n)
    (hr : g.rules[j]? = some r) (hop : addToMode j r n = .ok (u, n')) :
    Bodies g p lazy g.rules.length (j + 1) n' := by
  obtain ⟨hjlt, -⟩ := List.getElem?_eq_some_iff.mp hr
  have hnext := Grammar.modeWays_succ hr p
  cases hf : r.isFragment with
  | true =>
    rw [Layout.addToMode, hf] at hop
    cases hop
    refine { h with modeWays := fun m hm => ?_ }
    rw [hnext, hf, h.modeWays m hm]
    simp
  | false =>
    rw [Layout.addToMode, hf] at hop
    obtain ⟨_, n₁, h₁, hop⟩ := exists_of_bind hop
    cases h₁
    rw [h.toTables.ruleStart hjlt, Option.getD_some] at hop
    by_cases hlt : r.mode < p.modes
    · have hmode : n.modeStarts[r.mode]?.getD n.states.size = r.mode := by
        rw [← Array.getElem?_toList, h.modeStarts, List.getElem?_range hlt, Option.getD_some]
      rw [hmode] at hop
      have hfront := h.mode_lt le_rfl hlt
      refine h.enterMode hlt (join_joined hop (by omega)) fun m => ?_
      rw [hnext, hf]
      by_cases hmr : m = r.mode
      · simp [hmr]
      · simp [hmr, Ne.symm hmr]
    · -- A rule of a mode that does not exist is entered nowhere.
      have hmode : n.modeStarts[r.mode]?.getD n.states.size = n.states.size := by
        rw [← Array.getElem?_toList, h.modeStarts, List.getElem?_eq_none (by simpa using hlt),
          Option.getD_none]
      have hsame : n.states.modify n.states.size
          (·.addTransition (.epsilon (p.modes + 2 * j))) = n.states := by
        refine Array.ext_getElem? fun q => ?_
        rw [Array.getElem?_modify]
        split
        · next hq => rw [← hq, Array.getElem?_eq_none le_rfl, Option.map_none]
        · rfl
      rw [hmode] at hop
      change join n.states.size (p.modes + 2 * j) n = _ at hop
      rw [join, connect_eq, hsame] at hop
      cases hop
      refine { h with modeWays := fun m hm => ?_ }
      have hne : r.mode ≠ m := by omega
      rw [hnext, h.modeWays m hm]
      simp [hne]

end Bodies

/-! ## All passes -/

/-- What a network is before it is linked. -/
theorem grammar_bodies (hlazy : ¬lazy → ∀ r ∈ g.rules, r.body.everywhere fun e => !e.isLazy)
    {u : Unit} (h : grammar g { kind := g.kind, maxSymbol := g.maxSymbol } = .ok (u, n)) :
    ∃ p, Bodies g p lazy g.rules.length g.rules.length n ∧
      p.modes = if g.kind = .lexer then g.modes.length else 0 := by
  have hmodes : ∃ n₁, Ends g (if g.kind = .lexer then g.modes.length else 0) 0 n₁ ∧
      (forRules addRule 0 g.rules >>= fun _ => forRules addBody 0 g.rules >>= fun _ =>
        if g.kind = .lexer then forRules addToMode 0 g.rules else pure ()) n₁ = .ok (u, n) := by
    rw [grammar] at h
    by_cases hk : g.kind = .lexer
    · rw [if_pos hk] at h ⊢
      obtain ⟨_, n₁, h₁, h⟩ := exists_of_bind h
      exact ⟨n₁, forM_run (P := fun m => Ends g m 0) (fun _ _ _ _ _ => Ends.addMode)
        (ends_empty g) h₁, h⟩
    · rw [if_neg hk] at h ⊢
      exact ⟨_, ends_empty g, h⟩
  obtain ⟨n₁, hends, h⟩ := hmodes
  obtain ⟨_, n₂, h₂, h⟩ := exists_of_bind h
  obtain ⟨_, n₃, h₃, h⟩ := exists_of_bind h
  have hends := forRules_run (P := Ends g _) (fun _ _ _ _ _ hr h => h.addRule hr) hends h₂
  obtain ⟨p, hbodies, hp⟩ := forRules_run
    (P := fun k n => ∃ p, Bodies g p lazy k 0 n ∧ p.modes = if g.kind = .lexer then g.modes.length else 0)
    (fun k r n n' _ hr ⟨p, hb, hp⟩ hop => by
      obtain ⟨hi, s, hb'⟩ := hb.addBody hr (fun hl => hlazy hl r (List.mem_of_getElem? hr)) hop
      exact ⟨p.extend k hi s, hb', hp⟩)
    ⟨_, hends.bodies, rfl⟩ h₃
  refine ⟨p, ?_, hp⟩
  split at h
  · exact forRules_run (P := Bodies g p lazy g.rules.length) (fun _ _ _ _ _ hr h => h.addToMode hr)
      hbodies h
  · next hk =>
    cases h
    rw [if_neg hk] at hp
    exact { hbodies with modeWays := fun m hm => by omega }

end Layout
end AdaptiveLL
