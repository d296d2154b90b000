import Mathlib
import AdaptiveLL.Proofs.Grammar.LaidOut
import AdaptiveLL.Proofs.Grammar.Residual

/-! # A network reads the language of its grammar

From the start of a rule to its stop, with an empty stack at both, the machine of a grammar's network
reads exactly the words that the rule's body stands for (`Grammar.reads_iff_derives`).

What the body stands for can be read, since every element can be crossed from its entry to its exit
(`Grammar.LaidOut.crossings`).  What is read is in the language, since the states can be labelled
with what is left to be read (`Grammar.LaidOut.exists_labels`), and a stack with the labels of its
states one after another.
-/
namespace AdaptiveLL

namespace Grammar.LaidOut
variable {g : Grammar} {p : Plan} {lazy : Prop} {n : Network} {lo hi : Int}

/-! ## States -/

theorem isStop_stop (h : g.LaidOut p lazy n) {i : Nat} (hi : i < g.rules.length) :
    n.isStop (p.stop i) := by
  obtain ⟨s, hs, -, -, hk, -⟩ := h.stop i hi
  rw [Network.isStop, Network.state, hs, Option.getD_some, State.isStop, hk]
  rfl

/-- What is where in the network. -/
theorem stateAt (h : g.LaidOut p lazy n) {q : Nat} {s : State} (hs : n.states[q]? = some s) :
    p.StateAt g.rules.length lazy q s := by
  rcases p.state_cases h.base (h.size ▸ (Array.getElem?_eq_some_iff.mp hs).1) with
    hq | ⟨i, hi, rfl | rfl⟩ | ⟨i, hi, hlo, hhi⟩
  · obtain ⟨u, hu, hid, -, hk, -⟩ := h.mode q hq
    obtain rfl := Option.some.inj (hs.symm.trans hu)
    exact .mode hq hid hk
  · obtain ⟨u, hu, hid, -, hk, -⟩ := h.start i hi
    obtain rfl := Option.some.inj (hs.symm.trans hu)
    exact .start hi rfl hid hk
  · obtain ⟨u, hu, hid, -, hk, -⟩ := h.stop i hi
    obtain rfl := Option.some.inj (hs.symm.trans hu)
    exact .stop hi rfl hid hk
  · obtain ⟨hid, -, hk, hlazy⟩ := h.inner i hi q s hlo hhi hs
    exact .inner hid hk hlazy

/-- The stops of the rules are the only stop states. -/
theorem isStop_iff (h : g.LaidOut p lazy n) {q : Nat} :
    n.isStop q ↔ ∃ i < g.rules.length, q = p.stop i := by
  refine ⟨fun hstop => ?_, fun ⟨i, hi, hq⟩ => hq ▸ h.isStop_stop hi⟩
  rw [Network.isStop, Network.state] at hstop
  cases hs : n.states[q]? with
  | none =>
    rw [hs] at hstop
    cases hstop
  | some s =>
    rw [hs, Option.getD_some] at hstop
    exact (h.stateAt hs).exists_stop hstop

theorem not_isStop_start (h : g.LaidOut p lazy n) (i : Nat) : ¬ n.isStop (p.start i) := by
  rw [h.isStop_iff]
  rintro ⟨j, -, he⟩
  rw [Plan.start, Plan.stop] at he
  omega

/-- The bodies are behind the ends of the rules. -/
theorem base_le_bound (h : g.LaidOut p lazy n) {i : Nat} (hi : i ≤ g.rules.length) :
    p.modes + 2 * g.rules.length ≤ p.bound i := by
  rw [← h.base]
  refine bound_le (fun i hi => ?_) (Nat.zero_le i) hi
  have := (h.laid i _ (List.getElem?_eq_getElem hi)).bounds
  omega

/-- The bodies are in the network. -/
theorem bound_succ_le_size (h : g.LaidOut p lazy n) {i : Nat} (hi : i < g.rules.length) :
    p.bound (i + 1) ≤ n.states.size := by
  rw [h.size]
  refine bound_le (fun j hj => ?_) hi le_rfl
  have := (h.laid j _ (List.getElem?_eq_getElem hj)).bounds
  omega

theorem not_isStop_body (h : g.LaidOut p lazy n) {i q : Nat} (hi : i < g.rules.length)
    (hq : p.bound i ≤ q) : ¬ n.isStop q := by
  rw [h.isStop_iff]
  rintro ⟨j, hj, he⟩
  have := h.base_le_bound hi.le
  rw [Plan.stop] at he
  omega

/-- A transition is a way from a mode, or into or out of a body, or it belongs to an element of the
body that its state is in, or it returns from a rule. -/
theorem ways_cases_of (h : g.LaidOut p lazy n) {test : Element → Bool}
    (htest : ∀ r ∈ g.rules, r.body.everywhere test) {q : Nat} {t : Transition} (ht : t ∈ n.ways q) :
    (q < p.modes ∧ ∃ i < g.rules.length, t = .epsilon (p.start i)) ∨
      ∃ i < g.rules.length, (q = p.start i ∧ t = .epsilon (p.part i).entry) ∨
        (q = p.stop i ∧ t.isReturn) ∨
        (p.bound i ≤ q ∧ q < p.bound (i + 1) ∧ ((q = (p.part i).exit ∧ t = .epsilon (p.stop i)) ∨
          Laid.Shaped n.ways n.callees i test (p.bound i) (p.bound (i + 1)) q)) := by
  by_cases hlt : q < n.states.size
  · rcases p.state_cases h.base (h.size ▸ hlt) with hm | ⟨i, hi, rfl | rfl⟩ | ⟨i, hi, hin⟩
    · rw [h.modeWays q hm, Grammar.modeWays] at ht
      obtain ⟨i, hi, rfl⟩ := List.mem_map.mp ht
      exact .inl ⟨hm, i, List.mem_range.mp (List.mem_filter.mp hi).1, rfl⟩
    · rw [h.enter i hi, List.mem_singleton] at ht
      exact .inr ⟨i, hi, .inl ⟨rfl, ht⟩⟩
    · obtain ⟨-, -, -, follow, rfl, -⟩ := (h.returns i hi t).mp ht
      exact .inr ⟨i, hi, .inr (.inl ⟨rfl, rfl⟩)⟩
    · refine .inr ⟨i, hi, .inr (.inr ⟨hin.1, hin.2, ?_⟩)⟩
      by_cases hx : q = (p.part i).exit
      · rw [hx, h.leave i hi, List.mem_singleton] at ht
        exact .inl ⟨hx, ht⟩
      · exact .inr ((h.laid i _ (List.getElem?_eq_getElem hi)).shaped (htest _ (List.getElem_mem hi))
          hin.1 hin.2 hx)
  · rw [Layout.ways_of_size_le (Nat.le_of_not_lt hlt)] at ht
    cases ht

theorem ways_cases (h : g.LaidOut p lazy n) {q : Nat} {t : Transition} (ht : t ∈ n.ways q) :
    (q < p.modes ∧ ∃ i < g.rules.length, t = .epsilon (p.start i)) ∨
      ∃ i < g.rules.length, (q = p.start i ∧ t = .epsilon (p.part i).entry) ∨
        (q = p.stop i ∧ t.isReturn) ∨
        (p.bound i ≤ q ∧ q < p.bound (i + 1) ∧ ((q = (p.part i).exit ∧ t = .epsilon (p.stop i)) ∨
          Laid.Shaped n.ways n.callees i (fun _ => true) (p.bound i) (p.bound (i + 1)) q)) :=
  h.ways_cases_of (fun r _ => Element.everywhere_true r.body) ht

/-- A call leads to the start of a rule, and continues in the body that it stands in. -/
theorem call_cases (h : g.LaidOut p lazy n) {q target rule : Nat} {level : Int} {follow : Nat}
    (ht : .call target rule level follow ∈ n.ways q) :
    target = p.start rule ∧ rule < g.rules.length ∧ ∃ i < g.rules.length, follow = q + 1 ∧
      p.bound i ≤ q ∧ q + 1 < p.bound (i + 1) := by
  rcases h.ways_cases ht with ⟨-, i, -, he⟩ | ⟨i, hi, ⟨-, he⟩ | ⟨-, he⟩ | ⟨hlo, hhi, ⟨-, he⟩ | hs⟩⟩
  · cases he
  · cases he
  · cases he
  · cases he
  · rcases hs with hs | ⟨e, t, -, hd, hT, hlt⟩
    · obtain ⟨z, he, -⟩ := hs _ ht
      cases he
    · rw [hT, List.mem_singleton] at ht
      cases hd with
      | call l hc =>
        cases ht
        obtain ⟨rfl, r, hr, -⟩ := h.toTables.callees_eq_some_iff.mp hc
        exact ⟨rfl, (List.getElem?_eq_some_iff.mp hr).1, i, hi, rfl, hlo, hlt⟩
      | _ => cases ht

/-! ## What a body stands for can be read -/

/-- Wherever an element is laid out it can be crossed by reading a word. -/
def Crosses (n : Network) (lo hi : Int) (e : Element) (w : List Symbol) : Prop :=
  ∀ (rule a b : Nat) (s : Stretch) (stack : List Nat), Laid n.ways n.callees rule e a b s →
    (∀ q, a ≤ q → q < b → ¬ n.isStop q) → n.Reads lo hi ⟨s.entry, stack⟩ w ⟨s.exit, stack⟩

/-- What a word of an element's language is good for.  A body that is repeated is laid out branch by
branch, and the repetitions of a loop are read at the spot where it decides. -/
structure Crossings (n : Network) (lo hi : Int) (e : Element) (w : List Symbol) : Prop where
  whole : Crosses n lo hi e w
  branch : ∃ b ∈ e.branches, Crosses n lo hi b w
  loop : ∀ body greedy, e = .star body greedy → ∀ a z : Spot, n.Reads lo hi a [] z →
    (∀ b ∈ body.branches, ∀ u, Crosses n lo hi b u → n.Reads lo hi a u a) → n.Reads lo hi a w z

theorem Crossings.of_whole {e : Element} {w : List Symbol} (h : Crosses n lo hi e w)
    (hbranch : e.branches = [e]) (hloop : ∀ body greedy, e ≠ .star body greedy) :
    Crossings n lo hi e w :=
  ⟨h, ⟨e, by rw [hbranch]; exact List.mem_singleton_self e, h⟩,
    fun body greedy he => absurd he (hloop body greedy)⟩

/-- A free transition to a state of the same stack. -/
theorem reads_epsilon {q z : Nat} (stack : List Nat) (hq : ¬ n.isStop q)
    (ht : .epsilon z ∈ n.ways q) : n.Reads lo hi ⟨q, stack⟩ [] ⟨z, stack⟩ :=
  .free (.pass hq ht rfl) (.refl _)

theorem reads_one {q z : Nat} (stack : List Nat) (hq : ¬ n.isStop q)
    (ht : n.ways q = [.epsilon z]) : n.Reads lo hi ⟨q, stack⟩ [] ⟨z, stack⟩ :=
  reads_epsilon stack hq (ht ▸ List.mem_singleton_self _)

/-- One of several parts is crossed, from a state that leads to their entries to the state that their
exits lead to. -/
theorem reads_part {rule start stop : Nat} {items : List Element} {bound : Nat → Nat}
    {part : Nat → Stretch} {b : Element} {w : List Symbol} (stack : List Nat)
    (hparts : ∀ i (h : i < items.length),
      Laid n.ways n.callees rule items[i] (bound i) (bound (i + 1)) (part i))
    (hentry : ∀ t ∈ entries part items.length, t ∈ n.ways start)
    (hexit : ∀ i < items.length, n.ways (part i).exit = [.epsilon stop])
    (hstart : ¬ n.isStop start)
    (hinner : ∀ q, bound 0 ≤ q → q < bound items.length → ¬ n.isStop q)
    (hb : b ∈ items) (hw : Crosses n lo hi b w) :
    n.Reads lo hi ⟨start, stack⟩ w ⟨stop, stack⟩ := by
  obtain ⟨k, hk, rfl⟩ := List.mem_iff_getElem.mp hb
  have hwithin := Laid.part_within hparts hk
  have hbounds := (hparts k hk).bounds
  have henter : n.Reads lo hi ⟨start, stack⟩ [] ⟨(part k).entry, stack⟩ :=
    reads_epsilon stack hstart (hentry _ (Laid.mem_entries.mpr ⟨k, hk, rfl⟩))
  have hcross := hw rule _ _ _ stack (hparts k hk) fun q hq hq' => hinner q (by omega) (by omega)
  have hleave : n.Reads lo hi ⟨(part k).exit, stack⟩ [] ⟨stop, stack⟩ :=
    reads_one stack (hinner _ (by omega) (by omega)) (hexit k hk)
  simpa using (henter.append hcross).append hleave

theorem crosses_direct {e : Element} {w : List Symbol}
    (hlaid : ∀ {rule a b s}, Laid n.ways n.callees rule e a b s →
      ∃ t, Direct n.callees rule e t ∧ n.ways a = [t (a + 1)] ∧ s = ⟨a, a + 1⟩)
    (hread : ∀ {rule t q stack}, Direct n.callees rule e t → ¬ n.isStop q → n.ways q = [t (q + 1)] →
      n.Reads lo hi ⟨q, stack⟩ w ⟨q + 1, stack⟩) : Crosses n lo hi e w := by
  intro rule a b s stack hl hq
  have hbounds := hl.bounds
  obtain ⟨t, hd, ht, rfl⟩ := hlaid hl
  exact hread hd (hq a le_rfl (by omega)) ht

/-- An element that stands for one symbol is crossed by reading it. -/
theorem crosses_one {e : Element} {x : Symbol} (hx : e.accepts lo hi x) :
    Crosses n lo hi e [x] := by
  refine crosses_direct (fun hl => ?_) fun hd hq ht => ?_
  · cases hl with
    | direct hd ht => exact ⟨_, hd, ht, rfl⟩
    | _ => cases hx
  · have hmem : ∀ {t q}, n.ways q = [t] → t ∈ n.ways q := fun h => h ▸ List.mem_singleton_self _
    cases hd with
    | symbol | range | set | notSet | wildcard =>
      exact .eat (.along hq (hmem ht) hx) (.refl _)
    | _ => cases hx

/-- An action is crossed by reading nothing. -/
theorem crosses_action (i : Nat) : Crosses n lo hi (.action i) [] := by
  refine crosses_direct (fun hl => ?_) fun hd hq ht => ?_
  · cases hl with
    | direct hd ht => exact ⟨_, hd, ht, rfl⟩
  · cases hd
    exact .free (.pass hq (ht ▸ List.mem_singleton_self _) rfl) (.refl _)

/-- A command is crossed by reading nothing. -/
theorem crosses_command (c : Command) : Crosses n lo hi (.command c) [] := by
  refine crosses_direct (fun hl => ?_) fun hd hq ht => ?_
  · cases hl with
    | direct hd ht => exact ⟨_, hd, ht, rfl⟩
  · cases hd
    exact .free (.pass hq (ht ▸ List.mem_singleton_self _) rfl) (.refl _)

/-- A rule is run from its start to its stop by crossing its body. -/
theorem reads_rule (h : g.LaidOut p lazy n) {i : Nat} {r : Rule} {w : List Symbol}
    (hr : g.rules[i]? = some r) (hw : Crosses n lo hi r.body w) (stack : List Nat) :
    n.Reads lo hi ⟨p.start i, stack⟩ w ⟨p.stop i, stack⟩ := by
  have hlt := (List.getElem?_eq_some_iff.mp hr).1
  have hl := h.laid i r hr
  have hbounds := hl.bounds
  have henter : n.Reads lo hi ⟨p.start i, stack⟩ [] ⟨(p.part i).entry, stack⟩ :=
    reads_one stack (h.not_isStop_start i) (h.enter i hlt)
  have hcross := hw i _ _ _ stack hl fun q hq _ => h.not_isStop_body hlt hq
  have hleave : n.Reads lo hi ⟨(p.part i).exit, stack⟩ [] ⟨p.stop i, stack⟩ :=
    reads_one stack (h.not_isStop_body hlt hbounds.2.2.1) (h.leave i hlt)
  simpa using (henter.append hcross).append hleave

/-- A call is crossed by running the rule. -/
theorem crosses_call (h : g.LaidOut p lazy n) {r : Rule} {level : Int} {w : List Symbol}
    (hr : r ∈ g.rules) (hw : Crosses n lo hi r.body w) : Crosses n lo hi (.call r.name level) w := by
  refine crosses_direct (fun hl => ?_) fun {rule t q stack} hd hq ht => ?_
  · cases hl with
    | direct hd ht => exact ⟨_, hd, ht, rfl⟩
  · cases hd with
    | @call _ start callee _ hcallee =>
      obtain ⟨i, hi⟩ := List.mem_iff_getElem?.mp hr
      have hself := h.toTables.callees_eq_some_iff.mpr ⟨rfl, r, hi, rfl⟩
      obtain ⟨rfl, rfl⟩ := Prod.mk.inj (Option.some.inj (hcallee.symm.trans hself))
      have hrun := h.reads_rule hi hw ((q + 1) :: stack)
      have hpop : n.Free ⟨p.stop callee, (q + 1) :: stack⟩ ⟨q + 1, stack⟩ :=
        .pop (h.isStop_stop (List.getElem?_eq_some_iff.mp hi).1)
      have hback := hrun.append (.free hpop (.refl _))
      rw [List.append_nil] at hback
      exact .free (.call hq (ht ▸ List.mem_singleton_self _)) hback

/-- A sequence is crossed by crossing its first element and then the others. -/
theorem crosses_next {e : Element} {items : List Element} {u v : List Symbol}
    (hu : Crosses n lo hi e u) (hv : Crosses n lo hi (.seq items) v) (hnil : items = [] → v = []) :
    Crosses n lo hi (.seq (e :: items)) (u ++ v) := by
  intro rule a b s stack hl hq
  cases hl with
  | direct hd => cases hd
  | @seq _ _ bound part hparts hjoin =>
    have hfirst := hu rule _ _ _ stack (hparts 0 (by simp)) fun q hq1 hq2 => hq q hq1 (by
      have := Laid.part_within hparts (i := 0) (by simp)
      simp only [List.length_cons] at this
      omega)
    cases items with
    | nil =>
      rw [hnil rfl, List.append_nil]
      exact hfirst
    | cons e' items =>
      have hrest : Laid n.ways n.callees rule (.seq (e' :: items)) (bound 1)
          (bound (items.length + 1 + 1)) ⟨(part 1).entry, (part (items.length + 1)).exit⟩ :=
        @Laid.seq _ _ _ _ _ (fun k => bound (k + 1)) (fun k => part (k + 1))
          (fun k hk => hparts (k + 1) (by simpa using hk)) fun k hk => hjoin (k + 1) (by simpa using hk)
      have hwithin := Laid.part_within hparts (i := 0) (by simp)
      have hbounds := (hparts 0 (by simp)).bounds
      simp only [List.length_cons, Nat.zero_add] at hwithin hbounds hq
      have hstep : n.Reads lo hi ⟨(part 0).exit, stack⟩ [] ⟨(part 1).entry, stack⟩ :=
        reads_one stack (hq _ (by omega) (by omega)) (hjoin 0 (by simp))
      have hlast := hv rule _ _ _ stack hrest fun q hq1 hq2 => hq q (by omega) (by omega)
      simpa using (hfirst.append hstep).append hlast

theorem crosses_done : Crosses n lo hi (.seq []) [] := by
  intro rule a b s stack hl hq
  cases hl with
  | direct hd => cases hd
  | empty ht => exact reads_one stack (hq a le_rfl (by omega)) ht

/-- A choice is crossed by crossing one of its items. -/
theorem crosses_alt {e : Element} {items : List Element} {w : List Symbol} (he : e ∈ items)
    (hw : Crosses n lo hi e w) : Crosses n lo hi (.alt items) w := by
  intro rule a b s stack hl hq
  cases hl with
  | direct hd => cases hd
  | only hl =>
    obtain rfl := List.mem_singleton.mp he
    exact hw rule a b s stack hl hq
  | alt _ h0 hparts hfirst hexit =>
    have hle := bound_le (Laid.bound_le_succ hparts) (Nat.zero_le _) le_rfl
    exact reads_part stack hparts (fun t ht => hfirst ▸ ht) hexit (hq a le_rfl (by omega))
      (fun q hq1 hq2 => hq q (by omega) hq2) he hw

/-- What may be left out is crossed by crossing one of its branches ... -/
theorem crosses_take {body b : Element} {greedy : Bool} {w : List Symbol} (hb : b ∈ body.branches)
    (hw : Crosses n lo hi b w) : Crosses n lo hi (.optional body greedy) w := by
  intro rule a z s stack hl hq
  cases hl with
  | direct hd => cases hd
  | optional h0 hparts hfirst hexit =>
    have hle := bound_le (Laid.bound_le_succ hparts) (Nat.zero_le _) le_rfl
    refine reads_part stack hparts (fun t ht => ?_) hexit (hq a le_rfl (by omega))
      (fun q hq1 hq2 => hq q (by omega) hq2) hb hw
    rw [hfirst]
    split <;> simp [ht]

/-- ... or by passing it. -/
theorem crosses_skip {body : Element} {greedy : Bool} :
    Crosses n lo hi (.optional body greedy) [] := by
  intro rule a z s stack hl hq
  cases hl with
  | direct hd => cases hd
  | optional h0 hparts hfirst hexit =>
    have hle := bound_le (Laid.bound_le_succ hparts) (Nat.zero_le _) le_rfl
    refine reads_epsilon stack (hq a le_rfl (by omega)) ?_
    rw [hfirst]
    split <;> simp

theorem mem_onward {greedy : Bool} {again out : Nat} :
    .epsilon again ∈ onward greedy again out ∧ .epsilon out ∈ onward greedy again out := by
  cases greedy <;> simp [onward]

/-- A loop is crossed by what can be read where it decides. -/
theorem crosses_star {body : Element} {greedy : Bool} {w : List Symbol}
    (hw : ∀ a z : Spot, n.Reads lo hi a [] z →
      (∀ b ∈ body.branches, ∀ u, Crosses n lo hi b u → n.Reads lo hi a u a) → n.Reads lo hi a w z) :
    Crosses n lo hi (.star body greedy) w := by
  intro rule a z s stack hl hq
  cases hl with
  | direct hd => cases hd
  | @star _ _ _ back bound part h0 h1 hparts hfirst hstart hexit hstop hback =>
    have hle := bound_le (Laid.bound_le_succ hparts) (Nat.zero_le _) le_rfl
    have hdecide := hq a le_rfl (by omega)
    refine hw _ _ (reads_epsilon stack hdecide (hfirst ▸ mem_onward.2)) fun b hb u hu => ?_
    have hagain : n.Reads lo hi ⟨a, stack⟩ [] ⟨a + 1, stack⟩ :=
      reads_epsilon stack hdecide (hfirst ▸ mem_onward.1)
    have hbody : n.Reads lo hi ⟨a + 1, stack⟩ u ⟨a + 2, stack⟩ :=
      reads_part stack hparts (fun t ht => hstart ▸ ht) hexit (hq _ (by omega) (by omega))
        (fun q hq1 hq2 => hq q (by omega) (by omega)) hb hu
    have hleave : n.Reads lo hi ⟨a + 2, stack⟩ [] ⟨back, stack⟩ :=
      reads_one stack (hq _ (by omega) (by omega)) hstop
    have hreturn : n.Reads lo hi ⟨back, stack⟩ [] ⟨a, stack⟩ :=
      reads_one stack (hq _ (by omega) (by omega)) hback
    simpa using ((hagain.append hbody).append hleave).append hreturn

/-- One round, and then what can be read where the loop decides. -/
theorem crosses_plus {body b : Element} {greedy : Bool} {u v : List Symbol} (hb : b ∈ body.branches)
    (hu : Crosses n lo hi b u)
    (hv : ∀ a z : Spot, n.Reads lo hi a [] z →
      (∀ b ∈ body.branches, ∀ u, Crosses n lo hi b u → n.Reads lo hi a u a) → n.Reads lo hi a v z) :
    Crosses n lo hi (.plus body greedy) (u ++ v) := by
  intro rule a z s stack hl hq
  cases hl with
  | direct hd => cases hd
  | @plus _ _ _ back bound part h0 h1 hparts hfirst hexit hstop hback =>
    have hle := bound_le (Laid.bound_le_succ hparts) (Nat.zero_le _) le_rfl
    have hdecide := hq back (by omega) (by omega)
    have hround : ∀ b ∈ body.branches, ∀ u, Crosses n lo hi b u →
        n.Reads lo hi ⟨a, stack⟩ u ⟨back, stack⟩ := fun b hb u hu => by
      have hbody : n.Reads lo hi ⟨a, stack⟩ u ⟨a + 1, stack⟩ :=
        reads_part stack hparts (fun t ht => hfirst ▸ ht) hexit (hq _ le_rfl (by omega))
          (fun q hq1 hq2 => hq q (by omega) (by omega)) hb hu
      have hleave : n.Reads lo hi ⟨a + 1, stack⟩ [] ⟨back, stack⟩ :=
        reads_one stack (hq _ (by omega) (by omega)) hstop
      simpa using hbody.append hleave
    have hout : n.Reads lo hi ⟨back, stack⟩ [] ⟨back + 1, stack⟩ :=
      reads_epsilon stack hdecide (hback ▸ mem_onward.2)
    have hagain : n.Reads lo hi ⟨back, stack⟩ [] ⟨a, stack⟩ :=
      reads_epsilon stack hdecide (hback ▸ mem_onward.1)
    have hloop := hv ⟨back, stack⟩ ⟨back + 1, stack⟩ hout fun b hb u hu => by
      simpa using hagain.append (hround b hb u hu)
    exact (hround b hb u hu).append hloop

/-- A word of an element's language is read by crossing the element. -/
theorem crossings (h : g.LaidOut p lazy n) {e : Element} {w : List Symbol}
    (hw : e.Derives g lo hi w) : Crossings n lo hi e w := by
  -- Each rule of the derivation is one way across the states of the element.
  induction hw with
  | @one e x hx =>
    refine .of_whole (crosses_one hx) ?_ fun body greedy he => ?_
    · cases e with
      | alt => cases hx
      | _ => rfl
    · subst he
      cases hx
  | call hr _ ih => exact .of_whole (h.crosses_call hr ih.whole) rfl nofun
  | done => exact .of_whole crosses_done rfl nofun
  | @next e items u v _ hv ihu ihv =>
    refine .of_whole (crosses_next ihu.whole ihv.whole fun hnil => ?_) rfl nofun
    subst hnil
    cases hv with
    | one hx => cases hx
    | done => rfl
  | choose he _ ih => exact ⟨crosses_alt he ih.whole, ⟨_, he, ih.whole⟩, nofun⟩
  | skip => exact .of_whole crosses_skip rfl nofun
  | take _ ih =>
    obtain ⟨b, hb, hw⟩ := ih.branch
    exact .of_whole (crosses_take hb hw) rfl nofun
  | @stop body greedy =>
    have hloop : ∀ a z : Spot, n.Reads lo hi a [] z →
        (∀ b ∈ body.branches, ∀ u, Crosses n lo hi b u → n.Reads lo hi a u a) →
        n.Reads lo hi a [] z := fun _ _ hz _ => hz
    refine ⟨crosses_star hloop, ⟨_, List.mem_singleton_self _, crosses_star hloop⟩, ?_⟩
    intro body' greedy' he
    cases he
    exact hloop
  | @again body greedy u v _ _ ihu ihv =>
    -- One repetition comes back to where the loop is decided, and the others follow from there.
    have hloop : ∀ a z : Spot, n.Reads lo hi a [] z →
        (∀ b ∈ body.branches, ∀ u, Crosses n lo hi b u → n.Reads lo hi a u a) →
        n.Reads lo hi a (u ++ v) z := fun a z hz hround => by
      obtain ⟨b, hb, hu⟩ := ihu.branch
      exact (hround b hb u hu).append (ihv.loop body greedy rfl a z hz hround)
    refine ⟨crosses_star hloop, ⟨_, List.mem_singleton_self _, crosses_star hloop⟩, ?_⟩
    intro body' greedy' he
    cases he
    exact hloop
  | @more body greedy u v _ _ ihu ihv =>
    obtain ⟨b, hb, hu⟩ := ihu.branch
    exact .of_whole (crosses_plus hb hu (ihv.loop body greedy rfl)) rfl nofun
  | action => exact .of_whole (crosses_action _) rfl nofun
  | command => exact .of_whole (crosses_command _) rfl nofun

/-! ## What is read is in the language -/

/-- The labels of the states that stand in no body: anything for a mode, the language of the body for
the start of a rule, and the empty word for its stop. -/
def endLabel (g : Grammar) (modes : Nat) (lo hi : Int) (q : Nat) : Language Symbol :=
  if q < modes then ⊤
  else if (q - modes) % 2 = 0 then
    (g.rules[(q - modes) / 2]?).elim ⊤ fun r => r.body.language g lo hi
  else 1

theorem endLabel_mode {q : Nat} (hq : q < p.modes) : endLabel g p.modes lo hi q = ⊤ :=
  if_pos hq

theorem endLabel_start {i : Nat} {r : Rule} (hr : g.rules[i]? = some r) :
    endLabel g p.modes lo hi (p.start i) = r.body.language g lo hi := by
  rw [endLabel, Plan.start, if_neg (by omega), if_pos (by omega),
    show (p.modes + 2 * i - p.modes) / 2 = i by omega, hr]
  rfl

theorem endLabel_stop (i : Nat) : endLabel g p.modes lo hi (p.stop i) = 1 := by
  rw [endLabel, Plan.stop, if_neg (by omega), if_neg (by omega)]

/-- The states can be labelled with what is left to be read: the start of a rule with the language of
its body, and its stop with the empty word. -/
theorem exists_labels (h : g.LaidOut p lazy n) (lo hi : Int) :
    ∃ K : Nat → Language Symbol,
      (∀ i r, g.rules[i]? = some r → K (p.start i) = r.body.language g lo hi) ∧
      (∀ i < g.rules.length, K (p.stop i) = 1) ∧
      ∀ q, ¬ n.isStop q → ∀ t ∈ n.ways q, Leads g lo hi K t (K q) := by
  classical
  have hcallees : ∀ name start callee, n.callees name = some (start, callee) →
      ∃ r, g.rules[callee]? = some r ∧ r.name = name := fun name start callee hc =>
    (h.toTables.callees_eq_some_iff.mp hc).2
  -- The body of each rule is labelled on its own, and as bodies share no state the labels are glued.
  have hbody : ∀ i < g.rules.length, ∃ K : Nat → Language Symbol, ∀ r, g.rules[i]? = some r →
      K (p.part i).entry ≤ r.body.language g lo hi ∧ 1 ≤ K (p.part i).exit ∧
        ∀ q, p.bound i ≤ q → q < p.bound (i + 1) → q ≠ (p.part i).exit → ∀ t ∈ n.ways q,
          Leads g lo hi K t (K q) := by
    intro i hlt
    have hr := List.getElem?_eq_getElem hlt
    obtain ⟨K, hentry, hexit, hleads⟩ := (h.laid i _ hr).exists_residual hcallees (1 : Language Symbol)
    refine ⟨K, fun r hr' => ?_⟩
    obtain rfl := Option.some.inj (hr.symm.trans hr')
    rw [mul_one] at hentry
    exact ⟨hentry, hexit, hleads⟩
  choose! f hf using hbody
  have hascend : ∀ i < g.rules.length, p.bound i ≤ p.bound (i + 1) := fun i hlt => by
    have := (h.laid i _ (List.getElem?_eq_getElem hlt)).bounds
    omega
  obtain ⟨K, hK, hends⟩ := exists_glued hascend f
    (endLabel g p.modes lo hi)
  have hstart : ∀ i r, g.rules[i]? = some r → K (p.start i) = r.body.language g lo hi := by
    intro i r hr
    have hlt := (List.getElem?_eq_some_iff.mp hr).1
    rw [hends _ (.inl (by rw [h.base, Plan.start]; omega)), endLabel_start hr]
  have hstop : ∀ i < g.rules.length, K (p.stop i) = 1 := by
    intro i hlt
    rw [hends _ (.inl (by rw [h.base, Plan.stop]; omega)), endLabel_stop]
  refine ⟨K, hstart, hstop, fun q hq t ht => ?_⟩
  by_cases hlt : q < n.states.size
  · rcases p.state_cases h.base (h.size ▸ hlt) with hm | ⟨i, hi, rfl | rfl⟩ | ⟨i, hi, hin⟩
    · rw [h.modeWays q hm, Grammar.modeWays] at ht
      obtain ⟨i, -, rfl⟩ := List.mem_map.mp ht
      refine Laid.leads_epsilon ?_
      rw [hends q (.inl (by rw [h.base]; omega)), endLabel_mode hm]
      exact le_top
    · have hr := List.getElem?_eq_getElem hi
      have hbounds := (h.laid i _ hr).bounds
      refine Laid.leads_of_one (h.enter i hi) ?_ t ht
      rw [hstart i _ hr, hK i hi _ hbounds.1 hbounds.2.1]
      exact (hf i hi _ hr).1
    · exact absurd (h.isStop_stop hi) hq
    · have hr := List.getElem?_eq_getElem hi
      have hl := h.laid i _ hr
      have hbounds := hl.bounds
      by_cases hx : q = (p.part i).exit
      · rw [hx] at ht ⊢
        refine Laid.leads_of_one (h.leave i hi) ?_ t ht
        rw [hstop i hi, hK i hi _ hbounds.2.2.1 hbounds.2.2.2]
        exact (hf i hi _ hr).2.1
      · rw [hK i hi q hin.1 hin.2]
        exact Laid.Leads.congr (hl.shaped (Element.everywhere_true _) hin.1 hin.2 hx) (hK i hi) hin.1 ht
          ((hf i hi _ hr).2.2 q hin.1 hin.2 hx t ht)
  · rw [Layout.ways_of_size_le (Nat.le_of_not_lt hlt)] at ht
    cases ht

/-- What is read on the way to the stop of a rule, with an empty stack there, is in the language of
the labels. -/
theorem mem_of_reads {K : Nat → Language Symbol} (h : g.LaidOut p lazy n)
    (hstart : ∀ i r, g.rules[i]? = some r → K (p.start i) = r.body.language g lo hi)
    (hstop : ∀ i < g.rules.length, K (p.stop i) = 1)
    (hleads : ∀ q, ¬ n.isStop q → ∀ t ∈ n.ways q, Leads g lo hi K t (K q)) {i : Nat}
    (hlt : i < g.rules.length) {a z : Spot} {w : List Symbol} (hr : n.Reads lo hi a w z)
    (hz : z = ⟨p.stop i, []⟩) : w ∈ K a.state * (a.stack.map K).prod := by
  induction hr with
  | refl a =>
    rw [hz, hstop i hlt, List.map_nil, List.prod_nil, mul_one]
    exact (Language.mem_one _).mpr rfl
  | free hfree _ ih =>
    have hw := ih hz
    cases hfree with
    | pass hq ht hplain => exact mul_le_mul_left ((hleads _ hq _ ht).plain hplain) _ hw
    | @call q stack target rule level follow hq ht =>
      obtain ⟨rfl, hrule, -⟩ := h.call_cases ht
      have hget := List.getElem?_eq_getElem hrule
      rw [List.map_cons, List.prod_cons, ← mul_assoc, hstart rule _ hget] at hw
      exact mul_le_mul_left ((hleads q hq _ ht).calls _ _ _ _ rfl _ hget) _ hw
    | pop hq =>
      obtain ⟨j, hj, rfl⟩ := h.isStop_iff.mp hq
      rw [hstop j hj, one_mul, List.map_cons, List.prod_cons]
      exact hw
  | eat heat _ ih =>
    have hw := ih hz
    cases heat with
    | along hq ht hx =>
      obtain ⟨u, hu, v, hv, rfl⟩ := Language.mem_mul.mp hw
      exact Language.mem_mul.mpr ⟨_ :: u, (hleads _ hq _ ht).eats _ u hx hu, v, hv, rfl⟩

end Grammar.LaidOut

/-- From the start of a rule to its stop the machine of a grammar's network reads the words that the
body of the rule stands for, and no others. -/
theorem Grammar.reads_iff_derives {g : Grammar} {n : Network} (h : g.layout = .ok n) {i : Nat}
    {r : Rule} (hr : g.rules[i]? = some r) (lo hi : Int) :
    ∃ start stop, n.ruleStarts[i]? = some start ∧ n.ruleStops[i]? = some stop ∧
      ∀ w : List Symbol, n.Reads lo hi ⟨start, []⟩ w ⟨stop, []⟩ ↔ r.body.Derives g lo hi w := by
  have hlaid : ∃ p, g.LaidOut p True n := Grammar.exists_laidOut h fun hf => absurd trivial hf
  obtain ⟨p, hl⟩ := hlaid
  have hlt := (List.getElem?_eq_some_iff.mp hr).1
  refine ⟨p.start i, p.stop i, hl.toTables.ruleStart hlt, hl.toTables.ruleStop hlt, fun w => ⟨?_, ?_⟩⟩
  · intro hw
    obtain ⟨K, hstart, hstop, hleads⟩ := hl.exists_labels lo hi
    have hmem := hl.mem_of_reads hstart hstop hleads hlt hw rfl
    rwa [List.map_nil, List.prod_nil, mul_one, hstart i r hr] at hmem
  · intro hw
    exact hl.reads_rule hr (hl.crossings hw).whole []

/-- A rule that nests itself between two symbols. -/
def nestRule : Rule :=
  ⟨"nest", .optional (.seq [.symbol 1, .call "nest" 0, .symbol 2]) true, unclassified, 0, false⟩

/-- The grammar of the rule that nests itself. -/
def nestGrammar : Grammar := { kind := .parser, maxSymbol := 2, rules := [nestRule] }

/-- The network of the rule that nests itself. -/
def nestNetwork : Network := nestGrammar.layout.toOption.getD { kind := .parser, maxSymbol := 2 }

theorem Grammar.reads_iff_derives_nest :
    nestGrammar.layout = .ok nestNetwork ∧ nestGrammar.rules[0]? = some nestRule ∧
      ∃ start stop, nestNetwork.ruleStarts[0]? = some start ∧
        nestNetwork.ruleStops[0]? = some stop ∧ ∀ w : List Symbol,
          nestNetwork.Reads 1 2 ⟨start, []⟩ w ⟨stop, []⟩ ↔ nestRule.body.Derives nestGrammar 1 2 w :=
  have hlayout : nestGrammar.layout = .ok nestNetwork := by cbv
  ⟨hlayout, rfl, Grammar.reads_iff_derives hlayout rfl 1 2⟩

end AdaptiveLL
