import AdaptiveLL.Proofs.Grammar.Decisions

/-! # Grammars that can be laid out

A grammar is laid out exactly if it is well formed (`Grammar.exists_layout_iff`): its rules have names of
their own, what is called is one of them, a parser has no commands and a lexer no levels.  The layout fails
over the first three (`Layout.grammar_succeeds`), and linking over the last, since the levels of a body are
found on its ways (`Laid.everywhere_not_isLevel`).

Linking finds nothing else to object to (`Layout.Bodies.fault?_eq_none`).  What it looks at is known of a
layout state by state, but for the numbers of decisions and commands (`Network.Indexed`).
-/
namespace AdaptiveLL

namespace Element

/-- Whether an element is a call of none but certain rules. -/
def callsAmong (names : List String) : Element → Bool
  | call name _ => decide (name ∈ names)
  | _ => true

/-- Whether an element is a command. -/
def isCommand : Element → Bool
  | command _ => true
  | _ => false

/-- Whether an element is a level. -/
def isLevel : Element → Bool
  | precedence _ => true
  | _ => false

theorem everywhere_and {p q : Element → Bool} (hp : ∀ items, p (alt items)) (hq : ∀ items, q (alt items))
    (e : Element) : e.everywhere (fun e => p e && q e) ↔ e.everywhere p ∧ e.everywhere q := by
  induction e using Element.induction with | _ e ih
  rw [everywhere_iff fun items => by rw [hp, hq]; rfl, everywhere_iff hp, everywhere_iff hq,
    Bool.and_eq_true, forall₂_congr ih]
  simp only [forall_and]
  exact and_and_and_comm

theorem isPlaceable_inLexer (names : List String) : isPlaceable .lexer names = callsAmong names := by
  funext e
  cases e <;> rfl

theorem isPlaceable_inParser (names : List String) :
    isPlaceable .parser names = fun e => callsAmong names e && !e.isCommand := by
  funext e
  cases e <;> simp [isPlaceable, callsAmong, isCommand]

end Element

/-- A grammar whose rules have names of their own and whose elements are at their place. -/
structure Grammar.WellFormed (g : Grammar) : Prop where
  names : (g.rules.map Rule.name).Nodup
  calls : ∀ r ∈ g.rules, r.body.everywhere (·.callsAmong (g.rules.map Rule.name))
  commands : g.kind = .parser → ∀ r ∈ g.rules, r.body.everywhere (!·.isCommand)
  levels : g.kind = .lexer → ∀ r ∈ g.rules, r.body.everywhere (!·.isLevel)

instance (g : Grammar) : Decidable g.WellFormed :=
  decidable_of_iff ((g.rules.map Rule.name).Nodup ∧
      (∀ r ∈ g.rules, r.body.everywhere (·.callsAmong (g.rules.map Rule.name))) ∧
        (g.kind = .parser → ∀ r ∈ g.rules, r.body.everywhere (!·.isCommand)) ∧
          (g.kind = .lexer → ∀ r ∈ g.rules, r.body.everywhere (!·.isLevel)))
    ⟨fun ⟨h₁, h₂, h₃, h₄⟩ => ⟨h₁, h₂, h₃, h₄⟩, fun ⟨h₁, h₂, h₃, h₄⟩ => ⟨h₁, h₂, h₃, h₄⟩⟩

theorem Grammar.placeable_iff (g : Grammar) :
    (∀ r ∈ g.rules, r.body.everywhere (·.isPlaceable g.kind (g.rules.map Rule.name))) ↔
      (∀ r ∈ g.rules, r.body.everywhere (·.callsAmong (g.rules.map Rule.name))) ∧
        (g.kind = .parser → ∀ r ∈ g.rules, r.body.everywhere (!·.isCommand)) := by
  cases g.kind with
  | lexer => simp [Element.isPlaceable_inLexer]
  | parser =>
    simp only [Element.isPlaceable_inParser, forall_true_left, ← forall₂_and]
    exact forall₂_congr fun r _ => Element.everywhere_and (fun _ => rfl) (fun _ => rfl) r.body

/-! ## Numbers of decisions and commands -/

namespace Network

/-- The decisions carry their numbers, and the actions of a lexer are commands of its list. -/
structure Indexed (n : Network) : Prop where
  decisions : ∀ d q : Nat, n.decisions[d]? = some q → ∃ s, n.states[q]? = some s ∧ s.decision = some d
  commands : n.kind = .lexer → ∀ (q : Nat) (s : State), n.states[q]? = some s →
    ∀ target rule index contextual, .action target rule index contextual ∈ s.transitions →
      index < n.commands.size

namespace Indexed
variable {n : Network}

/-- Making a state. -/
theorem push (h : n.Indexed) (s : State) (hs : s.transitions = []) :
    Indexed { n with states := n.states.push s } where
  decisions d q hq := by
    obtain ⟨u, hu, hd⟩ := h.decisions d q hq
    have hlt := (Array.getElem?_eq_some_iff.mp hu).1
    refine ⟨u, ?_, hd⟩
    dsimp only
    rw [Array.getElem?_push, if_neg (by omega), hu]
  commands hk q u hu target rule index contextual ht := by
    dsimp only at hu
    rw [Array.getElem?_push] at hu
    split at hu
    · cases hu
      rw [hs] at ht
      cases ht
    · exact h.commands hk q u hu target rule index contextual ht

/-- Changing a state in a way that keeps its number and adds no action that is not listed. -/
theorem modify (h : n.Indexed) (id : Nat) {f : State → State}
    (hd : ∀ s d, n.states[id]? = some s → s.decision = some d → (f s).decision = some d)
    (ht : n.kind = .lexer → ∀ s target rule index contextual,
      .action target rule index contextual ∈ (f s).transitions →
        .action target rule index contextual ∈ s.transitions ∨ index < n.commands.size) :
    Indexed { n with states := n.states.modify id f } where
  decisions d q hq := by
    obtain ⟨s, hs, hnumber⟩ := h.decisions d q hq
    dsimp only
    rw [Array.getElem?_modify, hs]
    split
    · next hid =>
      subst hid
      exact ⟨f s, rfl, hd s d hs hnumber⟩
    · exact ⟨s, rfl, hnumber⟩
  commands hk q u hu target rule index contextual hmem := by
    dsimp only at hu
    rw [Array.getElem?_modify] at hu
    split at hu
    · next hid =>
      subst hid
      obtain ⟨s, hs, rfl⟩ := Option.map_eq_some_iff.mp hu
      rcases ht hk s target rule index contextual hmem with hmem | hindex
      · exact h.commands hk id s hs target rule index contextual hmem
      · exact hindex
    · exact h.commands hk q u hu target rule index contextual hmem

/-- Making a new state the next decision. -/
theorem decide (h : n.Indexed) (s : State) (hs : s.transitions = []) (hnone : s.decision = none) :
    Indexed { n with
      decisions := n.decisions.push n.states.size
      states := (n.states.push s).modify n.states.size
        fun s => { s with decision := some n.decisions.size } } := by
  have hold := (h.push s hs).modify n.states.size (f := fun s => { s with decision := some n.decisions.size })
    (fun u d hu hd => by
      obtain rfl := Option.some.inj (Array.getElem?_push_size.symm.trans hu)
      rw [hnone] at hd
      cases hd)
    fun _ _ _ _ _ _ hmem => .inl hmem
  refine ⟨fun d q hq => ?_, hold.commands⟩
  dsimp only at hq ⊢
  rw [Array.getElem?_push] at hq
  split at hq
  · next hsize =>
    cases hq
    refine ⟨{ s with decision := some n.decisions.size }, ?_, by rw [hsize]⟩
    rw [Array.getElem?_modify, if_pos rfl, Array.getElem?_push_size]
    rfl
  · exact hold.decisions d q hq

/-- Every change that a layout makes keeps the numbers. -/
theorem stable : Layout.Stable Indexed where
  push rule kind h := h.push _ rfl
  decide rule _ _ h := h.decide _ rfl rfl
  join source target h := by
    refine h.modify source (f := (·.addTransition (.epsilon target))) (fun _ _ _ hd => hd) ?_
    intro _ s target' rule index contextual ht
    rcases List.mem_append.mp ht with ht | ht
    · exact .inl ht
    · cases List.mem_singleton.mp ht
  prefer id h := h.modify id (f := fun s => { s with nonGreedy := true }) (fun _ _ _ hd => hd)
    fun _ _ _ _ _ _ ht => .inl ht
  single {n} rule t hindex h := by
    have hpush := (h.push { id := n.states.size, rule, kind := .basic } rfl).push
      { id := n.states.size + 1, rule, kind := .basic } rfl
    refine hpush.modify n.states.size (f := (·.addTransition t)) (fun _ _ _ hd => hd) ?_
    intro hk s target rule' index contextual ht
    rcases List.mem_append.mp ht with ht | ht
    · exact .inl ht
    · exact .inr (hindex hk target rule' index contextual (List.mem_singleton.mp ht).symm)
  command {n} c h := {
    decisions := h.decisions
    commands := fun hk q s hs target rule index contextual ht => by
      have := h.commands hk q s hs target rule index contextual ht
      simp only [Array.size_push]
      omega }

theorem untabled : Layout.Untabled Indexed where
  modes _ _ h := { h with }
  rules _ _ _ _ h := { h with }

end Indexed
end Network

/-! ## Where an element is found -/

namespace Laid
variable {T : Nat → List Transition} {callees : Callees} {rule : Nat} {e : Element} {lo hi : Nat} {s : Stretch}

/-- What is laid out without transitions that ask for a level has no levels. -/
theorem everywhere_not_isLevel (h : Laid T callees rule e lo hi s)
    (hT : ∀ q, lo ≤ q → q < hi → ∀ target level, .precedence target level ∉ T q) :
    e.everywhere (!·.isLevel) := by
  have hparts : ∀ {items : List Element} {bound : Nat → Nat} {part : Nat → Stretch} {lo hi : Nat},
      (∀ q, lo ≤ q → q < hi → ∀ target level, .precedence target level ∉ T q) →
      lo ≤ bound 0 → bound items.length ≤ hi →
      (∀ i (h : i < items.length), Laid T callees rule items[i] (bound i) (bound (i + 1)) (part i)) →
      (∀ i (h : i < items.length),
        (∀ q, bound i ≤ q → q < bound (i + 1) → ∀ target level, .precedence target level ∉ T q) →
          items[i].everywhere (!·.isLevel)) → ∀ b ∈ items, b.everywhere (!·.isLevel) := by
    intro items bound part lo hi hT hlo hhi hlaid ih b hb
    obtain ⟨i, hi, rfl⟩ := List.mem_iff_getElem.mp hb
    have hin := part_within hlaid hi
    exact ih i hi fun q hq hq' => hT q (by omega) (by omega)
  induction h with
  | @direct e t lo hd hways =>
    have := hT lo le_rfl (by omega)
    cases hd with
    | precedence level => exact absurd (hways ▸ List.mem_singleton_self _) (this (lo + 1) level)
    | _ => rfl
  | empty => rfl
  | only hlaid ih =>
    rw [Element.everywhere_iff fun _ => rfl]
    exact ⟨rfl, List.forall_mem_singleton.mpr (ih hT)⟩
  | seq hlaid _ ih =>
    rw [Element.everywhere_iff fun _ => rfl]
    exact ⟨rfl, hparts hT le_rfl le_rfl hlaid ih⟩
  | alt _ hbound hlaid _ _ ih | optional hbound hlaid _ _ ih =>
    rw [Element.everywhere_iff fun _ => rfl]
    exact ⟨rfl, hparts hT (by omega) le_rfl hlaid ih⟩
  | star hbound hback hlaid _ _ _ _ _ ih | plus hbound hback hlaid _ _ _ _ ih =>
    rw [Element.everywhere_iff fun _ => rfl]
    exact ⟨rfl, hparts hT (by omega) (hback.le.trans (Nat.le_add_right _ 2)) hlaid ih⟩

end Laid

namespace Grammar.LaidOut
variable {g : Grammar} {p : Plan} {lazy : Prop} {n : Network} (h : g.LaidOut p lazy n)
include h

/-- All transitions lead to states, and all calls return to some. -/
theorem within {q : Nat} {t : Transition} (ht : t ∈ n.ways q) : t.Within n.states.size := by
  have hbody : ∀ i < g.rules.length, ∀ q < p.bound (i + 1), q < n.states.size := fun i hi q hq =>
    hq.trans_le (h.bound_succ_le_size hi)
  have hstart : ∀ i < g.rules.length, p.start i < n.states.size := fun i hi => by
    obtain ⟨s, hs, -⟩ := h.start i hi
    exact (Array.getElem?_eq_some_iff.mp hs).1
  have hstop : ∀ i < g.rules.length, p.stop i < n.states.size := fun i hi => by
    obtain ⟨s, hs, -⟩ := h.stop i hi
    exact (Array.getElem?_eq_some_iff.mp hs).1
  have hfollow : ∀ {q target rule level follow}, .call target rule level follow ∈ n.ways q →
      target < n.states.size ∧ follow < n.states.size := fun ht => by
    obtain ⟨rfl, hrule, i, hi, rfl, -, hlt⟩ := h.call_cases ht
    exact ⟨hstart _ hrule, hbody i hi _ hlt⟩
  refine ⟨?_, fun target rule level follow he => (hfollow (he ▸ ht)).2⟩
  rcases h.ways_cases ht with ⟨-, i, hi, rfl⟩ |
    ⟨i, hi, ⟨-, rfl⟩ | ⟨rfl, -⟩ | ⟨-, -, ⟨-, rfl⟩ | hs | ⟨e, t', -, hd, hT, hlt⟩⟩⟩
  · exact hstart i hi
  · exact hbody i hi _ (h.laid i _ (List.getElem?_eq_getElem hi)).bounds.2.1
  · obtain ⟨_, _, _, follow, rfl, hcall⟩ := (h.returns i hi t).mp ht
    exact (hfollow hcall).2
  · exact hstop i hi
  · obtain ⟨z, rfl, -, hz⟩ := hs t ht
    exact hbody i hi z hz
  · rw [hT] at ht
    obtain rfl := List.mem_singleton.mp ht
    cases hd with
    | call => exact (hfollow (hT ▸ ht)).1
    | _ => exact hbody i hi _ hlt

/-- Levels stand where the elements of the grammar are. -/
theorem isLevel_of_mem {test : Element → Bool} (htest : ∀ r ∈ g.rules, r.body.everywhere test) {q target : Nat}
    {level : Int} (ht : .precedence target level ∈ n.ways q) : test (.precedence level) := by
  rcases h.ways_cases_of htest ht with ⟨-, i, hi, he⟩ |
    ⟨i, hi, ⟨-, he⟩ | ⟨-, he⟩ | ⟨-, -, ⟨-, he⟩ | hs | ⟨e, t', he, hd, hT, -⟩⟩⟩
  · cases he
  · cases he
  · cases he
  · cases he
  · obtain ⟨z, he, -⟩ := hs _ ht
    cases he
  · rw [hT] at ht
    cases hd with
    | precedence level' =>
      cases List.mem_singleton.mp ht
      exact he
    | _ => cases List.mem_singleton.mp ht

end Grammar.LaidOut

/-! ## Nothing to object to -/

namespace Layout.Bodies
variable {g : Grammar} {p : Plan} {lazy : Prop} {n : Network} {k j : Nat}

theorem placementFault?_eq_none (h : Bodies g p lazy k j n) : n.placementFault? = none := by
  refine List.findSome?_eq_none_iff.mpr fun i hi => ?_
  have hs := Array.getElem?_eq_getElem (List.mem_range.mp hi)
  have hid : (n.state i).id = i := by
    rw [Network.state, hs, Option.getD_some]
    exact (h.stateAt hs).id_eq
  dsimp only
  rw [if_pos hid]

theorem kindFault?_eq_none {id : Nat} {s : State} {kind : StateKind} {entry : String}
    (hs : n.states[id]? = some s) (hk : s.kind = kind) : n.kindFault? id kind entry = none := by
  rw [Network.kindFault?, hs]
  exact if_pos hk

theorem rulesFault?_eq_none (h : Bodies g p lazy k j n) : n.rulesFault? = none := by
  refine List.findSome?_eq_none_iff.mpr fun i hi => ?_
  have hlt : i < g.rules.length := by
    have := List.mem_range.mp hi
    rwa [← Array.length_toList, h.ruleStarts, List.length_map, List.length_range] at this
  obtain ⟨s, hs, -, hrule, hkind, -⟩ := h.start i hlt
  have hstop := h.stop i hlt
  rw [h.toTables.ruleStart hlt, h.toTables.ruleStop hlt]
  show n.ruleFault? i (p.start i) (p.stop i) = none
  rw [Network.ruleFault?, kindFault?_eq_none hs hkind, kindFault?_eq_none hstop rfl, Network.state,
    Network.state, hs, hstop]
  simp [hrule]

/-- In a network of bodies all transitions lead to states, and calls lead to the rules that they name. -/
theorem transitionsFault?_eq_none (h : Bodies g p lazy g.rules.length g.rules.length n)
    (hm : p.modes = if g.kind = .lexer then g.modes.length else 0) (hindexed : n.Indexed)
    (hlevels : g.kind = .lexer → ∀ r ∈ g.rules, r.body.everywhere (!·.isLevel)) :
    n.transitionsFault? = none := by
  refine List.findSome?_eq_none_iff.mpr fun s hs => List.findSome?_eq_none_iff.mpr fun t ht => ?_
  obtain ⟨q, hq⟩ := List.mem_iff_getElem?.mp hs
  rw [Array.getElem?_toList] at hq
  have hlaid := h.withReturns hm
  have hmem : t ∈ n.withReturns.ways q := by
    refine mem_ways.mpr ⟨Network.linkedState n.calls s, ?_, List.mem_append_left _ ht⟩
    rw [Network.states_withReturns, hq, Option.map_some]
  have hwithin := hlaid.within hmem
  rw [show n.withReturns.states.size = n.states.size from Array.size_map] at hwithin
  unfold Network.transitionFault?
  rw [if_neg (Nat.not_le_of_lt hwithin.1)]
  cases t with
  | call target rule level follow =>
    obtain ⟨rfl, hrule, -⟩ := hlaid.call_cases hmem
    have hstart : n.ruleStarts[rule]? = some (p.start rule) := h.toTables.ruleStart hrule
    dsimp only
    rw [if_neg (not_not.mpr hstart), if_neg (Nat.not_le_of_lt (hwithin.2 _ _ _ _ rfl))]
  | precedence target level =>
    refine if_neg fun hk => ?_
    cases hlaid.isLevel_of_mem (hlevels (h.kind.symm.trans hk)) hmem
  | action target rule index contextual =>
    refine if_neg fun hk => ?_
    rw [Bool.and_eq_true, decide_eq_true_iff, decide_eq_true_iff] at hk
    exact Nat.not_lt_of_le hk.2 (hindexed.commands hk.1 q s hq target rule index contextual ht)
  | _ => rfl

theorem decisionsFault?_eq_none (h : n.Indexed) : n.decisionsFault? = none := by
  refine List.findSome?_eq_none_iff.mpr fun d hd => ?_
  have hq := Array.getElem?_eq_getElem (List.mem_range.mp hd)
  obtain ⟨s, hs, hnumber⟩ := h.decisions d _ hq
  rw [hq, Option.bind_some, hs]
  exact if_pos hnumber

theorem lexerFault?_eq_none (h : Bodies g p lazy k j n) : n.lexerFault? = none := by
  rw [Network.lexerFault?]
  by_cases hk : n.kind = .lexer
  · have htypes : n.tokenTypes.size = n.ruleStarts.size := by
      rw [← Array.length_toList, ← Array.length_toList, h.tokenTypes (h.kind ▸ hk), h.ruleStarts]
      simp
    rw [if_neg (not_not.mpr hk), if_neg (not_not.mpr htypes), h.modeStarts]
    refine List.findSome?_eq_none_iff.mpr fun m hm => ?_
    obtain ⟨s, hs, -, -, hkind, -⟩ := h.mode m (List.mem_range.mp hm)
    exact kindFault?_eq_none hs hkind
  · rw [if_pos hk]

/-- There is nothing wrong with a network of bodies if a lexer has no levels. -/
theorem fault?_eq_none (h : Bodies g p lazy g.rules.length g.rules.length n)
    (hm : p.modes = if g.kind = .lexer then g.modes.length else 0) (hindexed : n.Indexed)
    (hlevels : g.kind = .lexer → ∀ r ∈ g.rules, r.body.everywhere (!·.isLevel)) :
    n.fault? = none := by
  have hsizes : n.ruleStarts.size = n.ruleStops.size := by
    rw [← Array.length_toList, ← Array.length_toList, h.ruleStarts, h.ruleStops]
    simp
  exact Network.fault?_eq_none_iff.mpr ⟨hsizes, h.placementFault?_eq_none, h.rulesFault?_eq_none,
    h.transitionsFault?_eq_none hm hindexed hlevels, decisionsFault?_eq_none hindexed,
    h.lexerFault?_eq_none⟩

end Layout.Bodies

/-! ## Success -/

namespace Grammar
variable {g : Grammar}

/-- The layout of a grammar succeeds if names and commands are in order. -/
theorem exists_grammar_iff (g : Grammar) :
    (∃ n, Layout.grammar g { kind := g.kind, maxSymbol := g.maxSymbol } = .ok ((), n)) ↔
      (g.rules.map Rule.name).Nodup ∧
        (∀ r ∈ g.rules, r.body.everywhere (·.callsAmong (g.rules.map Rule.name))) ∧
          (g.kind = .parser → ∀ r ∈ g.rules, r.body.everywhere (!·.isCommand)) := by
  have hgrammar := Layout.grammar_succeeds Network.Indexed.stable Network.Indexed.untabled (g := g)
    ⟨by simp, by simp⟩ rfl
  rw [← g.placeable_iff]
  constructor
  · rintro ⟨n, hrun⟩
    exact (hgrammar.2 hrun).1
  · intro hok
    obtain ⟨⟨⟩, n, hrun⟩ := hgrammar.1 hok
    exact ⟨n, hrun⟩

theorem indexed_of_grammar {n : Network}
    (hrun : Layout.grammar g { kind := g.kind, maxSymbol := g.maxSymbol } = .ok ((), n)) : n.Indexed :=
  (Layout.grammar_succeeds Network.Indexed.stable Network.Indexed.untabled (g := g)
    ⟨by simp, by simp⟩ rfl |>.2 hrun).2

/-- A grammar is laid out exactly if it is well formed. -/
theorem exists_layout_iff (g : Grammar) : (∃ n, g.layout = .ok n) ↔ g.WellFormed := by
  have hlazy : ¬True → ∀ r ∈ g.rules, r.body.everywhere fun e => !e.isLazy := fun hf => absurd trivial hf
  constructor
  · rintro ⟨n, hl⟩
    obtain ⟨n₀, hrun, hlink⟩ := layout_eq_ok_iff.mp hl
    obtain ⟨hnames, hcalls, hcommands⟩ := g.exists_grammar_iff.mp ⟨n₀, hrun⟩
    refine ⟨hnames, hcalls, hcommands, fun hk r hr => ?_⟩
    obtain ⟨p, hb, -⟩ := Layout.grammar_bodies hlazy hrun
    obtain ⟨i, hi, rfl⟩ := List.mem_iff_getElem.mp hr
    refine (hb.laid i _ hi (List.getElem?_eq_getElem hi)).everywhere_not_isLevel fun q _ _ target level ht => ?_
    obtain ⟨s, hs, ht⟩ := Layout.mem_ways.mp ht
    have hfault := (Network.link_cases hlink).1
    rw [hb.withoutReturns_eq] at hfault
    have hnone := Network.transitionFault?_of_fault? hfault hs ht
    unfold Network.transitionFault? at hnone
    split at hnone
    · cases hnone
    · simp [hb.kind, hk] at hnone
  · intro h
    obtain ⟨n₀, hrun⟩ := g.exists_grammar_iff.mpr ⟨h.names, h.calls, h.commands⟩
    obtain ⟨p, hb, hm⟩ := Layout.grammar_bodies hlazy hrun
    refine ⟨n₀.withReturns, layout_eq_ok_iff.mpr ⟨n₀, hrun, ?_⟩⟩
    rw [Network.link, hb.withoutReturns_eq, hb.fault?_eq_none hm (indexed_of_grammar hrun) h.levels]

end Grammar
end AdaptiveLL
