import Mathlib
import AdaptiveLL.Proofs.Lexing.Unasked

/-! # A rule that runs to a terminator

The network of a lexer whose only rule is an opening, then whatever there is, then a terminator, where the
repetition between them prefers to leave.  `Network.Bracketed` names all of its states and the transitions
between them, and `Grammar.bracketed_of_layout` reads them off the layout.

What a layout says of states by their transitions (`Laid`) leaves out which decisions prefer to leave.  That
the repetition does so is followed through the layout from where it is noted on
(`Grammar.prefersLeaving_of_layout`).
-/
namespace AdaptiveLL

/-! ## Characters one after another -/

/-- The states of the characters of a text from `lo` on, two for each character: the character leads from the
first to the second, and from there it goes on to the next character.  A text without characters has two states
as well. -/
structure Network.Spells (n : Network) (lo : Nat) (cs : List Char) : Prop where
  blank : cs = [] → n.ways lo = [.epsilon (lo + 1)]
  char : ∀ i c, cs[i]? = some c → n.ways (lo + 2 * i) = [.symbol (lo + 2 * i + 1) (Symbol.ofChar c)]
  joint : ∀ i, i + 1 < cs.length → n.ways (lo + 2 * i + 1) = [.epsilon (lo + 2 * (i + 1))]

/-- How many states the characters of a text have. -/
def Network.Spells.span (cs : List Char) : Nat := 2 * max 1 cs.length

namespace Laid
variable {T : Nat → List Transition} {n : Network} {callees : Callees} {rule lo hi : Nat} {s : Stretch}
open Network.Spells (span)

theorem char_cases {c : Char} (h : Laid T callees rule (.char c) lo hi s) :
    T lo = [.symbol (lo + 1) (Symbol.ofChar c)] ∧ hi = lo + 2 ∧ s = ⟨lo, lo + 1⟩ := by
  unfold Element.char at h
  cases h with
  | direct hd ht =>
    cases hd
    exact ⟨ht, rfl, rfl⟩

theorem wildcard_cases (h : Laid T callees rule .wildcard lo hi s) :
    T lo = [.wildcard (lo + 1)] ∧ hi = lo + 2 ∧ s = ⟨lo, lo + 1⟩ := by
  cases h with
  | direct hd ht =>
    cases hd
    exact ⟨ht, rfl, rfl⟩

/-- The states of a text's characters. -/
theorem spells {text : String} (h : Laid n.ways callees rule (.literal text) lo hi s) :
    n.Spells lo text.toList ∧ hi = lo + span text.toList ∧ s = ⟨lo, lo + span text.toList - 1⟩ := by
  unfold Element.literal at h
  generalize text.toList = cs at h
  match cs, h with
  | [], h =>
    cases h with
    | direct hd => cases hd
    | empty ht => exact ⟨⟨fun _ => ht, fun i c hc => (nomatch hc), fun i hi => by simp at hi⟩, rfl, rfl⟩
  | [c], h =>
    obtain ⟨ht, rfl, rfl⟩ := h.char_cases
    refine ⟨⟨fun h => (nomatch h), fun i c' hc => ?_, fun i hi => by simp at hi⟩, rfl, rfl⟩
    cases i with
    | zero =>
      cases hc
      exact ht
    | succ i => cases hc
  | c :: c' :: cs, h =>
    cases h with
    | direct hd => cases hd
    | @seq _ _ bound part hparts hjoin =>
      have hchar : ∀ i d, (c :: c' :: cs)[i]? = some d →
          n.ways (bound i) = [.symbol (bound i + 1) (Symbol.ofChar d)] ∧ bound (i + 1) = bound i + 2 ∧
            part i = ⟨bound i, bound i + 1⟩ := by
        intro i d hd
        obtain ⟨hlt, rfl⟩ := List.getElem?_eq_some_iff.mp hd
        have hi : i < (Element.char c :: (c' :: cs).map Element.char).length := by simpa using hlt
        have hpart := hparts i hi
        have hmap : (Element.char c :: (c' :: cs).map Element.char)[i] = .char (c :: c' :: cs)[i] := by
          simp only [← List.map_cons, List.getElem_map]
        exact char_cases (hmap ▸ hpart)
      -- Each character takes two states, which fixes the bounds of the parts.
      have hbound : ∀ i, i ≤ (c :: c' :: cs).length → bound i = bound 0 + 2 * i := by
        intro i
        induction i with
        | zero => exact fun _ => rfl
        | succ i ih =>
          intro hi
          rw [(hchar i _ (List.getElem?_eq_getElem hi)).2.1, ih (by omega)]
          omega
      have hlength : ((c' :: cs).map Element.char).length = cs.length + 1 := by simp
      have hspan : span (c :: c' :: cs) = 2 * (cs.length + 2) := by simp [span]
      have hpart : ∀ i (h : i < (c :: c' :: cs).length), part i = ⟨bound 0 + 2 * i, bound 0 + 2 * i + 1⟩ := by
        intro i hi
        rw [(hchar i _ (List.getElem?_eq_getElem hi)).2.2, hbound i hi.le]
      refine ⟨⟨fun h => (nomatch h), fun i d hd => ?_, fun i hi => ?_⟩, ?_, ?_⟩
      · have hlt := (List.getElem?_eq_some_iff.mp hd).1
        have hways := (hchar i d hd).1
        rwa [hbound i hlt.le] at hways
      · have hjoint := hjoin i (by rw [hlength]; simpa using hi)
        rwa [hpart i (by omega), hpart (i + 1) hi] at hjoint
      · rw [hlength, hspan, hbound _ (by simp)]
      · rw [hlength, hpart 0 (by simp), hpart _ (by simp), hspan]
        simp only [Stretch.mk.injEq, Nat.mul_zero, Nat.add_zero, true_and]
        omega

end Laid

/-! ## Decisions that prefer to leave -/

/-- A state is a decision that prefers to leave. -/
def Network.PrefersLeaving (n : Network) (q : Nat) : Prop :=
  ∃ s : State, n.states[q]? = some s ∧ s.kind.isDecision ∧ s.nonGreedy

/-- The states of a network keep their kinds in another, and those that prefer to leave still do. -/
def Network.Upholds (n n' : Network) : Prop :=
  ∀ (q : Nat) (s : State), n.states[q]? = some s →
    ∃ s' : State, n'.states[q]? = some s' ∧ s'.kind = s.kind ∧ (s.nonGreedy → s'.nonGreedy)

namespace Network.Upholds
variable {n n' n'' : Network} {q : Nat}

theorem refl (n : Network) : n.Upholds n := fun _ s hs => ⟨s, hs, rfl, id⟩

theorem trans (h : n.Upholds n') (h' : n'.Upholds n'') : n.Upholds n'' := by
  intro q s hs
  obtain ⟨s', hs', hkind, hlazy⟩ := h q s hs
  obtain ⟨s'', hs'', hkind', hlazy'⟩ := h' q s' hs'
  exact ⟨s'', hs'', hkind'.trans hkind, hlazy' ∘ hlazy⟩

theorem prefersLeaving (h : n.Upholds n') (hq : n.PrefersLeaving q) : n'.PrefersLeaving q := by
  obtain ⟨s, hs, hdecision, hlazy⟩ := hq
  obtain ⟨s', hs', hkind, hlazy'⟩ := h q s hs
  exact ⟨s', hs', hkind ▸ hdecision, hlazy' hlazy⟩

/-- What leaves the states there are alone. -/
theorem of_grows {rule : Nat} {lazy : Prop} (h : Layout.Grows rule lazy n.states.size n n') :
    n.Upholds n' := fun q s hs =>
  ⟨s, (h.old q (Array.getElem?_eq_some_iff.mp hs).1).trans hs, rfl, id⟩

/-- Changing a state in a way that keeps its kind and does not make it eager. -/
theorem modify (n : Network) (decisions : Array Nat) (id : Nat) {f : State → State}
    (hf : ∀ s, (f s).kind = s.kind ∧ (s.nonGreedy → (f s).nonGreedy)) :
    n.Upholds { n with decisions, states := n.states.modify id f } := by
  intro q s hs
  dsimp only
  rw [Array.getElem?_modify, hs]
  split
  · exact ⟨f s, rfl, hf s⟩
  · exact ⟨s, rfl, rfl, fun h => h⟩

/-- Changing all states in such a way. -/
theorem map (n : Network) {f : State → State}
    (hf : ∀ s, (f s).kind = s.kind ∧ (s.nonGreedy → (f s).nonGreedy)) :
    n.Upholds { n with states := n.states.map f } := by
  intro q s hs
  dsimp only
  rw [Array.getElem?_map, hs]
  exact ⟨f s, rfl, hf s⟩

end Network.Upholds

namespace Layout
variable {n n' : Network} {rule id a b : Nat} {u : Unit}

theorem join_upholds (h : join a b n = .ok (u, n')) : n.Upholds n' := by
  cases h
  exact .modify n n.decisions a (f := (·.addTransition (.epsilon b))) fun _ => ⟨rfl, fun h => h⟩

theorem chain_upholds {ss : List Stretch} (h : chain ss n = .ok (u, n')) : n.Upholds n' := by
  induction ss generalizing n u with
  | nil =>
    cases h
    exact .refl _
  | cons s ss ih =>
    cases ss with
    | nil =>
      cases h
      exact .refl _
    | cons s' ss =>
      obtain ⟨_, n₁, h₁, h⟩ := exists_of_bind h
      exact (join_upholds h₁).trans (ih h)

theorem link_upholds (h : n.link = .ok n') : n.Upholds n' := by
  rw [(Network.link_cases h).2]
  have hwithout : n.Upholds n.withoutReturns := by
    refine .map n fun s => ?_
    unfold State.withoutReturns
    split
    · exact ⟨rfl, fun h => h⟩
    · exact ⟨rfl, fun h => h⟩
  exact hwithout.trans (.map _ fun s => ⟨rfl, fun h => h⟩)

/-- A state that is made to prefer leaving does. -/
theorem prefersLeaving_of_preferLeaving {s : State} (hs : n.states[id]? = some s) (hk : s.kind.isDecision)
    (h : preferLeaving id n = .ok (u, n')) : n'.PrefersLeaving id := by
  cases h
  refine ⟨{ s with nonGreedy := true }, ?_, hk, rfl⟩
  dsimp only
  rw [Array.getElem?_modify, if_pos rfl, hs]
  rfl

attribute [local simp] element

/-- What a layout makes of an element, with decisions of either kind. -/
theorem built_of_element {e : Element} {s : Stretch} (hn : n.ruleNames.size = n.ruleStarts.size)
    (h : element rule e n = .ok (s, n')) : Built rule True n n' e s :=
  element_built (fun h => (h trivial).elim) hn h

/-- A reluctant repetition is entered at a decision that prefers to leave. -/
theorem prefersLeaving_of_star {body : Element} {s : Stretch} (hn : n.ruleNames.size = n.ruleStarts.size)
    (h : element rule (.star body false) n = .ok (s, n')) :
    s.entry = n.states.size ∧ n'.PrefersLeaving n.states.size := by
  rw [element] at h
  obtain ⟨_, n₁, h₁, h⟩ := exists_of_bind h
  cases h₁
  obtain ⟨_, n₂, h₂, h⟩ := exists_of_bind h
  have hfirst : n₂.states.size = n.states.size + 1 ∧ n₂.ruleNames.size = n₂.ruleStarts.size ∧
      ∃ s : State, n₂.states[n.states.size]? = some s ∧ s.kind.isDecision := by
    cases h₂
    refine ⟨by simp, hn, { id := n.states.size, rule, kind := .starLoopEntry, decision := some n.decisions.size },
      ?_, rfl⟩
    rw [Array.getElem?_modify, if_pos rfl, Array.getElem?_push, if_pos rfl]
    rfl
  obtain ⟨hsize₂, hn₂, s₂, hs₂, hk⟩ := hfirst
  -- The other states are made behind the first one, and connected without it.
  obtain ⟨_, n₃, h₃, h⟩ := exists_of_bind h
  obtain ⟨rfl, ha⟩ := (Adds.refl rule True (le_refl n₂.states.size)).firstState h₃ rfl
  obtain ⟨n₄, ha, h⟩ := ha.exists_decision h (by omega) (by omega)
  obtain ⟨_, n₅, h₅, h⟩ := exists_of_bind h
  obtain ⟨rfl, ha⟩ := ha.newState h₅ rfl
  obtain ⟨ss, n₆, h₆, h⟩ := exists_of_branches h
  have hn₅ : n₅.ruleNames.size = n₅.ruleStarts.size := by
    rw [ha.grows.ruleNames, ha.grows.ruleStarts, hn₂]
  obtain ⟨bound, hall⟩ := elements_built
    (fun _ _ _ _ _ hn h => built_of_element hn h) hn₅ h₆
  have hbounds := fun s => hall.exit_bounds (s := s)
  have hgrows := hall.grows.size
  have hsize := ha.size
  have hf := Adds.start rule True (b := n₂.states.size) (n := n₆) (by omega) fun q hq => hq
  obtain ⟨_, n₇, h₇, h⟩ := exists_of_bind h
  have hf := hf.spread h₇ (by omega) (fun s hs => by have := hbounds s hs; omega) (by omega)
  obtain ⟨_, n₈, h₈, h⟩ := exists_of_bind h
  obtain ⟨rfl, hf⟩ := hf.firstState h₈ rfl
  obtain ⟨_, n₉, h₉, h⟩ := exists_of_bind h
  obtain ⟨rfl, hf⟩ := hf.newState h₉ rfl
  obtain ⟨_, n₁₀, h₁₀, h⟩ := exists_of_bind h
  have hf := hf.connect h₁₀ (by omega) (by omega)
  obtain ⟨_, n₁₁, h₁₁, h⟩ := exists_of_bind h
  have hf := hf.connect h₁₁ (by omega) (by omega)
  have hs₁₁ : n₁₁.states[n.states.size]? = some s₂ := by
    rw [hf.grows.old _ (by omega), hall.grows.old _ (by omega), ha.grows.old _ (by omega), hs₂]
  obtain ⟨_, n₁₂, h₁₂, h⟩ := exists_of_bind h
  obtain ⟨_, n₁₃, h₁₃, h⟩ := exists_of_bind h
  obtain ⟨_, n₁₄, h₁₄, h⟩ := exists_of_bind h
  obtain ⟨s₁₃, hs₁₃, hkind, -⟩ := (join_upholds h₁₂).trans (join_upholds h₁₃) _ _ hs₁₁
  cases h
  exact ⟨rfl, prefersLeaving_of_preferLeaving hs₁₃ (hkind ▸ hk) h₁₄⟩

/-- The same for a repetition between two other elements, behind all that is made afterwards. -/
theorem prefersLeaving_of_between {e body e' : Element} {s : Stretch}
    (hn : n.ruleNames.size = n.ruleStarts.size)
    (h : element rule (.seq [e, .star body false, e']) n = .ok (s, n')) :
    ∃ n₁ s₁, Built rule True n n₁ e s₁ ∧ n'.PrefersLeaving n₁.states.size := by
  have hnames : ∀ {e n n' s}, n.ruleNames.size = n.ruleStarts.size → Built rule True n n' e s →
      n'.ruleNames.size = n'.ruleStarts.size := fun hn h => by
    rw [h.grows.ruleNames, h.grows.ruleStarts, hn]
  rw [element] at h
  obtain ⟨ss, n₄, hparts, h⟩ := exists_of_bind h
  rw [elements] at hparts
  obtain ⟨s₁, n₁, h₁, hparts⟩ := exists_of_bind hparts
  obtain ⟨ss₁, n₄, hparts₁, hss⟩ := exists_of_bind hparts
  cases hss
  rw [elements] at hparts₁
  obtain ⟨s₂, n₂, h₂, hparts₁⟩ := exists_of_bind hparts₁
  obtain ⟨ss₂, n₄, hparts₂, hss⟩ := exists_of_bind hparts₁
  cases hss
  rw [elements] at hparts₂
  obtain ⟨s₃, n₃, h₃, hparts₂⟩ := exists_of_bind hparts₂
  cases hparts₂
  have hb₁ := built_of_element hn h₁
  have hn₁ := hnames hn hb₁
  have hn₂ := hnames hn₁ (built_of_element hn₁ h₂)
  have hb₃ := built_of_element hn₂ h₃
  obtain ⟨-, hlazy⟩ := prefersLeaving_of_star hn₁ h₂
  obtain ⟨_, n₅, h₅, h⟩ := exists_of_bind h
  cases h
  exact ⟨n₁, s₁, hb₁,
    (chain_upholds h₅).prefersLeaving ((Network.Upholds.of_grows hb₃.grows).prefersLeaving hlazy)⟩

end Layout
/-- The grammar of a lexer whose only rule is an opening, then whatever there is up to the first closing that
stands behind it, and the closing. -/
def Grammar.bracketed (name opening closing : String) (type : Int) : Grammar :=
  Grammar.lexer.token name type (.seq [.literal opening, .star .wildcard false, .literal closing])

/-- The network of such a rule.  The states in front are the start of the mode and the ends of the rule; then
there are those of the opening, those of the repetition, from `loop` on, and those of the closing. -/
structure Network.Bracketed (n : Network) (opening closing : List Char) (type : Int) (loop : Nat) : Prop where
  loop_eq : loop = 3 + Spells.span opening
  begins : n.ways 0 = [.epsilon 1]
  enters : n.ways 1 = [.epsilon 3]
  opens : n.Spells 3 opening
  arrives : n.ways (loop - 1) = [.epsilon loop]
  parts : n.ways loop = [.epsilon (loop + 6), .epsilon (loop + 1)]
  lazy : ((n.state loop).nonGreedy && (n.state loop).kind.isDecision) = true
  again : n.ways (loop + 1) = [.epsilon (loop + 3)]
  any : n.ways (loop + 3) = [.wildcard (loop + 4)]
  meets : n.ways (loop + 4) = [.epsilon (loop + 2)]
  turns : n.ways (loop + 2) = [.epsilon (loop + 5)]
  back : n.ways (loop + 5) = [.epsilon loop]
  leaves : n.ways (loop + 6) = [.epsilon (loop + 7)]
  closes : n.Spells (loop + 7) closing
  ends : n.ways (loop + 7 + Spells.span closing - 1) = [.epsilon 2]
  returns : n.ways 2 = []
  stop_iff : ∀ q, n.isStop q ↔ q = 2
  token : n.tokenTypes[(n.state 2).rule]? = some type
  freeOnly : ∀ q, (n.state q).freeOnly = (n.state q).hasOnlyFree

namespace Grammar
variable {name opening closing : String} {type : Int} {n : Network}
open Layout
open Network.Spells (span)

/-- The repetition is entered at a decision that prefers to leave. -/
theorem prefersLeaving_of_layout (h : (bracketed name opening closing type).layout = .ok n) :
    n.PrefersLeaving (3 + span opening.toList) := by
  obtain ⟨n₄, hrun, hlink⟩ := layout_eq_ok_iff.mp h
  rw [Layout.grammar] at hrun
  obtain ⟨_, n₁, hmodes, hrun⟩ := exists_of_bind hrun
  obtain ⟨_, n₂, hrules, hrun⟩ := exists_of_bind hrun
  obtain ⟨_, n₃, hbodies, hrun⟩ := exists_of_bind hrun
  have hends : Ends (bracketed name opening closing type) 1 1 n₂ := by
    have hmodes' := forM_run (P := fun m => Ends (bracketed name opening closing type) m 0)
      (fun _ _ _ _ _ => Ends.addMode) (ends_empty _) hmodes
    exact forRules_run (P := Ends (bracketed name opening closing type) 1)
      (fun _ _ _ _ _ hr h => h.addRule hr) hmodes' hrules
  have hsize : n₂.states.size = 3 := hends.size
  have hnames : n₂.ruleNames.size = n₂.ruleStarts.size := by
    rw [← Array.length_toList, hends.ruleNames, ← Array.length_toList, hends.ruleStarts]
    rfl
  obtain ⟨_, n₃', hbody, hbodies⟩ := exists_of_bind hbodies
  cases hbodies
  obtain ⟨s, m₁, h₁, hbody⟩ := exists_of_bind hbody
  obtain ⟨_, m₂, h₂, hbody⟩ := exists_of_bind hbody
  cases h₂
  obtain ⟨_, m₃, h₃, h₄⟩ := exists_of_bind hbody
  obtain ⟨m, s₁, hopening, hlazy⟩ := prefersLeaving_of_between hnames h₁
  have hloop : m.states.size = 3 + span opening.toList := hsize ▸ hopening.laid.spells.2.1
  have hbody := (join_upholds h₃).trans (join_upholds h₄)
  obtain ⟨_, n₄', hmode, hrun⟩ := exists_of_bind hrun
  cases hrun
  obtain ⟨_, m₄, h₅, h₆⟩ := exists_of_bind hmode
  cases h₅
  rw [← hloop]
  exact ((hbody.trans (join_upholds h₆)).trans (link_upholds hlink)).prefersLeaving hlazy

end Grammar

/-! ## The states of the rule -/

namespace Laid
variable {T : Nat → List Transition} {callees : Callees} {rule lo hi : Nat} {s : Stretch}

/-- The states of a reluctant repetition of anything. -/
theorem lazy_cases (h : Laid T callees rule (.star .wildcard false) lo hi s) :
    T lo = [.epsilon (lo + 6), .epsilon (lo + 1)] ∧ T (lo + 1) = [.epsilon (lo + 3)] ∧
      T (lo + 2) = [.epsilon (lo + 5)] ∧ T (lo + 3) = [.wildcard (lo + 4)] ∧
      T (lo + 4) = [.epsilon (lo + 2)] ∧ T (lo + 5) = [.epsilon lo] ∧ hi = lo + 7 ∧ s = ⟨lo, lo + 6⟩ := by
  cases h with
  | direct hd => cases hd
  | @star _ _ _ back bound part h0 hback hparts hlo hstart hexit hmeet hturn =>
    obtain ⟨hany, hbound, hpart⟩ := (hparts 0 Nat.one_pos).wildcard_cases
    rw [h0] at hany hbound hpart
    obtain rfl : back = lo + 5 := hback.symm.trans hbound
    have hexit := hexit 0 Nat.one_pos
    have hstart : T (lo + 1) = [.epsilon (part 0).entry] := hstart
    rw [hpart] at hexit hstart
    exact ⟨hlo, hstart, hmeet, hany, hexit, hturn, rfl, rfl⟩

end Laid

/-- Whether an element is a character, or anything, or is built from others one after another. -/
def Element.isText : Element → Bool
  | .symbol label => 0 ≤ label
  | .wildcard | .seq _ | .star .. => true
  | _ => false

theorem Element.isText_literal (text : String) : (Element.literal text).everywhere Element.isText := by
  have hone : ∀ c, (Element.char c).everywhere Element.isText := fun c => by
    simp [Element.char, Element.everywhere, Element.isText, Symbol.ofChar]
  unfold Element.literal
  split
  · exact hone _
  · rw [Element.everywhere, Bool.and_eq_true, Element.everywhereIn_iff]
    refine ⟨rfl, fun e he => ?_⟩
    obtain ⟨c, -, rfl⟩ := List.mem_map.mp he
    exact hone c

namespace Grammar
variable {name opening closing : String} {type : Int} {n : Network}
open Network.Spells (span)

/-- The transitions of the network are free, or consume one character, or any. -/
theorem ways_of_layout (h : (bracketed name opening closing type).layout = .ok n) {q : Nat} {t : Transition}
    (ht : t ∈ n.ways q) : (∃ z, t = .epsilon z) ∨ t.isReturn ∨ (∃ z label, 0 ≤ label ∧ t = .symbol z label) ∨
      ∃ z, t = .wildcard z := by
  obtain ⟨p, hlaid⟩ : ∃ p, (bracketed name opening closing type).LaidOut p True n :=
    exists_laidOut h fun h => (h trivial).elim
  have htest : ∀ r ∈ (bracketed name opening closing type).rules, r.body.everywhere Element.isText := by
    intro r hr
    obtain rfl := List.mem_singleton.mp hr
    simp [Element.everywhere, Element.everywhereIn, Element.isText_literal, Element.isText]
  rcases hlaid.direct_of_ways htest ht with hfree | hreturn | ⟨i, e, f, he, hd, -, rfl⟩
  · exact .inl hfree
  · exact .inr (.inl hreturn)
  · cases hd with
    | symbol label => exact .inr (.inr (.inl ⟨_, label, of_decide_eq_true he, rfl⟩))
    | wildcard => exact .inr (.inr (.inr ⟨_, rfl⟩))
    | _ => cases he

theorem unasked_of_layout (h : (bracketed name opening closing type).layout = .ok n) : n.Unasked := by
  rintro q _ ht target rule index contextual rfl
  rcases ways_of_layout h ht with ⟨_, he⟩ | he | ⟨_, _, -, he⟩ | ⟨_, he⟩ <;> cases he

theorem sparesEnd_of_layout (h : (bracketed name opening closing type).layout = .ok n) : n.SparesEnd := by
  intro q t ht
  rcases ways_of_layout h ht with ⟨_, rfl⟩ | hreturn | ⟨_, label, hlabel, rfl⟩ | ⟨_, rfl⟩
  · rfl
  · obtain ⟨z, rfl⟩ := Transition.exists_of_isReturn hreturn
    rfl
  · refine decide_eq_false ?_
    rw [endOfInput]
    omega
  · rfl

/-- The network of a rule that runs to a terminator. -/
theorem bracketed_of_layout (h : (bracketed name opening closing type).layout = .ok n) :
    n.Bracketed opening.toList closing.toList type (3 + span opening.toList) := by
  obtain ⟨p, hlaid⟩ : ∃ p, (bracketed name opening closing type).LaidOut p True n :=
    exists_laidOut h fun h => (h trivial).elim
  have hmodes : p.modes = 1 := hlaid.modes
  have hbase : p.bound 0 = 3 := by
    rw [hlaid.base, hmodes]
    rfl
  have hbegins := hlaid.modeWays 0 (hmodes ▸ Nat.one_pos)
  have henters := hlaid.enter 0 Nat.one_pos
  have hends := hlaid.leave 0 Nat.one_pos
  have hstart : p.start 0 = 1 := by rw [Plan.start, hmodes]
  have hstop : p.stop 0 = 2 := by rw [Plan.stop, hmodes]
  have hbody : Laid n.ways n.callees 0 (.seq [.literal opening, .star .wildcard false, .literal closing])
      (p.bound 0) (p.bound 1) (p.part 0) := hlaid.laid 0 _ rfl
  rw [hstart] at henters
  rw [hstop] at hends
  have hbegins : n.ways 0 = [.epsilon (p.start 0)] := hbegins
  rw [hstart] at hbegins
  -- The plan is forgotten but for the first bound, so that the layout of the body determines it.
  generalize p.bound 0 = lo at hbody hbase
  generalize p.bound 1 = hi at hbody
  generalize p.part 0 = s at hbody henters hends
  cases hbody with
  | direct hd => cases hd
  | @seq _ _ bound part hparts hjoin =>
    obtain ⟨hopens, hb₁, hs₀⟩ := (hparts 0 (by simp)).spells
    obtain ⟨hparts', hagain, hturns, hany, hmeets, hback, hb₂, hs₁⟩ := (hparts 1 (by simp)).lazy_cases
    obtain ⟨hcloses, -, hs₂⟩ := (hparts 2 (by simp)).spells
    have harrives := hjoin 0 (by simp)
    have hleaves := hjoin 1 (by simp)
    rw [hs₀, hs₁] at harrives
    rw [hs₁, hs₂] at hleaves
    have hends : n.ways (part 2).exit = [.epsilon 2] := hends
    have hloop : bound 1 = 3 + span opening.toList := by rw [hb₁, hbase]
    have hlast : bound 2 = bound 1 + 7 := hb₂
    have hpos : 0 < span opening.toList := by
      rw [span]
      omega
    rw [hs₂, hlast] at hends
    rw [hlast] at hleaves hcloses
    rw [hloop] at hparts' hagain hturns hany hmeets hback harrives hleaves hcloses hends
    rw [hs₀, hbase] at henters
    rw [hbase] at hopens harrives
    obtain ⟨s, hs, hdecision, hlazy⟩ := prefersLeaving_of_layout h
    have hstops : ∀ q, n.isStop q ↔ q = 2 := by
      intro q
      rw [hlaid.isStop_iff]
      constructor
      · rintro ⟨i, hi, hq⟩
        obtain rfl : i = 0 := Nat.lt_one_iff.mp hi
        exact hq.trans hstop
      · exact fun hq => ⟨0, Nat.one_pos, hq.trans hstop.symm⟩
    exact {
      loop_eq := rfl
      begins := hbegins
      enters := henters
      opens := hopens
      arrives := harrives
      parts := hparts'
      lazy := by rw [Network.state, hs, Option.getD_some, hlazy, hdecision]; rfl
      again := hagain
      any := hany
      meets := hmeets
      turns := hturns
      back := hback
      leaves := hleaves
      closes := hcloses
      ends := hends
      returns := by
        rw [List.eq_nil_iff_forall_not_mem]
        intro t ht
        rw [← hstop] at ht
        obtain ⟨q, target, level, follow, -, hcall⟩ := (hlaid.returns 0 Nat.one_pos t).mp ht
        rcases ways_of_layout h hcall with ⟨_, he⟩ | he | ⟨_, _, -, he⟩ | ⟨_, he⟩ <;> cases he
      stop_iff := hstops
      token := by
        rw [← hstop, (hlaid.inRule_stop Nat.one_pos).1, ← Array.getElem?_toList, hlaid.toTables.tokenTypes rfl]
        rfl
      freeOnly := fun q => by
        by_cases hq : q < n.states.size
        · have hget := Array.getElem?_eq_getElem hq
          rw [Network.state, hget, Option.getD_some]
          exact hlaid.freeOnly q _ hget
        · rw [Network.state, Array.getElem?_eq_none (Nat.le_of_not_lt hq)]
          rfl }

end Grammar
end AdaptiveLL
