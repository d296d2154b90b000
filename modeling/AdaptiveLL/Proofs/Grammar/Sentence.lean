import Mathlib
import AdaptiveLL.Proofs.Network.Chained
import AdaptiveLL.Proofs.Prediction.ClosureSpots

/-! # Rules that stand for whole inputs

A rule that nobody calls and that ends with the end of the input, which nothing else in the grammar
accepts, is recognised only by reading the input to its end (`Grammar.Sentential`).  In the network
there is one place where the end of the input is consumed, and the only way on from there is the end of
the rule (`Network.Closing`, `Grammar.LaidOut.closing`).
-/
namespace AdaptiveLL

/-- Whether an element calls a rule. -/
def Element.calls (name : String) : Element → Bool
  | call rule _ => rule = name
  | _ => false

/-- A parser's grammar without conditions in which the rule `top` is recognised as a whole: nobody calls
it, and its body is a sequence that ends with the end of the input, which nothing else accepts. -/
structure Grammar.Sentential (g : Grammar) (top : Nat) : Prop where
  parser : g.kind = .parser
  unconditional : ∀ r ∈ g.rules, r.body.everywhere fun e => !e.isConditional
  sentence : ∃ r items, g.rules[top]? = some r ∧ r.body = .seq (items ++ [.endOfInput]) ∧
    (∀ e ∈ items, e.everywhere fun e => !e.accepts minTokenType g.maxSymbol endOfInput) ∧
      ∀ s ∈ g.rules, s.body.everywhere fun e => !e.calls r.name
  elsewhere : ∀ i r, i ≠ top → g.rules[i]? = some r →
    r.body.everywhere fun e => !e.accepts minTokenType g.maxSymbol endOfInput

/-- A network in which the end of the input is consumed at one place only: on the way to the state
`last`, from which the end `stop` of the rule `top` follows, and nothing else.  Nobody calls this rule,
and there are no guards. -/
structure Network.Closing (n : Network) (top last stop : Nat) : Prop where
  minSymbol : n.minSymbol = minTokenType
  unguarded : ∀ {q t}, t ∈ n.ways q → t.isGuarded = false
  isStop : n.isStop stop
  eq_stop : ∀ {q}, n.isStop q → (n.state q).rule = top → q = stop
  ways_stop : n.ways stop = []
  not_isStop : ¬ n.isStop last
  inRule : n.InRule top last
  ways_last : n.ways last = [.epsilon stop]
  enters_last : ∀ {q t}, t ∈ n.ways q → t.target = last → t = .symbol last endOfInput
  enters_stop : ∀ {q t}, t ∈ n.ways q → t.target = stop → q = last
  ends : ∀ {q t lo hi}, t ∈ n.ways q → (0 : Int) ≤ lo → t.consumes lo hi endOfInput → t.target = last
  calls : ∀ {q target rule level f}, .call target rule level f ∈ n.ways q →
    rule ≠ top ∧ f ≠ last ∧ f ≠ stop

/-! ## Laying out a sequence that ends with a symbol -/

namespace Laid
variable {T : Nat → List Transition} {callees : Callees} {rule : Nat} {lo hi : Nat} {s : Stretch}

/-- A sequence that ends with a symbol is left by consuming it; what is before it leads no further than
to where it is consumed. -/
theorem last_of_seq {items : List Element} {x : Int}
    (h : Laid T callees rule (.seq (items ++ [.symbol x])) lo hi s) {p : Element → Bool}
    (hp : ∀ e ∈ items, e.everywhere p) :
    ∃ q, lo ≤ s.entry ∧ s.entry ≤ q ∧ s.exit = q + 1 ∧ hi = q + 2 ∧ T q = [.symbol (q + 1) x] ∧
      ∀ q', lo ≤ q' → q' < q → Shaped T callees rule p lo (q + 1) q' := by
  generalize he : Element.seq (items ++ [.symbol x]) = e at h
  cases h with
  | direct hd _ =>
    subst he
    cases hd
  | empty _ =>
    injection he with he
    simp at he
  | only | alt | optional | star | plus => cases he
  | @seq first rest bound part hparts hnext =>
    injection he with he
    have hlen : rest.length = items.length := by
      have := congrArg List.length he
      simp only [List.length_append, List.length_cons, List.length_nil] at this
      omega
    have hpart : ∀ {i e}, (items ++ [.symbol x])[i]? = some e →
        Laid T callees rule e (bound i) (bound (i + 1)) (part i) := by
      intro i e hi
      rw [he] at hi
      obtain ⟨hlt, rfl⟩ := List.getElem?_eq_some_iff.mp hi
      exact hparts i hlt
    have hbound : ∀ i < rest.length, bound i ≤ bound (i + 1) := fun i hi => by
      have := (hparts i (by simp; omega)).bounds
      omega
    rw [hlen] at hbound hnext ⊢
    -- The last part is the symbol: two states with one transition between them.
    obtain ⟨q, hq, hq', hlast, hTq⟩ : ∃ q, bound items.length = q ∧ bound (items.length + 1) = q + 2 ∧
        part items.length = ⟨q, q + 1⟩ ∧ T q = [.symbol (q + 1) x] := by
      have hone : Laid T callees rule (.symbol x) (bound items.length) (bound (items.length + 1))
          (part items.length) := hpart (by simp)
      generalize bound items.length = a, bound (items.length + 1) = b, part items.length = s at hone
      cases hone with
      | direct hd hT =>
        cases hd
        exact ⟨_, rfl, rfl, rfl, hT⟩
    have hfirst : Laid T callees rule first (bound 0) (bound 1) (part 0) := hpart (by rw [he]; rfl)
    refine ⟨q, hfirst.bounds.1, ?_, by rw [hlast], hq', hTq, ?_⟩
    · change (part 0).entry ≤ q
      rcases Nat.eq_zero_or_pos items.length with hnone | hsome
      · rw [← hnone, hlast]
      · have := hfirst.bounds
        have := bound_le hbound (i := 1) hsome le_rfl
        omega
    · intro q' hlo hlt
      obtain ⟨i, hi, hin⟩ := exists_part hlo (hq.symm ▸ hlt : q' < bound items.length)
      have hlaid : Laid T callees rule items[i] (bound i) (bound (i + 1)) (part i) :=
        hpart (by rw [List.getElem?_append_left hi, List.getElem?_eq_getElem hi])
      have hle := bound_le hbound (i := i + 1) (j := items.length) hi le_rfl
      have hge := bound_le hbound (Nat.zero_le i) hi.le
      by_cases hx : q' = (part i).exit
      · -- the exit of a part leads to the next part
        rw [hx]
        have hnextPart : bound (i + 1) ≤ (part (i + 1)).entry ∧ (part (i + 1)).entry ≤ q := by
          rcases Nat.eq_or_lt_of_le hi with hend | hmore
          · rw [Nat.succ_eq_add_one] at hend
            rw [hend, hlast, hq]
            exact ⟨le_rfl, le_rfl⟩
          · have hlaid' : Laid T callees rule items[i + 1] (bound (i + 1)) (bound (i + 2))
                (part (i + 1)) :=
              hpart (by rw [List.getElem?_append_left hmore, List.getElem?_eq_getElem hmore])
            have := hlaid'.bounds
            have := bound_le hbound (i := i + 2) hmore le_rfl
            omega
        have := hlaid.bounds
        exact shaped_one (hnext i hi) (by omega) (by omega)
      · exact (hlaid.shaped (hp _ (List.getElem_mem hi)) hin.1 hin.2 hx).widen hge (by omega)

end Laid

/-! ## The place where the input ends -/

/-- A body that ends with a symbol, and a test that holds everywhere else in the grammar. -/
structure Grammar.EndsWith (g : Grammar) (top : Nat) (x : Int) (test : Element → Bool) : Prop where
  sentence : ∃ r items, g.rules[top]? = some r ∧ r.body = .seq (items ++ [.symbol x]) ∧
    ∀ e ∈ items, e.everywhere test
  elsewhere : ∀ i r, i ≠ top → g.rules[i]? = some r → r.body.everywhere test

/-- A transition of the network of a grammar in which the rule `top` ends with the symbol `x`. -/
inductive Grammar.EndWay (g : Grammar) (p : Plan) (n : Network) (top : Nat) (x : Int)
    (test : Element → Bool) : Nat → Transition → Prop
  | enter {i : Nat} : i < g.rules.length → (p.part i).entry ≠ (p.part top).exit →
      EndWay g p n top x test (p.start i) (.epsilon (p.part i).entry)
  | back {i caller target follow : Nat} {level : Int} : i < g.rules.length →
      .call target i level follow ∈ n.ways caller →
      EndWay g p n top x test (p.stop i) (.ret follow)
  | leave {i : Nat} : i < g.rules.length →
      EndWay g p n top x test (p.part i).exit (.epsilon (p.stop i))
  | last {q : Nat} : (p.part top).exit = q + 1 →
      EndWay g p n top x test q (.symbol (q + 1) x)
  | onward {i q z : Nat} : i < g.rules.length → p.bound i ≤ q → q < p.bound (i + 1) →
      p.bound i ≤ z → z ≠ (p.part top).exit → EndWay g p n top x test q (.epsilon z)
  | inner {i q : Nat} {e : Element} {t : Nat → Transition} : i < g.rules.length → p.bound i ≤ q →
      test e → Direct n.callees i e t → q + 1 ≠ (p.part top).exit →
      EndWay g p n top x test q (t (q + 1))

namespace Grammar.LaidOut
variable {g : Grammar} {p : Plan} {lazy : Prop} {n : Network} {top : Nat} {x : Int}
  {test : Element → Bool}

theorem bound_le_succ (h : g.LaidOut p lazy n) : ∀ i < g.rules.length, p.bound i ≤ p.bound (i + 1) := by
  intro i hi
  have := (h.laid i _ (List.getElem?_eq_getElem hi)).bounds
  omega

/-- The body of the rule that ends with the symbol. -/
theorem exists_last (h : g.LaidOut p lazy n) (hg : g.EndsWith top x test) :
    ∃ q, top < g.rules.length ∧ (p.part top).exit = q + 1 ∧ p.bound (top + 1) = q + 2 ∧
      p.bound top ≤ (p.part top).entry ∧ (p.part top).entry ≤ q ∧ n.ways q = [.symbol (q + 1) x] ∧
      ∀ q', p.bound top ≤ q' → q' < q →
        Laid.Shaped n.ways n.callees top test (p.bound top) (q + 1) q' := by
  obtain ⟨r, items, hr, hbody, hitems⟩ := hg.sentence
  have hlaid := h.laid top r hr
  rw [hbody] at hlaid
  obtain ⟨q, hlo, hle, hexit, hhi, hq, hshaped⟩ := hlaid.last_of_seq hitems
  exact ⟨q, (List.getElem?_eq_some_iff.mp hr).1, hexit, hhi, hlo, hle, hq, hshaped⟩

theorem endWay (h : g.LaidOut p lazy n) (hkind : g.kind = .parser) (hg : g.EndsWith top x test)
    {q : Nat} {t : Transition} (ht : t ∈ n.ways q) : EndWay g p n top x test q t := by
  obtain ⟨last, htop, hexit, hhi, hentry, hle, hlast, hshaped⟩ := h.exists_last hg
  have hbounds := h.bound_le_succ
  have helse : ∀ {i z : Nat}, i < g.rules.length → i ≠ top → p.bound i ≤ z → z < p.bound (i + 1) →
      z ≠ (p.part top).exit := by
    rintro i z hi hne hlo hlt rfl
    refine hne (part_unique hbounds hi htop ⟨hlo, hlt⟩ ⟨?_, ?_⟩)
    all_goals omega
  have hmodes : p.modes = 0 := by
    rw [h.modes, hkind]
    rfl
  rcases h.ways_cases ht with ⟨hm, -⟩ | ⟨i, hi, ⟨rfl, rfl⟩ | ⟨rfl, hr⟩ | ⟨hlo, hlt, -⟩⟩
  · omega
  · refine .enter hi ?_
    by_cases hit : i = top
    · subst hit
      omega
    · have := (h.laid i _ (List.getElem?_eq_getElem hi)).bounds
      exact helse hi hit this.1 this.2.1
  · obtain ⟨caller, target, level, follow, rfl, hcall⟩ := (h.returns i hi t).mp ht
    exact .back hi hcall
  · by_cases hx : q = (p.part i).exit
    · rw [hx, h.leave i hi, List.mem_singleton] at ht
      rw [hx, ht]
      exact .leave hi
    · by_cases hq : i = top ∧ q = last
      · obtain ⟨rfl, rfl⟩ := hq
        rw [hlast, List.mem_singleton] at ht
        exact ht ▸ .last hexit
      · -- the test holds in the bodies of other rules, and before the last symbol of this one
        obtain ⟨hi', hs, hother⟩ : ∃ hi', Laid.Shaped n.ways n.callees i test (p.bound i) hi' q ∧
            ∀ z, p.bound i ≤ z → z < hi' → z ≠ (p.part top).exit := by
          by_cases hit : i = top
          · subst hit
            exact ⟨_, hshaped q hlo (by omega), fun z _ hz => by omega⟩
          · exact ⟨_, (h.laid i _ (List.getElem?_eq_getElem hi)).shaped
              (hg.elsewhere i _ hit (List.getElem?_eq_getElem hi)) hlo hlt hx,
              fun z hz hz' => helse hi hit hz hz'⟩
        rcases hs with hs | ⟨e, t', he, hd, hT, hlt'⟩
        · obtain ⟨z, rfl, hz, hz'⟩ := hs t ht
          exact .onward hi hlo hlt hz (hother z hz hz')
        · rw [hT, List.mem_singleton] at ht
          exact ht ▸ .inner hi hlo he hd (hother _ (by omega) hlt')

end Grammar.LaidOut

namespace Direct
variable {callees : Callees} {rule : Nat} {e : Element} {t : Nat → Transition}

/-- Only what accepts the end of the input consumes it, whatever the vocabulary is. -/
theorem accepts_end (h : Direct callees rule e t) {q : Nat} {lo hi hi' : Int} (hlo : 0 ≤ lo)
    (hc : (t q).consumes lo hi endOfInput) : e.accepts minTokenType hi' endOfInput := by
  cases h with
  | symbol | range | set => exact hc
  | notSet | wildcard =>
    have hle : lo ≤ endOfInput := by
      simp only [Transition.consumes, Bool.and_eq_true] at hc
      exact of_decide_eq_true (by first | exact hc.1 | exact hc.1.1)
    exact absurd (hlo.trans hle) (by decide)
  | _ => cases hc

theorem not_isGuarded (h : Direct callees rule e t) (he : e.isConditional = false) (q : Nat) :
    (t q).isGuarded = false := by
  cases h with
  | predicate | precedence => cases he
  | _ => rfl

/-- The target of a transition for an element is the next state, unless it is a call. -/
theorem target_cases (h : Direct callees rule e t) (q : Nat) : (t q).target = q ∨
    ∃ name level start callee, e = .call name level ∧ callees name = some (start, callee) ∧
      t q = .call start callee level q := by
  cases h with
  | call level hc => exact .inr ⟨_, level, _, _, rfl, hc, rfl⟩
  | _ => exact .inl rfl

end Direct

namespace Grammar.Sentential
variable {g : Grammar} {top : Nat} {test : Element → Bool}

/-- The rule ends with the end of the input, which nothing else accepts. -/
theorem endsWith_end (hs : g.Sentential top) :
    g.EndsWith top endOfInput fun e => !e.accepts minTokenType g.maxSymbol endOfInput := by
  obtain ⟨r, items, hr, hbody, hitems, -⟩ := hs.sentence
  exact ⟨⟨r, items, hr, hbody, hitems⟩, hs.elsewhere⟩

/-- The rule ends with the end of the input, and a test that holds in all bodies holds in its own. -/
theorem endsWith (hs : g.Sentential top) (htest : ∀ s ∈ g.rules, s.body.everywhere test) :
    g.EndsWith top endOfInput test := by
  obtain ⟨r, items, hr, hbody, -⟩ := hs.sentence
  have hr' := htest r (List.mem_of_getElem? hr)
  rw [hbody] at hr'
  exact ⟨⟨r, items, hr, hbody, fun e he => Element.everywhere_parts hr' e (List.mem_append_left _ he)⟩,
    fun i s _ hi => htest s (List.mem_of_getElem? hi)⟩

end Grammar.Sentential

namespace Grammar.LaidOut
variable {g : Grammar} {p : Plan} {lazy : Prop} {n : Network} {top : Nat} {q : Nat} {t : Transition}

/-- A stop is in front of all bodies. -/
theorem ne_stop {z i : Nat} (hz : p.modes + 2 * g.rules.length ≤ z) (hi : i < g.rules.length) : z ≠ p.stop i := by
  rw [Plan.stop]
  omega

section Sentential
variable (h : g.LaidOut p lazy n) (hs : g.Sentential top)
include h hs

/-- Nobody calls the rule, and no call continues where the input has ended. -/
theorem calls_of_sentential {target rule f : Nat} {level : Int} (ht : .call target rule level f ∈ n.ways q) :
    rule ≠ top ∧ f ≠ (p.part top).exit ∧ f ≠ p.stop top := by
  obtain ⟨last, htop, hexit, -, -, -, hlast, -⟩ := h.exists_last hs.endsWith_end
  obtain ⟨-, hrule, i, hi, rfl, hlo, -⟩ := h.call_cases ht
  have hbound := h.base_le_bound hi.le
  refine ⟨?_, ?_, ne_stop (by omega) htop⟩
  · obtain ⟨r, -, hr, -, -, huncalled⟩ := hs.sentence
    generalize he : Transition.call target rule level (q + 1) = t at ht
    cases h.endWay hs.parser (hs.endsWith huncalled) ht with
    | inner _ _ hcall hd _ =>
      cases hd with
      | call _ hc =>
        cases he
        obtain ⟨-, r', hr', hname⟩ := h.toTables.callees_eq_some_iff.mp hc
        rintro rfl
        rw [hr] at hr'
        cases hr'
        simp [Element.calls, hname] at hcall
      | _ => cases he
    | _ => cases he
  · rw [hexit]
    intro hf
    obtain rfl : q = _ := Nat.succ.inj hf
    rw [hlast, List.mem_singleton] at ht
    cases ht

/-- The body of the rule is left only by reading the end of the input. -/
theorem eq_symbol_of_target_exit (ht : t ∈ n.ways q) (htarget : t.target = (p.part top).exit) :
    t = .symbol (p.part top).exit endOfInput := by
  obtain ⟨last, htop, hexit, -, hentry, hle, -⟩ := h.exists_last hs.endsWith_end
  have hbase := h.base_le_bound htop.le
  cases h.endWay hs.parser hs.endsWith_end ht with
  | enter _ hne | onward _ _ _ _ hne => exact absurd htarget hne
  | back _ hcall => exact absurd htarget (h.calls_of_sentential hs hcall).2.1
  | leave hi => exact absurd htarget.symm (ne_stop (by omega) hi)
  | last hexit' =>
    rw [← htarget]
    rfl
  | inner _ _ _ hd hne =>
    rcases hd.target_cases (_ + 1) with hnext | ⟨_, _, _, _, rfl, hc, hcall⟩
    · exact absurd (hnext.symm.trans htarget) hne
    · obtain ⟨rfl, r', hr', -⟩ := h.toTables.callees_eq_some_iff.mp hc
      have hlt := (List.getElem?_eq_some_iff.mp hr').1
      rw [hcall] at htarget
      change p.modes + 2 * _ = _ at htarget
      omega

/-- The stop of the rule is reached only from where the input has ended. -/
theorem eq_exit_of_target_stop (ht : t ∈ n.ways q) (htarget : t.target = p.stop top) : q = (p.part top).exit := by
  obtain ⟨last, htop, hexit, -, hentry, hle, -⟩ := h.exists_last hs.endsWith_end
  have hbase := h.base_le_bound htop.le
  cases h.endWay hs.parser hs.endsWith_end ht with
  | @enter i hi _ =>
    have hb := (h.laid i _ (List.getElem?_eq_getElem hi)).bounds
    have hbound := h.base_le_bound hi.le
    exact absurd htarget (ne_stop (z := (p.part i).entry) (by omega) htop)
  | back _ hcall => exact absurd htarget (h.calls_of_sentential hs hcall).2.2
  | @leave i hi =>
    have hstop : p.modes + 2 * i + 1 = p.modes + 2 * top + 1 := htarget
    obtain rfl : i = top := by omega
    rfl
  | last hexit' => exact absurd (hexit'.trans htarget) (ne_stop (by omega) htop)
  | @onward i _ z hi _ _ hz _ =>
    have hbound := h.base_le_bound hi.le
    exact absurd htarget (ne_stop (z := z) (by omega) htop)
  | inner hi hlo _ hd _ =>
    have hbound := h.base_le_bound hi.le
    rcases hd.target_cases (_ + 1) with hnext | ⟨_, _, _, _, rfl, hc, hcall⟩
    · exact absurd (hnext.symm.trans htarget) (ne_stop (by omega) htop)
    · obtain ⟨rfl, -⟩ := h.toTables.callees_eq_some_iff.mp hc
      rw [hcall] at htarget
      change p.modes + 2 * _ = p.modes + 2 * top + 1 at htarget
      omega

/-- In the network of a grammar with a rule that is recognised as a whole, the input ends at one
place. -/
theorem closing : n.Closing top (p.part top).exit (p.stop top) := by
  obtain ⟨last, htop, hexit, hhi, hentry, hle, -⟩ := h.exists_last hs.endsWith_end
  have hcalls : ∀ {q target rule level f}, .call target rule level f ∈ n.ways q →
      rule ≠ top ∧ f ≠ (p.part top).exit ∧ f ≠ p.stop top := h.calls_of_sentential hs
  exact {
    minSymbol := by
      rw [Network.minSymbol, h.kind, hs.parser]
    unguarded := fun ht => by
      cases h.endWay hs.parser (hs.endsWith hs.unconditional) ht with
      | inner _ _ he hd _ => exact hd.not_isGuarded (by simpa using he) _
      | _ => rfl
    isStop := h.isStop_stop htop
    eq_stop := fun hq hrule => by
      obtain ⟨i, hi, rfl⟩ := h.isStop_iff.mp hq
      rw [(h.inRule_stop hi).1] at hrule
      rw [hrule]
    ways_stop := by
      refine List.eq_nil_iff_forall_not_mem.mpr fun t ht => ?_
      obtain ⟨q, target, level, follow, -, hcall⟩ := (h.returns top htop t).mp ht
      exact (hcalls hcall).1 rfl
    not_isStop := h.not_isStop_body htop (by omega)
    inRule := h.inRule_body htop (by omega) (by omega)
    ways_last := h.leave top htop
    enters_last := h.eq_symbol_of_target_exit hs
    enters_stop := h.eq_exit_of_target_stop hs
    ends := fun ht hlo hc => by
      cases h.endWay hs.parser hs.endsWith_end ht with
      | last hexit' => exact hexit'.symm
      | inner _ _ he hd _ =>
        rw [hd.accepts_end hlo hc] at he
        cases he
      | _ => cases hc
    calls := hcalls }

end Sentential

end Grammar.LaidOut
end AdaptiveLL
