import Mathlib
import AdaptiveLL.Proofs.Grammar.WellFormed
import AdaptiveLL.Proofs.Network.Finishing
import AdaptiveLL.Proofs.Precedence.Operators

/-! # The network of an expression

`Network.Climbing` names the states of the network that is laid out for a table of operators, and the
transitions between them; `OperatorTable.climbing` reads them off the layout.  The states in front are the ends
of the two rules; then there are those of the sentence, from 4 on, those of the operand, and those of the loop, which
has six states for every operator between its start and its end.
-/
namespace AdaptiveLL

/-- The states of the network of a table of operators. -/
structure Network.Climbing (n : Network) (T : OperatorTable) : Prop where
  begins : n.ways 0 = [.epsilon 4]
  ends : ∀ t, t ∈ n.ways 1 ↔ ∃ q target level follow, t = .ret follow ∧ .call target 0 level follow ∈ n.ways q
  enters : n.ways 2 = [.epsilon 8]
  returns : ∀ t, t ∈ n.ways 3 ↔ ∃ q target level follow, t = .ret follow ∧ .call target 1 level follow ∈ n.ways q
  starts : n.ways 4 = [.call 2 1 0 5]
  follows : n.ways 5 = [.epsilon 6]
  finishes : n.ways 6 = [.symbol 7 endOfInput]
  closes : n.ways 7 = [.epsilon 1]
  operand : n.ways 8 = [.symbol 9 T.operand]
  arrives : n.ways 9 = [.epsilon 10]
  loops : n.ways 10 = [.epsilon 11, .epsilon (14 + 6 * T.count)]
  chooses : n.ways 11 = (List.range T.count).map fun i => .epsilon (13 + 6 * i)
  requires : ∀ o : Fin T.count, n.ways (13 + 6 * o) = [.precedence (14 + 6 * o) (T.level o)]
  goesOn : ∀ o : Fin T.count, n.ways (14 + 6 * o) = [.epsilon (15 + 6 * o)]
  operator : ∀ o : Fin T.count, n.ways (15 + 6 * o) = [.symbol (16 + 6 * o) (T.type o)]
  behind : ∀ o : Fin T.count, n.ways (16 + 6 * o) = [.epsilon (17 + 6 * o)]
  calls : ∀ o : Fin T.count, n.ways (17 + 6 * o) = [.call 2 1 (T.level o + 1) (18 + 6 * o)]
  meets : ∀ o : Fin T.count, n.ways (18 + 6 * o) = [.epsilon 12]
  turns : n.ways 12 = [.epsilon (13 + 6 * T.count)]
  back : n.ways (13 + 6 * T.count) = [.epsilon 10]
  leaves : n.ways (14 + 6 * T.count) = [.epsilon 3]
  size : n.states.size = 15 + 6 * T.count
  sentence : ∀ q, 4 ≤ q → q < 8 → n.InRule 0 q
  expression : ∀ q, 8 ≤ q → q < 15 + 6 * T.count → n.InRule 1 q
  expression_stop : n.InRule 1 3
  minSymbol : n.minSymbol = minTokenType
  stop_iff : ∀ q, n.isStop q ↔ q = 1 ∨ q = 3
  freeOnly : ∀ q, (n.state q).freeOnly = (n.state q).hasOnlyFree

/-- A transition of the network of a table of operators, with its source. -/
inductive OperatorTable.Way (T : OperatorTable) : Nat → Transition → Prop
  | begins : Way T 0 (.epsilon 4)
  | enters : Way T 2 (.epsilon 8)
  | ends : Way T 3 (.ret 5)
  | returns (o : Fin T.count) : Way T 3 (.ret (18 + 6 * o))
  | starts : Way T 4 (.call 2 1 0 5)
  | follows : Way T 5 (.epsilon 6)
  | finishes : Way T 6 (.symbol 7 endOfInput)
  | closes : Way T 7 (.epsilon 1)
  | operand : Way T 8 (.symbol 9 T.operand)
  | arrives : Way T 9 (.epsilon 10)
  | loops : Way T 10 (.epsilon 11)
  | stops : Way T 10 (.epsilon (14 + 6 * T.count))
  | chooses (o : Fin T.count) : Way T 11 (.epsilon (13 + 6 * o))
  | requires (o : Fin T.count) : Way T (13 + 6 * o) (.precedence (14 + 6 * o) (T.level o))
  | goesOn (o : Fin T.count) : Way T (14 + 6 * o) (.epsilon (15 + 6 * o))
  | operator (o : Fin T.count) : Way T (15 + 6 * o) (.symbol (16 + 6 * o) (T.type o))
  | behind (o : Fin T.count) : Way T (16 + 6 * o) (.epsilon (17 + 6 * o))
  | calls (o : Fin T.count) : Way T (17 + 6 * o) (.call 2 1 (T.level o + 1) (18 + 6 * o))
  | meets (o : Fin T.count) : Way T (18 + 6 * o) (.epsilon 12)
  | turns : Way T 12 (.epsilon (13 + 6 * T.count))
  | back : Way T (13 + 6 * T.count) (.epsilon 10)
  | leaves : Way T (14 + 6 * T.count) (.epsilon 3)

/-- A state of the network is in front of the operators or behind them, or it is one of the six of an operator. -/
theorem OperatorTable.state_cases (T : OperatorTable) {q : Nat} (hq : q < 15 + 6 * T.count) :
    (q < 13 ∨ q = 13 + 6 * T.count ∨ q = 14 + 6 * T.count) ∨ ∃ o : Fin T.count,
      q = 13 + 6 * o ∨ q = 14 + 6 * o ∨ q = 15 + 6 * o ∨ q = 16 + 6 * o ∨ q = 17 + 6 * o ∨ q = 18 + 6 * o := by
  by_cases ho : 13 ≤ q ∧ q < 13 + 6 * T.count
  · exact .inr ⟨⟨(q - 13) / 6, by omega⟩, by dsimp only; omega⟩
  · exact .inl (by omega)

namespace Network.Climbing
variable {n : Network} {T : OperatorTable} {q : Nat} {t : Transition}

/-- Before the ends of the rules. -/
theorem inner_way (h : n.Climbing T) (hq : q ≠ 1 ∧ q ≠ 3) (ht : t ∈ n.ways q) : T.Way q t := by
  have hlt : q < 15 + 6 * T.count := h.size ▸ Layout.lt_of_mem_ways ht
  have hone : ∀ {t'}, n.ways q = [t'] → T.Way q t' → T.Way q t := fun hways hway => by
    rw [hways, List.mem_singleton] at ht
    exact ht ▸ hway
  rcases T.state_cases hlt with (hq' | rfl | rfl) | ⟨o, rfl | rfl | rfl | rfl | rfl | rfl⟩
  · interval_cases q
    · exact hone h.begins .begins
    · exact absurd rfl hq.1
    · exact hone h.enters .enters
    · exact absurd rfl hq.2
    · exact hone h.starts .starts
    · exact hone h.follows .follows
    · exact hone h.finishes .finishes
    · exact hone h.closes .closes
    · exact hone h.operand .operand
    · exact hone h.arrives .arrives
    · rw [h.loops] at ht
      rcases List.mem_pair.mp ht with rfl | rfl
      · exact .loops
      · exact .stops
    · rw [h.chooses] at ht
      obtain ⟨i, hi, rfl⟩ := List.mem_map.mp ht
      exact .chooses ⟨i, List.mem_range.mp hi⟩
    · exact hone h.turns .turns
  · exact hone h.back .back
  · exact hone h.leaves .leaves
  · exact hone (h.requires o) (.requires o)
  · exact hone (h.goesOn o) (.goesOn o)
  · exact hone (h.operator o) (.operator o)
  · exact hone (h.behind o) (.behind o)
  · exact hone (h.calls o) (.calls o)
  · exact hone (h.meets o) (.meets o)

/-- The transitions of the network. -/
theorem way (h : n.Climbing T) (ht : t ∈ n.ways q) : T.Way q t := by
  have hcall : ∀ {q target rule level follow}, .call target rule level follow ∈ n.ways q →
      T.Way q (.call target rule level follow) := by
    intro q target rule level follow hcall
    refine h.inner_way ⟨?_, ?_⟩ hcall
    · rintro rfl
      obtain ⟨_, _, _, _, he, -⟩ := (h.ends _).mp hcall
      cases he
    · rintro rfl
      obtain ⟨_, _, _, _, he, -⟩ := (h.returns _).mp hcall
      cases he
  by_cases hq : q ≠ 1 ∧ q ≠ 3
  · exact h.inner_way hq ht
  · obtain rfl | rfl : q = 1 ∨ q = 3 := by omega
    · obtain ⟨q, target, level, follow, rfl, hq⟩ := (h.ends _).mp ht
      cases hcall hq
    · obtain ⟨q, target, level, follow, rfl, hq⟩ := (h.returns _).mp ht
      cases hcall hq with
      | starts => exact .ends
      | calls o => exact .returns o

/-- Nothing calls the sentence. -/
theorem ways_stop (h : n.Climbing T) : n.ways 1 = [] := by
  rw [List.eq_nil_iff_forall_not_mem]
  intro t ht
  obtain ⟨q, target, level, follow, -, hcall⟩ := (h.ends t).mp ht
  cases h.way hcall

/-- Where something is consumed, or nothing is left to do. -/
theorem place_of_consuming (h : n.Climbing T) (hq : q < 15 + 6 * T.count) (hno : ∀ t ∈ n.ways q, t.isFree = false) :
    q = 1 ∨ q = 6 ∨ q = 8 ∨ ∃ o : Fin T.count, q = 15 + 6 * o := by
  have hcount : 0 < T.count := List.length_pos_iff.mpr T.nonempty
  have hfree : ∀ {z}, .epsilon z ∈ n.ways q → False := fun hz => by cases hno _ hz
  rcases T.state_cases hq with (hq' | rfl | rfl) | ⟨o, rfl | rfl | rfl | rfl | rfl | rfl⟩
  · interval_cases q
    · exact (hfree (h.begins ▸ List.mem_singleton_self _)).elim
    · exact .inl rfl
    · exact (hfree (h.enters ▸ List.mem_singleton_self _)).elim
    · have hret : .ret 5 ∈ n.ways 3 := (h.returns _).mpr ⟨4, 2, 0, 5, rfl, h.starts ▸ List.mem_singleton_self _⟩
      cases hno _ hret
    · cases hno _ (h.starts ▸ List.mem_singleton_self _)
    · exact (hfree (h.follows ▸ List.mem_singleton_self _)).elim
    · exact .inr (.inl rfl)
    · exact (hfree (h.closes ▸ List.mem_singleton_self _)).elim
    · exact .inr (.inr (.inl rfl))
    · exact (hfree (h.arrives ▸ List.mem_singleton_self _)).elim
    · exact (hfree (h.loops ▸ List.mem_cons_self)).elim
    · exact (hfree (h.chooses ▸ List.mem_map.mpr ⟨0, List.mem_range.mpr hcount, rfl⟩)).elim
    · exact (hfree (h.turns ▸ List.mem_singleton_self _)).elim
  · exact (hfree (h.back ▸ List.mem_singleton_self _)).elim
  · exact (hfree (h.leaves ▸ List.mem_singleton_self _)).elim
  · cases hno _ (h.requires o ▸ List.mem_singleton_self _)
  · exact (hfree (h.goesOn o ▸ List.mem_singleton_self _)).elim
  · exact .inr (.inr (.inr ⟨o, rfl⟩))
  · exact (hfree (h.behind o ▸ List.mem_singleton_self _)).elim
  · cases hno _ (h.calls o ▸ List.mem_singleton_self _)
  · exact (hfree (h.meets o ▸ List.mem_singleton_self _)).elim

/-- A state without free ways is one where something is collected. -/
theorem freeOnly_eq_false (h : n.Climbing T) (hno : ∀ t ∈ n.ways q, t.isFree = false) :
    (n.state q).freeOnly = false := by
  rw [h.freeOnly, State.hasOnlyFree, Bool.and_eq_false_iff]
  rcases hways : n.ways q with _ | ⟨t, ts⟩
  · have hempty : (n.state q).transitions = [] := hways
    exact .inl (by rw [hempty]; rfl)
  · have hsome : (n.state q).transitions = t :: ts := hways
    exact .inr (by rw [hsome, List.all_cons, hno t (hways ▸ List.mem_cons_self), Bool.false_and])

end Network.Climbing

/-! ## Reading them off the layout -/

namespace Laid
variable {W : Nat → List Transition} {callees : Callees} {rule lo hi : Nat} {s : Stretch}

theorem symbol_cases {x : Int} (h : Laid W callees rule (.symbol x) lo hi s) :
    W lo = [.symbol (lo + 1) x] ∧ hi = lo + 2 ∧ s = ⟨lo, lo + 1⟩ := by
  cases h with
  | direct hd ht =>
    cases hd
    exact ⟨ht, rfl, rfl⟩

theorem precedence_cases {level : Int} (h : Laid W callees rule (.precedence level) lo hi s) :
    W lo = [.precedence (lo + 1) level] ∧ hi = lo + 2 ∧ s = ⟨lo, lo + 1⟩ := by
  cases h with
  | direct hd ht =>
    cases hd
    exact ⟨ht, rfl, rfl⟩

theorem callElement_cases {name : String} {level : Int} {start callee : Nat}
    (hcallee : callees name = some (start, callee)) (h : Laid W callees rule (.call name level) lo hi s) :
    W lo = [.call start callee level (lo + 1)] ∧ hi = lo + 2 ∧ s = ⟨lo, lo + 1⟩ := by
  cases h with
  | direct hd ht =>
    cases hd with
    | call _ hc =>
      rw [hcallee] at hc
      cases hc
      exact ⟨ht, rfl, rfl⟩

/-- The states of two elements, one after the other. -/
theorem pair_cases {e e' : Element} (h : Laid W callees rule (.seq [e, e']) lo hi s) :
    ∃ mid s₁ s₂, Laid W callees rule e lo mid s₁ ∧ Laid W callees rule e' mid hi s₂ ∧
      W s₁.exit = [.epsilon s₂.entry] ∧ s = ⟨s₁.entry, s₂.exit⟩ := by
  cases h with
  | direct hd => cases hd
  | @seq _ _ bound part hparts hjoin =>
    exact ⟨bound 1, part 0, part 1, hparts 0 (by simp), hparts 1 (by simp), hjoin 0 (by simp), rfl⟩

/-- The six states of an operator. -/
theorem alternative_cases {o : Operator} {start callee : Nat} (hcallee : callees "expr" = some (start, callee))
    (h : Laid W callees rule (OperatorTable.alternative o) lo hi s) :
    W lo = [.precedence (lo + 1) o.level] ∧ W (lo + 1) = [.epsilon (lo + 2)] ∧
      W (lo + 2) = [.symbol (lo + 3) o.type] ∧ W (lo + 3) = [.epsilon (lo + 4)] ∧
      W (lo + 4) = [.call start callee (o.level + 1) (lo + 5)] ∧ hi = lo + 6 ∧ s = ⟨lo, lo + 5⟩ := by
  cases h with
  | direct hd => cases hd
  | @seq _ _ bound part hparts hjoin =>
    obtain ⟨hrequires, hb₁, hs₀⟩ := (hparts 0 (by simp)).precedence_cases
    obtain ⟨hsymbol, hb₂, hs₁⟩ := (hparts 1 (by simp)).symbol_cases
    obtain ⟨hcall, hb₃, hs₂⟩ := (hparts 2 (by simp)).callElement_cases hcallee
    have hjoin₀ := hjoin 0 (by simp)
    have hjoin₁ := hjoin 1 (by simp)
    have hb₃ : bound 3 = bound 2 + 2 := hb₃
    have hb₂ : bound 2 = bound 1 + 2 := hb₂
    have hb₁ : bound 1 = bound 0 + 2 := hb₁
    rw [hs₀, hs₁] at hjoin₀
    rw [hs₁, hs₂] at hjoin₁
    rw [hb₁] at hjoin₀ hb₂
    rw [hb₂] at hcall hb₃
    rw [hb₁, hb₂] at hjoin₁
    rw [hb₁] at hsymbol
    exact ⟨hrequires, hjoin₀, hsymbol, hjoin₁, hcall, hb₃, by
      change Stretch.mk (part 0).entry (part 2).exit = _
      rw [hs₀, hs₂, hb₂]⟩

end Laid

namespace OperatorTable
variable {T : OperatorTable} {maxSymbol : Int} {n : Network}

/-- The states of the loop, from `lo` on. -/
theorem loop_cases {callees : Callees} {rule lo hi : Nat} {s : Stretch} {start callee : Nat}
    (hcallee : callees "expr" = some (start, callee))
    (h : Laid n.ways callees rule (.star (.alt (T.operators.map alternative)) true) lo hi s) :
    n.ways lo = [.epsilon (lo + 1), .epsilon (lo + 3 + 6 * T.count + 1)] ∧
      n.ways (lo + 1) = (List.range T.count).map (fun i => .epsilon (lo + 3 + 6 * i)) ∧
      (∀ o : Fin T.count, Laid n.ways callees rule (alternative T.operators[o]) (lo + 3 + 6 * o)
        (lo + 3 + 6 * o + 6) ⟨lo + 3 + 6 * o, lo + 3 + 6 * o + 5⟩ ∧
        n.ways (lo + 3 + 6 * o + 5) = [.epsilon (lo + 2)]) ∧
      n.ways (lo + 2) = [.epsilon (lo + 3 + 6 * T.count)] ∧
      n.ways (lo + 3 + 6 * T.count) = [.epsilon lo] ∧ hi = lo + 3 + 6 * T.count + 2 ∧
      s = ⟨lo, lo + 3 + 6 * T.count + 1⟩ := by
  cases h with
  | direct hd => cases hd
  | @star _ _ _ back bound part h0 hback hparts hlo hstart hexit hmeet hturn =>
    have hlength : (Element.alt (T.operators.map alternative)).branches.length = T.count :=
      List.length_map _
    have hpart : ∀ o : Fin T.count, Laid n.ways callees rule (alternative T.operators[o]) (bound o)
        (bound (o + 1)) (part o) := fun o => by
      have hlaid := hparts o (by rw [hlength]; exact o.isLt)
      simp only [Element.branches, List.getElem_map] at hlaid
      exact hlaid
    -- Each operator takes six states.
    have hbound : ∀ i ≤ T.count, bound i = lo + 3 + 6 * i := by
      intro i
      induction i with
      | zero => exact fun _ => h0
      | succ i ih =>
        intro hi
        have hnext := ((hpart ⟨i, hi⟩).alternative_cases hcallee).2.2.2.2.2.1
        rw [hnext, ih (Nat.le_of_succ_le hi)]
        omega
    have hstretch : ∀ o : Fin T.count, part o = ⟨lo + 3 + 6 * o, lo + 3 + 6 * o + 5⟩ := fun o => by
      rw [((hpart o).alternative_cases hcallee).2.2.2.2.2.2, hbound o o.isLt.le]
    rw [hlength] at hback hstart hexit
    obtain rfl : lo + 3 + 6 * T.count = back := (hbound _ le_rfl).symm.trans hback
    refine ⟨hlo, ?_, fun o => ⟨?_, ?_⟩, hmeet, hturn, rfl, rfl⟩
    · rw [hstart, entries]
      refine List.map_congr_left fun i hi => ?_
      rw [hstretch ⟨i, List.mem_range.mp hi⟩]
    · have := hpart o
      rwa [hstretch o, hbound o o.isLt.le, hbound (o + 1) o.isLt] at this
    · have := hexit o o.isLt
      rwa [hstretch o] at this

/-- The grammar calls rules that it has, and is well formed beyond that. -/
theorem wellFormed (T : OperatorTable) (maxSymbol : Int) : (T.grammar maxSymbol).WellFormed := by
  -- whatever test passes on what an operator's alternative is built from passes everywhere in the two rules
  have htest : ∀ p : Element → Bool, (∀ items, p (.seq items) ∧ p (.alt items)) → (∀ body, p (.star body true)) →
      (∀ x, p (.symbol x)) → (∀ level, p (.precedence level)) → (∀ level, p (.call "expr" level)) →
      ∀ r ∈ (T.grammar maxSymbol).rules, r.body.everywhere p := by
    intro p hmany hstar hsymbol hlevel hcall r hr
    rcases List.mem_pair.mp hr with rfl | rfl
    · simp [Element.everywhere, Element.everywhereIn, Element.endOfInput, hmany, hsymbol, hcall]
    · have halternatives : Element.everywhereIn p (T.operators.map alternative) := by
        rw [Element.everywhereIn_iff]
        intro e he
        obtain ⟨o, -, rfl⟩ := List.mem_map.mp he
        simp [alternative, Element.everywhere, Element.everywhereIn, hmany, hsymbol, hlevel, hcall]
      simp [Element.everywhere, Element.everywhereIn, hmany, hsymbol, hstar, halternatives]
  refine ⟨by change ["s", "expr"].Nodup; decide, ?_, fun _ => ?_, fun h => by cases h⟩
  · refine htest _ (fun _ => ⟨rfl, rfl⟩) (fun _ => rfl) (fun _ => rfl) (fun _ => rfl) fun _ => ?_
    change decide ("expr" ∈ ["s", "expr"]) = true
    decide
  · exact htest _ (fun _ => ⟨rfl, rfl⟩) (fun _ => rfl) (fun _ => rfl) (fun _ => rfl) fun _ => rfl

/-- The network of a table of operators. -/
theorem climbing (h : (T.grammar maxSymbol).layout = .ok n) : n.Climbing T := by
  obtain ⟨p, hlaid⟩ : ∃ p, (T.grammar maxSymbol).LaidOut p True n :=
    Grammar.exists_laidOut h fun h => (h trivial).elim
  have hmodes : p.modes = 0 := hlaid.modes
  have hcallee : n.callees "expr" = some (2, 1) := by
    rw [hlaid.toTables.callees_eq_some_iff, hmodes]
    exact ⟨rfl, _, rfl, rfl⟩
  have hlo : p.bound 0 = 4 := by rw [hlaid.base, hmodes]; rfl
  have hstart : ∀ i, p.start i = 2 * i := fun i => by rw [Plan.start, hmodes, Nat.zero_add]
  have hstop : ∀ i, p.stop i = 2 * i + 1 := fun i => by rw [Plan.stop, hmodes, Nat.zero_add]
  have hsentence := hlaid.laid 0 _ rfl
  have hexpr := hlaid.laid 1 _ rfl
  have hsize := hlaid.size
  have hbegins := hlaid.enter 0 Nat.two_pos
  have hcloses := hlaid.leave 0 Nat.two_pos
  have henters := hlaid.enter 1 Nat.one_lt_two
  have hleaves := hlaid.leave 1 Nat.one_lt_two
  have hends := hlaid.returns 0 Nat.two_pos
  have hreturns := hlaid.returns 1 Nat.one_lt_two
  rw [hstart] at hbegins henters
  rw [hstop] at hcloses hleaves hends hreturns
  -- Each of the two rules is a sequence of two parts, whose states are known from where it begins.
  obtain ⟨mid, s₁, s₂, hcall, hend, hfollows, hpart⟩ := hsentence.pair_cases
  obtain ⟨hstarts, hmid, rfl⟩ := hcall.callElement_cases hcallee
  obtain ⟨hfinishes, hhi, rfl⟩ := hend.symbol_cases
  rw [hpart] at hbegins hcloses
  rw [hmid] at hfollows hfinishes hhi hcloses
  obtain ⟨mid', s₃, s₄, hfirst, hloop, harrives, hpart'⟩ := hexpr.pair_cases
  obtain ⟨hoperand, hmid', rfl⟩ := hfirst.symbol_cases
  obtain ⟨hloops, hchooses, hoperators, hturns, hback, hhi', rfl⟩ := loop_cases hcallee hloop
  rw [hpart'] at henters hleaves
  rw [hmid'] at hloops hchooses hoperators hturns hback harrives hhi' hleaves
  have hnext : p.bound 1 = 8 := by rw [hhi, hlo]
  have hlast : p.bound 2 = 15 + 6 * T.count := by
    rw [hhi', hnext]
    omega
  have hsize : n.states.size = p.bound 2 := hsize
  have hshift : ∀ o j, 13 + 6 * o + j = 13 + j + 6 * o := fun o j => Nat.add_right_comm 13 (6 * o) j
  have hops : ∀ o : Fin T.count, _ := fun o =>
    (⟨(hoperators o).1.alternative_cases hcallee, (hoperators o).2⟩ : _ ∧ _)
  simp only [hnext, hshift, Nat.reduceAdd] at henters hoperand harrives hloops hchooses hops hturns hback hleaves
  simp only [hlo, Nat.reduceAdd] at hbegins hcloses hstarts hfollows hfinishes
  exact {
    begins := hbegins
    ends := hends
    enters := henters
    returns := hreturns
    starts := hstarts
    follows := hfollows
    finishes := hfinishes
    closes := hcloses
    operand := hoperand
    arrives := harrives
    loops := hloops
    chooses := hchooses
    requires := fun o => (hops o).1.1
    goesOn := fun o => (hops o).1.2.1
    operator := fun o => (hops o).1.2.2.1
    behind := fun o => (hops o).1.2.2.2.1
    calls := fun o => (hops o).1.2.2.2.2.1
    meets := fun o => (hops o).2
    turns := hturns
    back := hback
    leaves := hleaves
    size := hsize.trans hlast
    sentence := fun q hq hq' => hlaid.inRule_body Nat.two_pos (hlo ▸ hq) (hnext ▸ hq')
    expression := fun q hq hq' => hlaid.inRule_body Nat.one_lt_two (hnext ▸ hq) (hlast ▸ hq')
    expression_stop := by
      have := hlaid.inRule_stop (i := 1) Nat.one_lt_two
      rwa [hstop] at this
    minSymbol := by
      rw [Network.minSymbol, hlaid.kind]
      rfl
    stop_iff := fun q => by
      rw [hlaid.isStop_iff]
      constructor
      · rintro ⟨i, hi, rfl⟩
        have hi : i < 2 := hi
        rw [hstop]
        omega
      · rintro (rfl | rfl)
        · exact ⟨0, Nat.two_pos, (hstop 0).symm⟩
        · exact ⟨1, Nat.one_lt_two, (hstop 1).symm⟩
    freeOnly := hlaid.freeOnly_eq }

end OperatorTable
end AdaptiveLL
