import Mathlib
import AdaptiveLL.Proofs.Parsing.Completeness
import AdaptiveLL.Proofs.Parsing.Leading
import AdaptiveLL.Proofs.Precedence.Predicting

/-! # Parsing expressions by precedence

A parser follows the tree that binds: in front of an operator whose level the running expression allows it goes on
to the right operand (`OperatorTable.goes_on`), and in front of any other, or of the end of the input, it leaves the
expression (`OperatorTable.goes_out`).  By induction over the tree it gets from the first operand behind the last one
(`OperatorTable.goes_tree`).
-/
namespace AdaptiveLL
open Session Predictor Run

theorem allowsLevel_concat (outer : List Invocation) (f : Invocation) (level : Int) :
    allowsLevel (outer ++ [f]) level ↔ f.precedence ≤ level := by
  rw [allowsLevel, List.getLast?_concat]
  exact decide_eq_true_iff

namespace OperatorTable
variable {gr : Grammar} {plan : Plan} {lazy : Prop} {n : Network} {T : OperatorTable} {loop block i : Nat}
  {running : List Invocation} {done : List TraceEvent} {ops : List (Fin T.count)} {o : Fin T.count}

/-- The numbers of the decisions of the loop and, with several operators, of the choice among them. -/
structure Numbered (T : OperatorTable) (n : Network) (loop block : Nat) : Prop where
  loop_named : (n.state 10).decision = some loop
  loop_state : n.decisions[loop]? = some 10
  block_named : 1 < T.count → (n.state 11).decision = some block
  block_state : 1 < T.count → n.decisions[block]? = some 11

section
variable (hl : gr.LaidOut plan lazy n) (hlay : gr.layout = .ok n) (hkind : gr.kind = .parser) (hcl : n.Climbing T)
  (hd : T.Numbered n loop block)
include hl hlay hkind hcl hd

/-- In front of an operator that is allowed the loop is entered once more. -/
theorem goes_enter (hcalls : n.Calls 0 running 1) (hlevel : allowsLevel running (T.level o)) :
    Goes n ParserHooks.none 1 ⟨⟨10, running, done⟩, i, T.rest (o :: ops)⟩
      ⟨⟨11, running, .decision loop 10 1 i :: done⟩, i, T.rest (o :: ops)⟩ := by
  refine .decision (by rw [hcl.stop_iff]; omega) hd.loop_named (by rw [hcl.loops]; exact Nat.one_lt_two) ?_
    fun s hs => ?_
  · change (n.ways 10)[0]? = _
    rw [hcl.loops]
    rfl
  · have hpredict := predict_loop hl hlay hkind hcl hcalls hd.loop_state hs.sane hs.placed hs.ahead
    rwa [if_pos hlevel] at hpredict

omit hlay hkind in
/-- The alternative of the next operator is chosen. -/
theorem goes_choose (hlevel : allowsLevel running (T.level o)) :
    Goes n ParserHooks.none 1 ⟨⟨11, running, .decision loop 10 1 i :: done⟩, i, T.rest (o :: ops)⟩
      ⟨⟨13 + 6 * o, running, (Tree.chosen loop block o i).reverse ++ done⟩, i, T.rest (o :: ops)⟩ := by
  have hstop : ¬ n.isStop 11 := by
    rw [hcl.stop_iff]
    omega
  have halt : (n.state 11).alternative? (o.val + 1) = some (.epsilon (13 + 6 * o)) := by
    change (n.ways 11)[o.val]? = _
    rw [hcl.chooses, List.getElem?_map, List.getElem?_range o.isLt]
    rfl
  by_cases hmany : 1 < T.count
  · rw [Tree.chosen, if_pos hmany]
    refine .decision hstop (hd.block_named hmany) (by rwa [hcl.chooses, List.length_map, List.length_range]) halt
      fun s hs => ?_
    exact predict_choice hl hcl (hd.block_state hmany) hs.sane hs.placed (hs.peek rfl) hlevel
  · rw [Tree.chosen, if_neg hmany]
    refine .epsilon hstop ?_
    have hlt := o.isLt
    have hone : T.count = 1 := by omega
    have hzero : o.val = 0 := by omega
    rw [hcl.chooses, hzero, hone]
    rfl

/-- Over an operator that is allowed, to its right operand. -/
theorem goes_on (hcalls : n.Calls 0 running 1) (hlevel : allowsLevel running (T.level o)) :
    Goes n ParserHooks.none 8 ⟨⟨10, running, done⟩, i, T.rest (o :: ops)⟩
      ⟨⟨8, running ++ [Invocation.called 1 (17 + 6 * o) (T.level o + 1)],
        .enterRule 1 (i + 1) :: .token (T.type o) i :: ((Tree.chosen loop block o i).reverse ++ done)⟩,
        i + 1, T.operand :: T.rest ops⟩ := by
  have hstop : ∀ {q}, q ≠ 1 ∧ q ≠ 3 → ¬ n.isStop q := fun hq hs => by
    rcases (hcl.stop_iff _).mp hs with rfl | rfl <;> omega
  have hguard : ∀ author, (Guard.precedence (T.level o)).Holds ParserHooks.none running author := fun _ => hlevel
  exact (goes_enter hl hlay hkind hcl hd hcalls hlevel).trans <| (goes_choose hl hcl hd hlevel).trans <|
    (Goes.precedence (hstop (by omega)) (hcl.requires o) hguard).trans <|
    (Goes.epsilon (hstop (by omega)) (hcl.goesOn o)).trans <|
    (Goes.token (hstop (by omega)) (hcl.operator o) (T.type_ne_end o)).trans <|
    (Goes.epsilon (hstop (by omega)) (hcl.behind o)).trans <|
    (Goes.call (hstop (by omega)) (hcl.calls o)).trans <| Goes.epsilon (hstop (by omega)) hcl.enters

/-- Out of an expression, in front of an operator that is not allowed or of the end of the input. -/
theorem goes_out {caller follow : Nat} {level : Int}
    (hcalls : n.Calls 0 (running ++ [Invocation.called 1 caller level]) 1)
    (hfollow : n.follow caller = .ok follow) (hlevel : ∀ o ∈ ops.head?, T.level o < level) :
    Goes n ParserHooks.none 3 ⟨⟨10, running ++ [Invocation.called 1 caller level], done⟩, i, T.rest ops⟩
      ⟨⟨follow, running, (Tree.leaving loop i).reverse ++ done⟩, i, T.rest ops⟩ := by
  have hstay : Goes n ParserHooks.none 1 ⟨⟨10, running ++ [Invocation.called 1 caller level], done⟩, i, T.rest ops⟩
      ⟨⟨14 + 6 * T.count, running ++ [Invocation.called 1 caller level], .decision loop 10 2 i :: done⟩, i,
        T.rest ops⟩ := by
    refine .decision (by rw [hcl.stop_iff]; omega) hd.loop_named (by rw [hcl.loops]; exact Nat.one_lt_two) ?_
      fun s hs => ?_
    · change (n.ways 10)[1]? = _
      rw [hcl.loops]
      rfl
    · cases ops with
      | nil => exact predict_end hl hcl hd.loop_state hs.sane hs.placed (hs.peek rfl)
      | cons o ops =>
        have hpredict := predict_loop hl hlay hkind hcl hcalls hd.loop_state hs.sane hs.placed hs.ahead
        rwa [if_neg] at hpredict
        rw [allowsLevel_concat]
        exact not_le.mpr (hlevel o rfl)
  exact hstay.trans <| (Goes.epsilon (by rw [hcl.stop_iff]; omega) hcl.leaves).trans <|
    Goes.leave ((hcl.stop_iff 3).mpr (.inr rfl)) rfl hfollow

/-- From the first operand of a tree that binds behind its last one. -/
theorem goes_tree (t : Tree T) {level : Int} (hcalls : n.Calls 0 running 1)
    (hrunning : ∀ l, allowsLevel running l ↔ level ≤ l) (hbinds : t.Binds level)
    (hnext : ∀ o ∈ ops.head?, t.Binds (T.level o)) :
    Goes n ParserHooks.none (2 + 16 * t.ops.length) ⟨⟨8, running, done⟩, i, T.operand :: T.rest (t.ops ++ ops)⟩
      ⟨⟨10, running, (t.events loop block i).reverse ++ done⟩, i + t.size, T.rest ops⟩ := by
  have hstop : ∀ {q}, q ≠ 1 ∧ q ≠ 3 → ¬ n.isStop q := fun hq hs => by
    rcases (hcl.stop_iff _).mp hs with rfl | rfl <;> omega
  induction t generalizing running done i ops level with
  | operand =>
    exact (Goes.token (hstop (by omega)) hcl.operand T.operand_ne_end).trans
      (Goes.epsilon (hstop (by omega)) hcl.arrives)
  | apply l o r ihl ihr =>
    obtain ⟨hlevel, hleft, hright⟩ := hbinds
    have hfollow : n.follow (17 + 6 * o) = .ok (18 + 6 * o) :=
      hl.follow_of_call (hcl.calls o ▸ List.mem_singleton_self _)
    have hcalls' : n.Calls 0 (running ++ [Invocation.called 1 (17 + 6 * o) (T.level o + 1)]) 1 :=
      .call _ hcalls (hcl.expression _ (by omega) (by omega)).1 (by rw [hcl.calls]; exact List.mem_singleton_self _)
    let chosen := (Tree.chosen loop block o (i + l.size)).reverse ++ ((l.events loop block i).reverse ++ done)
    let entered := .enterRule 1 (i + l.size + 1) :: .token (T.type o) (i + l.size) :: chosen
    -- the left operand binds at the level of the operator behind it
    have hbefore : Goes n ParserHooks.none (2 + 16 * l.ops.length)
        ⟨⟨8, running, done⟩, i, T.operand :: T.rest (l.ops ++ o :: (r.ops ++ ops))⟩
        ⟨⟨10, running, (l.events loop block i).reverse ++ done⟩, i + l.size, T.rest (o :: (r.ops ++ ops))⟩ :=
      ihl hcalls hrunning (hleft.mono hlevel) fun o' ho' => by cases ho'; exact hleft
    -- the right operand binds above that level, so that it ends in front of what binds no tighter
    have hright' : Goes n ParserHooks.none (2 + 16 * r.ops.length)
        ⟨⟨8, running ++ [Invocation.called 1 (17 + 6 * o) (T.level o + 1)], entered⟩, i + l.size + 1,
          T.operand :: T.rest (r.ops ++ ops)⟩
        ⟨⟨10, running ++ [Invocation.called 1 (17 + 6 * o) (T.level o + 1)],
          (r.events loop block (i + l.size + 1)).reverse ++ entered⟩, i + l.size + 1 + r.size, T.rest ops⟩ :=
      ihr hcalls' (fun _ => allowsLevel_concat _ _ _) hright fun o' ho' =>
        hright.mono (by have := (hnext o' ho').1; omega)
    have hsteps : 2 + 16 * (Tree.apply l o r).ops.length =
        2 + 16 * l.ops.length + (8 + (2 + 16 * r.ops.length + (3 + (1 + (1 + 1))))) := by
      simp only [Tree.ops, List.length_append, List.length_cons]
      omega
    have hops : (Tree.apply l o r).ops ++ ops = l.ops ++ o :: (r.ops ++ ops) := by simp [Tree.ops]
    have hsize : i + (Tree.apply l o r).size = i + l.size + 1 + r.size := by
      simp only [Tree.size, Tree.ops, List.length_append, List.length_cons]
      omega
    have hdone : ((Tree.apply l o r).events loop block i).reverse ++ done =
        (Tree.leaving loop (i + l.size + 1 + r.size)).reverse ++
          ((r.events loop block (i + l.size + 1)).reverse ++ entered) := by
      simp [Tree.events, entered, chosen]
    rw [hsteps, hops, hsize, hdone]
    exact hbefore.trans <| (goes_on hl hlay hkind hcl hd hcalls ((hrunning _).mpr hlevel)).trans <| hright'.trans <|
      (goes_out hl hlay hkind hcl hd hcalls' hfollow fun o' ho' => Int.lt_add_one_of_le (hnext o' ho').1).trans <|
      (Goes.epsilon (hstop (by omega)) (hcl.meets o)).trans <|
      (Goes.epsilon (hstop (by omega)) hcl.turns).trans <| Goes.epsilon (hstop (by omega)) hcl.back

/-- From the beginning to the end of a sentence. -/
theorem yields_trace {t : Tree T} (hbinds : t.Binds 0) : Yields n ParserHooks.none (t.trace loop block)
    (12 + 16 * t.ops.length) ⟨.start 0 0 0, 0, T.operand :: T.rest t.ops⟩ := by
  have hstop : ∀ {q}, q ≠ 1 ∧ q ≠ 3 → ¬ n.isStop q := fun hq hs => by
    rcases (hcl.stop_iff _).mp hs with rfl | rfl <;> omega
  have hcall : .call 2 1 0 5 ∈ n.ways 4 := hcl.starts ▸ List.mem_singleton_self _
  have hcalls : n.Calls 0 ([Invocation.root 0] ++ [Invocation.called 1 4 0]) 1 :=
    .call _ .root (hcl.sentence 4 (by omega) (by omega)).1 hcall
  have htree : Goes n ParserHooks.none (2 + 16 * t.ops.length)
      ⟨⟨8, [Invocation.root 0] ++ [Invocation.called 1 4 0], [.enterRule 1 0, .enterRule 0 0]⟩, 0,
        T.operand :: T.rest (t.ops ++ [])⟩
      ⟨⟨10, [Invocation.root 0] ++ [Invocation.called 1 4 0],
        (t.events loop block 0).reverse ++ [TraceEvent.enterRule 1 0, .enterRule 0 0]⟩, 0 + t.size, T.rest []⟩ :=
    goes_tree hl hlay hkind hcl hd t hcalls (fun _ => allowsLevel_concat _ _ _) hbinds fun _ ho => by cases ho
  rw [List.append_nil, Nat.zero_add] at htree
  have hgoes := (Goes.epsilon (hstop (by omega)) hcl.begins).trans <|
    (Goes.call (hstop (by omega)) hcl.starts).trans <| (Goes.epsilon (hstop (by omega)) hcl.enters).trans <|
    htree.trans <| (goes_out hl hlay hkind hcl hd hcalls (hl.follow_of_call hcall) fun _ ho => by cases ho).trans <|
    (Goes.epsilon (hstop (by omega)) hcl.follows).trans <| (Goes.atEnd (hstop (by omega)) hcl.finishes).trans <|
    Goes.epsilon (hstop (by omega)) hcl.closes
  have hdone : (t.trace loop block).events = (.exitRule 0 t.size :: .token endOfInput t.size ::
      ((Tree.leaving loop t.size).reverse ++
        ((t.events loop block 0).reverse ++ [TraceEvent.enterRule 1 0, .enterRule 0 0]))).reverse := by
    simp [Tree.trace, Tree.leaving]
  have hsteps : 12 + 16 * t.ops.length = 1 + (1 + (1 + (2 + 16 * t.ops.length + (3 + (1 + (1 + 1)))))) + 1 := by omega
  have htrace : t.trace loop block = ⟨(t.trace loop block).events⟩ := rfl
  have hlast : [Invocation.root 0].getLast? = some (.root 0) := rfl
  rw [htrace, hdone, hsteps]
  exact hgoes _ _ (yields_of_isStop ((hcl.stop_iff 1).mpr (.inl rfl)) hlast rfl)

end

/-- The decisions have numbers. -/
theorem exists_numbered (hl : gr.LaidOut plan lazy n) (hlay : gr.layout = .ok n) (hcl : n.Climbing T) :
    ∃ loop block, T.Numbered n loop block := by
  obtain ⟨loop, hloop, hloop'⟩ := hl.exists_decision hlay (q := 10) (by rw [hcl.stop_iff]; omega)
    (by rw [hcl.loops]; exact Nat.one_lt_two)
  by_cases hmany : 1 < T.count
  · obtain ⟨block, hblock, hblock'⟩ := hl.exists_decision hlay (q := 11) (by rw [hcl.stop_iff]; omega)
      (by rwa [hcl.chooses, List.length_map, List.length_range])
    exact ⟨loop, block, hloop, hloop', fun _ => hblock, fun _ => hblock'⟩
  · exact ⟨loop, 0, hloop, hloop', fun h => absurd h hmany, fun h => absurd h hmany⟩

/-- Sentences over operators are parsed by their levels, in every mode and whatever was predicted before, unless a
limit is hit.  Before an operator the loop goes on if the operator is not below the level that the expression was
called with, and else it is left.  So what is done is what follows the one tree that binds. -/
theorem parses_by_level (T : OperatorTable) (maxSymbol : Int) :
    ∃ n loop block, (T.grammar maxSymbol).layout = .ok n ∧ n.Climbing T ∧ T.Numbered n loop block ∧
      ∀ s : Session Unit, s.predictor.network = n → s.predictor.cache.Grown n (fun _ => True) →
        (∀ outer caller level o ops, n.Calls 0 (outer ++ [.called 1 caller level]) 1 → s.stream.Placed →
          s.stream.remaining = T.rest (o :: ops) →
            Limited (fun alt _ => alt = if level ≤ T.level o then 1 else 2)
              (predict ParserHooks.none (outer ++ [.called 1 caller level]) loop s)) ∧
        ∀ ops, s.stream = .ofTypes (T.sentence ops) → 8 ≤ s.predictor.settings.patience →
          ∃ t : Tree T, (t.ops = ops ∧ t.Binds 0) ∧ (∀ t' : Tree T, t'.ops = ops ∧ t'.Binds 0 → t' = t) ∧
            Limited (fun trace _ => trace = t.trace loop block) (parse ParserHooks.none 0 s) := by
  obtain ⟨n, hlay⟩ := (Grammar.exists_layout_iff _).mpr (wellFormed T maxSymbol)
  have hcl : n.Climbing T := climbing hlay
  obtain ⟨plan, hl⟩ : ∃ p, (T.grammar maxSymbol).LaidOut p True n :=
    Grammar.exists_laidOut hlay fun h => (h trivial).elim
  have hkind : (T.grammar maxSymbol).kind = .parser := rfl
  obtain ⟨loop, block, hd⟩ := exists_numbered hl hlay hcl
  refine ⟨n, loop, block, hlay, hcl, hd, fun s hn hcache => ?_⟩
  have hsane : s.predictor.Sane n fun _ => True := ⟨hn, trivial, hcache.faithful⟩
  constructor
  · intro outer caller level o ops hcalls hplaced hrest
    have hpredict := predict_loop hl hlay hkind hcl hcalls hd.loop_state hsane hplaced hrest
    simp only [allowsLevel_concat] at hpredict
    exact hpredict
  · intro ops hstream hpatience
    obtain ⟨t, ⟨hops, hbinds⟩, hunique⟩ := existsUnique_tree ops
    refine ⟨t, ⟨hops, hbinds⟩, hunique, ?_⟩
    have hend := end_notMem_sentence ops
    have hahead : s.stream.remaining = T.operand :: T.rest t.ops := by
      rw [hstream, TokenStream.remaining_ofTypes hend, hops, sentence_append]
    have hindex : s.stream.index = 0 := hstream ▸ TokenStream.index_ofTypes hend
    have hstands : s.Stands n ⟨.start 0 0 0, 0, T.operand :: T.rest t.ops⟩ :=
      ⟨hsane, hstream ▸ TokenStream.placed_ofTokens _ _, hstream ▸ TokenStream.sees_ofTypes hend, hindex, hahead⟩
    have hstart : plan.start 0 = 0 := by
      rw [Plan.start, hl.modes]
      rfl
    have hfuel : 12 + 16 * t.ops.length ≤ s.predictor.settings.fuel s.stream.size := by
      have hsize : 2 * t.ops.length + 2 ≤ s.stream.size + 1 := by
        have hlength := s.stream.length_remaining_le
        rwa [hahead, List.length_cons, length_rest] at hlength
      calc 12 + 16 * t.ops.length ≤ (2 * t.ops.length + 2) * 8 := by omega
        _ ≤ (s.stream.size + 1) * s.predictor.settings.patience := Nat.mul_le_mul hsize hpatience
    rw [parse_eq_walk hl Nat.two_pos hkind hn, hstart, hindex]
    exact yields_trace hl hlay hkind hcl hd hbinds s hstands _ hfuel

/-- Sums of products. -/
def arithmetic : OperatorTable where
  operand := 1
  operators := [⟨2, 1⟩, ⟨3, 2⟩]
  nonempty := by decide
  positive := by decide
  nodup := by decide
  binding := by decide

/-- What adds. -/
def plus : Fin arithmetic.count := ⟨0, by decide⟩

/-- What multiplies. -/
def times : Fin arithmetic.count := ⟨1, by decide⟩

/-- The network of sums of products. -/
def arithmeticNetwork : Network := (arithmetic.grammar 3).layout.toOption.getD { kind := .parser, maxSymbol := 3 }

/-- A session in which the caller's stack is not asked, before a sum. -/
def sumSession : Session Unit where
  predictor := .ofNetwork arithmeticNetwork { mode := .sll }
  stream := .ofTypes (arithmetic.sentence [times, plus])
  author := ()

/-- A session before another sum, with the cache from that one. -/
def arithmeticSession : Session Unit where
  predictor := { Predictor.ofNetwork arithmeticNetwork { mode := .exactAmbiguity } with
    cache := (parse ParserHooks.none 0 sumSession).2.predictor.cache }
  stream := .ofTypes (arithmetic.sentence [plus, times, plus])
  author := ()

theorem parses_by_level_arithmetic : arithmeticSession.predictor.cache.Grown arithmeticNetwork (fun _ => True) ∧
    ∃ loop block, arithmetic.Numbered arithmeticNetwork loop block ∧
      Limited (fun alt _ => alt = 2) (predict ParserHooks.none
        ([.root 0, .called 1 4 0] ++ [.called 1 17 2]) loop
          { arithmeticSession with stream := arithmeticSession.stream.seek 5 }) ∧
      Limited (fun trace _ => trace = (arithmetic.tree [plus, times, plus]).trace loop block)
        (parse ParserHooks.none 0 arithmeticSession) := by
  have hgrown : arithmeticSession.predictor.cache.Grown arithmeticNetwork (fun _ => True) :=
    grown_parse (s := sumSession) rfl trivial .fresh ParserHooks.none 0
  obtain ⟨n, loop, block, hlay, hcl, hd, hparses⟩ := parses_by_level arithmetic 3
  obtain rfl : n = arithmeticNetwork := by
    rw [arithmeticNetwork, hlay]
    rfl
  have hfirst : arithmeticNetwork.Calls 0 ([Invocation.root 0] ++ [Invocation.called 1 4 0]) 1 :=
    .call 0 .root (hcl.sentence 4 (by decide) (by decide)).1 (hcl.starts ▸ List.mem_singleton_self _)
  have hcalls : arithmeticNetwork.Calls 0 ([Invocation.root 0, .called 1 4 0] ++ [Invocation.called 1 17 2]) 1 :=
    .call 2 hfirst (hcl.expression 17 (by decide) (by decide)).1 (hcl.calls plus ▸ List.mem_singleton_self _)
  have hplaced : arithmeticSession.stream.Placed := TokenStream.placed_ofTokens _ _
  have hrest : (arithmeticSession.stream.seek 5).remaining = arithmetic.rest [plus] := by
    change ((TokenStream.ofTypes [1, 2, 1, 3, 1, 2, 1]).seek 5).remaining = [2, 1, endOfInput]
    decide
  refine ⟨hgrown, loop, block, hd, ?_, ?_⟩
  · exact (hparses { arithmeticSession with stream := arithmeticSession.stream.seek 5 } rfl hgrown).1 _ _ _
      plus [] hcalls (hplaced.seek 5) hrest
  · obtain ⟨t, -, hunique, hparse⟩ := (hparses arithmeticSession rfl hgrown).2 [plus, times, plus] rfl (by decide)
    rwa [← hunique _ (tree_binds [plus, times, plus])] at hparse

end OperatorTable
end AdaptiveLL
