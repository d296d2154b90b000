import Mathlib
import AdaptiveLL.Input.TokenStream

/-! # What a token stream delivers

A stream that was made from tokens, and then read or sought in, is placed at a token that is seen
and ends with a token that ends the input (`TokenStream.Used.placed`).  What is still to come is the
list of the types of the seen tokens from there up to the first that ends the input
(`TokenStream.upcoming`): either it is empty and the stream stays where it is, or the next symbol is
its head and going past it leaves the rest (`Placed.upcoming_cases`).

What lies ahead and what is seen next depend on the tokens and the channel only, not on the place
(`nextSeen_congr`).  So looking ahead tells what consuming would find (`tokenAhead_eq_iterate`), and a place
once left can be returned to (`Placed.seek_index`).
-/
namespace AdaptiveLL
namespace TokenStream

/-- The streams that come from tokens by reading and seeking. -/
inductive Used : TokenStream → Prop
  | ofTokens (tokens : List Token) (channel : Int) : Used (ofTokens tokens channel)
  | consume {s : TokenStream} : Used s → Used s.consume
  | seek {s : TokenStream} (index : Nat) : Used s → Used (s.seek index)

/-- A stream ends with the end of the input, and its place is at a token that is seen. -/
structure Placed (s : TokenStream) : Prop where
  ends : ∃ t, s.tokens[s.tokens.size - 1]? = some t ∧ t.isEnd
  seen : ∃ t, s.tokens[s.index]? = some t ∧ s.sees t

variable {s : TokenStream}

/-- The first seen position from `i` on. -/
structure FirstSeen (s : TokenStream) (i j : Nat) : Prop where
  le : i ≤ j
  seen : ∃ t, s.tokens[j]? = some t ∧ s.sees t
  skipped : ∀ k, i ≤ k → k < j → ∀ t, s.tokens[k]? = some t → s.sees t = false

theorem sees_of_isEnd {t : Token} (h : t.isEnd) : s.sees t := by
  rw [sees, h, Bool.or_true]

theorem firstSeen_scan (hend : ∃ t, s.tokens[s.tokens.size - 1]? = some t ∧ t.isEnd) :
    ∀ (count i : Nat), i < s.tokens.size → s.tokens.size ≤ i + count →
      s.FirstSeen i (s.scan count i) := by
  intro count
  induction count with
  | zero => omega
  | succ count ih =>
    intro i hi hcount
    rw [scan, Array.getElem?_eq_getElem hi]
    dsimp only
    split
    · next hsees => exact ⟨le_rfl, ⟨_, Array.getElem?_eq_getElem hi, hsees⟩, fun k _ _ => by omega⟩
    · next hsees =>
      -- the last token is seen, so this is not the last one
      have hnext : i + 1 < s.tokens.size := by
        by_contra hlast
        obtain ⟨t, ht, hisEnd⟩ := hend
        have hpos : s.tokens.size - 1 = i := by omega
        rw [hpos, Array.getElem?_eq_getElem hi] at ht
        exact hsees (Option.some.inj ht ▸ sees_of_isEnd hisEnd)
      obtain ⟨hle, hseen, hskipped⟩ := ih (i + 1) hnext (by omega)
      refine ⟨by omega, hseen, fun k hk hlt t ht => ?_⟩
      rcases Nat.eq_or_lt_of_le hk with rfl | hk
      · rw [Array.getElem?_eq_getElem hi] at ht
        rw [← Option.some.inj ht]
        exact Bool.eq_false_of_not_eq_true hsees
      · exact hskipped k hk hlt t ht

theorem firstSeen_nextSeen (hend : ∃ t, s.tokens[s.tokens.size - 1]? = some t ∧ t.isEnd) {i : Nat}
    (hi : i < s.tokens.size) : s.FirstSeen i (s.nextSeen i) :=
  firstSeen_scan hend _ i hi (by omega)

/-- A seen position is the first from itself on. -/
theorem FirstSeen.eq_self {i j : Nat} (h : s.FirstSeen i j)
    (hi : ∃ t, s.tokens[i]? = some t ∧ s.sees t) : j = i := by
  by_contra hne
  have hlt : i < j := lt_of_le_of_ne h.le (Ne.symm hne)
  obtain ⟨t, ht, hsees⟩ := hi
  rw [h.skipped i le_rfl hlt t ht] at hsees
  cases hsees

section Congruence
variable {t : TokenStream} (htokens : t.tokens = s.tokens) (hchannel : t.channel = s.channel)
include htokens hchannel

theorem scan_congr (count i : Nat) : t.scan count i = s.scan count i := by
  induction count generalizing i with
  | zero => rw [scan, scan, htokens]
  | succ count ih =>
    have hsees (u : Token) : t.sees u = s.sees u := by rw [sees, sees, hchannel]
    rw [scan, scan, htokens]
    simp only [ih, hsees]

/-- What is seen next does not depend on the place. -/
theorem nextSeen_congr (i : Nat) : t.nextSeen i = s.nextSeen i := by
  rw [nextSeen, nextSeen, htokens]
  exact scan_congr htokens hchannel _ _

theorem advance_congr (count i : Nat) : t.advance count i = s.advance count i := by
  induction count generalizing i with
  | zero => rfl
  | succ count ih => rw [advance, advance, endsAt, endsAt, htokens, nextSeen_congr htokens hchannel, ih]

end Congruence

theorem size_pos_of_ends (hend : ∃ t, s.tokens[s.tokens.size - 1]? = some t ∧ t.isEnd) :
    0 < s.tokens.size := by
  obtain ⟨t, ht, -⟩ := hend
  have := (Array.getElem?_eq_some_iff.mp ht).1
  omega

namespace Placed
variable (h : s.Placed)
include h

theorem index_lt : s.index < s.tokens.size := by
  obtain ⟨t, ht, -⟩ := h.seen
  exact (Array.getElem?_eq_some_iff.mp ht).1

theorem consume : s.consume.Placed := by
  unfold TokenStream.consume
  split
  · exact h
  · next hmore =>
    -- a token that does not end the input is not the last
    have hnext : s.index + 1 < s.tokens.size := by
      by_contra hlast
      apply hmore
      obtain ⟨t, ht, hisEnd⟩ := h.ends
      have hpos : s.tokens.size - 1 = s.index := by
        have := h.index_lt
        omega
      rw [hpos] at ht
      rw [endsAt, ht]
      exact hisEnd
    exact ⟨h.ends, (firstSeen_nextSeen h.ends hnext).seen⟩

theorem seek (index : Nat) : (s.seek index).Placed := by
  have hpos := size_pos_of_ends h.ends
  exact ⟨h.ends, (firstSeen_nextSeen h.ends (by omega : min index (s.tokens.size - 1) < _)).seen⟩

/-- Seeking to the place where a stream is, in a stream with the same tokens, restores it. -/
theorem seek_index {t : TokenStream} (htokens : t.tokens = s.tokens) (hchannel : t.channel = s.channel) :
    t.seek s.index = s := by
  have hlt := h.index_lt
  have hmin : min s.index (t.tokens.size - 1) = s.index := by
    rw [htokens]
    omega
  have hplace : t.nextSeen s.index = s.index := by
    rw [nextSeen_congr htokens hchannel]
    exact (firstSeen_nextSeen h.ends hlt).eq_self h.seen
  rw [TokenStream.seek, hmin, hplace, htokens, hchannel]

end Placed

theorem placed_ofTokens (tokens : List Token) (channel : Int) : (ofTokens tokens channel).Placed := by
  have hlast : ∃ t, (withEnd tokens).getLast? = some t ∧ t.isEnd := by
    unfold withEnd
    cases htokens : tokens.getLast? with
    | none => exact ⟨_, rfl, rfl⟩
    | some t =>
      dsimp only
      split
      · next hisEnd => exact ⟨t, htokens, hisEnd⟩
      · exact ⟨_, List.getLast?_concat .., rfl⟩
  obtain ⟨t, ht, hisEnd⟩ := hlast
  rw [List.getLast?_eq_getElem?] at ht
  have hend : ∃ t, (ofTokens tokens channel).tokens[(ofTokens tokens channel).tokens.size - 1]? =
      some t ∧ t.isEnd := by
    refine ⟨{ t with index := (withEnd tokens).length - 1 }, ?_, hisEnd⟩
    simp only [ofTokens, List.size_toArray, List.length_mapIdx, List.getElem?_toArray,
      List.getElem?_mapIdx, ht, Option.map_some]
  have hpos := size_pos_of_ends hend
  exact ⟨hend, (firstSeen_nextSeen (s := { ofTokens tokens channel with index := 0 }) hend hpos).seen⟩

theorem Used.placed (h : Used s) : s.Placed := by
  induction h with
  | ofTokens tokens channel => exact placed_ofTokens tokens channel
  | consume _ ih => exact ih.consume
  | seek index _ ih => exact ih.seek index

/-! ## What is to come -/

/-- The tokens that are seen at the positions from `i` up to but not including `j`, with their
positions. -/
def seenBetween (s : TokenStream) (i j : Nat) : List (Token × Nat) :=
  ((s.tokens.toList.zipIdx.take j).drop i).filter fun t => s.sees t.1

/-- The types of the tokens that are still to be read, up to the first that ends the input. -/
def upcoming (s : TokenStream) : List Symbol :=
  ((s.seenBetween s.index s.size).map fun t => t.1.type).takeWhile (· ≠ endOfInput)

theorem seenBetween_self (s : TokenStream) (i : Nat) : s.seenBetween i i = [] := by
  rw [seenBetween, List.drop_eq_nil_of_le (List.length_take_le ..), List.filter_nil]

theorem seenBetween_append {i j k : Nat} (hij : i ≤ j) (hjk : j ≤ k) :
    s.seenBetween i k = s.seenBetween i j ++ s.seenBetween j k := by
  have hsplit : (s.tokens.toList.zipIdx.take k).drop i =
      (s.tokens.toList.zipIdx.take j).drop i ++ (s.tokens.toList.zipIdx.take k).drop j := by
    conv_lhs => rw [← List.take_append_drop (j - i) ((s.tokens.toList.zipIdx.take k).drop i)]
    rw [List.drop_drop, Nat.add_sub_cancel' hij, ← List.drop_take, List.take_take,
      Nat.min_eq_left hjk]
  rw [seenBetween, seenBetween, seenBetween, hsplit, List.filter_append]

theorem seenBetween_skipped {i j : Nat}
    (h : ∀ k, i ≤ k → k < j → ∀ t, s.tokens[k]? = some t → s.sees t = false) :
    s.seenBetween i j = [] := by
  rw [seenBetween, List.filter_eq_nil_iff]
  intro u hu
  obtain ⟨k, hk, rfl⟩ := List.mem_iff_getElem.mp hu
  simp only [List.length_take, List.length_drop, List.length_zipIdx, Array.length_toList] at hk
  simp only [List.getElem_take, List.getElem_drop, List.getElem_zipIdx, Array.getElem_toList]
  rw [h (i + k) (Nat.le_add_right i k) (by omega) _ (Array.getElem?_eq_getElem (by omega))]
  exact Bool.false_ne_true

theorem seenBetween_one {i : Nat} {t : Token} (ht : s.tokens[i]? = some t) (hsees : s.sees t) :
    s.seenBetween i (i + 1) = [(t, i)] := by
  have hget : s.tokens.toList.zipIdx[i]? = some (t, i) := by
    rw [List.getElem?_zipIdx, Array.getElem?_toList, ht, Option.map_some, Nat.zero_add]
  obtain ⟨hi, hget⟩ := List.getElem?_eq_some_iff.mp hget
  rw [seenBetween, List.drop_take, Nat.add_sub_cancel_left, List.drop_eq_getElem_cons hi, hget,
    List.take_succ_cons, List.take_zero, List.filter_cons_of_pos (by exact hsees), List.filter_nil]

/-- Up to the first seen position after a seen one, only the latter is seen. -/
theorem FirstSeen.seenBetween {i j : Nat} (h : s.FirstSeen (i + 1) j) {t : Token}
    (ht : s.tokens[i]? = some t) (hsees : s.sees t) : s.seenBetween i j = [(t, i)] := by
  rw [seenBetween_append (Nat.le_succ i) h.le, seenBetween_one ht hsees,
    seenBetween_skipped h.skipped, List.append_nil]

theorem tokens_consume (s : TokenStream) : s.consume.tokens = s.tokens := by
  unfold consume
  split <;> rfl

theorem channel_consume (s : TokenStream) : s.consume.channel = s.channel := by
  unfold consume
  split <;> rfl

namespace Placed
variable (h : s.Placed)
include h

/-- The next token, which is what a look ahead sees. -/
theorem exists_next : ∃ t, s.tokens[s.index]? = some t ∧ s.sees t ∧ s.peek = t.type := by
  obtain ⟨t, ht, hsees⟩ := h.seen
  refine ⟨t, ht, hsees, ?_⟩
  rw [peek, lookahead, tokenAhead, advance, ht]

/-- At the end of the input the stream stays. -/
theorem consume_of_end (hend : s.peek = endOfInput) : s.consume = s := by
  obtain ⟨t, ht, -, hpeek⟩ := h.exists_next
  rw [TokenStream.consume, endsAt, ht, Option.map_some, Option.getD_some, Token.isEnd, ← hpeek,
    if_pos (decide_eq_true hend)]

/-- Going past a token that does not end the input leads to the next that is seen. -/
theorem firstSeen_consume (hmore : s.peek ≠ endOfInput) :
    s.FirstSeen (s.index + 1) s.consume.index := by
  obtain ⟨t, ht, -, hpeek⟩ := h.exists_next
  have hends : s.endsAt s.index = false := by
    rw [endsAt, ht, Option.map_some, Option.getD_some, Token.isEnd, ← hpeek]
    exact decide_eq_false hmore
  have hnext : s.index + 1 < s.tokens.size := by
    by_contra hlast
    obtain ⟨u, hu, hisEnd⟩ := h.ends
    have hpos : s.tokens.size - 1 = s.index := by
      have := h.index_lt
      omega
    rw [hpos, ht] at hu
    rw [endsAt, ht, Option.map_some, Option.getD_some, Option.some.inj hu, hisEnd] at hends
    cases hends
  rw [TokenStream.consume, hends, if_neg Bool.false_ne_true]
  exact firstSeen_nextSeen h.ends hnext

theorem seenBetween_consume (hmore : s.peek ≠ endOfInput) {i : Nat} (hi : i ≤ s.index) :
    ∃ t, s.peek = t.type ∧
      s.seenBetween i s.consume.index = s.seenBetween i s.index ++ [(t, s.index)] := by
  obtain ⟨t, ht, hsees, hpeek⟩ := h.exists_next
  have hfirst := h.firstSeen_consume hmore
  refine ⟨t, hpeek, ?_⟩
  rw [seenBetween_append hi ((Nat.le_succ _).trans hfirst.le), hfirst.seenBetween ht hsees]

/-- Either the input ends here, or the next symbol is the head of what is to come. -/
theorem upcoming_cases :
    s.peek = endOfInput ∧ s.upcoming = [] ∧ s.consume = s ∨
      s.peek ≠ endOfInput ∧ s.upcoming = s.peek :: s.consume.upcoming := by
  obtain ⟨t, ht, hsees, hpeek⟩ := h.exists_next
  by_cases hend : s.peek = endOfInput
  · refine .inl ⟨hend, ?_, h.consume_of_end hend⟩
    rw [upcoming, seenBetween_append (Nat.le_succ _) (Nat.succ_le_of_lt h.index_lt : _ ≤ s.size),
      seenBetween_one ht hsees, List.map_append, List.map_singleton, ← hpeek, hend]
    rfl
  · refine .inr ⟨hend, ?_⟩
    have hsame : s.consume = { s with index := s.consume.index } := by
      unfold TokenStream.consume
      split <;> rfl
    have hlt : s.consume.index ≤ s.size :=
      h.consume.index_lt.le.trans_eq (congrArg Array.size s.tokens_consume)
    have hfirst := h.firstSeen_consume hend
    rw [upcoming, seenBetween_append ((Nat.le_succ _).trans hfirst.le) hlt,
      hfirst.seenBetween ht hsees, List.map_append, List.map_singleton, ← hpeek, List.singleton_append,
      List.takeWhile_cons_of_pos (by exact decide_eq_true hend), upcoming]
    conv_rhs => rw [hsame]
    rfl

end Placed

/-! ## Looking ahead -/

theorem consume_of_endsAt (hend : s.endsAt s.index) : s.consume = s := if_pos hend

/-- Looking ahead goes where consuming goes. -/
theorem advance_eq_iterate (s : TokenStream) (count : Nat) : s.advance count s.index = (consume^[count] s).index := by
  induction count generalizing s with
  | zero => rfl
  | succ count ih =>
    rw [advance, Function.iterate_succ_apply]
    split
    case isTrue hend =>
      rw [consume_of_endsAt hend, Function.iterate_fixed (consume_of_endsAt hend)]
    case isFalse hmore =>
      have hindex : s.consume.index = s.nextSeen (s.index + 1) := by rw [consume, if_neg hmore]
      rw [← ih, hindex, advance_congr s.tokens_consume s.channel_consume]

theorem tokens_iterate_consume (s : TokenStream) (count : Nat) : (consume^[count] s).tokens = s.tokens := by
  induction count with
  | zero => rfl
  | succ count ih => rw [Function.iterate_succ_apply', tokens_consume, ih]

/-- The `k`-th token ahead is the next one after going past `k - 1` tokens. -/
theorem tokenAhead_eq_iterate (s : TokenStream) (k : Nat) :
    s.tokenAhead k = (consume^[k - 1] s).tokenAhead 1 := by
  rw [tokenAhead, tokenAhead, advance_eq_iterate, tokens_iterate_consume]
  rfl

theorem lookahead_eq_iterate (s : TokenStream) (k : Nat) : s.lookahead k = (consume^[k - 1] s).peek := by
  rw [peek, lookahead, lookahead, tokenAhead_eq_iterate]

/-- What is still to be read, with the end of the input. -/
def remaining (s : TokenStream) : List Symbol := s.upcoming ++ [endOfInput]

/-- The next symbol heads what is still to be read, and nothing follows the end of the input. -/
theorem Placed.remaining_cases (h : s.Placed) : ∃ w, s.remaining = s.peek :: w ∧
    (s.peek = endOfInput ↔ w = []) ∧ (s.peek ≠ endOfInput → w = s.consume.remaining) := by
  rcases h.upcoming_cases with ⟨hend, hnil, -⟩ | ⟨hmore, hcons⟩
  · exact ⟨[], by rw [remaining, hnil, hend]; rfl, iff_of_true hend rfl, fun hne => absurd hend hne⟩
  · refine ⟨s.consume.remaining, by rw [remaining, hcons]; rfl, iff_of_false hmore ?_, fun _ => rfl⟩
    exact List.append_ne_nil_of_right_ne_nil _ (List.cons_ne_nil _ _)

theorem length_remaining_le (s : TokenStream) : s.remaining.length ≤ s.size + 1 := by
  have hseen : (s.seenBetween s.index s.size).length ≤ s.size := by
    refine (List.length_filter_le _ _).trans ?_
    rw [List.length_drop, List.length_take, List.length_zipIdx]
    omega
  have htaken : s.upcoming.length ≤ (s.seenBetween s.index s.size).length := by
    refine (List.takeWhile_sublist _).length_le.trans ?_
    rw [List.length_map]
  rw [remaining, List.length_append, List.length_singleton]
  omega

/-! ## Streams over types -/

/-- At its beginning, a stream whose tokens are all seen has their types before it. -/
theorem upcoming_of_seen (hseen : ∀ t ∈ s.tokens.toList, s.sees t) (hindex : s.index = 0) :
    s.upcoming = (s.tokens.toList.map Token.type).takeWhile (· ≠ endOfInput) := by
  have hall : s.seenBetween 0 s.size = s.tokens.toList.zipIdx := by
    rw [seenBetween, List.drop_zero, List.take_of_length_le (by simp [size]), List.filter_eq_self]
    intro u hu
    exact hseen u.1 (List.fst_mem_of_mem_zipIdx hu)
  have hfirst : s.tokens.toList.zipIdx.map (fun t => t.1.type) = s.tokens.toList.map Token.type := by
    rw [← Function.comp_def Token.type Prod.fst, ← List.map_map, List.zipIdx_map_fst]
  rw [upcoming, hindex, hall, hfirst]

/-- Tokens that do not end the input get an end behind them. -/
theorem exists_withEnd {tokens : List Token} (h : ∀ t ∈ tokens, t.isEnd = false) :
    ∃ i l c, withEnd tokens = tokens ++ [Token.endAt i l c] := by
  unfold withEnd
  cases hlast : tokens.getLast? with
  | none => exact ⟨0, 1, 0, by rw [List.getLast?_eq_none_iff.mp hlast]; rfl⟩
  | some t =>
    dsimp only
    rw [h t (List.mem_of_getLast? hlast), if_neg Bool.false_ne_true]
    exact ⟨_, _, _, rfl⟩

section OfTypes
variable {types : List Int} (h : endOfInput ∉ types)
include h

/-- The tokens of a stream over types have these types, and an end is behind them. -/
theorem tokens_ofTypes : ∃ i l c, (ofTypes types).tokens.toList =
    (types.map (fun t => Token.ofText t "") ++ [Token.endAt i l c]).mapIdx fun i t => { t with index := i } := by
  have hplain : ∀ t ∈ types.map (fun t => Token.ofText t ""), t.isEnd = false := by
    intro t ht
    obtain ⟨x, hx, rfl⟩ := List.mem_map.mp ht
    exact decide_eq_false fun he => h (he ▸ hx)
  obtain ⟨i, l, c, hend⟩ := exists_withEnd hplain
  exact ⟨i, l, c, by rw [← hend]; rfl⟩

/-- They are all seen. -/
theorem sees_ofTypes : ∀ t ∈ (ofTypes types).tokens.toList, (ofTypes types).sees t := by
  obtain ⟨i, l, c, htokens⟩ := tokens_ofTypes h
  intro t ht
  rw [htokens, List.mem_mapIdx] at ht
  obtain ⟨k, hk, rfl⟩ := ht
  have hchannel : ∀ u ∈ types.map (fun t => Token.ofText t "") ++ [Token.endAt i l c],
      u.channel = defaultChannel := by
    simp only [List.mem_append, List.mem_map, List.mem_singleton]
    rintro u (⟨x, -, rfl⟩ | rfl) <;> rfl
  have hsame := hchannel _ (List.getElem_mem hk)
  rw [sees, Bool.or_eq_true]
  exact .inl (decide_eq_true hsame)

/-- The stream begins with the first of them. -/
theorem index_ofTypes : (ofTypes types).index = 0 := by
  have hplaced : (ofTypes types).Placed := placed_ofTokens _ defaultChannel
  have hpos := size_pos_of_ends hplaced.ends
  have hfirst := firstSeen_nextSeen (s := { ofTypes types with index := 0 }) hplaced.ends hpos
  exact hfirst.eq_self ⟨_, Array.getElem?_eq_getElem hpos,
    sees_ofTypes h _ (Array.mem_toList_iff.mpr (Array.getElem_mem hpos))⟩

/-- What remains of a stream over types among which the end of the input is not. -/
theorem remaining_ofTypes : (ofTypes types).remaining = types ++ [endOfInput] := by
  obtain ⟨i, l, c, htokens⟩ := tokens_ofTypes h
  have htypes : (ofTypes types).tokens.toList.map Token.type = types ++ [endOfInput] := by
    have hsame : (types.map (fun t => Token.ofText t "") ++ [Token.endAt i l c]).map Token.type =
        types ++ [endOfInput] := by
      rw [List.map_append, List.map_map]
      exact congrArg (· ++ [endOfInput]) (List.map_id _)
    rw [htokens, ← hsame]
    refine List.ext_getElem? fun k => ?_
    rw [List.getElem?_map, List.getElem?_map, List.getElem?_mapIdx, Option.map_map]
    rfl
  rw [remaining, upcoming_of_seen (sees_ofTypes h) (index_ofTypes h), htypes, List.takeWhile_append_of_pos]
  · rw [List.takeWhile_cons_of_neg (by simp), List.append_nil]
  · exact fun x hx => decide_eq_true fun he => h (he ▸ hx)

end OfTypes

end TokenStream
end AdaptiveLL
