import Mathlib
import AdaptiveLL.Proofs.Lexing.Bracketed
import AdaptiveLL.Proofs.Lexing.Closing
import AdaptiveLL.Proofs.Lexing.MaximalMunch
import AdaptiveLL.Proofs.Lexing.Positions

/-! # Up to the first terminator

A rule that runs from an opening to a closing, with a reluctant repetition of anything between them, takes the
text up to and with the first closing behind the opening, whatever the automaton of the mode holds
(`Scan.next_stops`).  The match would go on behind it, since anything may be part of the repetition; that it does
not is the work of the order of its threads.

Between the opening and the closing there is one thread for each beginning of the closing with which the text
read so far ends (`Partials`), the longest first, and behind them the thread that takes any character
(`Thread.fork`).  When a character completes the closing, it does so for the first of them, and as all the
others passed the decision that prefers to leave, they are dropped.  Then nothing can follow.  `Thread.After` says
which threads there are after a text, `Thread.After.follows` what one more symbol makes of them, and
`Course.Munches.reaches` is the induction on the match.
-/
namespace AdaptiveLL

/-! ## Where a terminator stands -/

section
variable {opening closing w : List Char} {ms : List Nat} {c : Char}

/-- A text begins with the opening, and the closing stands somewhere behind it. -/
def Enclosed (opening closing text : List Char) : Prop :=
  opening <+: text ∧ ∃ i, opening.length ≤ i ∧ closing <+: text.drop i

/-- A text begins with the opening, and the first closing behind it stands at `i`. -/
structure EnclosedAt (opening closing text : List Char) (i : Nat) : Prop where
  opens : opening <+: text
  behind : opening.length ≤ i
  closes : closing <+: text.drop i
  first : ∀ j, opening.length ≤ j → j < i → ¬ closing <+: text.drop j

/-- A text that ends with the first closing behind the opening. -/
def Ended (opening closing text : List Char) : Prop :=
  ∃ w, text = opening ++ w ∧ closing <:+ w ∧ ¬ closing <:+: w.dropLast

/-- The lengths of the beginnings of the closing with which a text ends, the whole closing aside, the longest
first. -/
structure Partials (closing w : List Char) (ms : List Nat) : Prop where
  mem_iff : ∀ m, m ∈ ms ↔ m < closing.length ∧ closing.take m <:+ w
  descends : ms.Pairwise (· > ·)

theorem take_succ_suffix_iff {m : Nat} (hm : m < closing.length) :
    closing.take (m + 1) <:+ w ++ [c] ↔ closing.take m <:+ w ∧ closing[m]? = some c := by
  rw [List.take_add_one, List.getElem?_eq_getElem hm, Option.toList_some, List.suffix_concat_iff]
  constructor
  · rintro (h | ⟨t, ht, hsuffix⟩)
    · exact absurd h (List.append_ne_nil_of_right_ne_nil _ (List.cons_ne_nil _ _))
    · obtain ⟨rfl, hc⟩ := List.append_inj' ht rfl
      exact ⟨hsuffix, congrArg some (List.singleton_inj.mp hc)⟩
  · rintro ⟨hsuffix, hc⟩
    exact .inr ⟨_, by rw [Option.some.inj hc], hsuffix⟩

namespace Partials

/-- Of the closing nothing has been read. -/
theorem nil (h : closing ≠ []) : Partials closing [] [0] where
  mem_iff m := by
    rw [List.mem_singleton, List.suffix_nil, List.take_eq_nil_iff, or_iff_left h]
    refine ⟨fun hm => ⟨hm ▸ List.length_pos_of_ne_nil h, hm⟩, And.right⟩
  descends := List.pairwise_singleton _ _

/-- The beginnings of the closing that go on with the next character, and none of it. -/
def next (closing : List Char) (c : Char) (ms : List Nat) : List Nat :=
  ((ms.filter fun m => closing[m]? = some c).map (· + 1)) ++ [0]

/-- One more character is read, and the closing is not complete. -/
theorem concat (h : Partials closing w ms) (hne : closing ≠ []) (hopen : ¬ closing <:+ w ++ [c]) :
    Partials closing (w ++ [c]) (next closing c ms) where
  mem_iff m := by
    rw [next, List.mem_append, List.mem_singleton, List.mem_map]
    cases m with
    | zero => simpa using List.length_pos_of_ne_nil hne
    | succ m =>
      rw [or_iff_left m.succ_ne_zero]
      constructor
      · rintro ⟨m', hm', he⟩
        obtain rfl : m' = m := Nat.succ.inj he
        rw [List.mem_filter, decide_eq_true_iff, h.mem_iff] at hm'
        have hsuffix := (take_succ_suffix_iff hm'.1.1).mpr ⟨hm'.1.2, hm'.2⟩
        refine ⟨Nat.lt_of_le_of_ne hm'.1.1 fun hlast => hopen ?_, hsuffix⟩
        rwa [hlast, List.take_length] at hsuffix
      · rintro ⟨hlt, hsuffix⟩
        obtain ⟨hsuffix, hc⟩ := (take_succ_suffix_iff (Nat.lt_of_succ_lt hlt)).mp hsuffix
        exact ⟨m, List.mem_filter.mpr ⟨(h.mem_iff m).mpr ⟨Nat.lt_of_succ_lt hlt, hsuffix⟩, decide_eq_true hc⟩, rfl⟩
  descends := by
    refine List.pairwise_append.mpr ⟨?_, List.pairwise_singleton _ _, fun m hm z hz => ?_⟩
    · exact List.pairwise_map.mpr ((h.descends.filter _).imp Nat.succ_lt_succ)
    · obtain ⟨m', -, rfl⟩ := List.mem_map.mp hm
      rw [List.mem_singleton.mp hz]
      exact m'.succ_pos

/-- Of no beginning the rest is the next character, unless that completes the closing. -/
theorem lt_of_not_suffix (h : Partials closing w ms) (hopen : ¬ closing <:+ w ++ [c]) :
    ∀ m ∈ ms, closing[m]? = some c → m + 1 < closing.length := by
  intro m hm hc
  obtain ⟨hlt, hsuffix⟩ := (h.mem_iff m).mp hm
  refine Nat.lt_of_le_of_ne hlt fun hlast => hopen ?_
  have hwhole := (take_succ_suffix_iff hlt).mpr ⟨hsuffix, hc⟩
  rwa [hlast, List.take_length] at hwhole

/-- One more character is read, which completes the closing: all of it but that character stands first. -/
theorem full (h : Partials closing w ms) (hne : closing ≠ []) (hshut : closing <:+ w ++ [c]) :
    ∃ rest, ms = (closing.length - 1) :: rest ∧ closing[closing.length - 1]? = some c := by
  have hpos := List.length_pos_of_ne_nil hne
  have hlast : closing.length - 1 + 1 = closing.length := Nat.sub_add_cancel hpos
  have hwhole : closing.take (closing.length - 1 + 1) <:+ w ++ [c] := by
    rwa [hlast, List.take_length]
  obtain ⟨hsuffix, hc⟩ := (take_succ_suffix_iff (by omega)).mp hwhole
  have hmem := (h.mem_iff (closing.length - 1)).mpr ⟨by omega, hsuffix⟩
  cases ms with
  | nil => cases hmem
  | cons m rest =>
    refine ⟨rest, ?_, hc⟩
    have hm := ((h.mem_iff m).mp List.mem_cons_self).1
    rcases List.mem_cons.mp hmem with he | hrest
    · rw [he]
    · have := (List.pairwise_cons.mp h.descends).1 _ hrest
      omega

end Partials

/-- The closing that ends a text is the first one, seen from the whole text. -/
theorem Ended.enclosedAt {text : List Char} {k : Nat} (h : Ended opening closing (text.take k)) (hk : k ≤ text.length) :
    ∃ i, EnclosedAt opening closing text i ∧ k = i + closing.length := by
  obtain ⟨w, htake, ⟨u, rfl⟩, hfirst⟩ := h
  have hlength := congrArg List.length htake
  rw [List.length_take, Nat.min_eq_left hk, List.length_append, List.length_append] at hlength
  have htext : text = opening ++ u ++ closing ++ text.drop k := by
    rw [List.append_assoc opening, ← htake, List.take_append_drop]
  refine ⟨opening.length + u.length, ⟨?_, Nat.le_add_right _ _, ?_, fun j hj hlt hcloses => hfirst ?_⟩, by omega⟩
  · rw [htext, List.append_assoc, List.append_assoc]
    exact List.prefix_append _ _
  · have hdrop : text.drop (opening.length + u.length) = closing ++ text.drop k := by
      conv_lhs => rw [htext, List.append_assoc (opening ++ u)]
      rw [← List.length_append, List.drop_left]
    rw [hdrop]
    exact List.prefix_append _ _
  · -- A closing that stands before would end within the text that is known to have none.
    obtain ⟨j, rfl⟩ := Nat.exists_eq_add_of_le hj
    have hbehind : text.drop opening.length = (u ++ closing) ++ text.drop k := by
      conv_lhs => rw [htext, List.append_assoc opening, List.append_assoc opening, List.drop_left]
    rw [← List.drop_drop, hbehind] at hcloses
    have hwithin : ((u ++ closing) ++ text.drop k).take (u.length + closing.length - 1) = (u ++ closing).dropLast := by
      rw [List.dropLast_eq_take, List.length_append, List.take_append_of_le_length (by simp)]
    have hj : closing = (((u ++ closing) ++ text.drop k).take (j + closing.length)).drop j := by
      rw [List.drop_take, Nat.add_sub_cancel_left]
      exact List.prefix_iff_eq_take.mp hcloses
    have hpart : closing <:+: ((u ++ closing) ++ text.drop k).take (j + closing.length) := by
      conv_lhs => rw [hj]
      exact (List.drop_suffix _ _).isInfix
    rw [← hwithin]
    exact hpart.trans (List.take_prefix_take_left (by omega)).isInfix

/-- Where a text ends with its first closing, it is enclosed. -/
theorem EnclosedAt.enclosed {text : List Char} {i : Nat} (h : EnclosedAt opening closing text i) :
    Enclosed opening closing text := ⟨h.opens, i, h.behind, h.closes⟩

end


/-! ## The threads of a match -/

theorem Transition.consumes_char (y : Nat) (c d : Char) :
    (symbol y (Symbol.ofChar c)).consumes minCodePoint maxCodePoint (Symbol.ofChar d) = decide (c = d) :=
  decide_eq_decide.mpr Symbol.ofChar_inj

theorem Transition.consumes_any (y : Nat) (c : Char) :
    (wildcard y).consumes minCodePoint maxCodePoint (Symbol.ofChar c) = true := by
  have hmax : c.toNat ≤ 0x10FFFF := c.toNat_le_max
  have hbounds : (0 : Int) ≤ c.toNat ∧ (c.toNat : Int) ≤ 0x10FFFF := by omega
  exact Bool.and_eq_true_iff.mpr ⟨decide_eq_true hbounds.1, decide_eq_true hbounds.2⟩

namespace Thread
variable {opening closing w : List Char} {type : Int} {loop i m : Nat} {b : Bool} {c : Char} {ms : List Nat}

/-- The thread at a state of the rule, which collects no commands. -/
def upon (q : Nat) (lazy : Bool) : Thread := { state := q, alt := 1, passedLazy := lazy }

@[simp] theorem state_upon (q : Nat) (lazy : Bool) : (upon q lazy).state = q := rfl

/-- The threads between the opening and the closing: one for each beginning of the closing that was read, and
behind them the one that takes any character. -/
def fork (loop : Nat) (ms : List Nat) : List Thread :=
  ms.map (fun m => upon (loop + 7 + 2 * m) true) ++ [upon (loop + 3) true]

/-- The threads of a match that has read a text. -/
inductive After (opening closing : List Char) (loop : Nat) : List Char → List Thread → Prop
  /-- The opening is not complete. -/
  | opens {i : Nat} {b : Bool} : i < opening.length →
    After opening closing loop (opening.take i) [upon (3 + 2 * i) b]
  /-- The closing does not stand behind the opening yet. -/
  | inside {w : List Char} {ms : List Nat} : Partials closing w ms → ¬ closing <:+: w →
    After opening closing loop (opening ++ w) (fork loop ms)
  /-- The closing is complete. -/
  | ended {w : List Char} : Ended opening closing w → After opening closing loop w [upon 2 true]
  /-- The text is not the opening. -/
  | astray {w : List Char} : (∀ rest, ¬ opening <+: w ++ rest) → After opening closing loop w []

section
variable {env : Outlook Unit} (h : env.network.Bracketed opening closing type loop) {p q : Progress} {z y : Nat}
include h

/-- From a state with one free transition the closure goes on at the next. -/
theorem closes_on (hz : env.network.ways z = [.epsilon y]) (hc : Closes env (upon z b) p q) (hne : z ≠ 2)
    (hnew : p.Spares z) : Closes env (past env.network (upon z b) y) (p.mark (upon z b)) q :=
  closes_one h.freeOnly (fun hstop => hne ((h.stop_iff z).mp hstop)) hnew hz hc

/-- At a state whose transition consumes a character the thread is collected. -/
theorem closes_at {tr : Transition} (hz : env.network.ways z = [tr])
    (htr : (∃ c, tr = .symbol y (Symbol.ofChar c)) ∨ tr = .wildcard y) (hc : Closes env (upon z b) p q)
    (hne : z ≠ 2) (hnew : p.Spares z) (hf : p.finished = false) :
    q = { p.mark (upon z b) with collected := p.collected ++ [upon z b] } := by
  have hend : tr.isFree = false ∧ tr.consumes minCodePoint maxCodePoint endOfInput = false := by
    rcases htr with ⟨c, rfl⟩ | rfl
    · exact ⟨rfl, decide_eq_false (show (c.toNat : Int) ≠ -1 by omega)⟩
    · exact ⟨rfl, rfl⟩
  exact closes_rest h.freeOnly (fun hstop => hne ((h.stop_iff z).mp hstop)) hnew hz hend.1 (fun _ => hend.2) hf hc

/-- Closing at the decision of the repetition leads to the closing first, and then to any character. -/
theorem closes_fork (hne : closing ≠ []) (hc : Closes env (upon loop true) p q)
    (hp : ∀ z ∈ [loop, loop + 1, loop + 3, loop + 6, loop + 7], p.Spares z) (hf : p.finished = false) :
    q.collected = p.collected ++ fork loop [0] ∧ q.finished = false := by
  have hloop := h.loop_eq
  obtain ⟨c, cs, rfl⟩ := List.exists_cons_of_ne_nil hne
  obtain ⟨r, hleave, hstay⟩ := closes_two h.freeOnly
    (fun hstop => absurd ((h.stop_iff loop).mp hstop) (by omega)) (hp loop (by simp)) h.parts hc
  have hleave : Closes env (upon (loop + 7) true) _ r :=
    closes_on h (b := true) h.leaves hleave (by omega) (by simp [hp])
  have hr := closes_at h (h.closes.char 0 c rfl) (.inl ⟨c, rfl⟩) hleave (by omega) (by simp [hp]) hf
  subst hr
  have hstay : Closes env (upon (loop + 3) true) _ q :=
    closes_on h (b := true) h.again hstay (by omega) (by simp [hp])
  have hq := closes_at h h.any (.inr rfl) hstay (by omega) (by simp [hp]) hf
  subst hq
  exact ⟨List.append_assoc .., hf⟩

/-- The same from the end of the opening. -/
theorem closes_opened (hne : closing ≠ []) (hc : Closes env (upon (loop - 1) b) p q)
    (hp : ∀ z, loop ≤ z + 1 → p.Spares z) (hf : p.finished = false) :
    q.collected = p.collected ++ fork loop [0] ∧ q.finished = false := by
  have hloop := h.loop_eq
  have hspan : 2 ≤ Network.Spells.span opening := by
    rw [Network.Spells.span]
    omega
  have hc := closes_on h h.arrives hc (by omega) (hp _ (by omega))
  rw [show past env.network (upon (loop - 1) b) loop = upon loop true from by simp [past, upon, h.lazy]] at hc
  have hend := closes_fork h hne hc (fun z hz => by
    simp only [List.mem_cons, List.not_mem_nil, or_false] at hz
    rw [Progress.spares_mark, state_upon]
    exact ⟨by omega, hp z (by omega)⟩) hf
  exact hend

/-- At the start of the rule nothing of the opening has been read. -/
theorem trace_enter (hne : closing ≠ []) (ht : trace env false (upon 1 b) = .ok p) :
    After opening closing loop [] p.collected := by
  have hloop := h.loop_eq
  have hc := closes_on h h.enters (closes_of_trace ht) (by omega) (Progress.spares_start _)
  by_cases ho : opening = []
  · subst ho
    have hc : Closes env (upon 4 _) _ p :=
      closes_on h (h.opens.blank rfl) hc (by omega) (by simp [Progress.spares_start])
    have hlast : loop - 1 = 4 := by
      rw [hloop]
      rfl
    rw [← hlast] at hc
    have hp := closes_opened h hne hc (fun z hz => by simp [Progress.spares_start]; omega) rfl
    rw [hp.1]
    exact After.inside (.nil hne) (mt List.eq_nil_of_infix_nil hne)
  · obtain ⟨c, cs, rfl⟩ := List.exists_cons_of_ne_nil ho
    have hp := closes_at h (h.opens.char 0 c rfl) (.inl ⟨c, rfl⟩) hc (by omega) (by simp [Progress.spares_start]) rfl
    rw [hp]
    exact After.opens (i := 0) (by simp)

/-- Behind a character of the opening there is the next one, or the repetition. -/
theorem trace_opening (hne : closing ≠ []) (hi : i < opening.length)
    (ht : trace env false (upon (3 + 2 * i + 1) b) = .ok p) :
    p.finished = false ∧ After opening closing loop (opening.take (i + 1)) p.collected := by
  have hloop := h.loop_eq
  by_cases hlast : i + 1 < opening.length
  · have hc := closes_on h (h.opens.joint i hlast) (closes_of_trace ht) (by omega) (Progress.spares_start _)
    have hp := closes_at h (h.opens.char (i + 1) _ (List.getElem?_eq_getElem hlast)) (.inl ⟨_, rfl⟩) hc (by omega)
      (by simp [Progress.spares_start]; omega) rfl
    rw [hp]
    exact ⟨rfl, .opens hlast⟩
  · have hlast : opening.length = i + 1 := by omega
    have hend : 3 + 2 * i + 1 = loop - 1 := by
      rw [hloop, Network.Spells.span, hlast]
      omega
    rw [hend] at ht
    have hp := closes_opened h hne (closes_of_trace ht) (fun z _ => Progress.spares_start _) rfl
    rw [hp.1, ← hlast, List.take_length]
    have hinside : After opening closing loop (opening ++ []) (fork loop [0]) :=
      .inside (.nil hne) (mt List.eq_nil_of_infix_nil hne)
    rw [List.append_nil] at hinside
    exact ⟨hp.2, hinside⟩

/-- Behind any character the repetition begins again. -/
theorem trace_any (hne : closing ≠ []) (ht : trace env false (upon (loop + 4) true) = .ok p) :
    p.finished = false ∧ p.collected = fork loop [0] := by
  have hloop := h.loop_eq
  have hc : Closes env (upon (loop + 2) true) _ p :=
    closes_on h (b := true) h.meets (closes_of_trace ht) (by omega) (Progress.spares_start _)
  have hc : Closes env (upon (loop + 5) true) _ p :=
    closes_on h (b := true) h.turns hc (by omega) (by simp [Progress.spares_start])
  have hc : Closes env (upon loop true) _ p :=
    closes_on h (b := true) h.back hc (by omega) (by simp [Progress.spares_start])
  exact (closes_fork h hne hc (fun z hz => by simp [Progress.spares_start] at hz ⊢; omega) rfl).symm

/-- Behind a character of the closing there is the next one. -/
theorem trace_closing (hm : m + 1 < closing.length)
    (ht : trace env false (upon (loop + 7 + 2 * m + 1) true) = .ok p) :
    p.finished = false ∧ p.collected = [upon (loop + 7 + 2 * (m + 1)) true] := by
  have hc : Closes env (upon (loop + 7 + 2 * (m + 1)) true) _ p :=
    closes_on h (b := true) (h.closes.joint m hm) (closes_of_trace ht) (by omega) (Progress.spares_start _)
  have hp := closes_at h (h.closes.char (m + 1) _ (List.getElem?_eq_getElem hm)) (.inl ⟨_, rfl⟩) hc (by omega)
    (by simp [Progress.spares_start]; omega) rfl
  rw [hp]
  exact ⟨rfl, rfl⟩

/-- Behind the last character of the closing the rule ends. -/
theorem trace_closed (hne : closing ≠ [])
    (ht : trace env false (upon (loop + 7 + 2 * (closing.length - 1) + 1) true) = .ok p) :
    p.finished = true ∧ p.collected = [upon 2 true] := by
  have hpos := List.length_pos_of_ne_nil hne
  have hend : loop + 7 + 2 * (closing.length - 1) + 1 = loop + 7 + Network.Spells.span closing - 1 := by
    rw [Network.Spells.span]
    omega
  rw [hend] at ht
  have hc : Closes env (upon 2 true) _ p :=
    closes_on h (b := true) h.ends (closes_of_trace ht) (by omega) (Progress.spares_start _)
  have hp := closes_end ((h.stop_iff 2).mpr rfl) rfl hc
  rw [hp]
  exact ⟨rfl, rfl⟩

/-- A match begins with nothing read. -/
theorem after_starts (hne : closing ≠ []) {s : Sweep} (hs : starts env 0 = .ok s) :
    After opening closing loop [] s.threads := by
  have hbegins : (env.network.state 0).transitions = [.epsilon 1] := h.begins
  rw [starts, Network.state?_eq (lt_size_of_ways (by simp [h.begins]))] at hs
  change startFrom env 1 {} _ = Except.ok s at hs
  rw [hbegins, startFrom] at hs
  obtain ⟨p, ht, hs⟩ := ok_of_bind hs
  cases hs
  exact trace_enter h hne ht

section
variable {offset : Nat} {s s' : Sweep}

/-- One more character is read while the opening is not complete. -/
theorem after_reach_opens (hne : closing ≠ []) (hi : i < opening.length)
    (hr : reach env offset (Symbol.ofChar c) [upon (3 + 2 * i) b] = .ok s) :
    After opening closing loop (opening.take i ++ [c]) s.threads := by
  by_cases hc : opening[i]? = some c
  · obtain ⟨p, ht, hrest⟩ := reachAll_across rfl (h.opens.char i c hc) (by simp [Transition.consumes_char]) (by simp) hr
    cases hrest
    have hp := trace_opening h hne hi ht
    rw [List.take_add_one, hc] at hp
    exact hp.2
  · have hnone : s.threads = [] := by
      refine threads_of_reach_beside (fun t ht tr htr => ?_) hr
      obtain rfl := List.mem_singleton.mp ht
      have hget := List.getElem?_eq_getElem hi
      rw [state_upon, h.opens.char i _ hget, List.mem_singleton] at htr
      rw [htr, Transition.consumes_char]
      refine decide_eq_false fun he => hc ?_
      rw [hget, he]
    rw [hnone]
    refine .astray fun rest ho => hc ?_
    rw [List.append_assoc, List.prefix_iff_eq_take] at ho
    rw [ho, List.getElem?_take_of_lt hi, List.getElem?_append_right (by simp), List.length_take,
      Nat.min_eq_left hi.le, Nat.sub_self]
    rfl

/-- Each beginning of the closing goes on if the character is its next one, and the last thread goes on
anyway. -/
theorem threads_of_reachAll_fork (hne : closing ≠ []) (hlt : ∀ m ∈ ms, m < closing.length)
    (hopen : ∀ m ∈ ms, closing[m]? = some c → m + 1 < closing.length)
    (hr : reachAll env offset (Symbol.ofChar c) none s (fork loop ms) = .ok s') :
    s'.threads = s.threads ++ fork loop (Partials.next closing c ms) := by
  induction ms generalizing s with
  | nil =>
    obtain ⟨p, ht, hrest⟩ := reachAll_across rfl h.any (Transition.consumes_any _ c) (by simp) hr
    cases hrest
    have hp := trace_any h hne ht
    rw [Sweep.add, hp.2]
    rfl
  | cons m ms ih =>
    obtain ⟨hm, hlt⟩ := List.forall_mem_cons.mp hlt
    obtain ⟨hopenm, hopen⟩ := List.forall_mem_cons.mp hopen
    have hget := List.getElem?_eq_getElem hm
    by_cases hc : closing[m]? = some c
    · obtain ⟨p, ht, hrest⟩ := reachAll_across rfl (h.closes.char m c hc) (by simp [Transition.consumes_char]) (by simp) hr
      obtain ⟨hf, hp⟩ := trace_closing h (hopenm hc) ht
      rw [hf] at hrest
      rw [ih hlt hopen hrest, Sweep.add, hp, List.append_assoc]
      simp [Partials.next, hc, fork]
    · have hrest := reachAll_beside (fun tr htr => ?_) hr
      · rw [ih hlt hopen hrest]
        simp [Partials.next, hc]
      · rw [state_upon, h.closes.char m _ hget, List.mem_singleton] at htr
        rw [htr, Transition.consumes_char]
        refine decide_eq_false fun he => hc ?_
        rw [hget, he]

/-- One more character is read between the opening and the closing. -/
theorem after_reach_inside (hne : closing ≠ []) (hms : Partials closing w ms) (hw : ¬ closing <:+: w)
    (hr : reach env offset (Symbol.ofChar c) (fork loop ms) = .ok s) :
    After opening closing loop (opening ++ w ++ [c]) s.threads := by
  by_cases hshut : closing <:+ w ++ [c]
  · obtain ⟨rest, rfl, hc⟩ := hms.full hne hshut
    obtain ⟨p, ht, hrest⟩ := reachAll_across rfl (h.closes.char _ c hc) (by simp [Transition.consumes_char]) (by simp) hr
    obtain ⟨hf, hp⟩ := trace_closed h hne ht
    rw [hf] at hrest
    have hs := reachAll_spent (fun t ht => ?_) hrest
    · rw [hs, Sweep.add, hp]
      exact .ended ⟨w ++ [c], List.append_assoc .., hshut, by rwa [List.dropLast_concat]⟩
    · rcases List.mem_append.mp ht with ht | ht
      · obtain ⟨m, -, rfl⟩ := List.mem_map.mp ht
        exact ⟨rfl, rfl⟩
      · rw [List.mem_singleton.mp ht]
        exact ⟨rfl, rfl⟩
  · rw [threads_of_reachAll_fork h hne (fun m hm => ((hms.mem_iff m).mp hm).1) (hms.lt_of_not_suffix hshut) hr,
      List.append_assoc]
    refine .inside (hms.concat hne hshut) fun hinfix => ?_
    exact (List.infix_concat_iff.mp hinfix).elim hshut hw

end
end

/-! ## One symbol after another -/

namespace After
variable {us : List Thread}

/-- Before the closing is complete the text does not end with it. -/
theorem not_ended_of_opens (hi : i < opening.length) : ¬ Ended opening closing (opening.take i) := by
  rintro ⟨w, hw, -, -⟩
  have hlength := congrArg List.length hw
  rw [List.length_take, List.length_append] at hlength
  omega

theorem not_ended_of_inside (hw : ¬ closing <:+: w) : ¬ Ended opening closing (opening ++ w) := by
  rintro ⟨w', hw', hsuffix, -⟩
  rw [List.append_cancel_left hw'] at hw
  exact hw hsuffix.isInfix

/-- A text that ends before the closing does is not enclosed. -/
theorem not_enclosed (h : After opening closing loop w us) (hopen : ¬ Ended opening closing w) :
    ¬ Enclosed opening closing w := by
  rintro ⟨hbegins, j, hj, hcloses⟩
  cases h with
  | opens hi =>
    have := hbegins.length_le
    rw [List.length_take] at this
    omega
  | inside _ hw =>
    refine hw (hcloses.isInfix.trans ?_)
    rw [List.drop_append, List.drop_eq_nil_of_le hj, List.nil_append]
    exact (List.drop_suffix _ _).isInfix
  | ended hended => exact hopen hended
  | astray hnone => exact hnone [] (by rwa [List.append_nil])

section
variable {n : Network} (hn : n.Bracketed opening closing type loop)
include hn

/-- All threads are of the one alternative, and only where the closing is complete they are at the end of
the rule. -/
theorem exists_upon (h : After opening closing loop w us) {u : Thread} (hu : u ∈ us) :
    ∃ q b, u = upon q b ∧ q < n.states.size ∧ (n.isStop q → Ended opening closing w) := by
  have hloop := hn.loop_eq
  have hway : ∀ {q t}, n.ways q = [t] → q < n.states.size := fun hq =>
    lt_size_of_ways (hq ▸ List.cons_ne_nil _ _)
  have hstop : ∀ {q}, 2 < q → n.isStop q → Ended opening closing w := fun hq hs =>
    absurd ((hn.stop_iff _).mp hs) (by omega)
  cases h with
  | opens hi =>
    obtain rfl := List.mem_singleton.mp hu
    exact ⟨_, _, rfl, hway (hn.opens.char _ _ (List.getElem?_eq_getElem hi)), hstop (by omega)⟩
  | inside hms hw =>
    rcases List.mem_append.mp hu with hu | hu
    · obtain ⟨m, hm, rfl⟩ := List.mem_map.mp hu
      have hlt := ((hms.mem_iff m).mp hm).1
      exact ⟨_, _, rfl, hway (hn.closes.char _ _ (List.getElem?_eq_getElem hlt)), hstop (by omega)⟩
    · obtain rfl := List.mem_singleton.mp hu
      exact ⟨_, _, rfl, hway hn.any, hstop (by omega)⟩
  | ended hended =>
    obtain rfl := List.mem_singleton.mp hu
    exact ⟨_, _, rfl, Network.lt_of_isStop ((hn.stop_iff 2).mpr rfl), fun _ => hended⟩
  | astray => cases hu

theorem sorted (h : After opening closing loop w us) : Sorted us := by
  refine List.pairwise_of_forall_mem_list fun t ht u hu => ?_
  obtain ⟨_, _, rfl, -, -⟩ := h.exists_upon hn ht
  obtain ⟨_, _, rfl, -, -⟩ := h.exists_upon hn hu
  exact le_rfl

/-- Threads that look like those of the match are inside the network. -/
theorem inside_of_outline (h : After opening closing loop w us) {ts : List Thread} (heq : outline ts = outline us) :
    ∀ t ∈ ts, t.Inside n := by
  intro t ht
  have hmem : t.unplaced ∈ outline us := heq ▸ mem_outline.mpr (List.mem_map_of_mem ht)
  obtain ⟨u, hu, he⟩ := List.mem_map.mp (mem_outline.mp hmem)
  obtain ⟨q, b, rfl, hq, -⟩ := h.exists_upon hn hu
  have hstate : t.state = q := (congrArg Thread.state he).symm
  have hstack : t.stack = [] := (congrArg Thread.stack he).symm
  exact ⟨hstate ▸ hq, fun z hz => absurd (hstack ▸ hz) List.not_mem_nil⟩

/-- The token of the rule is recognised exactly where the closing is complete. -/
theorem token (h : After opening closing loop w us) (hne : us ≠ []) {o : Option (Int × Option (List Command))}
    (ho : recognised? n us = .ok o) :
    Ended opening closing w ∧ o = some (type, none) ∨ ¬ Ended opening closing w ∧ o = none := by
  by_cases hended : Ended opening closing w
  · refine .inl ⟨hended, ?_⟩
    cases h with
    | opens hi => exact absurd hended (not_ended_of_opens hi)
    | inside _ hw => exact absurd hended (not_ended_of_inside hw)
    | ended =>
      obtain ⟨type', htype, rfl⟩ := recognised?_cons_of_isStop ((hn.stop_iff 2).mpr rfl) ho
      rw [state_upon, hn.token] at htype
      rw [Option.some.inj htype]
      rfl
    | astray => exact absurd rfl hne
  · refine .inr ⟨hended, ?_⟩
    cases o with
    | none => rfl
    | some v =>
      obtain ⟨u, hu, hstop, -, -⟩ := recognised?_some (h.sorted hn) ho
      obtain ⟨q, b, rfl, -, hq⟩ := h.exists_upon hn hu
      exact absurd (hq hstop) hended

end
end After

/-- What consuming a symbol leads to from the threads of a match. -/
inductive Follows (opening closing : List Char) (loop : Nat) (w : List Char) (x : Symbol) : List Thread → Prop
  /-- A character was read. -/
  | read {c : Char} {us : List Thread} : ¬ Ended opening closing w → x = Symbol.ofChar c →
    After opening closing loop (w ++ [c]) us → Follows opening closing loop w x us
  /-- Nothing can follow. -/
  | spent : Ended opening closing w ∨ x = endOfInput ∨ (∀ rest, ¬ opening <+: w ++ rest) →
    Follows opening closing loop w x []

theorem After.astray_of_nil (h : After opening closing loop w []) : ∀ rest, ¬ opening <+: w ++ rest := by
  generalize hus : ([] : List Thread) = us at h
  cases h with
  | opens => cases hus
  | inside => exact absurd hus.symm (List.append_ne_nil_of_right_ne_nil _ (List.cons_ne_nil _ _))
  | ended => cases hus
  | astray hnone => exact hnone

/-- Where nothing follows before the closing is complete, the text is not enclosed. -/
theorem Follows.not_enclosed {us : List Thread} {x : Symbol} {rest : List Char}
    (h : Follows opening closing loop w x []) (ha : After opening closing loop w us)
    (hopen : ¬ Ended opening closing w) (hend : x = endOfInput → rest = [])
    (hread : ∀ c, x = Symbol.ofChar c → ∃ tail, rest = c :: tail) : ¬ Enclosed opening closing (w ++ rest) := by
  cases h with
  | @read c _ _ hx ha' =>
    obtain ⟨tail, rfl⟩ := hread c hx
    rw [← List.singleton_append, ← List.append_assoc]
    exact fun he => ha'.astray_of_nil tail he.1
  | spent hwhy =>
    rcases hwhy with hended | hx | hnone
    · exact absurd hended hopen
    · rw [hend hx, List.append_nil]
      exact ha.not_enclosed hopen
    · exact fun he => hnone rest he.1

/-- Consuming a symbol from the threads of a match. -/
theorem After.follows {env : Outlook Unit} {us : List Thread} {s : Sweep} {x : Symbol} {offset : Nat}
    (hn : env.network.Bracketed opening closing type loop)
    (hspares : env.network.SparesEnd) (hne : closing ≠ []) (hx : x = endOfInput ∨ ∃ c, x = Symbol.ofChar c)
    (h : After opening closing loop w us) (hr : reach env offset x us = .ok s) :
    Follows opening closing loop w x s.threads := by
  rcases hx with rfl | ⟨c, rfl⟩
  · rw [threads_of_reach_beside (fun t _ tr htr => hspares t.state tr htr) hr]
    exact .spent (.inr (.inl rfl))
  · cases h with
    | opens hi => exact .read (not_ended_of_opens hi) rfl (after_reach_opens hn hne hi hr)
    | inside hms hw => exact .read (not_ended_of_inside hw) rfl (after_reach_inside hn hne hms hw hr)
    | ended hended =>
      rw [threads_of_reach_beside (fun t ht tr htr => ?_) hr]
      · exact .spent (.inl hended)
      · rw [List.mem_singleton.mp ht, state_upon, hn.returns] at htr
        cases htr
    | astray hnone =>
      cases hr
      exact .spent (.inr (.inr hnone))

end Thread
/-! ## A whole match -/

/-- The characters ahead of a place. -/
def CharStream.rest (s : CharStream) : List Char := s.chars.toList.drop s.index

theorem CharStream.length_rest (s : CharStream) : s.rest.length = s.chars.size - s.index := by
  rw [rest, List.length_drop, Array.length_toList]

/-- The symbol ahead of the `k`-th place is the end of the input or the next character. -/
def CharStream.Ahead (s : CharStream) (k : Nat) (x : Symbol) : Prop :=
  (s.index + k = s.chars.size ∧ x = endOfInput) ∨
    ∃ c, s.index + k < s.chars.size ∧ x = Symbol.ofChar c ∧ s.rest.drop k = c :: s.rest.drop (k + 1)

theorem Symbol.ofChar_ne_end (c : Char) : Symbol.ofChar c ≠ endOfInput :=
  show (c.toNat : Int) ≠ -1 by omega

namespace CharStream
variable {s : CharStream} {k : Nat} {x : Symbol}

theorem ahead_peek (hk : s.index + k ≤ s.chars.size) :
    s.Ahead k (⟨s.chars, s.index + k⟩ : CharStream).peek := by
  rcases Nat.eq_or_lt_of_le hk with heq | hlt
  · exact .inl ⟨heq, CharStream.peek_eq_end_iff.mpr heq.ge⟩
  · refine .inr ⟨s.chars[s.index + k], hlt, ?_, ?_⟩
    · simp [CharStream.peek, CharStream.lookahead, hlt]
    · rw [rest, List.drop_drop, List.drop_drop, List.drop_eq_getElem_cons (by simpa using hlt)]
      rfl

namespace Ahead

theorem symbol (h : s.Ahead k x) : x = endOfInput ∨ ∃ c, x = Symbol.ofChar c :=
  h.imp And.right fun ⟨c, _, hx, _⟩ => ⟨c, hx⟩

theorem eq_end_iff (h : s.Ahead k x) : x = endOfInput ↔ s.index + k = s.chars.size := by
  rcases h with ⟨hk, hx⟩ | ⟨c, hk, rfl, -⟩
  · exact ⟨fun _ => hk, fun _ => hx⟩
  · exact ⟨fun he => absurd he (Symbol.ofChar_ne_end c), fun he => absurd he hk.ne⟩

theorem drop_eq_nil (h : s.Ahead k x) (hx : x = endOfInput) : s.rest.drop k = [] := by
  rw [List.drop_eq_nil_iff, s.length_rest]
  have := h.eq_end_iff.mp hx
  omega

theorem drop_eq_cons (h : s.Ahead k x) (c : Char) (hx : x = Symbol.ofChar c) :
    s.index + k < s.chars.size ∧ s.rest.drop k = c :: s.rest.drop (k + 1) := by
  rcases h with ⟨-, he⟩ | ⟨d, hk, he, hdrop⟩
  · exact absurd (hx.symm.trans he) (Symbol.ofChar_ne_end c)
  · rw [Symbol.ofChar_inj.mp (hx.symm.trans he)]
    exact ⟨hk, hdrop⟩

theorem take_succ (h : s.Ahead k x) {c : Char} (hx : x = Symbol.ofChar c) :
    s.rest.take (k + 1) = s.rest.take k ++ [c] := by
  have hdrop := (h.drop_eq_cons c hx).2
  rw [List.take_add, hdrop]
  rfl

end Ahead
end CharStream

/-- The place that a match would go back to after `k` characters: there is one only if they end with the
closing. -/
def Terminal (opening closing text : List Char) (type : Int) (origin k : Nat) : Option Mark → Prop
  | none => ¬ Ended opening closing (text.take k)
  | some m => Ended opening closing (text.take k) ∧ m.index = origin + k ∧ m.type = type ∧ m.commands = none

/-- What a match comes to that may end before the end of the input, and where it got to. -/
inductive Reaches (opening closing : List Char) (type : Int) (maxDepth : Nat) (s : CharStream) :
    Except RecognitionError (Option Mark × Symbol) → CharStream → Prop
  /-- A closure is too deep, or the match runs out of fuel. -/
  | fails {e : RecognitionError} {t : CharStream} : e = .outOfFuel ∨ Thread.TooDeep maxDepth e →
    Reaches opening closing type maxDepth s (.error e) t
  /-- The closing is complete. -/
  | ends {m : Mark} {y : Symbol} {k : Nat} {t : CharStream} : k ≤ s.rest.length →
    Terminal opening closing s.rest type s.index k (some m) → t.chars = s.chars →
    Reaches opening closing type maxDepth s (.ok (some m, y)) t
  /-- There is no closing. -/
  | never {y : Symbol} {k : Nat} {t : CharStream} : ¬ Enclosed opening closing s.rest →
    s.index + k ≤ s.chars.size → t = ⟨s.chars, s.index + k⟩ → (y = endOfInput ↔ s.index + k = s.chars.size) →
    Reaches opening closing type maxDepth s (.ok (none, y)) t

namespace Course
variable {c : Course} {opening closing w : List Char} {type : Int} {loop : Nat} {s : CharStream}
  {ts us ts' : List Thread} {p : Standpoint} {x : Symbol}
open Thread (After Follows)

section
variable (hn : c.network.Bracketed opening closing type loop) (hspares : c.network.SparesEnd) (hne : closing ≠ [])
  (hx : x = endOfInput ∨ ∃ d, x = Symbol.ofChar d) (hsorted : Thread.Sorted ts)
  (ha : After opening closing loop w us) (heq : Thread.outline ts = Thread.outline us)
include hn hspares hne hx hsorted ha heq

/-- Consuming a symbol leads to threads that look like those of the match. -/
theorem follows_of_reach {settings : Settings} {sweep : Thread.Sweep}
    (hr : Thread.reach (c.view settings p x) 0 x ts = .ok sweep) :
    ∃ us', Follows opening closing loop w x us' ∧ Thread.outline sweep.threads = Thread.outline us' := by
  have hlike := Thread.reach_outline (c.view settings p x) 0 0 x hsorted (ha.sorted hn) heq
  obtain ⟨sweep', hrun, hlike⟩ := hlike.exists_ok hr
  have hview : (c.view settings p x).network = c.network := rfl
  rw [← hview] at hn hspares
  exact ⟨_, ha.follows hn hspares hne hx hrun, hlike.outline⟩

theorem Moves.follows (h : c.Moves p x ts ts') :
    ∃ us', Follows opening closing loop w x us' ∧ Thread.outline ts' = Thread.outline us' := by
  obtain ⟨-, settings, -, sweep, hr, hlike⟩ := h
  obtain ⟨us', hfollows, hlike'⟩ := follows_of_reach hn hspares hne hx hsorted ha heq hr
  exact ⟨us', hfollows, hlike.trans hlike'⟩

/-- Consuming a symbol fails only where a closure is too deep. -/
theorem Fails.tooDeep_of_bracketed (hclosed : c.network.Closed) {e : RecognitionError} (h : c.Fails p x ts e) :
    Thread.TooDeep c.settings.maxDepth e := by
  rcases h with h | ⟨sweep, hr, h⟩
  · have hfails : Thread.FailsWith (Thread.TooDeep c.settings.maxDepth)
        (Thread.reach (c.view c.settings p x) 0 x ts) :=
      Thread.failsWith_reach hclosed 0 x (ha.inside_of_outline hn heq)
    exact hfails e h
  · obtain ⟨us', hfollows, hlike⟩ := follows_of_reach hn hspares hne hx hsorted ha heq hr
    have hinside : ∀ t ∈ sweep.threads, t.Inside c.network := by
      cases hfollows with
      | read _ _ ha' => exact ha'.inside_of_outline hn hlike
      | spent =>
        rw [Thread.outline_eq_nil_iff.mp hlike]
        exact fun t ht => absurd ht List.not_mem_nil
    refine Thread.failsWith_recognised? hinside (fun t _ hstop => ?_) e h
    rw [(hn.stop_iff t.state).mp hstop]
    exact (Array.getElem?_eq_some_iff.mp hn.token).1

end

/-- The token of the threads of a match, distances aside. -/
theorem unplacedToken_of_after (hn : c.network.Bracketed opening closing type loop)
    (ha : After opening closing loop w us) (hus : us ≠ []) (heq : Thread.outline ts = Thread.outline us)
    {o : Option (Int × Option (List Command))} (ho : Thread.recognised? c.network ts = .ok o) :
    Ended opening closing w ∧ Thread.unplacedToken o = some (type, none) ∨
      ¬ Ended opening closing w ∧ Thread.unplacedToken o = none := by
  obtain ⟨o', ho', htoken⟩ := (Thread.recognised?_alongside heq).exists_ok ho
  rw [htoken]
  rcases ha.token hn hus ho' with ⟨hended, rfl⟩ | ⟨hopen, rfl⟩
  · exact .inl ⟨hended, rfl⟩
  · exact .inr ⟨hopen, rfl⟩

/-- The place behind the characters read is that to which the match would go back exactly if they end with the
closing. -/
theorem terminal_mark (hn : c.network.Bracketed opening closing type loop) {text : List Char} {k origin : Nat}
    (ha : After opening closing loop (text.take k) us) (hus : us ≠ []) (heq : Thread.outline ts = Thread.outline us)
    {o : Option (Int × Option (List Command))} (ho : Thread.recognised? c.network ts = .ok o)
    (hp : p.stream.index = origin + k) : Terminal opening closing text type origin k (p.mark o) := by
  rcases unplacedToken_of_after hn ha hus heq ho with ⟨hended, he⟩ | ⟨hopen, he⟩ <;> rw [Standpoint.mark, he]
  · exact ⟨hended, hp, rfl, rfl⟩
  · exact hopen

/-- A match goes on until the closing is complete, or until there is nothing left. -/
theorem Munches.reaches (hn : c.network.Bracketed opening closing type loop) (hspares : c.network.SparesEnd)
    (hclosed : c.network.Closed) (hne : closing ≠ []) {fuel : Nat} {last : Option Mark} {q : Standpoint}
    {r : Except RecognitionError (Option Mark × Symbol)} (h : c.Munches fuel last ts x p r q) {k : Nat}
    (hk : s.index + k ≤ s.chars.size) (hp : p.stream = ⟨s.chars, s.index + k⟩) (hx : x = p.stream.peek)
    (hsorted : Thread.Sorted ts) (ha : After opening closing loop (s.rest.take k) us)
    (heq : Thread.outline ts = Thread.outline us)
    (hlast : Terminal opening closing s.rest type s.index k last) :
    Reaches opening closing type c.settings.maxDepth s r q.stream := by
  have hlength := s.length_rest
  -- The symbol ahead is the next character of the text, or the end of the input where all of it was read.
  have hahead : ∀ {x : Symbol} {p : Standpoint} {k : Nat}, p.stream = ⟨s.chars, s.index + k⟩ →
      s.index + k ≤ s.chars.size → x = p.stream.peek → s.Ahead k x := by
    intro x p k hp hk hx
    rw [hx, hp]
    exact CharStream.ahead_peek hk
  induction h generalizing k us with
  | outOfFuel => exact .fails (.inl rfl)
  | fails he =>
    exact .fails (.inr (he.tooDeep_of_bracketed hn hspares hne (hahead hp hk hx).symbol hsorted ha heq hclosed))
  | @stuck fuel last ts x p hmoves =>
    have hthere := hahead hp hk hx
    obtain ⟨us', hfollows, hlike⟩ := hmoves.follows hn hspares hne hthere.symbol hsorted ha heq
    obtain rfl := Thread.outline_eq_nil_iff.mp hlike.symm
    cases last with
    | some m => exact .ends (by omega) hlast (by rw [hp])
    | none =>
      refine .never ?_ hk hp hthere.eq_end_iff
      rw [← List.take_append_drop k s.rest]
      exact hfollows.not_enclosed ha hlast hthere.drop_eq_nil fun d he => (hthere.drop_eq_cons d he).2.symm ▸ ⟨_, rfl⟩
  | ends hmoves hsome _ =>
    obtain ⟨us', hfollows, hlike⟩ := hmoves.follows hn hspares hne (.inl rfl) hsorted ha heq
    cases hfollows with
    | read _ he => exact absurd he.symm (Symbol.ofChar_ne_end _)
    | spent => exact absurd (Thread.outline_eq_nil_iff.mp hlike) hsome
  | @on fuel last ts ts' x p q o r q' hmoves hsome hrec hend hq hrest ih =>
    have hthere := hahead hp hk hx
    obtain ⟨us', hfollows, hlike⟩ := hmoves.follows hn hspares hne hthere.symbol hsorted ha heq
    have hus : us' ≠ [] := by
      rintro rfl
      exact hsome (Thread.outline_eq_nil_iff.mp hlike)
    cases hfollows with
    | spent => exact absurd rfl hus
    | @read d _ hopen he ha' =>
      obtain ⟨hless, -⟩ := hthere.drop_eq_cons d he
      rw [← hthere.take_succ he] at ha'
      have hstream : q.stream = ⟨s.chars, s.index + (k + 1)⟩ := by
        rw [hq, Standpoint.after, if_neg (he ▸ Symbol.ofChar_ne_end d), Standpoint.past, hp, CharStream.consume]
        exact if_pos hless
      obtain rfl : last = none := by
        cases last with
        | none => rfl
        | some m => exact absurd hlast.1 hopen
      have hmark : Terminal opening closing s.rest type s.index (k + 1) (q.mark o) :=
        terminal_mark hn ha' hus hlike hrec (by rw [hstream])
      refine ih (by omega) hstream rfl hmoves.1 ha' hlike ?_
      cases hm : q.mark o with
      | none => rwa [hm] at hmark
      | some m => rwa [hm] at hmark

/-- What a match comes to at a place, for the outcome and the place after it. -/
inductive Stops (opening closing : List Char) (type : Int) (maxDepth : Nat) (s : CharStream) (a : Outcome)
    (t : CharStream) : Prop
  /-- A closure is too deep, or the match runs out of fuel. -/
  | fails {e : RecognitionError} : a = .error e → e = .outOfFuel ∨ Thread.TooDeep maxDepth e →
    Stops opening closing type maxDepth s a t
  /-- The token ends behind the first closing. -/
  | takes {i : Nat} : EnclosedAt opening closing s.rest i → a = .ok (type, none) →
    t = ⟨s.chars, s.index + (i + closing.length)⟩ → Stops opening closing type maxDepth s a t
  /-- At the end of the input. -/
  | ends : ¬ Enclosed opening closing s.rest → s.rest = [] → a = .ok (endOfInput, none) → t = s →
    Stops opening closing type maxDepth s a t
  /-- There is no token. -/
  | stuck {index line column : Nat} : ¬ Enclosed opening closing s.rest → s.rest ≠ [] →
    a = .error (.lexerNoViableAlt 0 s.index index line column) → Stops opening closing type maxDepth s a t

/-- A match that got somewhere stops behind the first closing, if there is one. -/
theorem stops_of_reaches {maxDepth : Nat} {q : Standpoint} {r : Except RecognitionError (Option Mark × Symbol)}
    (hs : p.stream.index ≤ p.stream.chars.size)
    (h : Reaches opening closing type maxDepth p.stream r q.stream) :
    Stops opening closing type maxDepth p.stream (outcome 0 p q r) (landing q r).stream := by
  have hlength := p.stream.length_rest
  generalize hq : q.stream = t at h
  cases h with
  | fails he => exact .fails rfl he
  | @ends m y k _ hk hm hchars =>
    obtain ⟨hended, hindex, htype, hcommands⟩ := hm
    obtain ⟨i, hi, rfl⟩ := hended.enclosedAt hk
    refine .takes hi ?_ ?_
    · show Except.ok (m.type, m.commands) = _
      rw [htype, hcommands]
    · show q.stream.seek m.index = _
      rw [hq, CharStream.seek, hindex, hchars, Nat.min_eq_left (by omega)]
  | @never y k _ hnone hk ht hend =>
    have hq' : q.stream = ⟨p.stream.chars, p.stream.index + k⟩ := hq.trans ht
    show Stops opening closing type maxDepth p.stream (outcome 0 p q (.ok (none, y))) q.stream
    obtain ⟨hat, ha, hstays⟩ | ⟨hless, _, _, _, ha⟩ := outcome_of_none hk hq' hend
    · exact .ends hnone (List.eq_nil_of_length_eq_zero (by omega)) ha hstays
    · exact .stuck hnone (List.ne_nil_of_length_pos (by omega)) ha

/-- A match of a rule that runs to a terminator stops there. -/
theorem Takes.stops (hn : c.network.Bracketed opening closing type loop) (hspares : c.network.SparesEnd)
    (hclosed : c.network.Closed) (hne : closing ≠ []) {q : Standpoint} (hs : p.stream.index ≤ p.stream.chars.size)
    {a : Outcome} (h : c.Takes 0 0 p a q) : Stops opening closing type c.settings.maxDepth p.stream a q.stream := by
  have hafter : ∀ {settings : Settings} {sweep : Thread.Sweep},
      Thread.starts (c.sight settings p false) 0 = .ok sweep → After opening closing loop [] sweep.threads := by
    intro settings sweep hstarts
    have hsight : (c.sight settings p false).network = c.network := rfl
    rw [← hsight] at hn
    exact Thread.after_starts hn hne hstarts
  cases h with
  | failsToStart he =>
    refine .fails rfl (.inr ?_)
    rcases he with he | ⟨sweep, hstarts, he⟩
    · have hlt : 0 < c.network.states.size := Thread.lt_size_of_ways (by simp [hn.begins])
      have hfails : Thread.FailsWith (Thread.TooDeep c.settings.maxDepth)
          (Thread.starts (c.sight c.settings p false) 0) := Thread.failsWith_starts hclosed hlt
      exact hfails _ he
    · refine Thread.failsWith_recognised? ((hafter hstarts).inside_of_outline hn rfl) (fun t _ hstop => ?_) _ he
      rw [(hn.stop_iff t.state).mp hstop]
      exact (Array.getElem?_eq_some_iff.mp hn.token).1
  | @runs settings sweep ts o r q hallowed hstarts hsorted heq hrec hmunches =>
    have ha := hafter hstarts
    have hthreads : sweep.threads ≠ [] := by
      intro hnil
      rw [hnil] at ha
      exact ha.astray_of_nil opening (by rw [List.nil_append])
    have hlast : Terminal opening closing p.stream.rest type p.stream.index 0 (p.mark o) :=
      terminal_mark hn (k := 0) ha hthreads heq hrec rfl
    exact stops_of_reaches hs (hmunches.reaches hn hspares hclosed hne (k := 0) hs rfl rfl hsorted ha heq hlast)

end Course

namespace Scan
variable {σ : Type}

/-- **A reluctant repetition stops at the first terminator.**  A lexer whose only rule is an opening, then
whatever there is, then a closing, where the repetition between them prefers to leave, takes at any place of any
text, whatever earlier matches left in its cache, exactly the text up to and with the first closing that stands
behind the opening.  Where the text ahead does not begin with the opening, or no closing stands behind it, the
lexer says at the end of the input that this is the end, and elsewhere that there is no token.  Nothing else can
happen but a closure that is too deep. -/
theorem next_stops {name opening closing : String} {type : Int} {n : Network}
    (hl : (Grammar.bracketed name opening closing type).layout = .ok n) (hclosing : closing ≠ "") (m : Matcher)
    (hnet : m.network = n) (hcache : m.cache.Matched n) (hpatience : 0 < m.settings.patience) (stream : CharStream)
    (hs : stream.index ≤ stream.chars.size) (hooks : LexerHooks σ) (author : σ) :
    let r := next hooks 0 ⟨m, stream, author⟩
    let text := stream.rest
    r.1 = .error (.closureDepthExceeded (m.settings.maxDepth + 1) m.settings.maxDepth) ∨
      (Enclosed opening.toList closing.toList text → ∃ i, EnclosedAt opening.toList closing.toList text i ∧
        r.1 = .ok ⟨type, none⟩ ∧ r.2.stream = ⟨stream.chars, stream.index + (i + closing.length)⟩) ∧
      (¬ Enclosed opening.toList closing.toList text →
        if text = [] then r.1 = .ok ⟨endOfInput, none⟩ ∧ r.2.stream = stream
        else ∃ index line column, r.1 = .error (.lexerNoViableAlt 0 stream.index index line column)) := by
  have hbracketed := Grammar.bracketed_of_layout hl
  have hspares := Grammar.sparesEnd_of_layout hl
  have hunasked := Grammar.unasked_of_layout hl
  obtain ⟨p, hlaid⟩ : ∃ p, (Grammar.bracketed name opening closing type).LaidOut p True n :=
    Grammar.exists_laidOut hl fun h => (h trivial).elim
  have hclosed : n.Closed := Grammar.closed_of_layout hl rfl hlaid
  have hmode : 0 < p.modes := by
    rw [hlaid.modes]
    exact Nat.one_pos
  have hsame : next hooks 0 ⟨m, stream, author⟩ = next hooks.accepting 0 ⟨m, stream, author⟩ :=
    next_unasked 0 (show m.network.Unasked from hnet ▸ hunasked)
  rw [hsame]
  have hsane : Scan.Sane n (fun _ => True) (⟨m, stream, author⟩ : Scan σ) :=
    ⟨hnet, trivial, (hcache.lexed hunasked).faithful (Network.modesApart_of_layout hl)⟩
  have hdecision : m.modeDecision 0 = .ok 0 := hlaid.modeDecision rfl hmode hnet
  rcases next_takes hooks.accepting_answers (Network.modesApart_of_layout hl) hsane 0 with
    ⟨e, he, -⟩ | ⟨d, start, -, hstart, hends⟩
  · rw [hdecision] at he
    cases he
  obtain rfl : start = 0 := Option.some.inj (hstart.symm.trans (hlaid.modeStart hmode))
  have hfuel : (next hooks.accepting 0 ⟨m, stream, author⟩).1 ≠ .error .outOfFuel :=
    next_isTimely hooks.accepting (by rwa [network, hnet]) hpatience 0
  have hcourse : ((⟨m, stream, author⟩ : Scan σ).begun.course (fun _ => True) fun _ _ _ => true).network = n := hnet
  rw [← hcourse] at hbracketed hspares hclosed
  have hstops := hends.takes.stops hbracketed hspares hclosed (by simpa using hclosing) hs
  intro r text
  cases hstops with
  | fails he hwhy =>
    have hr := TokenMatch.eq_error_of_unplaced he
    rcases hwhy with rfl | rfl
    · exact absurd hr hfuel
    · exact .inl hr
  | takes hi ha ht =>
    exact .inr ⟨fun _ => ⟨_, hi, TokenMatch.eq_of_unplaced ha, ht⟩, fun hnone => absurd hi.enclosed hnone⟩
  | ends hnone hempty ha ht =>
    refine .inr ⟨fun henclosed => absurd henclosed hnone, fun _ => ?_⟩
    rw [if_pos (show text = [] from hempty)]
    exact ⟨TokenMatch.eq_of_unplaced ha, ht⟩
  | stuck hnone hmore ha =>
    refine .inr ⟨fun henclosed => absurd henclosed hnone, fun _ => ?_⟩
    rw [if_neg (show text ≠ [] from hmore)]
    exact ⟨_, _, _, TokenMatch.eq_error_of_unplaced ha⟩

end Scan

/-- The network of a lexer of comments. -/
def commentNetwork : Network :=
  (Grammar.bracketed "COMMENT" "/*" "*/" 1).layout.toOption.getD { kind := .lexer, maxSymbol := 0 }

namespace Scan

/-- The place behind the first comment of a text. -/
def behindComment : Scan Unit := (next .none 0 ⟨.ofNetwork commentNetwork {}, .ofText "/*a*//***/ */", ()⟩).2

theorem next_stops_comment :
    let m := behindComment.matcher
    let stream := behindComment.stream
    let opening := "/*"
    let closing := "*/"
    (Grammar.bracketed "COMMENT" opening closing 1).layout = .ok commentNetwork ∧ closing ≠ "" ∧
      m.network = commentNetwork ∧ m.cache.Matched commentNetwork ∧ 0 < m.settings.patience ∧
      stream.index ≤ stream.chars.size ∧
      let r := next .none 0 ⟨m, stream, ()⟩
      let text := stream.rest
      r.1 = .error (.closureDepthExceeded (m.settings.maxDepth + 1) m.settings.maxDepth) ∨
        (Enclosed opening.toList closing.toList text → ∃ i, EnclosedAt opening.toList closing.toList text i ∧
          r.1 = .ok ⟨1, none⟩ ∧ r.2.stream = ⟨stream.chars, stream.index + (i + closing.length)⟩) ∧
        (¬ Enclosed opening.toList closing.toList text →
          if text = [] then r.1 = .ok ⟨endOfInput, none⟩ ∧ r.2.stream = stream
          else ∃ index line column, r.1 = .error (.lexerNoViableAlt 0 stream.index index line column)) := by
  obtain ⟨hlayout, hnetwork, hpatience, hindex⟩ :
      (Grammar.bracketed "COMMENT" "/*" "*/" 1).layout = .ok commentNetwork ∧
        behindComment.matcher.network = commentNetwork ∧ 0 < behindComment.matcher.settings.patience ∧
        behindComment.stream.index ≤ behindComment.stream.chars.size := by
    cbv
  have hmatched : behindComment.matcher.cache.Matched commentNetwork := .next .none 0 rfl .fresh
  exact ⟨hlayout, by decide, hnetwork, hmatched, hpatience, hindex,
    next_stops hlayout (by decide) behindComment.matcher hnetwork hmatched hpatience behindComment.stream hindex
      .none ()⟩

/-- A star may stand before the closing. -/
example :
    behindComment.stream.index = 5 ∧ (next .none 0 behindComment).1 = .ok ⟨1, none⟩ ∧
      (next .none 0 behindComment).2.stream.index = 10 := by
  cbv

end Scan
end AdaptiveLL
