import Mathlib
import AdaptiveLL.Proofs.Lexing.Advancing
import AdaptiveLL.Proofs.Lexing.Replaying

/-! # Going on after errors

A lexer that goes on after every error that the input is to blame for comes to an end, and within as many
matches as there are characters and one more (`Lexer.tokenizeRecovering_within_length`).  For its grammar only the
text decides and no token rule matches the empty text (`Grammar.Advancing`), so a match goes past a character or
fails where there is one (`Lexer.extend_advances`), and after a failure the lexer goes past that character itself.
A match without either is the last one: it is at the end of the input, or fails for a reason that the input is not
to blame for (`Lexer.Fatal`).

Matches are made in two loops, one inside the other: for one token if what was matched is dropped or extended,
and for one token after another.  The number of characters ahead bounds both.  To count what they do they are
written once more with an account of it (`Lexer.produceCounting`, `Lexer.recoveringCounting`), which does not
change what they come to.
-/
namespace AdaptiveLL

/-- A scan of a text over a network, with whatever earlier matches left in the cache. -/
structure Scan.Ready {σ : Type} (n : Network) (chars : Array Char) (settings : Settings) (s : Scan σ) : Prop where
  network : s.matcher.network = n
  cache : s.matcher.cache.Matched n
  stands : s.Stands chars settings 0

theorem Scan.Ready.of_place {σ : Type} {n : Network} {chars : Array Char} {settings : Settings} {s s' : Scan σ}
    (h : s.Ready n chars settings) (hstream : s'.stream = s.stream) (hmatcher : s'.matcher = s.matcher) :
    s'.Ready n chars settings where
  network := hmatcher ▸ h.network
  cache := hmatcher ▸ h.cache
  stands := h.stands.of_footing (by rw [footing, footing, standpoint, standpoint, hstream, hmatcher])

namespace Lexer
variable {σ : Type} {l : Lexer σ} {g : Grammar} {n : Network} {chars : Array Char} {settings : Settings} {maxDepth : Nat}

/-- An error that the input is not to blame for, and that ends a tokenization: there is no such mode, a closure
is too deep, or there is no mode to return to. -/
inductive Fatal (maxDepth : Nat) : RecognitionError → Prop
  | noMode (mode : Nat) : Fatal maxDepth (.invalidNetwork (.noMode mode))
  | tooDeep : Fatal maxDepth (.closureDepthExceeded (maxDepth + 1) maxDepth)
  | modeStackEmpty (index : Nat) : Fatal maxDepth (.modeStackEmpty index)

theorem Fatal.isSyntaxError_eq {e : RecognitionError} (h : Fatal maxDepth e) : e.isSyntaxError = false := by
  cases h <;> rfl

/-! ## One match and its commands -/

/-- Carrying out commands fails only where there is no mode to return to. -/
theorem fatal_carryOut (start : Nat) (found : TokenMatch) :
    Run.Fails (Fatal maxDepth) (carryOut start found : Run (Lexer σ) Int) := by
  have hpop : Run.Fails (Fatal maxDepth) (CommandTarget.popMode : Run (Lexer σ) Unit) := by
    refine Run.Fails.get.bind fun l => ?_
    cases l.suspended with
    | nil => exact Run.Fails.get.bind fun l => .throw (.modeStackEmpty _)
    | cons mode suspended => exact .modify _
  have hrest : Run.Fails (Fatal maxDepth) (do
      modify fun l => if l.scan.stream.peek = endOfInput then { l with atEnd := true } else l
      pure ((← MonadState.get).draft.type.getD found.type) : Run (Lexer σ) Int) :=
    (Run.Fails.modify _).bind fun _ => Run.Fails.get.bind fun _ => .pure _
  unfold carryOut
  cases found.commands with
  | none => exact hrest
  | some commands => exact (Command.fails_runAll hpop commands start).bind fun _ => hrest

/-- Going past a character leaves one less ahead, if there was one. -/
theorem ahead_recover (l : Lexer σ) : l.recover.scan.ahead = l.scan.ahead - 1 := by
  unfold recover
  by_cases hend : l.scan.stream.peek = endOfInput
  · rw [if_pos hend]
    have := CharStream.peek_eq_end_iff.mp hend
    unfold Scan.ahead
    omega
  · rw [if_neg hend]
    have := Scan.ahead_consume hend
    show l.scan.consume.ahead = l.scan.ahead - 1
    omega

theorem ready_recover (h : l.scan.Ready n chars settings) : l.recover.scan.Ready n chars settings := by
  unfold recover
  by_cases hend : l.scan.stream.peek = endOfInput
  · rw [if_pos hend]
    exact h
  · rw [if_neg hend]
    exact ⟨h.network, h.cache, h.stands.consume hend⟩

section Advancing
variable (hl : g.layout = .ok n) (hg : g.Advancing) (hpatience : 0 < settings.patience)
include hl hg hpatience

/-- **A match with its commands gets on.**  It leaves fewer characters ahead, or says that the input has ended;
or it fails, where there is a character ahead if the input is to blame. -/
theorem extend_advances (h : l.scan.Ready n chars settings) :
    (extend l).2.scan.Ready n chars settings ∧ (extend l).2.scan.ahead ≤ l.scan.ahead ∧
      match (extend l).1 with
      | .ok type => (extend l).2.scan.ahead < l.scan.ahead ∨ type = endOfInput
      | .error e => (e.isSyntaxError ∧ 0 < l.scan.ahead) ∨ Fatal settings.maxDepth e := by
  have hsize : l.scan.stream.index ≤ l.scan.stream.chars.size := by
    rw [h.stands.chars_eq]
    exact h.stands.index_le
  obtain ⟨hadvances, hnet, hcache⟩ := Scan.next_advances hl hg l.mode h.network h.cache
    (h.stands.settings ▸ hpatience) hsize l.hooks l.scan.author
  have hstands := Scan.next_stands l.hooks l.mode l.scan (h.stands.mono (Nat.le_refl _))
  rw [h.stands.settings] at hadvances
  rw [extend_eq]
  -- The eta rule for scans: a match of the scan is a match of its parts.
  change Scan.Advances settings.maxDepth l.mode l.scan.stream (Scan.next l.hooks l.mode l.scan).1
    (Scan.next l.hooks l.mode l.scan).2.stream at hadvances
  change (Scan.next l.hooks l.mode l.scan).2.matcher.network = n at hnet
  change (Scan.next l.hooks l.mode l.scan).2.matcher.cache.Matched n at hcache
  generalize Scan.next l.hooks l.mode l.scan = r at hadvances hnet hcache hstands ⊢
  obtain ⟨result, scan⟩ := r
  have hscan : scan.Stands chars settings l.scan.stream.index := by cases result <;> exact hstands
  have hready : scan.Ready n chars settings := ⟨hnet, hcache, hscan.mono (Nat.zero_le _)⟩
  have hle : scan.ahead ≤ l.scan.ahead := by
    have := hscan.le_index
    unfold Scan.ahead
    rw [hscan.chars_eq, h.stands.chars_eq]
    omega
  cases result with
  | error e =>
    refine ⟨hready, hle, ?_⟩
    cases hadvances with
    | noMode hr =>
      cases hr
      exact .inr (.noMode l.mode)
    | tooDeep hr =>
      cases hr
      exact .inr .tooDeep
    | takes hr | ends _ hr => cases hr
    | stuck hless hr he =>
      cases hr
      exact .inl ⟨he, Nat.sub_pos_of_lt hless⟩
  | ok found =>
    have hstop : scan.stream.index ≤ scan.stream.chars.size := by
      rw [hscan.chars_eq]
      exact hscan.index_le
    -- Commands do not move the input, so what the match left ahead stays ahead.
    have hstays := carryOut_stays (l.behind scan) hstop l.draft.start found _ rfl
    dsimp only
    rcases hr : carryOut l.draft.start found (l.behind scan) with ⟨e | type, l'⟩ <;> rw [hr] at hstays
    · refine ⟨hready.of_place hstays.1 hstays.2, ?_, .inr (fatal_carryOut _ _ hr)⟩
      unfold Scan.ahead
      rw [hstays.1]
      exact hle
    · have hahead : l'.scan.ahead = scan.ahead := by
        unfold Scan.ahead
        rw [hstays.2.1]
        rfl
      refine ⟨hready.of_place hstays.2.1 hstays.2.2, hahead ▸ hle, ?_⟩
      cases hadvances with
      | noMode hr | tooDeep hr | stuck _ hr => cases hr
      | takes _ hlt =>
        refine .inl ?_
        rw [hahead, Scan.ahead, Scan.ahead, hscan.chars_eq, h.stands.chars_eq]
        have hend := hscan.index_le
        have hlt' : l.scan.stream.index < scan.stream.index := hlt
        show chars.size - scan.stream.index < chars.size - l.scan.stream.index
        omega
      | ends _ hfound =>
        cases hfound
        have hcarry := carryOut_type l.draft.start endOfInput (l.behind scan)
        rw [hr] at hcarry
        exact .inr (Except.ok.inj hcarry)

end Advancing

/-! ## The matches for a token -/

/-- Makes a match, and does what is left to be done for the token, where `again` makes the next matches and counts
them. -/
def matchCounting (again : (fresh : Bool) → Lexer σ → Ending (Lexer σ) Token × Nat) (l : Lexer σ) :
    Ending (Lexer σ) Token × Nat :=
  match extend l with
  | (.error e, l) => ((.error e, l), 1)
  | (.ok type, l) =>
    if type = endOfInput then ((.ok l.endToken, l), 1)
    else
      match l.draft.fate with
      | .more => (again false l).map id (· + 1)
      | .skip => (again true l).map id (· + 1)
      | .emit => ((.ok (l.token type), { l with nextIndex := l.nextIndex + 1 }), 1)

/-- Produces a token, and counts the matches that this takes. -/
def produceCounting : (fuel : Nat) → (fresh : Bool) → Lexer σ → Ending (Lexer σ) Token × Nat
  | 0, _, l => ((.error .outOfFuel, l), 0)
  | fuel + 1, fresh, l =>
    if fresh && l.atEnd then ((.ok l.endToken, l), 0)
    else matchCounting (produceCounting fuel) (if fresh then l.begin else l)

/-- Counting does not change what is produced. -/
theorem produceCounting_fst (fuel : Nat) (fresh : Bool) (l : Lexer σ) :
    (produceCounting fuel fresh l).1 = produce fuel fresh l := by
  induction fuel generalizing fresh l with
  | zero => rfl
  | succ fuel ih =>
    have hmatch : ∀ a : Lexer σ, (matchCounting (produceCounting fuel) a).1 = (extend >>= afterMatch fuel) a := by
      intro a
      unfold matchCounting
      rw [Run.bind_apply]
      rcases extend a with ⟨e | type, b⟩
      · rfl
      · dsimp only
        unfold afterMatch
        rw [Run.bind_apply, Run.get_apply]
        dsimp only
        by_cases htype : type = endOfInput
        · rw [if_pos htype, if_pos htype]
          rfl
        · rw [if_neg htype, if_neg htype]
          cases b.draft.fate with
          | more => exact ih false b
          | skip => exact ih true b
          | emit => rfl
    unfold produceCounting
    rw [produce_succ]
    by_cases hat : (fresh && l.atEnd) = true
    · rw [if_pos hat, if_pos hat]
    · rw [if_neg hat, if_neg hat]
      exact hmatch _

/-- What becomes of producing a token with so many characters ahead, and the number of matches that it takes.
Each match but a last one pays for itself with a character. -/
inductive Produces (maxDepth ahead : Nat) (r : Ending (Lexer σ) Token) (k : Nat) : Prop
  /-- A token that is not the end of the input. -/
  | token {t : Token} : r.1 = .ok t → t.isEnd = false → 1 ≤ k → k + r.2.scan.ahead ≤ ahead → Produces maxDepth ahead r k
  /-- An error that the input is to blame for: a character is there to go past. -/
  | stuck {e : RecognitionError} : r.1 = .error e → e.isSyntaxError → 1 ≤ k → k + r.2.recover.scan.ahead ≤ ahead →
    Produces maxDepth ahead r k
  /-- The end of the input. -/
  | last {t : Token} : r.1 = .ok t → t.isEnd → k ≤ ahead + 1 → Produces maxDepth ahead r k
  /-- Another error. -/
  | fatal {e : RecognitionError} : r.1 = .error e → Fatal maxDepth e → k ≤ ahead + 1 → Produces maxDepth ahead r k

/-- A match that leaves fewer characters ahead may come before. -/
theorem Produces.after {ahead ahead' : Nat} {r : Ending (Lexer σ) Token} {k : Nat} (h : Produces maxDepth ahead r k)
    (hlt : ahead < ahead') : Produces maxDepth ahead' r (k + 1) := by
  cases h with
  | token hr ht hk hahead => exact .token hr ht (by omega) (by omega)
  | stuck hr he hk hahead => exact .stuck hr he (by omega) (by omega)
  | last hr ht hk => exact .last hr ht (by omega)
  | fatal hr he hk => exact .fatal hr he (by omega)

section Advancing
variable (hl : g.layout = .ok n) (hg : g.Advancing) (hpatience : 0 < settings.patience)
include hl hg hpatience

/-- **The matches for a token are paid for by the characters that it goes past.** -/
theorem produces (fuel : Nat) (fresh : Bool) (h : l.scan.Ready n chars settings) (hfuel : l.scan.ahead < fuel) :
    (produceCounting fuel fresh l).1.2.scan.Ready n chars settings ∧
      Produces settings.maxDepth l.scan.ahead (produceCounting fuel fresh l).1 (produceCounting fuel fresh l).2 := by
  induction fuel generalizing fresh l with
  | zero => exact absurd hfuel (Nat.not_lt_zero _)
  | succ fuel ih =>
    unfold produceCounting
    by_cases hat : (fresh && l.atEnd) = true
    · rw [if_pos hat]
      exact ⟨h, .last rfl rfl (Nat.zero_le _)⟩
    · rw [if_neg hat]
      -- Beginning a token does not move the input.
      obtain ⟨a, ha, hscan⟩ : ∃ a : Lexer σ, (if fresh then l.begin else l) = a ∧ a.scan = l.scan := by
        refine ⟨_, rfl, ?_⟩
        cases fresh <;> rfl
      rw [ha, ← hscan]
      rw [← hscan] at h hfuel
      obtain ⟨hready, hle, hends⟩ := extend_advances hl hg hpatience h
      unfold matchCounting
      rcases hr : extend a with ⟨e | type, b⟩ <;> rw [hr] at hready hle hends <;> dsimp only at hready hle hends ⊢
      · refine ⟨hready, ?_⟩
        rcases hends with ⟨he, hpos⟩ | hfatal
        · refine .stuck rfl he le_rfl ?_
          show 1 + b.recover.scan.ahead ≤ a.scan.ahead
          have := ahead_recover b
          omega
        · exact .fatal rfl hfatal (Nat.le_add_left _ _)
      · by_cases htype : type = endOfInput
        · rw [if_pos htype]
          exact ⟨hready, .last rfl rfl (Nat.le_add_left _ _)⟩
        · rw [if_neg htype]
          -- Not at the end, the match left fewer characters ahead; that pays for it, and the fuel lasts for the rest.
          have hlt := hends.resolve_right htype
          cases b.draft.fate with
          | more =>
            obtain ⟨hready', hproduces⟩ := ih false hready (by omega)
            exact ⟨hready', hproduces.after hlt⟩
          | skip =>
            obtain ⟨hready', hproduces⟩ := ih true hready (by omega)
            exact ⟨hready', hproduces.after hlt⟩
          | emit =>
            refine ⟨hready, .token rfl (decide_eq_false htype) le_rfl ?_⟩
            show 1 + b.scan.ahead ≤ a.scan.ahead
            omega

end Advancing

/-! ## All tokens -/

/-- What a tokenization took. -/
structure Effort where
  /-- How many tokens were asked for. -/
  requests : Nat
  /-- How many matches were made for them. -/
  attempts : Nat
deriving DecidableEq, Repr

/-- What was done with what was done before it, for one token. -/
def Effort.before (k : Nat) (f : Effort) : Effort := ⟨f.requests + 1, k + f.attempts⟩

/-- Takes tokens and goes on after errors, and counts what this takes. -/
def recoveringCounting : (fuel : Nat) → Lexer σ → ((List Token × List RecognitionError) × Lexer σ) × Effort
  | 0, l => ((([], [.outOfFuel]), l), ⟨0, 0⟩)
  | fuel + 1, l =>
    match produceCounting l.fuel true l with
    | ((.ok t, l), k) =>
      if t.isEnd then ((([t], []), l), ⟨1, k⟩)
      else
        match recoveringCounting fuel l with
        | (((ts, es), l), f) => (((t :: ts, es), l), f.before k)
    | ((.error e, l), k) =>
      if e.isSyntaxError then
        match recoveringCounting fuel l.recover with
        | (((ts, es), l), f) => (((ts, e :: es), l), f.before k)
      else ((([], [e]), l), ⟨1, k⟩)

/-- Counting does not change what is taken. -/
theorem recoveringCounting_fst (fuel : Nat) (l : Lexer σ) : (recoveringCounting fuel l).1 = recovering fuel l := by
  induction fuel generalizing l with
  | zero => rfl
  | succ fuel ih =>
    have hnext : nextToken l = (produceCounting l.fuel true l).1 := by
      rw [produceCounting_fst]
      rfl
    unfold recoveringCounting recovering
    rw [hnext]
    rcases produceCounting l.fuel true l with ⟨⟨e | t, b⟩, k⟩
    · dsimp only
      by_cases he : e.isSyntaxError = true
      · rw [if_pos he, if_pos he, ← ih]
      · rw [if_neg he, if_neg he]
    · dsimp only
      by_cases ht : t.isEnd = true
      · rw [if_pos ht, if_pos ht]
      · rw [if_neg ht, if_neg ht, ← ih]

/-- How a tokenization that goes on after errors comes to an end. -/
inductive Concludes (maxDepth : Nat) : List Token → List RecognitionError → Prop
  /-- With the end of the input, after errors that the input is to blame for. -/
  | complete {ts : List Token} {es : List RecognitionError} {t : Token} : t.isEnd → (∀ u ∈ ts, u.isEnd = false) →
    (∀ e ∈ es, e.isSyntaxError) → Concludes maxDepth (ts ++ [t]) es
  /-- With an error that the input is not to blame for. -/
  | abandoned {ts : List Token} {es : List RecognitionError} {e : RecognitionError} : Fatal maxDepth e →
    e.isSyntaxError = false → (∀ u ∈ ts, u.isEnd = false) → (∀ e' ∈ es, e'.isSyntaxError) →
    Concludes maxDepth ts (es ++ [e])

theorem Concludes.cons_token {ts : List Token} {es : List RecognitionError} (h : Concludes maxDepth ts es) {t : Token}
    (ht : t.isEnd = false) : Concludes maxDepth (t :: ts) es := by
  cases h with
  | complete hend hts hes => exact .complete hend (List.forall_mem_cons.mpr ⟨ht, hts⟩) hes
  | abandoned hfatal hblame hts hes => exact .abandoned hfatal hblame (List.forall_mem_cons.mpr ⟨ht, hts⟩) hes

theorem Concludes.cons_error {ts : List Token} {es : List RecognitionError} (h : Concludes maxDepth ts es)
    {e : RecognitionError} (he : e.isSyntaxError) : Concludes maxDepth ts (e :: es) := by
  cases h with
  | complete hend hts hes => exact .complete hend hts (List.forall_mem_cons.mpr ⟨he, hes⟩)
  | abandoned hfatal hblame hts hes => exact .abandoned hfatal hblame hts (List.forall_mem_cons.mpr ⟨he, hes⟩)

section Advancing
variable (hl : g.layout = .ok n) (hg : g.Advancing) (hpatience : 0 < settings.patience)
include hl hg hpatience

/-- **All tokens take no more than the characters ahead pay for, and one.** -/
theorem recoveringCounting_within (fuel : Nat) (h : l.scan.Ready n chars settings) (hfuel : l.scan.ahead < fuel) :
    (recoveringCounting fuel l).2.requests ≤ l.scan.ahead + 1 ∧
      (recoveringCounting fuel l).2.attempts ≤ l.scan.ahead + 1 ∧
      Concludes settings.maxDepth (recoveringCounting fuel l).1.1.1 (recoveringCounting fuel l).1.1.2 := by
  induction fuel generalizing l with
  | zero => exact absurd hfuel (Nat.not_lt_zero _)
  | succ fuel ih =>
    -- The fuel for one token outlasts the characters ahead.
    have henough : l.scan.ahead < l.fuel := by
      have hsize : l.scan.ahead < l.scan.stream.size + 1 := by
        unfold Scan.ahead CharStream.size
        omega
      refine hsize.trans_le (Nat.le_mul_of_pos_right _ ?_)
      rw [h.stands.settings]
      exact hpatience
    obtain ⟨hready, hproduces⟩ := produces hl hg hpatience l.fuel true h henough
    unfold recoveringCounting
    generalize produceCounting l.fuel true l = r at hready hproduces ⊢
    obtain ⟨⟨result, b⟩, k⟩ := r
    cases hproduces with
    | @token t hr ht hk hahead =>
      obtain rfl : result = .ok t := hr
      dsimp only at hready hahead ⊢
      rw [if_neg (by simp [ht])]
      obtain ⟨hrequests, hattempts, hconcludes⟩ := ih hready (by omega)
      refine ⟨?_, ?_, hconcludes.cons_token ht⟩
      · show (recoveringCounting fuel b).2.requests + 1 ≤ _
        omega
      · show k + (recoveringCounting fuel b).2.attempts ≤ _
        omega
    | @stuck e hr he hk hahead =>
      obtain rfl : result = .error e := hr
      dsimp only at hready hahead ⊢
      rw [if_pos he]
      obtain ⟨hrequests, hattempts, hconcludes⟩ := ih (ready_recover hready) (by omega)
      refine ⟨?_, ?_, hconcludes.cons_error he⟩
      · show (recoveringCounting fuel b.recover).2.requests + 1 ≤ _
        omega
      · show k + (recoveringCounting fuel b.recover).2.attempts ≤ _
        omega
    | @last t hr ht hk =>
      obtain rfl : result = .ok t := hr
      dsimp only
      rw [if_pos ht]
      have hends : Concludes settings.maxDepth ([] ++ [t]) [] :=
        .complete ht (fun u hu => absurd hu List.not_mem_nil) fun e he => absurd he List.not_mem_nil
      exact ⟨Nat.le_add_left _ _, hk, hends⟩
    | @fatal e hr he hk =>
      obtain rfl : result = .error e := hr
      dsimp only
      rw [if_neg (by simp [he.isSyntaxError_eq])]
      have hends : Concludes settings.maxDepth [] ([] ++ [e]) :=
        .abandoned he he.isSyntaxError_eq (fun u hu => absurd hu List.not_mem_nil) fun e he => absurd he List.not_mem_nil
      exact ⟨Nat.le_add_left _ _, hk, hends⟩

end Advancing

/-- **Going on after errors comes to an end within the length of the text.**  Over a grammar in which only the text
decides and no token rule matches the empty text, whatever its commands do and whatever earlier matches left in the
cache, taking all tokens of a text and going past a character after each error that the input is to blame for takes
no more requests, and no more matches in all, than the text has characters, and one.  The last token is the end of
the input and no other is; or else the last error is one that the input is not to blame for. -/
theorem tokenizeRecovering_within_length (hl : g.layout = .ok n) (hg : g.Advancing) (m : Matcher) (hnet : m.network = n)
    (hcache : m.cache.Matched n) (hpatience : 0 < m.settings.patience) (text : String) (hooks : LexerHooks σ)
    (author : σ) :
    let l := ofMatcher m text hooks author
    let r := recoveringCounting l.fuel l
    r.1 = tokenizeRecovering l ∧ r.2.requests ≤ text.length + 1 ∧ r.2.attempts ≤ text.length + 1 ∧
      Concludes m.settings.maxDepth r.1.1.1 r.1.1.2 := by
  intro l r
  have hready : l.scan.Ready n text.toList.toArray m.settings :=
    ⟨hnet, hcache, ((served_ofMatcher m text hooks author).stands).scan⟩
  have hahead : l.scan.ahead = text.length := by
    show text.toList.toArray.size - 0 = text.length
    rw [Nat.sub_zero, List.size_toArray, String.length_toList]
  have hfuel : l.scan.ahead < l.fuel := by
    have hsize : l.fuel = (text.length + 1) * m.settings.patience := by
      show (text.toList.toArray.size + 1) * m.settings.patience = _
      rw [List.size_toArray, String.length_toList]
    rw [hsize, hahead]
    exact (Nat.lt_succ_self _).trans_le (Nat.le_mul_of_pos_right _ hpatience)
  obtain ⟨hrequests, hattempts, hconcludes⟩ := recoveringCounting_within hl hg hpatience l.fuel hready hfuel
  rw [hahead] at hrequests hattempts
  exact ⟨recoveringCounting_fst l.fuel l, hrequests, hattempts, hconcludes⟩

/-- The lexer's grammar of words and quotations.  Blanks and comments are dropped, and a quotation is put together
from its characters in a mode of its own. -/
def quotingGrammar : Grammar :=
  { Grammar.lexer with
    modes := ["DEFAULT_MODE", "QUOTED"]
    rules := [
      ⟨"WORD", .plus (.range 97 122) true, 1, 0, false⟩,
      ⟨"BLANK", .seq [.char ' ', .command .skip], 2, 0, false⟩,
      ⟨"COMMENT", .seq [.char '#', .star .wildcard false, .char '#', .command .skip], 3, 0, false⟩,
      ⟨"OPEN", .seq [.char '$', .command .more, .command (.pushMode 1)], 4, 0, false⟩,
      ⟨"CLOSE", .seq [.char '$', .command .popMode], 5, 1, false⟩,
      ⟨"INSIDE", .seq [.wildcard, .command .more], 6, 1, false⟩] }

/-- Its network. -/
def quotingNetwork : Network := quotingGrammar.layout.toOption.getD { kind := .lexer, maxSymbol := 0 }

theorem tokenizeRecovering_within_length_quoting :
    let m := Matcher.ofNetwork quotingNetwork {}
    let l := ofMatcher m "ab ?$c$ $d" .none ()
    let r := recoveringCounting l.fuel l
    quotingGrammar.layout = .ok quotingNetwork ∧ quotingGrammar.Advancing ∧ m.network = quotingNetwork ∧
      m.cache.Matched quotingNetwork ∧ 0 < m.settings.patience ∧
      r.1 = tokenizeRecovering l ∧ r.2.requests ≤ "ab ?$c$ $d".length + 1 ∧
      r.2.attempts ≤ "ab ?$c$ $d".length + 1 ∧ Concludes m.settings.maxDepth r.1.1.1 r.1.1.2 := by
  have hlayout : quotingGrammar.layout = .ok quotingNetwork := by cbv
  have hsolid : ∀ r ∈ quotingGrammar.rules, ¬ r.body.Derives quotingGrammar minCodePoint maxCodePoint [] := by
    refine List.forall_mem_cons.mpr ⟨fun h => ?_, ?_⟩
    · cases h.body_of_nil rfl
    · intro r hr h
      simp only [List.mem_cons, List.not_mem_nil, or_false] at hr
      rcases hr with rfl | rfl | rfl | rfl | rfl <;> cases h.head_of_nil rfl
  have hadvancing : quotingGrammar.Advancing :=
    { lexer := rfl
      unconditional := by decide
      sparesEnd := by decide
      nonempty := fun r hr _ => hsolid r hr }
  exact ⟨hlayout, hadvancing, rfl, .fresh, by decide,
    tokenizeRecovering_within_length hlayout hadvancing (.ofNetwork quotingNetwork {}) rfl .fresh (by decide)
      "ab ?$c$ $d" .none ()⟩

/-- A text of errors takes as many matches as there may be. -/
example :
    let l := ofMatcher (.ofNetwork quotingNetwork {}) "?!" .none ()
    (recoveringCounting l.fuel l).2 = ⟨3, 3⟩ := by
  cbv

end Lexer
end AdaptiveLL
