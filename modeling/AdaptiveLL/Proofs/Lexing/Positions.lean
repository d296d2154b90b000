import AdaptiveLL.Proofs.Lexing.Course

/-!
# Positions in the course of a match

Line and column are kept beside the index, and a match moves both: past characters, back to the last
place at which a token was recognised, or not at all where it fails.  They always agree
(`Scan.Stands`): the position is the one behind the characters before the index.  Nothing is asked
of the cache, the network or the author's callbacks, which decide where a match ends, and not what
is kept about the place.
-/

namespace AdaptiveLL

theorem Symbol.ofChar_inj {c d : Char} : Symbol.ofChar c = Symbol.ofChar d ↔ c = d :=
  ⟨fun h => Char.toNat_inj.mp (Int.ofNat.inj h), congrArg Symbol.ofChar⟩

namespace Position

theorem behind_append (cs : List Char) (c : Char) :
    behind (cs ++ [c]) = (behind cs).past (Symbol.ofChar c) :=
  List.foldl_append ..

theorem past_ofChar (p : Position) (c : Char) :
    p.past (Symbol.ofChar c) = if c = '\n' then ⟨p.line + 1, 0⟩ else ⟨p.line, p.column + 1⟩ := by
  rw [past, if_congr Symbol.ofChar_inj rfl rfl]

/-- Behind some characters the line counts their line breaks, and the column the characters after
the last of these. -/
theorem behind_eq (cs : List Char) :
    behind cs = ⟨1 + cs.count '\n', (cs.rtakeWhile (· ≠ '\n')).length⟩ := by
  induction cs using List.reverseRecOn with
  | nil => rfl
  | append_singleton cs c ih =>
    rw [behind_append, past_ofChar, ih]
    by_cases hc : c = '\n'
    · rw [if_pos hc, List.rtakeWhile_concat_neg _ _ _ (by simpa using hc)]
      simp [hc, Nat.add_assoc]
    · rw [if_neg hc, List.rtakeWhile_concat_pos _ _ _ (by simpa using hc)]
      simp [hc]

end Position

theorem CharStream.peek_eq_end_iff {s : CharStream} :
    s.peek = endOfInput ↔ s.chars.size ≤ s.index := by
  rw [CharStream.peek, CharStream.lookahead, Nat.add_sub_cancel]
  by_cases h : s.index < s.chars.size
  · rw [Array.getElem?_eq_getElem h]
    refine ⟨fun hend => ?_, fun hle => absurd h (Nat.not_lt_of_le hle)⟩
    have hneg : ((s.chars[s.index].toNat : Nat) : Int) = -1 := hend
    omega
  · rw [Array.getElem?_eq_none (Nat.le_of_not_lt h)]
    exact ⟨fun _ => Nat.le_of_not_lt h, fun _ => rfl⟩

/-- The place before a character of a text. -/
def Standpoint.at (chars : Array Char) (i : Nat) : Standpoint :=
  ⟨⟨chars, i⟩, .behind (chars.toList.take i)⟩

theorem Standpoint.past_at {chars : Array Char} {i : Nat} (hi : i < chars.size) :
    (Standpoint.at chars i).past = Standpoint.at chars (i + 1) := by
  have hpeek : (⟨chars, i⟩ : CharStream).peek = Symbol.ofChar chars[i] := by
    simp [CharStream.peek, CharStream.lookahead, hi]
  have htake : chars.toList.take (i + 1) = chars.toList.take i ++ [chars[i]] := by
    rw [List.take_add_one, List.getElem?_eq_getElem (by simpa using hi)]
    rfl
  rw [Standpoint.at, Standpoint.at, htake, Position.behind_append, ← hpeek, Standpoint.past,
    CharStream.consume]
  exact congrArg (Standpoint.mk · _) (if_pos hi)

/-- A contract for what a run leaves alone. -/
theorem Run.Leaves.meets {σ α γ : Type} {part : σ → γ} {m : Run σ α} (h : Leaves part m)
    {inv : σ → Prop} (hinv : ∀ s t, part t = part s → inv s → inv t) :
    Run.Meets inv m (fun _ => inv) fun _ => inv := by
  intro s hs
  have hkept := hinv s (m s).2 (h s) hs
  rcases hr : m s with ⟨e | a, t⟩ <;> rw [hr] at hkept <;> exact hkept

namespace Scan

variable {σ : Type} {s s' : Scan σ} {chars : Array Char} {settings : Settings} {lo d : Nat}

/-- The place of a scan, and its settings. -/
def footing (s : Scan σ) : Standpoint × Settings := (s.standpoint, s.matcher.settings)

/-- A scan of a text stands somewhere from the place `lo` on, and knows its position. -/
structure Stands (chars : Array Char) (settings : Settings) (lo : Nat) (s : Scan σ) : Prop where
  place : ∃ i, lo ≤ i ∧ i ≤ chars.size ∧ s.standpoint = .at chars i
  settings : s.matcher.settings = settings

/-- A place from `lo` on is remembered with its position. -/
def Remembered (chars : Array Char) (lo : Nat) (c : Checkpoint) : Prop :=
  lo ≤ c.index ∧ c.index ≤ chars.size ∧ c.position = .behind (chars.toList.take c.index)

theorem Stands.of_footing (h : s'.footing = s.footing) (hs : s.Stands chars settings lo) :
    s'.Stands chars settings lo where
  place := by
    rw [show s'.standpoint = s.standpoint from congrArg Prod.fst h]
    exact hs.place
  settings := (congrArg Prod.snd h).trans hs.settings

theorem Stands.index_le (h : s.Stands chars settings lo) : s.stream.index ≤ chars.size := by
  obtain ⟨i, -, hle, hi⟩ := h.place
  rw [show s.stream = ⟨chars, i⟩ from congrArg Standpoint.stream hi]
  exact hle

theorem Stands.le_index (h : s.Stands chars settings lo) : lo ≤ s.stream.index := by
  obtain ⟨i, hle, -, hi⟩ := h.place
  rw [show s.stream = ⟨chars, i⟩ from congrArg Standpoint.stream hi]
  exact hle

theorem Stands.standpoint_eq (h : s.Stands chars settings lo) :
    s.standpoint = .at chars s.stream.index := by
  obtain ⟨i, -, -, hi⟩ := h.place
  rw [hi, show s.stream = ⟨chars, i⟩ from congrArg Standpoint.stream hi]

theorem Stands.chars_eq (h : s.Stands chars settings lo) : s.stream.chars = chars :=
  congrArg (fun p => p.stream.chars) h.standpoint_eq

theorem Stands.position_eq (h : s.Stands chars settings lo) :
    s.matcher.position = .behind (chars.toList.take s.stream.index) :=
  congrArg Standpoint.position h.standpoint_eq

theorem Stands.mono {lo' : Nat} (h : s.Stands chars settings lo) (hle : lo' ≤ s.stream.index) :
    s.Stands chars settings lo' :=
  ⟨⟨s.stream.index, hle, h.index_le, h.standpoint_eq⟩, h.settings⟩

theorem Stands.peek_eq_end_iff (h : s.Stands chars settings lo) :
    s.stream.peek = endOfInput ↔ s.stream.index = chars.size := by
  rw [CharStream.peek_eq_end_iff, h.chars_eq]
  have hle := h.index_le
  omega

/-- Going past a character leads to the next place. -/
theorem Stands.consume (h : s.Stands chars settings lo) (hmore : s.stream.peek ≠ endOfInput) :
    s.consume.Stands chars settings lo := by
  have hlt : s.stream.index < chars.size :=
    Nat.lt_of_le_of_ne h.index_le (mt h.peek_eq_end_iff.mpr hmore)
  refine ⟨⟨s.stream.index + 1, by have := h.le_index; omega, hlt, ?_⟩, h.settings⟩
  rw [← Standpoint.past_at hlt, ← h.standpoint_eq]
  rfl

/-! ## What does not move the scan -/

open Run (Leaves)

/-- What working with the automata leaves alone: the place of a scan, its settings, the network and the
start of the token. -/
def frame (s : Scan σ) : (Standpoint × Settings) × Network × Nat :=
  (s.footing, s.matcher.network, s.matcher.tokenStart)

section Parts
variable {γ : Type} {part : Scan σ → γ}

theorem leaves_check {τ α : Type} {part : τ → γ} (r : Except RecognitionError α) :
    Leaves part (check r : Run τ α) := by
  cases r with
  | ok a => exact .pure a
  | error e => exact .throw e

theorem leaves_automatonState (d : Nat) (t : Target) : Leaves part (automatonState d t) := by
  refine Leaves.get.bind fun s => ?_
  split
  · exact .pure _
  · exact .throw _
  · exact .throw _

theorem leaves_checkpoint? (d : Nat) (t : Target) : Leaves part (checkpoint? d t) :=
  (leaves_automatonState d t).bind fun _ => Leaves.get.bind fun _ => .pure _

theorem leaves_addState (hpart : ∀ (s : Scan σ) cache,
      part { s with matcher := { s.matcher with cache } } = part s) (d : Nat) (configs : ConfigSet) :
    Leaves part (addState d configs) :=
  Leaves.get.bind fun _ => (leaves_check _).bind fun _ => .modifyGet fun _ => hpart _ _

end Parts

theorem leaves_startState (hooks : LexerHooks σ) (mode d : Nat) :
    Leaves frame (startState hooks mode d) := by
  refine Leaves.get.bind fun s => ?_
  split
  · exact .pure _
  · refine Leaves.bind (fun _ => rfl) fun configs => (leaves_addState (fun _ _ => rfl) d _).bind fun t => ?_
    exact .ite (.bind (.modify fun _ => rfl) fun _ => .pure t) (.pure t)

theorem leaves_computeEdge (hooks : LexerHooks σ) (d : Nat) (source : Target) (x : Symbol) :
    Leaves frame (computeEdge hooks d source x) := by
  refine (leaves_automatonState d source).bind fun state => Leaves.get.bind fun s =>
    Leaves.bind (fun _ => rfl) fun configs => ?_
  have hstore : ∀ t : Target, Leaves frame (do
      if !configs.hasGuards && Matcher.isStored x then
        changeAutomaton d (·.setEdge source x t)
      pure t : Run (Scan σ) Target) := fun t =>
    .ite (.bind (.modify fun _ => rfl) fun _ => .pure t) (.pure t)
  exact .ite ((Leaves.pure _).bind hstore) ((leaves_addState (fun _ _ => rfl) d _).bind hstore)

theorem leaves_step (hooks : LexerHooks σ) (d : Nat) (source : Target) (x : Symbol) :
    Leaves frame (step hooks d source x) := by
  refine Leaves.get.bind fun s => ?_
  dsimp only
  split
  · exact .bind (.modify fun _ => rfl) fun _ => .pure _
  · exact .bind (.modify fun _ => rfl) fun _ => leaves_computeEdge hooks d source x

/-! ## What moves it -/

theorem checkpoint?_stands {inv : Scan σ → Prop}
    (hfooting : ∀ s s', footing s' = footing s → inv s → inv s')
    (hinv : ∀ s, inv s → s.Stands chars settings lo) (d : Nat) (t : Target) :
    Run.Meets inv (checkpoint? d t)
      (fun here s => inv s ∧ ∀ c, here = some c → Remembered chars lo c) fun _ => inv := by
  refine ((leaves_automatonState d t).meets hfooting).bind fun state => ?_
  intro s hs
  refine ⟨hs, fun c hc => ?_⟩
  have hstands := hinv s hs
  split at hc
  · cases hc
    exact ⟨hstands.le_index, hstands.index_le, hstands.position_eq⟩
  · cases hc

/-- A scan stands somewhere and has a certain symbol ahead. -/
def Faces (chars : Array Char) (settings : Settings) (lo : Nat) (x : Symbol) (s : Scan σ) : Prop :=
  s.Stands chars settings lo ∧ s.stream.peek = x

theorem Faces.of_footing {x : Symbol} (s s' : Scan σ) (h : s'.footing = s.footing)
    (hs : s.Faces chars settings lo x) : s'.Faces chars settings lo x := by
  refine ⟨hs.1.of_footing h, ?_⟩
  rw [show s'.stream = s.stream from congrArg (fun p => p.1.stream) h]
  exact hs.2

/-- The automaton is run on with every place that may have to be gone back to remembered. -/
theorem munch_stands (hooks : LexerHooks σ) (fuel : Nat) {last : Option Checkpoint}
    (hlast : ∀ c, last = some c → Remembered chars lo c) (source : Target) (x : Symbol) :
    Run.Meets (Faces chars settings lo x) (munch hooks d fuel last source x)
      (fun r s => s.Stands chars settings lo ∧ ∀ c, r.1 = some c → Remembered chars lo c)
      fun _ => Stands chars settings lo := by
  induction fuel generalizing last source x with
  | zero => exact .throw fun s hs => hs.1
  | succ fuel ih =>
    unfold munch
    have hkept : ∀ s s' : Scan σ, s'.footing = s.footing → s.Faces chars settings lo x →
        s'.Faces chars settings lo x := Faces.of_footing
    refine ((((leaves_step hooks d source x).map Prod.fst).meets hkept).imp (fun _ h => h) (fun _ _ h => h)
      fun _ _ h => h.1).bind fun t => ?_
    refine Run.Meets.ite (fun _ => .pure fun s hs => ⟨hs.1, hlast⟩) fun _ => ?_
    have hrest : Run.Meets (Stands chars settings lo) (do
        let here ← checkpoint? d t
        if x = endOfInput && here.isSome then pure (here, x)
        else munch hooks d fuel (here <|> last) t (← MonadState.get).stream.peek)
        (fun r s => s.Stands chars settings lo ∧ ∀ c, r.1 = some c → Remembered chars lo c)
        fun _ => Stands (σ := σ) chars settings lo := by
      refine (checkpoint?_stands (fun _ _ => Stands.of_footing) (fun _ h => h) d t).bind
        fun here => ?_
      refine Run.Meets.ite (fun _ => .pure fun s hs => hs) fun _ => ?_
      intro s hs
      rw [Run.bind_apply, Run.get_apply]
      refine ih (fun c hc => ?_) t s.stream.peek s ⟨hs.1, rfl⟩
      cases here with
      | some place => exact hs.2 c hc
      | none => exact hlast c hc
    dsimp only
    refine Run.Meets.ite (fun hx => ?_) fun _ => ?_
    · refine Run.Meets.bind (.modify fun s hs => ?_) fun _ => hrest
      exact hs.1.consume fun hend => hx (hs.2.symm.trans hend)
    · exact hrest.imp (fun _ h => h.1) (fun _ _ h => h) fun _ _ h => h

/-- Going back to a remembered place. -/
theorem commit_stands {place : Checkpoint} (hplace : Remembered chars lo place) :
    Run.Meets (Stands chars settings lo) (commit d place : Run (Scan σ) TokenMatch)
      (fun _ => Stands chars settings lo) fun _ => Stands chars settings lo := by
  intro s hs
  have hseek : s.stream.seek place.index = ⟨chars, place.index⟩ := by
    rw [CharStream.seek, hs.chars_eq, Nat.min_eq_left hplace.2.1]
  have hback : Stands chars settings lo (⟨s.matcher.setPosition place.position,
      s.stream.seek place.index, s.author⟩ : Scan σ) :=
    ⟨⟨place.index, hplace.1, hplace.2.1, congrArg₂ Standpoint.mk hseek hplace.2.2⟩, hs.settings⟩
  have hread : Run.Meets (Stands chars settings lo) (do
      let state ← automatonState d place.target
      pure ⟨state.tokenType, state.commands⟩)
      (fun (_ : TokenMatch) (s : Scan σ) => s.Stands chars settings lo)
      fun _ => Stands chars settings lo :=
    ((leaves_automatonState d place.target).meets fun _ _ => Stands.of_footing).bind
      fun _ => .pure fun _ h => h
  exact hread _ hback

/-- Wherever a match leads, and however it ends, it does not lead back, and position and index
agree. -/
theorem next_stands (hooks : LexerHooks σ) (mode : Nat) :
    Run.Meets (Stands chars settings lo) (next hooks mode) (fun _ => Stands chars settings lo)
      fun _ => Stands chars settings lo := by
  have hrest : ∀ (decision : Nat) (begin : Scan σ), Run.Meets (Faces chars settings lo begin.stream.peek)
      (matchFrom hooks mode decision begin) (fun _ => Stands chars settings lo)
      fun _ => Stands chars settings lo := by
    intro decision begin
    have hkept : ∀ s s' : Scan σ, s'.footing = s.footing →
        s.Faces chars settings lo begin.stream.peek →
        s'.Faces chars settings lo begin.stream.peek := Faces.of_footing
    refine ((((leaves_startState hooks mode decision).map Prod.fst).meets hkept).imp (fun _ h => h)
      (fun _ _ h => h) fun _ _ h => h.1).bind fun start => ?_
    refine ((checkpoint?_stands hkept (fun _ h => h.1) decision start).imp (fun _ h => h)
      (fun _ _ h => h) fun _ _ h => h.1).bind fun first => ?_
    have hmunch : Run.Meets (fun s => Faces chars settings lo begin.stream.peek s ∧
        ∀ c, first = some c → Remembered chars lo c) (munch hooks decision
          (begin.matcher.settings.fuel begin.stream.size) first start begin.stream.peek)
        (fun r s => s.Stands chars settings lo ∧ ∀ c, r.1 = some c → Remembered chars lo c)
        fun _ => Stands chars settings lo := fun s hs => munch_stands hooks _ hs.2 start _ s hs.1
    refine hmunch.bind fun reached => ?_
    obtain ⟨_ | place, y⟩ := reached
    · refine Run.Meets.bind (.get fun s hs => hs.1) fun s => ?_
      exact .ite (fun _ => .pure fun _ h => h) fun _ => .throw fun _ h => h
    · exact fun s hs => commit_stands (hs.2 place rfl) s hs.1
  intro s hs
  have hbegun : s.begun.Stands chars settings lo := Stands.of_footing (by rfl) hs
  rw [next_eq]
  cases s.matcher.modeDecision mode with
  | error e => exact hs
  | ok decision => exact hrest decision s.begun s.begun ⟨hbegun, rfl⟩

end Scan
end AdaptiveLL
