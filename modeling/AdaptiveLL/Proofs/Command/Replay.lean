import Mathlib
import AdaptiveLL.Proofs.Command

/-!
# Where commands are carried out

Some commands have a place (`Command.place?`): a pinned one at its distance from the start of the token,
any other that depends on the position where the token ends.  Start and distance are added as 64-bit numbers,
so a command that is pinned too far away has its place at what remains of the sum
(`Command.replayIndex_eq_iff`).  `Command.runFrom` moves the input only when the next command has a place, and
remembers in a flag whether it has to be moved back.

`Command.Replays` says what is to come of that and knows no flag: the commands are carried out in order, each
in its place, up to the first that fails.  `Command.runAll_replays` says that this is what happens, and
that the input is afterwards where it was, for every target whose input can be moved anywhere and is moved
by nothing else (`CommandTarget.Steady`).
-/

namespace AdaptiveLL

/-- The input can be moved anywhere, and nothing but `seek` moves it. -/
structure CommandTarget.Steady (γ : Type) [CommandTarget γ] : Prop where
  index_seek : ∀ (i : Nat) (l : γ), index (seek i l) = i
  index_skip : ∀ l : γ, index (skip l) = index l
  index_more : ∀ l : γ, index (more l) = index l
  index_setType : ∀ (type : Int) (l : γ), index (setType type l) = index l
  index_setChannel : ∀ (channel : Int) (l : γ), index (setChannel channel l) = index l
  index_setMode : ∀ (mode : Nat) (l : γ), index (setMode mode l) = index l
  index_pushMode : ∀ (mode : Nat) (l : γ), index (pushMode mode l) = index l
  index_popMode : ∀ l : γ, index ((popMode : Run γ Unit) l).2 = index l
  index_custom : ∀ (rule action : Nat) (l : γ), index (custom rule action l) = index l

namespace Command

variable {γ : Type} [CommandTarget γ]

/-! ## What is to come of commands -/

/-- Where the input has to stand when a command is carried out, for a token from `start` to `stop`. -/
def place? (start stop : Nat) : Command → Option Nat
  | pinned offset _ => some (replayIndex start offset)
  | custom .. => some stop
  | _ => none

/-- Moves the input to the place of a command, if it has one. -/
def toPlace (start stop : Nat) (c : Command) (l : γ) : γ :=
  match c.place? start stop with
  | some i => CommandTarget.seek i l
  | none => l

/-- Commands are carried out in order, each in its place, up to the first that fails. -/
inductive Replays (start stop : Nat) :
    List Command → γ → Except RecognitionError Unit → γ → Prop
  /-- Nothing is left to be carried out. -/
  | done (l : γ) : Replays start stop [] l (.ok ()) l
  /-- A command is carried out in its place, and so are the others. -/
  | step {c : Command} {rest : List Command} {l m t : γ} {r : Except RecognitionError Unit} :
    (∀ i, c.place? start stop = some i → CommandTarget.index (c.toPlace start stop l) = i) →
      c.run (c.toPlace start stop l) = (.ok (), m) → Replays start stop rest m r t →
      Replays start stop (c :: rest) l r t
  /-- A command fails in its place, and the others are left out. -/
  | fail {c : Command} {rest : List Command} {l t : γ} {e : RecognitionError} :
    (∀ i, c.place? start stop = some i → CommandTarget.index (c.toPlace start stop l) = i) →
      c.run (c.toPlace start stop l) = (.error e, t) → Replays start stop (c :: rest) l (.error e) t

/-! ## One command -/

/-- A command is carried out at its distance from `start` exactly if that is a 64-bit number. -/
theorem replayIndex_eq_iff {start offset : Nat} :
    replayIndex start offset = start + offset ↔ start + offset < 2 ^ 64 :=
  Nat.mod_eq_iff_lt (by decide)

theorem index_toPlace (h : CommandTarget.Steady γ) {start stop i : Nat} {c : Command}
    (hi : c.place? start stop = some i) (l : γ) : CommandTarget.index (c.toPlace start stop l) = i := by
  rw [toPlace, hi]
  exact h.index_seek i l

/-- Whether the input has to be moved back after a command, if it had to before. -/
def awayAfter (start stop : Nat) (c : Command) (away : Bool) : Bool :=
  match c.place? start stop with
  | some i => decide (i ≠ stop)
  | none => away

/-- The input is moved to the place of the first command, and back if it fails away from `stop`. -/
theorem runFrom_cons (start stop : Nat) (away : Bool) (c : Command) (rest : List Command) (l : γ) :
    runFrom start stop away (c :: rest) l =
      match c.run (c.toPlace start stop l) with
      | (.ok (), n) => runFrom start stop (c.awayAfter start stop away) rest n
      | (.error e, n) =>
        (.error e, if c.awayAfter start stop away then CommandTarget.seek stop n else n) := by
  -- What is done when the input is in place is the same for all commands.
  have hgo (away : Bool) (c : Command) (l : γ) : (do
        tryCatch c.run fun e => do
          if away then modify (CommandTarget.seek stop)
          throw e
        runFrom start stop away rest : Run γ Unit) l =
      match c.run l with
      | (.ok (), n) => runFrom start stop away rest n
      | (.error e, n) => (.error e, if away then CommandTarget.seek stop n else n) := by
    rw [Run.bind_apply, Run.tryCatch_apply]
    rcases c.run l with ⟨e | u, n⟩
    · cases away <;> rfl
    · rfl
  rw [runFrom.eq_def]
  cases c with
  | pinned offset inner =>
    exact hgo (decide (replayIndex start offset ≠ stop)) inner (CommandTarget.seek _ l)
  | custom rule action =>
    have hhome : awayAfter start stop (custom rule action) away = false := by simp [awayAfter, place?]
    rw [hhome]
    exact hgo false (custom rule action) (CommandTarget.seek stop l)
  | channel channel => exact hgo away (.channel channel) l
  | mode mode => exact hgo away (.mode mode) l
  | more => exact hgo away .more l
  | popMode => exact hgo away .popMode l
  | pushMode mode => exact hgo away (.pushMode mode) l
  | skip => exact hgo away .skip l
  | type type => exact hgo away (.type type) l

/-- A single command does not move the input. -/
theorem index_run (h : CommandTarget.Steady γ) (c : Command) (l : γ) :
    CommandTarget.index (c.run l).2 = CommandTarget.index l := by
  induction c with
  | channel channel => exact h.index_setChannel channel l
  | custom rule action => exact h.index_custom rule action l
  | mode mode => exact h.index_setMode mode l
  | more => exact h.index_more l
  | popMode => exact h.index_popMode l
  | pushMode mode => exact h.index_pushMode mode l
  | skip => exact h.index_skip l
  | type type => exact h.index_setType type l
  | pinned offset c ih => exact ih

/-! ## All commands -/

/-- Where the input can be moved anywhere, commands leave it where it was. -/
theorem keep_of_steady (h : CommandTarget.Steady γ) (stop : Nat) :
    Keep (fun _ : γ => True) stop where
  run i c l hl := by
    have hrun := index_run h c l
    rcases hc : c.run l with ⟨e | u, m⟩ <;> rw [hc] at hrun
    · exact ⟨trivial, hrun.trans hl.2⟩
    · exact ⟨trivial, hrun.trans hl.2⟩
  seek _ _ _ := trivial
  back l _ := h.index_seek stop l

/-- However the input is to be moved back, the commands are carried out in their places. -/
theorem runFrom_replays (h : CommandTarget.Steady γ) (start stop : Nat) (commands : List Command)
    (away : Bool) (l : γ) :
    ∃ t, Replays start stop commands l (runFrom start stop away commands l).1 t ∧
      ((runFrom start stop away commands l).2 = t ∨
        (runFrom start stop away commands l).2 = CommandTarget.seek stop t) := by
  induction commands generalizing away l with
  | nil =>
    cases away with
    | false => exact ⟨l, .done l, .inl rfl⟩
    | true => exact ⟨l, .done l, .inr rfl⟩
  | cons c rest ih =>
    have hplace (i : Nat) (hi : c.place? start stop = some i) := index_toPlace h hi l
    -- Whether the input is moved back matters only once a command has failed or none is left.
    rw [runFrom_cons]
    rcases hrun : c.run (c.toPlace start stop l) with ⟨e | u, m⟩
    · refine ⟨m, .fail hplace hrun, ?_⟩
      cases c.awayAfter start stop away with
      | false => exact .inl rfl
      | true => exact .inr rfl
    · obtain ⟨t, hrest, hback⟩ := ih (c.awayAfter start stop away) m
      exact ⟨t, .step hplace hrun hrest, hback⟩

/-- **Carrying out commands.**  They are carried out in order, each in its place, up to the first that
fails, whose error is the outcome.  Then the input is moved back, if need be, to where it was.  The place of a
pinned command is at its distance from the start if that is a 64-bit number, and only then. -/
theorem runAll_replays (h : CommandTarget.Steady γ) (commands : List Command) (start : Nat) (l : γ) :
    (∃ t, Replays start (CommandTarget.index l) commands l (runAll commands start l).1 t ∧
      ((runAll commands start l).2 = t ∨
        (runAll commands start l).2 = CommandTarget.seek (CommandTarget.index l) t) ∧
      CommandTarget.index (runAll commands start l).2 = CommandTarget.index l) ∧
    ∀ offset inner, (pinned offset inner).place? start (CommandTarget.index l) = some (start + offset) ↔
      start + offset < 2 ^ 64 := by
  obtain ⟨t, hreplays, hback⟩ := runFrom_replays h start (CommandTarget.index l) commands false l
  have hindex : CommandTarget.index (runAll commands start l).2 = CommandTarget.index l := by
    have hkept := (keep_of_steady h (CommandTarget.index l)).runAll commands start l ⟨trivial, rfl⟩
    rcases hrun : runAll commands start l with ⟨e | u, m⟩ <;> rw [hrun] at hkept
    · exact hkept.2
    · exact hkept.2
  refine ⟨⟨t, hreplays, hback, hindex⟩, fun offset inner => ?_⟩
  rw [place?, Option.some.injEq, replayIndex_eq_iff]

/-! ## A notebook -/

/-- Something for commands to act on: it notes which actions of the author's ran, and where. -/
structure Notebook where
  /-- Where the input stands. -/
  index : Nat
  /-- The suspended modes, the last one first. -/
  suspended : List Nat := []
  /-- The actions, each with its rule, its number and the index, the last one first. -/
  notes : List (Nat × Nat × Nat) := []

instance : CommandTarget Notebook where
  skip b := b
  more b := b
  setType _ b := b
  setChannel _ b := b
  setMode _ b := b
  pushMode mode b := { b with suspended := mode :: b.suspended }
  popMode b :=
    match b.suspended with
    | [] => (.error (.modeStackEmpty b.index), b)
    | _ :: suspended => (.ok (), { b with suspended })
  custom rule action b := { b with notes := (rule, action, b.index) :: b.notes }
  index := Notebook.index
  seek index b := { b with index }

theorem steady_notebook : CommandTarget.Steady Notebook where
  index_seek _ _ := rfl
  index_skip _ := rfl
  index_more _ := rfl
  index_setType _ _ := rfl
  index_setChannel _ _ := rfl
  index_setMode _ _ := rfl
  index_pushMode _ _ := rfl
  index_popMode b := by
    obtain ⟨index, _ | ⟨mode, suspended⟩, notes⟩ := b <;> rfl
  index_custom _ _ _ := rfl

/-- Three actions run, one at its pin, one where the token ends and one in front of the token, as its pin is too
far away; then a pinned command fails, and the last action is left out. -/
theorem runAll_replays_notebook :
    let far := pinned (2 ^ 64 - 1) (custom 2 2)
    let commands := [pinned 1 (custom 2 0), more, custom 2 1, far, pinned 3 popMode, custom 2 3]
    let after : Notebook := { index := 14, notes := [(2, 2, 9), (2, 1, 14), (2, 0, 11)] }
    CommandTarget.Steady Notebook ∧
      runAll commands 10 ({ index := 14 } : Notebook) = (.error (.modeStackEmpty 13), after) ∧
      (∃ t, Replays 10 14 commands ({ index := 14 } : Notebook) (.error (.modeStackEmpty 13)) t ∧
        (after = t ∨ after = CommandTarget.seek 14 t) ∧ CommandTarget.index after = 14) ∧
      far.place? 10 14 ≠ some (10 + (2 ^ 64 - 1)) := by
  intro far commands after
  obtain ⟨hreplays, hplaces⟩ := runAll_replays steady_notebook commands 10 { index := 14 }
  exact ⟨steady_notebook, rfl, hreplays, mt (hplaces (2 ^ 64 - 1) (custom 2 2)).mp (by decide)⟩

end Command
end AdaptiveLL
