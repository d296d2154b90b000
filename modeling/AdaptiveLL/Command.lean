import AdaptiveLL.Error

/-!
# Lexer commands

A token rule may carry commands that run once the token is settled: drop it, extend it, change
its type or channel, switch modes, or call the author's own code.  Only the author's code depends
on where the input stands, so when a match goes on past such a command, the command is pinned
to its distance from the start of the token (`Command.pinAll`) and replayed there (`runAll`).

`CommandTarget` is what commands act on.
-/

namespace AdaptiveLL

/-- A lexer command. -/
inductive Command where
  /-- Put the token on a channel. -/
  | channel (channel : Int)
  /-- Run an action of the author's. -/
  | custom (rule index : Nat)
  /-- Switch to a mode. -/
  | mode (mode : Nat)
  /-- Extend the token by the next match. -/
  | more
  /-- Return to the mode that was suspended last. -/
  | popMode
  /-- Suspend the current mode and switch. -/
  | pushMode (mode : Nat)
  /-- Drop the token. -/
  | skip
  /-- Give the token another type. -/
  | type (tokenType : Int)
  /-- A command with its distance from the start of the token. -/
  | pinned (offset : Nat) (command : Command)
deriving DecidableEq, Hashable, Repr, Inhabited

namespace Command

/-- Whether the effect depends on where the input stands. -/
def dependsOnPosition : Command → Bool
  | custom .. | pinned .. => true
  | _ => false

/-- The text of a command. -/
def toText : Command → String
  | channel c => "channel(" ++ toString c ++ ")"
  | custom r a => "action(" ++ toString r ++ ":" ++ toString a ++ ")"
  | mode m => "mode(" ++ toString m ++ ")"
  | more => "more"
  | popMode => "popMode"
  | pushMode m => "pushMode(" ++ toString m ++ ")"
  | skip => "skip"
  | type t => "type(" ++ toString t ++ ")"
  | pinned offset command => command.toText ++ "@" ++ toString offset

/-- Whether a command depends on the position and has none yet. -/
def needsPin : Command → Bool
  | custom .. => true
  | _ => false

/-- Gives a command that needs one a distance from the start of the token. -/
def pin (offset : Nat) (command : Command) : Command :=
  if command.needsPin then pinned offset command else command

/-- Gives every command that needs one a distance from the start of the token. -/
def pinAll (offset : Nat) (commands : List Command) : List Command := commands.map (pin offset)

/-- Where a command is carried out that is pinned to a distance from `start`.  The two are 64-bit
numbers, and so is their sum, which wraps around. -/
def replayIndex (start offset : Nat) : Nat := (start + offset) % 18446744073709551616

end Command

/-- What lexer commands act on: a token in the making and the lexer's modes, as values of `γ`. -/
class CommandTarget (γ : Type) where
  /-- Drop the token. -/
  skip : γ → γ
  /-- Extend the token by the next match. -/
  more : γ → γ
  /-- Give the token another type. -/
  setType : Int → γ → γ
  /-- Put the token on a channel. -/
  setChannel : Int → γ → γ
  /-- Switch to a mode. -/
  setMode : Nat → γ → γ
  /-- Suspend the current mode and switch. -/
  pushMode : Nat → γ → γ
  /-- Return to the mode that was suspended last. -/
  popMode : Run γ Unit
  /-- Run an action of the author's. -/
  custom : Nat → Nat → γ → γ
  /-- Where the input stands. -/
  index : γ → Nat
  /-- Move the input. -/
  seek : Nat → γ → γ

namespace Command

variable {γ : Type} [CommandTarget γ]

/-- Carries out a command.  A pinned command does what the command in it does. -/
def run : Command → Run γ Unit
  | channel c => modify (CommandTarget.setChannel c)
  | custom r a => modify (CommandTarget.custom r a)
  | mode m => modify (CommandTarget.setMode m)
  | more => modify CommandTarget.more
  | popMode => CommandTarget.popMode
  | pushMode m => modify (CommandTarget.pushMode m)
  | skip => modify CommandTarget.skip
  | type t => modify (CommandTarget.setType t)
  | pinned _ command => command.run

/-- Carries out commands in order until one fails.  Before a pinned command the input moves to
its place, before an unpinned one that depends on the position it moves back to `stop`.
`away` says whether the input is to be moved back to `stop` in the end. -/
def runFrom (start stop : Nat) (away : Bool) : List Command → Run γ Unit
  | [] => if away then modify (CommandTarget.seek stop) else pure ()
  | command :: rest => do
    let (away, command) ← match command with
      | pinned offset inner => do
        modify (CommandTarget.seek (replayIndex start offset))
        pure (decide (replayIndex start offset ≠ stop), inner)
      | other =>
        if other.dependsOnPosition then do
          modify (CommandTarget.seek stop)
          pure (false, other)
        else pure (away, other)
    tryCatch command.run fun e => do
      if away then modify (CommandTarget.seek stop)
      throw e
    runFrom start stop away rest

/-- Carries out the commands of a token that starts at `start`, and leaves the input where it
was. -/
def runAll (commands : List Command) (start : Nat) : Run γ Unit := do
  let stop := CommandTarget.index (← get)
  runFrom start stop false commands

end Command

end AdaptiveLL
