import AdaptiveLL.Automaton.Basic
import AdaptiveLL.Conflict

/-!
# What a set of configurations recognises

`classify` makes an automaton state of the configurations reached on some tokens.  If one
alternative is left, it is recognised.  If reading on is pointless, the alternatives are in
conflict: the lowest is recognised, and the caller's stack may still decide otherwise.  If the
configurations are guarded, what is recognised depends on the guards: the state then lists each of
the alternatives in question with the disjunction of its guards.
-/

namespace AdaptiveLL
namespace ConfigSet

/-- The disjunction of an alternative's guards; no condition if it does not occur. -/
def altGuard (s : ConfigSet) (alt : Nat) : Guard :=
  match (s.toList.filter fun c => c.alt = alt).map Config.guard with
  | [] => .always
  | g :: gs => gs.foldl Guard.either g

/-- Those of `alts` that a decision with `count` alternatives has, with their guards; none if no
guard is among them. -/
def guardedAlts? (s : ConfigSet) (alts : AltSet) (count : Nat) : Option (List GuardedAlt) :=
  let pairs := (alts.toList.filter fun a => 1 ≤ a && a ≤ count).map fun a => ⟨s.altGuard a, a⟩
  if pairs.any fun p => !p.guard.isAlways then some pairs else none

/-- The alternatives that were found to be in conflict, or the only one left. -/
def altsInQuestion? (s : ConfigSet) : Option AltSet :=
  match s.conflictingAlts, s.uniqueAlt with
  | some alts, _ => some alts
  | none, some alt => some (AltSet.singleton alt)
  | none, none => none

end ConfigSet

namespace AutomatonState

/-- Makes what a state recognises depend on the guards of its configurations, where there are
any. -/
def applyGuards (count : Nat) (s : AutomatonState) : AutomatonState :=
  if s.isAccept && s.configs.hasGuards then
    match s.configs.altsInQuestion? with
    | none => s
    | some alts =>
      match s.configs.guardedAlts? alts count with
      | some pairs => { s with guardedAlts := some pairs, prediction := none }
      | none => { s with prediction := alts.min? }
  else s

/-- The state for configurations with one alternative left. -/
def recognising (count alt : Nat) (configs : ConfigSet) : AutomatonState :=
  applyGuards count
    { configs := { configs with uniqueAlt := some alt }, isAccept := true, prediction := some alt }

/-- The state for configurations whose alternatives are in conflict. -/
def contested (count : Nat) (alts : AltSet) (configs : ConfigSet) : AutomatonState :=
  applyGuards count
    { configs := { configs with conflictingAlts := some alts }
      isAccept := true
      prediction := alts.min?
      needsFullContext := true }

/-- The state for configurations that were reached, in a decision with `count` alternatives. -/
def classify (mode : PredictionMode) (n : Network) (count : Nat) (configs : ConfigSet)
    (g : StackGraph) : AutomatonState × StackGraph :=
  match configs.findUniqueAlt with
  | some alt => (recognising count alt configs, g)
  | none =>
    let (stops, g) := configs.stopsReading mode n g
    (if stops then contested count configs.findConflictingAlts configs else ofConfigs configs, g)

end AutomatonState
end AdaptiveLL
