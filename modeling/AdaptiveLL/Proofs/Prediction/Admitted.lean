import Mathlib
import AdaptiveLL.Proofs.Guard
import AdaptiveLL.Proofs.Prediction.Numbering

/-! # What guarded states recognise

A state that recognises something under guards lists each alternative in question with the disjunction of
the guards that its configurations collected.  These disjunctions were simplified when the state was
made, and if all of them came out as no condition the state lists nothing and names the lowest alternative
instead.  Either way it admits an alternative just if some configuration of the alternative has a guard
that holds (`ConfigSet.holds_altGuard`, `Predictor.admitted_iff`), and without asking the caller's stack the
lowest of them is chosen (`Predictor.accept_lowest_admitted`).

That the list leaves out no alternative in question takes a history: it is made for the alternatives
from one up to the number that the decision has, and those of stored states are among them
(`Cache.Served.numbered`).
-/
namespace AdaptiveLL

/-- A set of alternatives has a lowest one, or it is empty. -/
theorem AltSet.min?_cases (alts : AltSet) :
    (∃ m, alts.min? = some m ∧ IsLeast {alt | alt ∈ alts.toList} m) ∨
      alts.min? = none ∧ ∀ alt, alt ∉ alts.toList := by
  cases hm : alts.min? with
  | some m => exact .inl ⟨m, rfl, AltSet.min?_eq_some_iff.mp hm⟩
  | none =>
    refine .inr ⟨rfl, fun alt halt => ?_⟩
    obtain ⟨m, hm'⟩ := AltSet.exists_min? halt
    rw [hm] at hm'
    cases hm'

namespace ConfigSet
variable {σ : Type} {hooks : ParserHooks σ} {outer : List Invocation} {author : σ}
  {t : ConfigSet} {alts : AltSet} {count : Nat} {pairs : List GuardedAlt}

/-- The joint guard of an alternative holds if that of some configuration does. -/
theorem holds_altGuard (hsteady : hooks.Steady) {alt : Nat} (halt : ∃ c ∈ t.toList, c.alt = alt) :
    (t.altGuard alt).Holds hooks outer author ↔
      ∃ c ∈ t.toList, c.alt = alt ∧ c.guard.Holds hooks outer author := by
  have hguards : ∀ g, g ∈ (t.toList.filter fun c => c.alt = alt).map Config.guard ↔
      ∃ c ∈ t.toList, c.alt = alt ∧ c.guard = g := by
    intro g
    simp only [List.mem_map, List.mem_filter, decide_eq_true_eq, and_assoc]
  have hsome : ∃ g, g ∈ (t.toList.filter fun c => c.alt = alt).map Config.guard := by
    obtain ⟨c, hc, rfl⟩ := halt
    exact ⟨c.guard, (hguards _).mpr ⟨c, hc, rfl, rfl⟩⟩
  unfold altGuard
  generalize (t.toList.filter fun c => c.alt = alt).map Config.guard = gs at hguards hsome
  cases gs with
  | nil =>
    obtain ⟨g, hg⟩ := hsome
    cases hg
  | cons g gs =>
    rw [Guard.holds_foldl_either hsteady]
    simp only [hguards]
    constructor
    · rintro ⟨h, ⟨c, hc, halt, rfl⟩, hh⟩
      exact ⟨c, hc, halt, hh⟩
    · rintro ⟨c, hc, halt, hh⟩
      exact ⟨c.guard, ⟨c, hc, halt, rfl⟩, hh⟩

/-- Of alternatives that the decision has, none is left out. -/
theorem mem_of_guardedAlts? (hrange : ∀ alt ∈ alts.toList, OneOf count alt)
    (h : t.guardedAlts? alts count = some pairs) {pair : GuardedAlt} :
    pair ∈ pairs ↔ pair.alt ∈ alts.toList ∧ pair.guard = t.altGuard pair.alt := by
  unfold guardedAlts? at h
  dsimp only at h
  split at h
  · obtain rfl := Option.some.inj h
    rw [List.mem_map]
    constructor
    · rintro ⟨alt, halt, rfl⟩
      exact ⟨(List.mem_filter.mp halt).1, rfl⟩
    · rintro ⟨halt, hguard⟩
      refine ⟨pair.alt, List.mem_filter.mpr ⟨halt, ?_⟩, ?_⟩
      · simpa [OneOf] using hrange _ halt
      · rw [← hguard]
  · cases h

/-- Nothing is listed if there is no condition on any of them. -/
theorem isAlways_of_guardedAlts? (hrange : ∀ alt ∈ alts.toList, OneOf count alt)
    (h : t.guardedAlts? alts count = none) {alt : Nat} (halt : alt ∈ alts.toList) :
    (t.altGuard alt).isAlways := by
  unfold guardedAlts? at h
  dsimp only at h
  split at h
  · cases h
  · next hnone =>
    have hmem : alt ∈ alts.toList.filter fun a => 1 ≤ a && a ≤ count :=
      List.mem_filter.mpr ⟨halt, by simpa [OneOf] using hrange _ halt⟩
    simp only [List.any_map, List.any_eq_true, not_exists, not_and] at hnone
    simpa using hnone alt hmem

end ConfigSet

namespace AutomatonState
variable {count : Nat} {u : AutomatonState}

/-- What a state that recognises something under guards says of the alternatives in question. -/
theorem Classified.guarded (h : u.Classified count) (haccept : u.isAccept)
    (hguards : u.configs.hasGuards) :
    ∃ alts, u.configs.altsInQuestion? = some alts ∧ (∃ m, alts.min? = some m) ∧
      ((∃ pairs, u.configs.guardedAlts? alts count = some pairs ∧ u.guardedAlts = some pairs) ∨
        u.configs.guardedAlts? alts count = none ∧ u.guardedAlts = none ∧ u.prediction = alts.min?) := by
  have hv := h.eq_verdict
  rw [verdict] at hv
  have hunguarded : (unguarded u.configs).isAccept := by
    rwa [← isAccept_applyGuards count, ← hv]
  obtain ⟨alts, halts, hmin⟩ : ∃ alts, u.configs.altsInQuestion? = some alts ∧ ∃ m, alts.min? = some m := by
    unfold ConfigSet.altsInQuestion?
    unfold unguarded at hunguarded
    cases hc : u.configs.conflictingAlts with
    | some alts => exact ⟨alts, rfl, h.contested alts hc⟩
    | none =>
      cases hunique : u.configs.uniqueAlt with
      | some alt => exact ⟨AltSet.singleton alt, rfl, alt, rfl⟩
      | none => simp [hc, hunique] at hunguarded
  refine ⟨alts, halts, hmin, ?_⟩
  have happly : u.isAccept && u.configs.hasGuards := by rw [haccept, hguards]; rfl
  unfold applyGuards at hv
  rw [configs_unguarded, hunguarded, hguards, Bool.true_and, if_pos rfl, halts] at hv
  dsimp only at hv
  cases hpairs : u.configs.guardedAlts? alts count with
  | some pairs =>
    rw [hpairs] at hv
    exact .inl ⟨pairs, rfl, congrArg guardedAlts hv⟩
  | none =>
    rw [hpairs] at hv
    refine .inr ⟨rfl, ?_, congrArg prediction hv⟩
    have hlist : (unguarded u.configs).guardedAlts = none := by
      unfold unguarded
      split <;> rfl
    exact (congrArg guardedAlts hv).trans hlist

end AutomatonState

namespace Predictor
open Run
variable {σ : Type} {q : Question σ}

/-- Asking for guards changes nothing. -/
theorem passes_steady (hsteady : q.hooks.Steady) (g : Guard) (s : Session σ) :
    passes q g s = (.ok (g.eval q.hooks q.outer s.author).1, s) := by
  unfold passes
  split
  · next halways =>
    have hholds : (g.eval q.hooks q.outer s.author).1 = true := Guard.holds_of_isAlways halways
    rw [hholds]
    rfl
  · obtain ⟨p, stream, author⟩ := s
    have hauthor : (g.eval q.hooks q.outer author).2 = author := Guard.eval_snd hsteady g author
    show (Except.ok (g.eval q.hooks q.outer author).1, (⟨p, stream, (g.eval q.hooks q.outer author).2⟩ : Session σ)) = _
    rw [hauthor]

/-- The alternatives that are admitted are those with a guard that holds. -/
theorem admitted_iff (hsteady : q.hooks.Steady) (pairs : List GuardedAlt) (s : Session σ) :
    ∃ selected, admitted q pairs s = (.ok selected, s) ∧
      ∀ alt, alt ∈ selected.toList ↔
        ∃ pair ∈ pairs, pair.alt = alt ∧ pair.guard.Holds q.hooks q.outer s.author := by
  induction pairs with
  | nil => exact ⟨AltSet.empty, rfl, fun alt => by simp [AltSet.empty]⟩
  | cons pair pairs ih =>
    obtain ⟨rest, hrest, hmem⟩ := ih
    refine ⟨if (pair.guard.eval q.hooks q.outer s.author).1 then rest.insert pair.alt else rest, ?_, ?_⟩
    · rw [admitted, Run.bind_apply, passes_steady hsteady]
      dsimp only
      rw [Run.bind_apply, hrest]
      rfl
    · intro alt
      rw [List.exists_mem_cons_iff, ← hmem]
      split
      · next hholds =>
        have hpair : pair.guard.Holds q.hooks q.outer s.author := hholds
        rw [AltSet.mem_insert, eq_comm]
        simp [hpair]
      · next hfails =>
        have hpair : ¬ pair.guard.Holds q.hooks q.outer s.author := hfails
        simp [hpair]

/-- What an accepting state recognises without a list of guards. -/
theorem accept_plain (t : Target) {u : AutomatonState} (hlist : u.guardedAlts = none) {m : Nat}
    (hm : u.prediction = some m) (x : Symbol) (s : Session σ) : (accept q t u x s).1 = .ok m := by
  unfold accept
  rw [hlist]
  dsimp only
  rw [Run.bind_apply, hm]
  rfl

/-- With a list, the lowest alternative that is admitted, if there is one. -/
theorem accept_guarded (t : Target) {u : AutomatonState} {pairs : List GuardedAlt}
    (hlist : u.guardedAlts = some pairs) (x : Symbol) {s : Session σ} {selected : AltSet}
    (hadmitted : admitted q pairs { s with stream := s.stream.seek q.start } =
      (.ok selected, { s with stream := s.stream.seek q.start })) :
    (accept q t u x s).1 =
      match selected.min? with
      | some alt => .ok alt
      | none => .error (.noViableAlt q.decision q.start s.stream.index x) := by
  unfold accept
  rw [hlist]
  dsimp only
  rw [Run.bind_apply, Run.get_apply]
  show ((admitted q pairs >>= fun alts => countSll >>= fun _ => _) _).1 = _
  rw [Run.bind_apply, hadmitted]
  dsimp only
  cases selected.min? <;> rfl

/-- A result is the lowest alternative with a property, or there is none and it is a certain error. -/
theorem lowest_iff {P : Nat → Prop} {r : Except RecognitionError Nat} {e : RecognitionError}
    (h : (∃ m, IsLeast {alt | P alt} m ∧ r = .ok m) ∨ (∀ alt, ¬ P alt) ∧ r = .error e) :
    (∀ alt, r = .ok alt ↔ IsLeast {alt | P alt} alt) ∧ (r = .error e ↔ ∀ alt, ¬ P alt) := by
  rcases h with ⟨m, hm, rfl⟩ | ⟨hnone, rfl⟩
  · refine ⟨fun alt => ?_, iff_of_false (fun h => ?_) fun h => h m hm.1⟩
    · rw [Except.ok.injEq]
      exact ⟨fun h => h ▸ hm, fun h => hm.unique h⟩
    · cases h
  · refine ⟨fun alt => iff_of_false (fun h => ?_) fun h => hnone alt h.1, iff_of_true rfl hnone⟩
    cases h

/-- **A state with guards recognises the lowest alternative that they admit.**  Let a state that recognises
something be stored after any requests, with guards among its configurations, and let the author's
callbacks change nothing and allow whatever is above a level that they allow.  The alternatives in question
are those in conflict, or the only one left.  Deciding the listed guards admits just those of them with a
configuration whose guard holds, and where none is listed all are admitted.  Without asking the caller's
stack, the lowest one admitted is chosen, and there is no viable alternative just if none is. -/
theorem accept_lowest_admitted {n : Network} {c : Cache} (hc : c.Served n) {d i : Nat} {a : Automaton}
    {u : AutomatonState} (ha : c.automata[d]? = some a) (hu : a.states[i]? = some u)
    (haccept : u.isAccept) (hguards : u.configs.hasGuards) (q : Question σ) (hsteady : q.hooks.Steady)
    (steps : Nat) (x : Symbol) (s : Session σ) :
    ∃ alts, u.configs.altsInQuestion? = some alts ∧
      let admits : Nat → Prop := fun alt => alt ∈ alts.toList ∧
        ∃ c ∈ u.configs.toList, c.alt = alt ∧ c.guard.Holds q.hooks q.outer s.author
      (∀ pairs, u.guardedAlts = some pairs → ∃ selected, admitted q pairs s = (.ok selected, s) ∧
        ∀ alt, alt ∈ selected.toList ↔ admits alt) ∧
      (u.guardedAlts = none → u.prediction = alts.min? ∧ ∀ alt ∈ alts.toList, admits alt) ∧
      ∃ halt, haltAt? .sll steps (.state i) u x = some halt ∧
        (∀ alt, (conclude q halt s).1 = .ok alt ↔ IsLeast {alt | admits alt} alt) ∧
        ((conclude q halt s).1 = .error (.noViableAlt q.decision q.start s.stream.index x) ↔
          ∀ alt, ¬ admits alt) := by
  have hnumbered := (hc.numbered.automata ha).states hu
  have hclassified : u.bare.Classified (n.alternatives d) :=
    ((hc.faithful.automata ha).states hu).1
  obtain ⟨alts, halts, ⟨m, hm⟩, hcases⟩ := hclassified.guarded haccept hguards
  -- the alternatives in question occur, so they are among those that the decision has
  have hoccurs := hnumbered.occurring alts halts
  have hrange : ∀ alt ∈ alts.toList, OneOf (n.alternatives d) alt := by
    intro alt halt
    obtain ⟨c, hc, rfl⟩ := hoccurs alt halt
    exact hnumbered.range c hc
  refine ⟨alts, halts, ?_⟩
  intro admits
  have hadmits : ∀ {alt}, alt ∈ alts.toList →
      ((u.configs.altGuard alt).Holds q.hooks q.outer s.author ↔ admits alt) := by
    intro alt halt
    rw [ConfigSet.holds_altGuard hsteady (hoccurs alt halt)]
    exact (and_iff_right halt).symm
  have hhalt : haltAt? .sll steps (.state i) u x = some (.accepting (.state i) u x) := by
    simp [haltAt?, haccept]
  rcases hcases with ⟨pairs, hpairs, hlist⟩ | ⟨hnone, hlist, hprediction⟩
  · have hmem : ∀ alt, (∃ pair ∈ pairs, pair.alt = alt ∧ pair.guard.Holds q.hooks q.outer s.author) ↔
        admits alt := by
      intro alt
      constructor
      · rintro ⟨pair, hpair, rfl, hholds⟩
        obtain ⟨halt, hguard⟩ := (ConfigSet.mem_of_guardedAlts? hrange hpairs).mp hpair
        exact (hadmits halt).mp (hguard ▸ hholds)
      · intro h
        exact ⟨⟨u.configs.altGuard alt, alt⟩,
          (ConfigSet.mem_of_guardedAlts? hrange hpairs).mpr ⟨h.1, rfl⟩, rfl, (hadmits h.1).mpr h⟩
    refine ⟨fun pairs' hlist' => ?_, fun hlist' => ?_, ?_⟩
    · obtain rfl : pairs = pairs' := Option.some.inj (hlist.symm.trans hlist')
      obtain ⟨selected, hrun, hselected⟩ := admitted_iff hsteady pairs s
      exact ⟨selected, hrun, fun alt => (hselected alt).trans (hmem alt)⟩
    · cases hlist.symm.trans hlist'
    · obtain ⟨selected, hrun, hselected⟩ :=
        admitted_iff hsteady pairs { s with stream := s.stream.seek q.start }
      have hset : {alt | alt ∈ selected.toList} = {alt | admits alt} :=
        Set.ext fun alt => (hselected alt).trans (hmem alt)
      refine ⟨_, hhalt, lowest_iff ?_⟩
      rw [conclude, accept_guarded (u := u) (.state i) hlist x hrun, ← hset]
      rcases selected.min?_cases with ⟨m, hm, hleast⟩ | ⟨hm, hnone⟩
      · rw [hm]
        exact .inl ⟨m, hleast, rfl⟩
      · rw [hm]
        exact .inr ⟨fun alt h => hnone alt ((hselected alt).mpr ((hmem alt).mpr h)), rfl⟩
  · have hall : ∀ alt ∈ alts.toList, admits alt := fun alt halt =>
      (hadmits halt).mp (Guard.holds_of_isAlways (ConfigSet.isAlways_of_guardedAlts? hrange hnone halt))
    refine ⟨fun pairs hlist' => ?_, fun _ => ⟨hprediction, hall⟩, ?_⟩
    · cases hlist.symm.trans hlist'
    · obtain ⟨hleast, hle⟩ := AltSet.min?_eq_some_iff.mp hm
      refine ⟨_, hhalt, lowest_iff (.inl ⟨m, ⟨hall m hleast, fun alt h => hle alt h.1⟩, ?_⟩)⟩
      exact accept_plain (.state i) hlist (hprediction.trans hm) x s

/-- A network with a decision between a token under a guard and the same token without one. -/
def guardedFork : Network where
  kind := .parser
  maxSymbol := 1
  states := #[
    { id := 0, rule := 0, kind := .blockStart, transitions := [.epsilon 2, .epsilon 3],
      decision := some 0 },
    { id := 1, rule := 0, kind := .blockEnd },
    { id := 2, rule := 0, kind := .basic, transitions := [.predicate 3 0 0 false] },
    { id := 3, rule := 0, kind := .basic, transitions := [.symbol 1 1] }]
  decisions := #[0]

/-- An author who refuses every predicate. -/
def refusing : ParserHooks Unit := { ParserHooks.none with predicate := fun _ _ _ s => (false, s) }

theorem steady_refusing : refusing.Steady := { ParserHooks.steady_none with predicate := fun _ _ _ _ => rfl }

theorem accept_lowest_admitted_fork :
    ∃ (c : Cache) (a : Automaton) (u : AutomatonState), c.Served guardedFork ∧ c.automata[0]? = some a ∧ a.states[1]? = some u ∧
      u.isAccept = true ∧ u.configs.hasGuards = true ∧ refusing.Steady ∧
      ∃ alts, u.configs.altsInQuestion? = some alts ∧
        ∃ halt, haltAt? .sll 0 (.state 1) u 1 = some halt ∧ ∀ alt,
          (conclude ⟨refusing, [], 0, 0⟩ halt
            ⟨ofNetwork guardedFork {}, TokenStream.ofTypes [1], ()⟩).1 = .ok alt ↔
          IsLeast {alt | alt ∈ alts.toList ∧
            ∃ c ∈ u.configs.toList, c.alt = alt ∧ c.guard.Holds refusing [] ()} alt := by
  obtain ⟨s, a, u, hs, ha, hu, haccept, hguards⟩ : ∃ (s : Session Unit) (a : Automaton)
      (u : AutomatonState), predict ParserHooks.none [] 0
        ⟨ofNetwork guardedFork { mode := .sll }, TokenStream.ofTypes [1], ()⟩ = (.ok 1, s) ∧
      s.predictor.cache.automata[0]? = some a ∧ a.states[1]? = some u ∧ u.isAccept = true ∧
      u.configs.hasGuards = true :=
    ⟨_, _, _, by cbv, by cbv, by cbv, by cbv, by cbv⟩
  have hserved : s.predictor.cache.Served guardedFork := by
    have := Cache.Served.predict (s := ⟨ofNetwork guardedFork { mode := .sll }, TokenStream.ofTypes [1], ()⟩)
      ParserHooks.none [] 0 rfl .fresh
    rwa [hs] at this
  obtain ⟨alts, halts, -, -, halt, hhalt, hok, -⟩ := accept_lowest_admitted hserved ha hu haccept hguards
    ⟨refusing, [], 0, 0⟩ steady_refusing 0 1 ⟨ofNetwork guardedFork {}, TokenStream.ofTypes [1], ()⟩
  exact ⟨_, a, u, hserved, ha, hu, haccept, hguards, steady_refusing, alts, halts, halt, hhalt, hok⟩

end Predictor
end AdaptiveLL
