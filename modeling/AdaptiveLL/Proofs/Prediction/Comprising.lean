import Mathlib
import AdaptiveLL.Proofs.Guard
import AdaptiveLL.Proofs.Prediction.FullContext
import AdaptiveLL.Proofs.Prediction.Tracked

/-! # Sets that are known entry by entry

`ConfigSet.Comprises` says of a set without the caller's stack which entries it has.  A set with one entry is
classified as one that recognises the entry's alternative, under the entry's guard if it has one.  A set whose two
entries are for the first and the second alternative at one place is in conflict whatever the mode is, and
if the first one is guarded its guard decides (`AutomatonState.classify_one`, `classify_two`).
-/
namespace AdaptiveLL
open StackGraph (Extends)
variable {g h : StackGraph} {S : Set (List Nat)} {n : Network}

namespace ConfigSet
variable {s t : ConfigSet} {keys : Nat × Nat × Guard → Prop}

/-- A set without the caller's stack has just these entries, each once, all over the same stacks. -/
structure Comprises (g : StackGraph) (keys : Nat × Nat × Guard → Prop) (S : Set (List Nat)) (s : ConfigSet) :
    Prop where
  known : ∀ c ∈ s.toList, g.knows c.stack
  noContext : s.fullContext = false
  mem_keys_iff : ∀ k, k ∈ s.keys ↔ keys k
  stack_eq : ∀ c ∈ s.toList, g.stackSet c.stack = S
  apart : s.keys.Nodup
  guarded : ∀ c ∈ s.toList, c.isGuarded → s.hasGuards

namespace Comprises

theorem mem (hs : s.Comprises g keys S) {c : Config} (hc : c ∈ s.toList) : keys c.key :=
  (hs.mem_keys_iff _).mp (List.mem_map_of_mem hc)

theorem exists_mem (hs : s.Comprises g keys S) {k : Nat × Nat × Guard} (hk : keys k) :
    ∃ c ∈ s.toList, c.key = k := List.mem_map.mp ((hs.mem_keys_iff k).mpr hk)

theorem isEmpty_eq (hs : s.Comprises g keys S) {k : Nat × Nat × Guard} (hk : keys k) : s.isEmpty = false := by
  obtain ⟨c, hc, -⟩ := hs.exists_mem hk
  rw [← Bool.not_eq_true, isEmpty, Array.isEmpty_iff]
  intro he
  rw [toList, he] at hc
  cases hc

theorem alike {strict : Bool} (hs : s.Comprises g keys S) (a : Alike strict g h s t) : t.Comprises h keys S := by
  have hkeys : t.keys = s.keys := by
    refine (List.forall₂_eq_eq_eq ▸ ?_ : s.keys = t.keys).symm
    rw [ConfigSet.keys, ConfigSet.keys, List.forall₂_map_left_iff, List.forall₂_map_right_iff]
    exact a.configs.imp fun c d hcd => by rw [Config.key, Config.key, hcd.state, hcd.alt, hcd.guard]
  have hmem : ∀ d ∈ t.toList, ∃ c ∈ s.toList, Config.Alike strict g h c d := fun d hd => by
    obtain ⟨i, hi, rfl⟩ := List.mem_iff_getElem.mp hd
    have hi' := a.configs.length_eq.symm ▸ hi
    exact ⟨s.toList[i], List.getElem_mem hi', (List.forall₂_iff_get.mp a.configs).2 i hi' hi⟩
  refine ⟨fun d hd => ?_, a.fullContext.symm.trans hs.noContext, fun k => ?_, fun d hd => ?_, ?_, fun d hd hg => ?_⟩
  · obtain ⟨c, -, hcd⟩ := hmem d hd
    exact hcd.stack.right
  · rw [hkeys]
    exact hs.mem_keys_iff k
  · obtain ⟨c, hc, hcd⟩ := hmem d hd
    exact hcd.stack.same.symm.trans (hs.stack_eq c hc)
  · rw [hkeys]
    exact hs.apart
  · obtain ⟨c, hc, hcd⟩ := hmem d hd
    rw [← hcd.isGuarded_eq] at hg
    exact a.hasGuards ▸ hs.guarded c hc hg

/-- A set with one entry. -/
theorem exists_one {k : Nat × Nat × Guard} (hs : s.Comprises g (· = k) S) : ∃ c, s.toList = [c] ∧ c.key = k := by
  have hperm : s.keys.Perm [k] := (List.perm_ext_iff_of_nodup hs.apart (List.nodup_singleton k)).mpr fun x => by
    rw [hs.mem_keys_iff, List.mem_singleton]
  obtain ⟨c, hc⟩ := List.length_eq_one_iff.mp ((List.length_map _).symm.trans hperm.length_eq)
  refine ⟨c, hc, ?_⟩
  exact hs.mem (hc ▸ List.mem_singleton_self c)

/-- A set with two entries. -/
theorem exists_two {k k' : Nat × Nat × Guard} (hne : k ≠ k') (hs : s.Comprises g (fun x => x = k ∨ x = k') S) :
    ∃ c d, (s.toList = [c, d] ∨ s.toList = [d, c]) ∧ c.key = k ∧ d.key = k' := by
  have hperm : s.keys.Perm [k, k'] := (List.perm_ext_iff_of_nodup hs.apart (by simpa using hne)).mpr fun x => by
    rw [hs.mem_keys_iff, List.mem_pair]
  obtain ⟨c, d, hcd⟩ := List.length_eq_two.mp ((List.length_map _).symm.trans hperm.length_eq)
  have hkeys : s.keys = [c.key, d.key] := by rw [keys, hcd]; rfl
  have hdistinct := hs.apart
  rw [hkeys] at hdistinct
  have hc := hs.mem (hcd ▸ List.mem_cons_self : c ∈ s.toList)
  have hd := hs.mem (hcd ▸ List.mem_cons_of_mem _ (List.mem_singleton_self d) : d ∈ s.toList)
  have hcd' : c.key ≠ d.key := by simpa using hdistinct
  rcases hc with hc | hc
  · exact ⟨c, d, .inl hcd, hc, hd.resolve_left fun hd => hcd' (hc.trans hd.symm)⟩
  · exact ⟨d, c, .inr hcd, hd.resolve_right fun hd => hcd' (hc.trans hd.symm), hc⟩

end Comprises

theorem Comprises.congr {keys' : Nat × Nat × Guard → Prop} (hs : s.Comprises g keys S) (h : ∀ k, keys k ↔ keys' k) :
    s.Comprises g keys' S :=
  { hs with mem_keys_iff := fun k => (hs.mem_keys_iff k).trans (h k) }

/-- Configurations over the same stacks are added. -/
theorem comprises_insertAll (hg : g.Truthful) {cs : List Config}
    (hcs : ∀ c ∈ cs, g.knows c.stack ∧ g.stackSet c.stack = S) :
    ((empty false).insertAll cs g).1.Comprises ((empty false).insertAll cs g).2 (fun k => ∃ c ∈ cs, c.key = k) S ∧
      ((empty false).insertAll cs g).1.Open ∧ ((empty false).insertAll cs g).2.Truthful := by
  have hgains := gains_insertAll hg (sits_empty g false) fun c hc => (hcs c hc).1
  have halone : Standing.Alone fun x => x.stack = S := fun x y hx hy _ _ _ => hx.trans hy.symm
  have htracked := Tracked.insertAll (.empty false) halone hg (sits_empty g false) fun c hc =>
    ⟨(hcs c hc).1, 0, false, (hcs c hc).2⟩
  refine ⟨⟨hgains.sits.known, hgains.fullContext, fun k => ?_, fun c hc => ?_, htracked.apart, htracked.guarded⟩,
    hgains.sits.isOpen, hgains.truthful⟩
  · rw [mem_keys_insertAll (open_empty false)]
    exact or_iff_right List.not_mem_nil
  · obtain ⟨_, _, hstack⟩ := htracked.standing c hc
    exact hstack

/-- Configurations whose keys are new are added one by one. -/
theorem toList_insertAll_of_new (hs : s.Open) {cs : List Config} (hnew : (s.keys ++ cs.map Config.key).Nodup) :
    (s.insertAll cs g).1.toList = s.toList ++ cs := by
  induction cs generalizing s g with
  | nil => exact (List.append_nil _).symm
  | cons c cs ih =>
    have hc : c.key ∉ s.keys := fun hm => (List.nodup_append.mp hnew).2.2 _ hm _ List.mem_cons_self rfl
    have hlist : (s.insert c g).1.toList = s.toList ++ [c] := by
      rw [insert_of_new hs hc]
      exact Array.toList_push
    have hrest : ((s.insert c g).1.insertAll cs (s.insert c g).2).1.toList = (s.insert c g).1.toList ++ cs := by
      refine ih (hs.insert c g) ?_
      rw [keys, hlist, List.map_append, List.append_assoc]
      exact hnew
    rw [hlist, List.append_assoc] at hrest
    exact hrest

/-! ## Two configurations at one place -/

variable {c d : Config}

/-- A set of a configuration for the first alternative and one for the second, at one place. -/
structure Rivals (s : ConfigSet) (c d : Config) : Prop where
  toList : s.toList = [c, d] ∨ s.toList = [d, c]
  first : c.alt = 1
  second : d.alt = 2
  state : c.state = d.state
  stack : c.stack = d.stack

namespace Rivals

theorem conflictSubsets (h : s.Rivals c d) : s.conflictSubsets = [AltSet.ofList [1, 2]] := by
  have hplace : (c.state, c.stack) = (d.state, d.stack) := by rw [h.state, h.stack]
  rcases h.toList with hl | hl <;>
    simp [ConfigSet.conflictSubsets, groupAlts, hl, addToGroup, hplace, h.first, h.second] <;> decide

theorem altsByState (h : s.Rivals c d) : s.altsByState = [(c.state, AltSet.ofList [1, 2])] := by
  rcases h.toList with hl | hl <;>
    simp [ConfigSet.altsByState, groupAlts, hl, addToGroup, h.state, h.first, h.second] <;> decide

theorem findUniqueAlt (h : s.Rivals c d) : s.findUniqueAlt = none := by
  rcases h.toList with hl | hl <;> simp [ConfigSet.findUniqueAlt, hl, h.first, h.second]

theorem altGuard (h : s.Rivals c d) : s.altGuard 1 = c.guard ∧ s.altGuard 2 = d.guard := by
  rcases h.toList with hl | hl <;> simp [ConfigSet.altGuard, hl, h.first, h.second]

/-- Without their guards they are still two. -/
theorem withoutGuards (h : s.Rivals c d) : (s.withoutGuards g).1.Rivals
    { c with guard := .always } { d with guard := .always } := by
  have halts : c.alt ≠ d.alt := by rw [h.first, h.second]; decide
  have hlist : (s.withoutGuards g).1.toList = s.toList.map fun c => { c with guard := .always } := by
    refine (toList_insertAll_of_new (open_empty s.fullContext) ?_).trans (List.nil_append _)
    rcases h.toList with hl | hl <;> rw [hl] <;> simp [keys, ConfigSet.toList, ConfigSet.empty, Config.key]
    · exact fun _ he => absurd he halts
    · exact fun _ he => absurd he.symm halts
  refine ⟨?_, h.first, h.second, h.state, h.stack⟩
  rw [hlist]
  exact h.toList.imp (fun hl => by rw [hl]; rfl) fun hl => by rw [hl]; rfl

/-- Reading on would not settle anything, in no mode. -/
theorem stopsReading (h : s.Rivals c d) (mode : PredictionMode) : (s.stopsReading mode n g).1 = true := by
  have hstuck : ∀ {t : ConfigSet} {c d}, t.Rivals c d →
      (Conflict.hasContested t.conflictSubsets && !t.hasStateWithOneAlt) = true := by
    intro t c d ht
    rw [ht.conflictSubsets, ConfigSet.hasStateWithOneAlt, ht.altsByState]
    rfl
  unfold ConfigSet.stopsReading
  split
  · rfl
  · by_cases hmode : (mode = .sll && s.hasGuards) = true
    · rw [if_pos hmode]
      exact hstuck (h.withoutGuards (g := g))
    · rw [if_neg hmode]
      exact hstuck h

end Rivals
end ConfigSet

/-- A closure without the caller's stack has just the entries that are allowed for by what lasts in its course, if
for every one of them a machine without guards gets to the place. -/
theorem Closure.closeAll_comprises {σ : Type} {env : Surroundings σ} {good : Standing → Prop} (ht : Tracks env good)
    {w w' : Workspace σ} (hw : w.graph.Truthful) {collecting : Bool} {cs : List Config}
    (hcs : ∀ c ∈ cs, w.graph.knows c.stack ∧ good (c.standing w.graph 0 collecting)) {out : ConfigSet}
    (h : closeAll env collecting cs w = (.ok out, w')) {keys : Nat × Nat × Guard → Prop}
    (honly : ∀ x, good x → (env.network.state x.state).freeOnly = false →
      keys (x.state, x.alt, x.guard) ∧ x.stack = S)
    (hall : ∀ q alt guard, keys (q, alt, guard) → (∀ guard', keys (q, alt, guard') → guard' = guard) ∧
      ∃ s t, Config.AnyCovers true w.graph cs alt s ∧
        (∀ u, Relation.ReflTransGen env.Drifts s u → env.network.Returning u) ∧
        Relation.ReflTransGen env.Drifts s ⟨q, t⟩ ∧ env.Collects ⟨q, t⟩) :
    out.Comprises w'.graph keys S ∧ out.Open ∧ w'.graph.Truthful := by
  have hno := ht.noContext
  have hclosed := closeAll_spots hw (fun c hc => (hcs c hc).1) h
  have htracked := closeAll_tracked ht hw hcs h
  have hentry : ∀ c ∈ out.toList, keys c.key ∧ w'.graph.stackSet c.stack = S := fun c hc => by
    obtain ⟨depth, b, hgood, hfree⟩ := htracked.standing c hc
    exact honly _ hgood hfree
  refine ⟨⟨hclosed.sits.known, hclosed.fullContext.trans hno, fun k => ⟨fun hk => ?_, fun hk => ?_⟩,
    fun c hc => (hentry c hc).2, htracked.apart, htracked.guarded⟩, hclosed.sits.isOpen, hclosed.truthful⟩
  · obtain ⟨c, hc, rfl⟩ := List.mem_map.mp hk
    exact (hentry c hc).1
  · obtain ⟨q, alt, guard⟩ := k
    obtain ⟨hunique, s, t, hs, hret, hd, hcollects⟩ := hall q alt guard hk
    have hun : env.Unguarded := fun hf => by
      rw [hno] at hf
      cases hf
    obtain ⟨c, hc, halt, hstate, -⟩ := hclosed.complete_of_unguarded hun (by rwa [hno]) hret hd hcollects
    refine List.mem_map.mpr ⟨c, hc, ?_⟩
    obtain ⟨q', alt', r, guard', _, _, _⟩ := c
    obtain rfl : alt' = alt := halt
    obtain rfl : q' = q := hstate
    exact congrArg (fun g => (q', alt', g)) (hunique guard' (hentry _ hc).1)

namespace Surroundings
variable {σ : Type} {env : Surroundings σ} {w w' : Workspace σ} {x : Symbol} {configs closed : ConfigSet}
  {keys : Nat × Nat × Guard → Prop}

/-- What consuming a symbol makes of the entries of a set. -/
def MovedKeys (env : Surroundings σ) (x : Symbol) (keys : Nat × Nat × Guard → Prop) (k : Nat × Nat × Guard) : Prop :=
  ∃ q t, ¬ env.network.isStop q ∧ t ∈ env.network.ways q ∧
    t.consumes env.network.minSymbol env.network.maxSymbol x ∧ k.1 = t.target ∧ keys (q, k.2)

/-- The set into which configurations are moved by consuming a symbol. -/
theorem moved_comprises (hfull : env.fullContext = false) (hw : w.graph.Truthful)
    (hs : configs.Comprises w.graph keys S)
    {moved : ConfigSet} (h : insertAll (ConfigSet.empty env.fullContext) (env.moves x configs) w = (.ok moved, w')) :
    moved.Comprises w'.graph (env.MovedKeys x keys) S ∧ moved.Open ∧ w'.graph.Truthful := by
  rw [hfull] at h
  have hmoves : ∀ {c}, c ∈ env.moves x configs ↔ ∃ d ∈ configs.toList, ∃ t, ¬ env.network.isStop d.state ∧
      t ∈ env.network.ways d.state ∧ t.consumes env.network.minSymbol env.network.maxSymbol x ∧
      d.moveTo t.target = c := by
    intro c
    rw [moves, List.mem_flatMap]
    refine exists_congr fun d => and_congr_right fun _ => ?_
    by_cases hstop : (env.network.state d.state).isStop
    · rw [if_pos hstop]
      refine iff_of_false List.not_mem_nil ?_
      rintro ⟨_, hno, -⟩
      exact hno hstop
    · rw [if_neg hstop, List.mem_map]
      exact exists_congr fun t => by
        rw [List.mem_filter, and_assoc]
        exact (and_iff_right hstop).symm
  have hcs : ∀ c ∈ env.moves x configs, w.graph.knows c.stack ∧ w.graph.stackSet c.stack = S := fun c hc => by
    obtain ⟨d, hd, t, -, -, -, rfl⟩ := hmoves.mp hc
    exact ⟨hs.known d hd, hs.stack_eq d hd⟩
  obtain ⟨hcomprises, hopen, htruthful⟩ := ConfigSet.comprises_insertAll hw hcs
  cases h
  refine ⟨hcomprises.congr fun k => ⟨?_, ?_⟩, hopen, htruthful⟩
  · rintro ⟨c, hc, rfl⟩
    obtain ⟨d, hd, t, hstop, ht, hx, rfl⟩ := hmoves.mp hc
    exact ⟨d.state, t, hstop, ht, hx, rfl, hs.mem hd⟩
  · rintro ⟨q, t, hstop, ht, hx, hstate, hk⟩
    obtain ⟨d, hd, hkey⟩ := hs.exists_mem hk
    obtain rfl : d.state = q := (Prod.ext_iff.mp hkey).1
    exact ⟨d.moveTo t.target, hmoves.mpr ⟨d, hd, t, hstop, ht, hx, rfl⟩,
      Prod.ext hstate.symm (Prod.ext_iff.mp hkey).2⟩

/-- Where no configuration stays, what was closed is what is reached, unless there is nothing. -/
theorem finish_nil (hend : x = endOfInput → closed.allStop env.network) :
    env.finish x [] closed w = (.ok (if closed.isEmpty then none else some closed), w) := by
  have hafter : env.afterEnd x closed w = (.ok closed, w) := by
    unfold afterEnd onlyStops
    split
    · next hx =>
      rw [if_pos (hend hx)]
      rfl
    · rfl
  unfold finish
  rw [Run.bind_apply, hafter]
  rfl

end Surroundings

namespace AutomatonState
variable {r : ConfigSet} {mode : PredictionMode} {count : Nat} {guard : Guard} {q : Nat}

/-- A state recognises the alternatives of a list whose guards hold, and the caller's stack may decide otherwise
or not.  A list of one alternative without a guard need not be kept if nothing else can be decided. -/
structure Says (contested : Bool) (pairs : List GuardedAlt) (u : AutomatonState) : Prop where
  isAccept : u.isAccept
  needsFullContext : u.needsFullContext = contested
  listed : u.guardedAlts = some pairs ∨
    contested = false ∧ u.guardedAlts = none ∧ ∃ alt, pairs = [⟨.always, alt⟩] ∧ u.prediction = some alt

theorem Says.alike {contested strict : Bool} {pairs : List GuardedAlt} {u v : AutomatonState}
    (hu : u.Says contested pairs)
    (a : Alike strict g h u v) : v.Says contested pairs where
  isAccept := a.isAccept ▸ hu.isAccept
  needsFullContext := a.needsFullContext ▸ hu.needsFullContext
  listed := by
    rw [← a.guardedAlts, ← a.prediction]
    exact hu.listed

/-- A set with one entry recognises its alternative, under its guard if it has one. -/
theorem classify_one {alt : Nat} (hr : r.Comprises g (· = (q, alt, guard)) S) (hconflict : r.conflictingAlts = none)
    (halt : 1 ≤ alt ∧ alt ≤ count) : (classify mode n count r h).1.Says false [⟨guard, alt⟩] := by
  obtain ⟨c, hlist, hkey⟩ := hr.exists_one
  obtain ⟨rfl, rfl, rfl⟩ : c.state = q ∧ c.alt = alt ∧ c.guard = guard := by simpa [Config.key] using hkey
  have hunique : r.findUniqueAlt = some c.alt := by rw [ConfigSet.findUniqueAlt, hlist]; rfl
  have hpairs : ({ r with uniqueAlt := some c.alt } : ConfigSet).guardedAlts? (.singleton c.alt) count =
      if c.isGuarded then some [⟨c.guard, c.alt⟩] else none := by
    have hguard : ({ r with uniqueAlt := some c.alt } : ConfigSet).altGuard c.alt = c.guard := by
      have hlist' : ({ r with uniqueAlt := some c.alt } : ConfigSet).toList = [c] := hlist
      simp [ConfigSet.altGuard, hlist']
    have hfilter : ((AltSet.singleton c.alt).toList.filter fun a => 1 ≤ a && a ≤ count) = [c.alt] := by
      simp [AltSet.singleton, halt]
    rw [ConfigSet.guardedAlts?, hfilter, List.map_singleton, hguard]
    simp [Config.isGuarded]
  have hquestion : ({ r with uniqueAlt := some c.alt } : ConfigSet).altsInQuestion? = some (.singleton c.alt) := by
    simp [ConfigSet.altsInQuestion?, hconflict]
  have hguarded := hr.guarded c (hlist ▸ List.mem_singleton_self c)
  simp only [classify, hunique, recognising, applyGuards, Bool.true_and, hquestion, hpairs]
  by_cases hc : c.isGuarded
  · have hne : c.guard ≠ .always := fun he => by simp [Config.isGuarded, Guard.isAlways_iff.mpr he] at hc
    rw [if_pos (hguarded hc), if_pos hc]
    exact ⟨rfl, rfl, .inl rfl⟩
  · have heq : c.guard = .always := by simpa [Config.isGuarded, Guard.isAlways_iff] using hc
    rw [if_neg hc]
    split <;> exact ⟨rfl, rfl, .inr ⟨rfl, rfl, _, heq ▸ rfl, rfl⟩⟩

/-- A set with two entries at one place, for the first alternative with a guard and for the second without one. -/
theorem classify_two (hg : g.Truthful) (hguard : guard ≠ .always)
    (hr : r.Comprises g (fun k => k = (q, 1, guard) ∨ k = (q, 2, .always)) S) :
    (classify mode n 2 r h).1.Says true [⟨guard, 1⟩, ⟨.always, 2⟩] := by
  obtain ⟨c, d, hlist, hck, hdk⟩ := hr.exists_two fun he => hguard (Prod.ext_iff.mp (Prod.ext_iff.mp he).2).2
  obtain ⟨hcs, hca, hcg⟩ : c.state = q ∧ c.alt = 1 ∧ c.guard = guard := by simpa [Config.key] using hck
  obtain ⟨hds, hda, hdg⟩ : d.state = q ∧ d.alt = 2 ∧ d.guard = .always := by simpa [Config.key] using hdk
  have hmem : c ∈ r.toList ∧ d ∈ r.toList := by
    rcases hlist with hl | hl <;> rw [hl] <;> simp
  have hstack : c.stack = d.stack := hg.toSound.eq_of_stackSet_eq (hr.known c hmem.1) (hr.known d hmem.2)
    ((hr.stack_eq c hmem.1).trans (hr.stack_eq d hmem.2).symm)
  have hrivals : r.Rivals c d := ⟨hlist, hca, hda, hcs.trans hds.symm, hstack⟩
  have hconflicting : r.findConflictingAlts = AltSet.ofList [1, 2] := by
    rw [ConfigSet.findConflictingAlts, hrivals.conflictSubsets]
    rfl
  have hguards : r.hasGuards := hr.guarded c hmem.1
    (by simpa [Config.isGuarded, hcg, ← Guard.isAlways_iff] using hguard)
  have hpairs : ({ r with conflictingAlts := some (AltSet.ofList [1, 2]) } : ConfigSet).guardedAlts?
      (AltSet.ofList [1, 2]) 2 = some [⟨guard, 1⟩, ⟨.always, 2⟩] := by
    have hone : ({ r with conflictingAlts := some (AltSet.ofList [1, 2]) } : ConfigSet).altGuard 1 = guard :=
      hrivals.altGuard.1.trans hcg
    have htwo : ({ r with conflictingAlts := some (AltSet.ofList [1, 2]) } : ConfigSet).altGuard 2 = .always :=
      hrivals.altGuard.2.trans hdg
    have hfilter : ((AltSet.ofList [1, 2]).toList.filter fun a => 1 ≤ a && a ≤ 2) = [1, 2] := rfl
    rw [ConfigSet.guardedAlts?, hfilter, List.map_cons, List.map_singleton, hone, htwo]
    have hbool : guard.isAlways = false := by simpa [← Guard.isAlways_iff] using hguard
    simp [hbool]
  simp only [classify, hrivals.findUniqueAlt, hrivals.stopsReading, if_true, contested, applyGuards, hconflicting,
    Bool.true_and, if_pos hguards, ConfigSet.altsInQuestion?, hpairs]
  exact ⟨rfl, rfl, .inl rfl⟩

end AutomatonState
end AdaptiveLL
