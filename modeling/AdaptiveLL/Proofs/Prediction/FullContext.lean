import Mathlib
import AdaptiveLL.Proofs.Prediction.AutomatonOffers

/-! # Looking ahead with the caller's stack

With the caller's stack nothing is reached but what a machine can reach.  So as long as the input has not
ended, an alternative that covers a spot from which the rest can be read is one from which a machine can
finish (`ConfigSet.Weighs`), and at the end of the input only such alternatives are left, all at one
place.  When the run settles it is therefore on the lowest of them (`Predictor.runFullContext_lowest`).
-/
namespace AdaptiveLL
open StackGraph (Extends)

/-- A set over a known caller's stack that offers some alternatives, and covers no other spot from which
the rest can be read. -/
structure ConfigSet.Weighs (n : Network) (top last stop : Nat) (V : Nat → Prop) (w : List Symbol)
    (g : StackGraph) (t : ConfigSet) : Prop where
  offers : t.Offers n stop V w g
  fullContext : t.fullContext = true
  sound : ∀ alt s, t.Covers g alt s → n.Finishes stop s w → V alt
  ahead : w ≠ [] → ∀ alt s, t.Covers g alt s →
    s.Clear last stop ∧ n.Chained (some top) s.state s.stack ∧ ¬ n.isStop s.state
  ended : w = [] → ∀ alt s, t.Covers g alt s → s = ⟨stop, []⟩

variable {gr : Grammar} {plan : Plan} {lazy : Prop} {n : Network} {top last stop : Nat}
  {V : Nat → Prop} {w : List Symbol} {σ : Type} {env : Surroundings σ} {ws ws' : Workspace σ}

namespace Surroundings

/-- Consuming a symbol keeps to alternatives from which a machine can finish. -/
theorem reach_weighs (hl : gr.LaidOut plan lazy n) (hc : n.Closing top last stop)
    (hn : env.network = n) (hun : env.Unguarded) (hf : env.fullContext = true) (hw : ws.graph.Truthful)
    {x : Symbol} {configs : ConfigSet} {o : Option ConfigSet}
    (hweighs : configs.Weighs n top last stop V (x :: w) ws.graph) (hend : x = endOfInput ↔ w = [])
    (hV : ∃ i, V i) (h : env.reach true x configs ws = (.ok o, ws')) :
    ∃ r, o = some r ∧ Onward n stop V w true ws.graph r ws'.graph ∧
      (r.findUniqueAlt = none → r.Weighs n top last stop V w ws'.graph) := by
  have hfull : configs.fullContext = env.fullContext := hweighs.fullContext.trans hf.symm
  obtain ⟨r, rfl, honward⟩ := reach_offers hl hc hn hun hw hweighs.offers hfull hend.mp hV h
  rw [hf] at honward
  refine ⟨r, rfl, honward, fun hnone => ?_⟩
  subst hn
  rcases reach_settles h with h | ⟨-, moved, hmoved, hunique, -⟩
  · have hr := reach_spots hw hweighs.offers.known hfull h
    -- every spot was reached by the machine from one before the symbol
    have hfrom : ∀ alt u, r.Covers ws'.graph alt u → env.Collects u ∧
        (x = endOfInput → env.network.isStop u.state) ∧ ∃ s t, configs.Covers ws.graph alt s ∧
          s.Clear last stop ∧ env.network.Chained (some top) s.state s.stack ∧
          env.network.Eats env.network.minSymbol env.network.maxSymbol x s t ∧
          Relation.ReflTransGen (env.network.Drifts (x = endOfInput)) t u := by
      intro alt u hu
      rcases hr.sound hf r rfl alt u hu with ⟨hcollects, hstop, s, t, hs, heat, hd⟩ | ⟨hstop, hu⟩
      · obtain ⟨hclear, hchain, -⟩ := hweighs.ahead (List.cons_ne_nil x w) alt s hs
        exact ⟨hcollects, hstop, s, t, hs, hclear, hchain, heat, hd⟩
      · exact absurd hstop (hweighs.ahead (List.cons_ne_nil x w) alt u hu).2.2
    by_cases hx : x = endOfInput
    · obtain rfl : w = [] := hend.mp hx
      subst hx
      have hlast : ∀ alt u, r.Covers ws'.graph alt u → u = ⟨stop, []⟩ ∧ V alt := by
        intro alt u hu
        obtain ⟨-, hstop, s, t, hs, -, hchain, heat, hd⟩ := hfrom alt u hu
        obtain rfl := hc.eq_of_eats_end heat (hl.chained_of_eats heat hchain)
        refine ⟨hc.eq_of_isStop hd (hstop rfl), hweighs.sound alt s hs (.eat heat ?_)⟩
        have hpass : env.network.Free ⟨last, []⟩ ⟨stop, []⟩ := by
          have hmem : Transition.epsilon stop ∈ (env.network.state last).transitions := by
            show Transition.epsilon stop ∈ env.network.ways last
            rw [hc.ways_last]
            exact List.mem_singleton_self _
          exact .pass hc.not_isStop hmem rfl
        exact .free hpass (.refl _)
      exact ⟨honward.offers hnone, honward.fullContext, fun alt s hs _ => (hlast alt s hs).2,
        fun hne => absurd rfl hne, fun _ alt s hs => (hlast alt s hs).1⟩
    · have hkept : ∀ alt u, r.Covers ws'.graph alt u →
          (u.Clear last stop ∧ env.network.Chained (some top) u.state u.stack ∧
            ¬ env.network.isStop u.state) ∧ (env.network.Finishes stop u w → V alt) := by
        intro alt u hu
        obtain ⟨hcollects, -, s, t, hs, hclear, hchain, heat, hd⟩ := hfrom alt u hu
        rw [decide_eq_false hx] at hd
        have hclear' := hc.clear_of_drifts hd (hc.clear_of_eats heat hx hclear)
        have hchain' := hl.chained_of_drifts hd (hl.chained_of_eats heat hchain)
        refine ⟨⟨hclear', hchain', hc.not_isStop_of_clear hclear' hchain' hcollects.stop⟩, ?_⟩
        intro hfin
        exact hweighs.sound alt s hs (.eat heat (Network.finishes_of_drifts hc.unguarded' hd hfin))
      exact ⟨honward.offers hnone, honward.fullContext, fun alt s hs => (hkept alt s hs).2,
        fun _ alt s hs => (hkept alt s hs).1, fun hnil => absurd (hend.mpr hnil) hx⟩
  · cases hmoved
    rw [hnone] at hunique
    cases hunique

end Surroundings

/-! ## Settling -/

namespace AltSet

theorem ext {s t : AltSet} (h : ∀ a, a ∈ s.toList ↔ a ∈ t.toList) : s = t := by
  have hperm : s.toList.Perm t.toList :=
    (List.perm_ext_iff_of_nodup s.ascending.nodup t.ascending.nodup).mpr h
  have hlist : s.toList = t.toList :=
    hperm.eq_of_pairwise (fun a b _ _ hab hba => absurd hab (Nat.lt_asymm hba)) s.ascending t.ascending
  obtain ⟨l, hl⟩ := s
  obtain ⟨l', hl'⟩ := t
  cases hlist
  rfl

end AltSet

/-- Where the same alternatives are alive at every place, the lowest of them is viable. -/
theorem Conflict.singleViable?_of_same {subsets : List AltSet} {alts : AltSet} {m : Nat}
    (hsame : ∀ s ∈ subsets, s = alts) (hne : subsets ≠ []) (hm : alts.min? = some m) :
    singleViable? subsets = some m := by
  have hlowest : lowestAlts subsets = AltSet.singleton m := by
    refine AltSet.ext fun a => ?_
    rw [lowestAlts, AltSet.mem_ofList, List.mem_filterMap, AltSet.singleton, List.mem_singleton]
    constructor
    · rintro ⟨s, hs, ha⟩
      rw [hsame s hs, hm] at ha
      exact (Option.some.inj ha).symm
    · rintro rfl
      obtain ⟨s, hs⟩ := List.exists_mem_of_ne_nil subsets hne
      exact ⟨s, hs, by rw [hsame s hs, hm]⟩
  simp [singleViable?, hlowest, AltSet.singleton, AltSet.size, AltSet.min?]

namespace ConfigSet
variable {r : ConfigSet} {m : Nat}

theorem mem_alts {a : Nat} : a ∈ r.alts.toList ↔ ∃ c ∈ r.toList, c.alt = a := by
  rw [alts, AltSet.mem_ofList, List.mem_map]

/-- Every key that alternatives are grouped by occurs. -/
theorem exists_of_groupAlts {κ : Type} [DecidableEq κ] {key : Config → κ} {k : κ}
    (h : k ∈ (r.groupAlts key).map (·.1)) : ∃ c ∈ r.toList, key c = k := by
  have hfold : ∀ (cs : List Config) (groups : List (κ × AltSet)),
      k ∈ (cs.foldl (fun groups c => addToGroup (key c) c.alt groups) groups).map (·.1) →
        k ∈ groups.map (·.1) ∨ ∃ c ∈ cs, key c = k := by
    intro cs
    induction cs with
    | nil => exact fun groups hk => .inl hk
    | cons c cs ih =>
      intro groups hk
      rcases ih _ hk with hk | ⟨d, hd, hkey⟩
      · rw [map_fst_addToGroup] at hk
        split at hk
        · exact .inl hk
        · rcases List.mem_append.mp hk with hk | hk
          · exact .inl hk
          · exact .inr ⟨c, List.mem_cons_self, (List.mem_singleton.mp hk).symm⟩
      · exact .inr ⟨d, List.mem_cons_of_mem c hd, hkey⟩
  rcases hfold r.toList [] h with hnil | hsome
  · cases hnil
  · exact hsome

/-- Where all configurations are at one place, every alternative is alive there. -/
theorem conflictSubset_eq_alts (hplace : ∀ c ∈ r.toList, ∀ d ∈ r.toList,
    c.state = d.state ∧ c.stack = d.stack) {s : AltSet} (hs : s ∈ r.conflictSubsets) : s = r.alts := by
  obtain ⟨⟨k, _⟩, hmem, rfl⟩ := List.mem_map.mp hs
  obtain ⟨c, hc, rfl⟩ := exists_of_groupAlts (List.mem_map_of_mem (f := (·.1)) hmem)
  refine AltSet.ext fun a => ?_
  rw [(groups_groupAlts _ r).members _ _ hmem a, mem_alts]
  constructor
  · rintro ⟨d, hd, -, ha⟩
    exact ⟨d, hd, ha⟩
  · rintro ⟨d, hd, ha⟩
    obtain ⟨hstate, hstack⟩ := hplace d hd c hc
    exact ⟨d, hd, by rw [hstate, hstack], ha⟩

/-- If several alternatives are left, more than one occurs. -/
theorem size_alts_ne_one (hnone : r.findUniqueAlt = none) : r.alts.size ≠ 1 := by
  intro hsize
  obtain ⟨a, ha⟩ := List.length_eq_one_iff.mp hsize
  have hall : ∀ c ∈ r.toList, c.alt = a := fun c hc => by
    have hmem : c.alt ∈ r.alts.toList := mem_alts.mpr ⟨c, hc, rfl⟩
    rwa [ha, List.mem_singleton] at hmem
  obtain ⟨c, hc, -⟩ := mem_alts.mp (ha ▸ List.mem_singleton_self a : a ∈ r.alts.toList)
  unfold findUniqueAlt at hnone
  cases hl : r.toList with
  | nil => simp [hl] at hc
  | cons d ds =>
    rw [hl] at hnone hall
    dsimp only at hnone
    rw [if_pos] at hnone
    · cases hnone
    · refine List.all_eq_true.mpr fun e he => decide_eq_true ?_
      rw [hall e (List.mem_cons_of_mem d he), hall d List.mem_cons_self]

/-- The alternative on which a run settles: the only one left, or the lowest at every place. -/
def Settled (r : ConfigSet) (m : Nat) : Prop :=
  r.findUniqueAlt = some m ∨ r.findUniqueAlt = none ∧ Conflict.singleViable? r.conflictSubsets = some m

/-- A set with the only alternative left, if there is just one. -/
def marked (r : ConfigSet) : ConfigSet := { r with uniqueAlt := r.findUniqueAlt }

end ConfigSet

namespace Predictor
variable {r previous : ConfigSet} {exact : Bool} {x : Symbol} {m : Nat}

/-- Before the end of the input a run only settles for good reasons. -/
theorem settled_of_settles? (hx : x ≠ endOfInput) {certain : Bool}
    (h : settles? exact x previous r.marked = some (m, certain)) : r.Settled m := by
  have hunique : r.marked.uniqueAlt = r.findUniqueAlt := rfl
  have hsubsets : r.marked.conflictSubsets = r.conflictSubsets := rfl
  simp only [settles?, hunique, hsubsets, decide_eq_false hx, Bool.false_and, Bool.false_eq_true,
    if_false] at h
  have horElse : ∀ o : Option (Nat × Bool), (o <|> none) = o := by
    intro o
    cases o <;> rfl
  rw [horElse] at h
  cases hu : r.findUniqueAlt with
  | some a =>
    rw [hu] at h
    cases h
    exact .inl hu
  | none =>
    rw [hu] at h
    dsimp only at h
    refine .inr ⟨hu, ?_⟩
    split at h
    · obtain ⟨a, ha, heq⟩ := Option.map_eq_some_iff.mp h
      cases heq
      exact ha
    · split at h
      · obtain ⟨a, ha, heq⟩ := Option.map_eq_some_iff.mp h
        cases heq
        exact ha
      · cases h

/-- With one alternative left a run settles. -/
theorem settles?_of_findUniqueAlt (hu : r.findUniqueAlt = some m) :
    settles? exact x previous r.marked = some (m, false) := by
  have hunique : r.marked.uniqueAlt = some m := hu
  simp only [settles?, hunique]
  rfl

/-- Where all configurations are at one place a run settles. -/
theorem settles?_of_same_place (hne : r.toList ≠ [])
    (hplace : ∀ c ∈ r.toList, ∀ d ∈ r.toList, c.state = d.state ∧ c.stack = d.stack) :
    ∃ m certain, settles? exact x previous r.marked = some (m, certain) ∧ r.Settled m := by
  have hunique : r.marked.uniqueAlt = r.findUniqueAlt := rfl
  have hsubsets : r.marked.conflictSubsets = r.conflictSubsets := rfl
  unfold settles?
  simp only [hunique, hsubsets]
  cases hu : r.findUniqueAlt with
  | some a => exact ⟨a, false, rfl, .inl hu⟩
  | none =>
    have hsame : ∀ s ∈ r.conflictSubsets, s = r.alts := fun s hs =>
      ConfigSet.conflictSubset_eq_alts hplace hs
    obtain ⟨c, hc⟩ := List.exists_mem_of_ne_nil _ hne
    obtain ⟨s, hs, -⟩ := ConfigSet.exists_conflictSubset hc
    obtain ⟨m, hm⟩ := AltSet.exists_min? (ConfigSet.mem_alts.mpr ⟨c, hc, rfl⟩)
    have hviable := Conflict.singleViable?_of_same hsame (List.ne_nil_of_mem hs) hm
    have hcontested : Conflict.allContested r.conflictSubsets = true := by
      rw [Conflict.allContested, Conflict.hasSettled, Bool.not_eq_true', List.any_eq_false]
      intro t ht
      rw [hsame t ht, decide_eq_true_iff]
      exact ConfigSet.size_alts_ne_one hu
    have hequal : Conflict.allEqual r.conflictSubsets = true := by
      cases hl : r.conflictSubsets with
      | nil => rfl
      | cons first rest =>
        rw [hl] at hsame
        refine List.all_eq_true.mpr fun t ht => decide_eq_true ?_
        rw [hsame t (List.mem_cons_of_mem _ ht), hsame first List.mem_cons_self]
    rw [hviable, hcontested, hequal]
    cases exact with
    | true => exact ⟨m, true, rfl, .inr ⟨hu, hviable⟩⟩
    | false => exact ⟨m, false, rfl, .inr ⟨hu, hviable⟩⟩

/-- The alternative on which a run settles is the lowest from which a machine can finish. -/
theorem lowest_of_settled {g g' : StackGraph} (hr : Surroundings.Onward n stop V w true g r g')
    (hweighs : r.findUniqueAlt = none → r.Weighs n top last stop V w g') (hV : ∃ i, V i)
    (h : r.Settled m) : V m ∧ ∀ i, V i → m ≤ i := by
  rcases h with hunique | ⟨hnone, hviable⟩
  · have heq : ∀ i, V i → i = m := fun i hi => ConfigSet.eq_of_findUniqueAlt hunique (hr.alts i hi)
    obtain ⟨i, hi⟩ := hV
    exact ⟨heq i hi ▸ hi, fun j hj => (heq j hj).ge⟩
  · have hw := hweighs hnone
    -- the lowest alternative is alive wherever an alternative is from which the rest can be read
    have hlowest : ∀ i, V i → V m ∧ m ≤ i := by
      intro i hi
      obtain ⟨s, ⟨c, hc, halt, hstate, hstack⟩, -, hpoised⟩ := hw.offers.poised i hi
      obtain ⟨alts, halts, hmem⟩ := ConfigSet.exists_conflictSubset hc
      have hi' : i ∈ alts.toList := (hmem i).mpr ⟨c, hc, rfl, rfl, halt⟩
      have hmin := AltSet.min?_eq_some_iff.mp (Conflict.min?_of_singleViable? hviable halts hi')
      obtain ⟨d, hd, hstate', hstack', halt'⟩ := (hmem m).mp hmin.1
      have hcovers : r.Covers g' m s :=
        ⟨d, hd, halt', hstate'.trans hstate, by rw [hstack']; exact hstack⟩
      exact ⟨hw.sound m s hcovers hpoised.finishes, hmin.2 i hi'⟩
    obtain ⟨i, hi⟩ := hV
    exact ⟨(hlowest i hi).1, fun j hj => (hlowest j hj).2⟩

/-- After the end of the input all configurations are at one place. -/
theorem same_place_of_ended {g : StackGraph} (hg : g.Truthful)
    (hw : r.Weighs n top last stop V [] g) :
    ∀ c ∈ r.toList, ∀ d ∈ r.toList, c.state = d.state ∧ c.stack = d.stack := by
  have hcovers : ∀ c ∈ r.toList, ∀ s ∈ g.stackSet c.stack, c.state = stop ∧ s = [] := by
    intro c hc s hs
    have hcover : r.Covers g c.alt ⟨c.state, s⟩ := ⟨c, hc, rfl, rfl, StackGraph.covers_of_mem hs⟩
    have heq := hw.ended rfl c.alt _ hcover
    exact ⟨congrArg Spot.state heq, congrArg Spot.stack heq⟩
  have hplace : ∀ c ∈ r.toList, c.state = stop ∧ g.stackSet c.stack = {[]} := by
    intro c hc
    obtain ⟨s, hs⟩ := hg.toSound.stackSet_nonempty (hw.offers.known c hc)
    obtain ⟨hstate, rfl⟩ := hcovers c hc s hs
    refine ⟨hstate, Set.eq_singleton_iff_unique_mem.mpr ⟨hs, fun t ht => (hcovers c hc t ht).2⟩⟩
  intro c hc d hd
  obtain ⟨hstate, hstack⟩ := hplace c hc
  obtain ⟨hstate', hstack'⟩ := hplace d hd
  exact ⟨hstate.trans hstate'.symm, hg.eq_of_stackSet_eq (hw.offers.known c hc) (hw.offers.known d hd)
    (hstack.trans hstack'.symm)⟩

/-- What the run over the caller's stack does once a set was reached. -/
def goOnFull (q : Question σ) (env : Surroundings σ) (fuel steps : Nat) (exact : Bool)
    (previous : ConfigSet) (x : Symbol) (r : ConfigSet) : Run (Session σ) Nat := do
  match settles? exact x previous r.marked with
  | some (alt, certain) => do
    let stop := (← get).stream.index
    report (settled q stop alt certain r.marked)
    pure alt
  | none => do
    let next ← readOn x
    runFullContext q env fuel (steps + 1) r.marked next

/-- Looking at the tokens over the caller's stack ends with the lowest alternative from which a machine
can finish, unless a limit is hit. -/
theorem runFullContext_lowest (hl : gr.LaidOut plan lazy n) (hc : n.Closing top last stop)
    (hn : env.network = n) (hun : env.Unguarded) (hf : env.fullContext = true) (hV : ∃ i, V i)
    (q : Question σ) (fuel steps : Nat) {s : Session σ} (hg : s.predictor.cache.graph.Truthful)
    (hplaced : s.stream.Placed)
    (hw : previous.Weighs n top last stop V s.stream.remaining s.predictor.cache.graph)
    (hfuel : s.stream.remaining.length ≤ fuel) :
    Run.Limited (fun m _ => V m ∧ ∀ i, V i → m ≤ i)
      (runFullContext q env fuel steps previous s.stream.peek s) := by
  induction fuel generalizing steps s previous with
  | zero =>
    obtain ⟨w, hw, -⟩ := hplaced.remaining_cases
    rw [hw] at hfuel
    exact absurd hfuel (by simp)
  | succ fuel ih =>
    obtain ⟨w, hword, hend, hmore⟩ := hplaced.remaining_cases
    rw [hword] at hw hfuel
    unfold runFullContext
    refine (limited_countStep q steps s).bind fun _ s₀ hs₀ => ?_
    subst hs₀
    rw [Run.bind_apply, withSessionStacks_apply]
    have hfails := Surroundings.fails_reach env true s₀.stream.peek previous
    rcases hr : env.reach true s₀.stream.peek previous ⟨s₀.predictor.cache.graph, s₀.author, 0⟩
      with ⟨e | o, ws⟩
    · exact .limit (hfails hr)
    · have hwork : (⟨s₀.predictor.cache.graph, s₀.author, 0⟩ : Workspace σ).graph.Truthful := hg
      obtain ⟨r, rfl, honward, hweighs⟩ :=
        Surroundings.reach_weighs hl hc hn hun hf hwork hw hend hV hr
      dsimp only
      rw [Run.bind_apply, Run.get_apply]
      dsimp only
      change Run.Limited _ (goOnFull q env fuel steps (decide ((s₀.predictor.afterWork ws).settings.mode =
        .exactAmbiguity)) previous s₀.stream.peek r ⟨s₀.predictor.afterWork ws, s₀.stream, ws.author⟩)
      generalize decide ((s₀.predictor.afterWork ws).settings.mode = .exactAmbiguity) = exact
      unfold goOnFull
      by_cases hx : s₀.stream.peek = endOfInput
      · -- the input has ended, so the run settles here
        obtain rfl : w = [] := hend.mp hx
        obtain ⟨i, hi⟩ := hV
        obtain ⟨c, hc', -⟩ := honward.alts i hi
        have hsettles : ∃ m certain, settles? exact s₀.stream.peek previous r.marked = some (m, certain) ∧
            r.Settled m := by
          cases hu : r.findUniqueAlt with
          | some a => exact ⟨a, false, settles?_of_findUniqueAlt hu, .inl hu⟩
          | none =>
            exact settles?_of_same_place (List.ne_nil_of_mem hc')
              (same_place_of_ended honward.truthful (hweighs hu))
        obtain ⟨m, certain, hsome, hm⟩ := hsettles
        rw [hsome]
        exact .ok (lowest_of_settled honward hweighs ⟨i, hi⟩ hm)
      · cases hs : settles? exact s₀.stream.peek previous r.marked with
        | some settledOn =>
          obtain ⟨m, certain⟩ := settledOn
          exact .ok (lowest_of_settled honward hweighs hV (settled_of_settles? hx hs))
        | none =>
          have hu : r.findUniqueAlt = none := by
            cases hu : r.findUniqueAlt with
            | none => rfl
            | some a =>
              rw [settles?_of_findUniqueAlt hu] at hs
              cases hs
          have hw' := hweighs hu
          dsimp only
          rw [Run.bind_apply, readOn_apply, if_neg hx]
          rw [hmore hx] at hw' hfuel
          have hmarked : r.marked.Weighs n top last stop V s₀.stream.consume.remaining ws.graph :=
            ⟨⟨hw'.offers.known, hw'.offers.poised⟩, hw'.fullContext, hw'.sound, hw'.ahead, hw'.ended⟩
          exact ih (s := ⟨s₀.predictor.afterWork ws, s₀.stream.consume, ws.author⟩) (steps + 1)
            honward.truthful hplaced.consume hmarked (Nat.le_of_succ_le_succ hfuel)

end Predictor

end AdaptiveLL
