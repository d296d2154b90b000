import Mathlib
import AdaptiveLL.Proofs.Grammar.Reading
import AdaptiveLL.Proofs.Lexing.Greedy
import AdaptiveLL.Proofs.Lexing.Offsets

/-! # Threads and the machine

A thread stands where the machine of the network can stand: at its state, with its stack
(`Thread.spot`).  In a network without predicates, without decisions that prefer to leave, and in which the
end of the input is not consumed (`Network.Greedy`), closing a thread collects exactly the spots that the
machine comes to freely and at which it rests, before a character or at the end of a token rule
(`Thread.trace_shows`).  So a match keeps up with the machine: its threads stand where the machine can
rest after reading what has been read (`Thread.Tracks`), alternative by alternative.
-/
namespace AdaptiveLL

namespace Thread
variable {n : Network} {env : Outlook Unit} {t u v d : Thread} {tr : Transition} {p q : Progress}
  {pending rest : List Item}

@[simp] theorem spot_unplaced (t : Thread) : t.unplaced.spot = t.spot := rfl

/-! ## Closing a thread -/

/-- Where only the text decides, a transition that can be followed without a character being consumed is a
free one, also before the end of the input. -/
theorem isFree_iff (hg : env.network.Textual) {z : Nat} (ht : tr ∈ env.network.ways z) :
    isFree env tr ↔ tr.isFree := by
  have hspares := hg.sparesEnd z tr ht
  cases tr with
  | predicate | precedence =>
    have hfree := hg.free ht rfl
    simp [Transition.isPlain] at hfree
  | symbol | range | set => simp [isFree, Transition.isFree, hspares]
  | epsilon | call | ret | action | notSet | wildcard => simp [isFree, Transition.isFree]

/-- Following a free transition is a free move. -/
theorem free_along (hg : env.network.Textual) (hstop : ¬ env.network.isStop t.state)
    (htr : tr ∈ env.network.ways t.state) (hfree : tr.isFree) (s : State) :
    env.network.Free t.spot (along env.network t tr s).spot := by
  rcases hg.free htr hfree with hplain | ⟨target, rule, level, follow, rfl⟩
  · have hspot : (along env.network t tr s).spot = ⟨tr.target, t.stack⟩ := by
      cases tr <;> first | rfl | cases hplain
    rw [hspot]
    exact .pass hstop htr hplain
  · exact .call hstop htr

/-- What is left to be done for a thread that was come to: nothing if it was collected at the end of its
token rule, or visited, or if it was popped and nothing is left to be done then. -/
inductive Met (n : Network) (pending : List Item) (p : Progress) : Thread → Prop
  | pending {u : Thread} : .arrive u ∈ pending → Met n pending p u
  | ended {u : Thread} : n.isStop u.state → u.stack = [] → u ∈ p.collected → Met n pending p u
  | popped {u : Thread} {x : Nat} {below : List Nat} : n.isStop u.state → u.stack = x :: below →
      Met n pending p { u with state := x, stack := below } → Met n pending p u
  | visited {u : Thread} : ¬ n.isStop u.state → u ∈ p.visited → Met n pending p u

theorem Met.mono {pending' : List Item} (h : Met n pending p u)
    (hpending : ∀ v, .arrive v ∈ pending → Met n pending' q v) (hcollected : p.collected ⊆ q.collected)
    (hvisited : p.visited ⊆ q.visited) : Met n pending' q u := by
  induction h with
  | pending hu => exact hpending _ hu
  | ended hstop hstack hu => exact .ended hstop hstack (hcollected hu)
  | popped hstop hstack _ ih => exact .popped hstop hstack ih
  | visited hstop hu => exact .visited hstop (hvisited hu)

/-- A thread that the closure of another comes to. -/
structure Behind (n : Network) (t u : Thread) : Prop where
  eager : u.passedLazy = false
  free : Relation.ReflTransGen n.Free t.spot u.spot

/-- An item of the closure of a thread. -/
def Item.Behind (n : Network) (t : Thread) : Item → Prop
  | .arrive u => Thread.Behind n t u
  | .follow u tr => Thread.Behind n t u ∧ ¬ n.isStop u.state ∧ tr ∈ n.ways u.state

/-- How far the closure of a thread has come. -/
structure Tracing (n : Network) (t : Thread) (pending : List Item) (p : Progress) : Prop where
  behind : ∀ i ∈ pending, i.Behind n t
  collected : ∀ u ∈ p.collected, Behind n t u ∧ n.Rests u.spot
  rested : ∀ v ∈ p.visited, (n.state v.state).freeOnly = false → v ∈ p.collected
  followed : ∀ v ∈ p.visited, ∀ tr ∈ n.ways v.state, tr.isFree →
    .follow v tr ∈ pending ∨ ∃ s, Met n pending p (along n v tr s)
  begun : Met n pending p t

theorem tracing_start (ht : t.passedLazy = false) (finished : Bool) :
    Tracing n t [.arrive t] { finished } where
  behind i hi := by
    obtain rfl := List.mem_singleton.mp hi
    exact ⟨ht, .refl⟩
  collected _ hu := absurd hu List.not_mem_nil
  rested _ hv := absurd hv List.not_mem_nil
  followed _ hv := absurd hv List.not_mem_nil
  begun := .pending List.mem_cons_self

/-- An item that is dealt with gives way to others, if nothing is forgotten. -/
theorem Tracing.next {pending' : List Item} {i : Item} (h : Tracing n t (i :: rest) p)
    (hnew : ∀ j ∈ pending', j.Behind n t) (hrest : rest ⊆ pending')
    (hcollected : ∀ u ∈ q.collected, u ∈ p.collected ∨ Behind n t u ∧ n.Rests u.spot)
    (hkept : p.collected ⊆ q.collected) (hvisits : p.visited ⊆ q.visited)
    (hrested : ∀ v ∈ q.visited, v ∉ p.visited → (n.state v.state).freeOnly = false → v ∈ q.collected)
    (hfollowed : ∀ v ∈ q.visited, v ∉ p.visited → ∀ tr ∈ n.ways v.state, tr.isFree →
      .follow v tr ∈ pending')
    (harrived : ∀ u, i = .arrive u → Met n pending' q u)
    (hmoved : ∀ v tr, i = .follow v tr → tr ∈ n.ways v.state → tr.isFree →
      ∃ s, Met n pending' q (along n v tr s)) : Tracing n t pending' q := by
  have hmet : ∀ {u}, Met n (i :: rest) p u → Met n pending' q u := fun hu =>
    hu.mono (fun v hv => by
      rcases List.mem_cons.mp hv with hv | hv
      · exact harrived v hv.symm
      · exact .pending (hrest hv)) hkept hvisits
  refine ⟨hnew, fun u hu => ?_, fun v hv hfree => ?_, fun v hv tr htr hfree => ?_, hmet h.begun⟩
  · exact (hcollected u hu).elim (h.collected u) id
  · by_cases hold : v ∈ p.visited
    · exact hkept (h.rested v hold hfree)
    · exact hrested v hv hold hfree
  · by_cases hold : v ∈ p.visited
    · rcases h.followed v hold tr htr hfree with hpending | ⟨s, hs⟩
      · rcases List.mem_cons.mp hpending with hi | hr
        · exact .inr (hmoved v tr hi.symm htr hfree)
        · exact .inl (hrest hr)
      · exact .inr ⟨s, hmet hs⟩
    · exact .inl (hfollowed v hv hold tr htr hfree)

/-- An item that gives way to others while nothing is collected or visited. -/
theorem Tracing.replaced {pending' : List Item} {i : Item} (h : Tracing n t (i :: rest) p)
    (hnew : ∀ j ∈ pending', j.Behind n t) (hrest : rest ⊆ pending')
    (harrived : ∀ u, i = .arrive u → Met n pending' p u)
    (hmoved : ∀ v tr, i = .follow v tr → tr ∈ n.ways v.state → tr.isFree →
      ∃ s, Met n pending' p (along n v tr s)) : Tracing n t pending' p :=
  h.next hnew hrest (fun _ hv => .inl hv) (List.Subset.refl _) (List.Subset.refl _)
    (fun _ hv hnew => absurd hv hnew) (fun _ hv hnew => absurd hv hnew) harrived hmoved

theorem Tracing.behind_rest {i : Item} (h : Tracing n t (i :: rest) p) : ∀ j ∈ rest, j.Behind n t :=
  fun j hj => h.behind j (List.mem_cons_of_mem i hj)

/-- At the end of a token rule a thread is collected. -/
theorem Tracing.ended (h : Tracing n t (.arrive u :: rest) p) (hstop : n.isStop u.state) (hstack : u.stack = []) :
    Tracing n t rest { p with collected := p.collected ++ [u], finished := true } := by
  refine h.next h.behind_rest (List.Subset.refl rest) (fun v hv => ?_) (List.subset_append_left _ _)
    (List.Subset.refl _) (fun v hv hnew => absurd hv hnew) (fun v hv hnew => absurd hv hnew)
    (fun v hv => ?_) fun v tr hv => by cases hv
  · rcases List.mem_append.mp hv with hv | hv
    · exact .inl hv
    · obtain rfl := List.mem_singleton.mp hv
      exact .inr ⟨h.behind _ List.mem_cons_self, .inl ⟨hstop, hstack⟩⟩
  · cases hv
    exact .ended hstop hstack (List.mem_append_right _ (List.mem_singleton_self _))

/-- At the end of another rule the walk goes on at its caller. -/
theorem Tracing.popped {x : Nat} {below : List Nat} (h : Tracing n t (.arrive u :: rest) p)
    (hstop : n.isStop u.state) (hstack : u.stack = x :: below) :
    Tracing n t (.arrive { u with state := x, stack := below } :: rest) p := by
  have hu : Behind n t u := h.behind _ List.mem_cons_self
  refine h.replaced (fun j hj => ?_) (List.subset_cons_self _ _) (fun v hv => ?_) fun v tr hv => by cases hv
  · rcases List.mem_cons.mp hj with rfl | hj
    · refine ⟨hu.eager, hu.free.tail ?_⟩
      rw [spot, hstack]
      exact .pop hstop
    · exact h.behind_rest j hj
  · cases hv
    exact .popped hstop hstack (.pending List.mem_cons_self)

/-- A thread that was visited before is dropped. -/
theorem Tracing.dropped (h : Tracing n t (.arrive u :: rest) p) (hstop : ¬ n.isStop u.state)
    (hseen : u ∈ p.visited) : Tracing n t rest p := by
  refine h.replaced h.behind_rest (List.Subset.refl rest) (fun v hv => ?_) fun v tr hv => by cases hv
  cases hv
  exact .visited hstop hseen

/-- Any other thread is visited, is collected if something is consumed behind it, and all its ways are followed. -/
theorem Tracing.visited (h : Tracing n t (.arrive u :: rest) p) (hstop : ¬ n.isStop u.state) :
    Tracing n t ((n.ways u.state).map (.follow u) ++ rest)
      { p with
        visited := u :: p.visited
        collected := if !(n.state u.state).freeOnly then p.collected ++ [u] else p.collected } := by
  have hu : Behind n t u := h.behind _ List.mem_cons_self
  have hnewest : ∀ {v}, v ∈ u :: p.visited → v ∉ p.visited → v = u := fun hv hnew =>
    (List.mem_cons.mp hv).resolve_right hnew
  refine h.next (fun j hj => ?_) (List.subset_append_right _ _) (fun v hv => ?_) ?_
    (List.subset_cons_self _ _) (fun v hv hnew hfree => ?_) (fun v hv hnew tr htr hfree => ?_)
    (fun v hv => ?_) fun v tr hv => by cases hv
  · rcases List.mem_append.mp hj with hj | hj
    · obtain ⟨tr, htr, rfl⟩ := List.mem_map.mp hj
      exact ⟨hu, hstop, htr⟩
    · exact h.behind_rest j hj
  · dsimp only at hv
    split at hv
    · next hconsumes =>
      rcases List.mem_append.mp hv with hv | hv
      · exact .inl hv
      · obtain rfl := List.mem_singleton.mp hv
        exact .inr ⟨hu, .inr ⟨hstop, (Bool.not_eq_true' _).mp hconsumes⟩⟩
    · exact .inl hv
  · dsimp only
    split
    · exact List.subset_append_left _ _
    · exact List.Subset.refl _
  · obtain rfl := hnewest hv hnew
    dsimp only
    rw [hfree]
    exact List.mem_append_right _ (List.mem_singleton_self _)
  · obtain rfl := hnewest hv hnew
    exact List.mem_append_left _ (List.mem_map_of_mem htr)
  · cases hv
    exact .visited hstop List.mem_cons_self

/-- Reaching a thread. -/
theorem arrive_traces {o : Option (List Item)}
    (h : Tracing env.network t (.arrive u :: rest) p) (hrun : arrive env u p = (.ok o, q)) :
    Tracing env.network t (o.getD [] ++ rest) q := by
  rw [arrive_apply] at hrun
  split at hrun
  · cases hrun
  · next s hs =>
    have hstate := Network.state_of_state? hs
    have hstop : s.isStop = env.network.isStop u.state := by rw [Network.isStop, hstate]
    rw [hstop] at hrun
    split at hrun
    · next hisStop =>
      split at hrun
      · next hstack =>
        cases hrun
        exact h.ended hisStop hstack
      · next x below hstack =>
        cases hrun
        exact h.popped hisStop hstack
    · next hisStop =>
      split at hrun
      · next hseen =>
        cases hrun
        exact h.dropped hisStop hseen
      · cases hrun
        -- No thread of the closure preferred to leave, so it does not matter that another is at its end.
        have heager : u.passedLazy = false := (h.behind _ List.mem_cons_self).eager
        have hvisited := h.visited hisStop
        rw [Network.ways, hstate] at hvisited
        rw [heager, Bool.not_false, Bool.or_true, Bool.and_true]
        exact hvisited

/-- What a closure has come to does not depend on whether a predicate was met. -/
theorem Tracing.asked (h : Tracing n t pending p) (b : Bool) :
    Tracing n t pending { p with asked := b } := by
  have hmet : ∀ {u}, Met n pending p u → Met n pending { p with asked := b } u := fun hu =>
    hu.mono (fun v hv => .pending hv) (List.Subset.refl _) (List.Subset.refl _)
  exact ⟨h.behind, h.collected, h.rested,
    fun v hv tr htr hfree => (h.followed v hv tr htr hfree).imp id fun ⟨s, hs⟩ => ⟨s, hmet hs⟩,
    hmet h.begun⟩

theorem visit_traces (hg : env.network.Greedy) {i : Item} {o : Option (List Item)}
    (h : Tracing env.network t (i :: rest) p) (hrun : visit env i p = (.ok o, q)) :
    Tracing env.network t (o.getD [] ++ rest) q := by
  cases i with
  | arrive u => exact arrive_traces h hrun
  | follow u tr =>
    obtain ⟨hu, hstop, htr⟩ := h.behind _ List.mem_cons_self
    rw [visit_follow, next?] at hrun
    by_cases hfree : tr.isFree
    · rw [if_pos ((isFree_iff hg.textual htr).mpr hfree)] at hrun
      cases hs : env.network.state? tr.target with
      | error e =>
        rw [hs] at hrun
        cases hrun
      | ok s =>
        rw [hs] at hrun
        -- Following the transition comes to the thread moved along it.
        refine arrive_traces (u := along env.network u tr s) ?_ hrun
        have halong : Behind env.network t (along env.network u tr s) := by
          refine ⟨?_, hu.free.tail (free_along hg.textual hstop htr hfree s)⟩
          have heager := hg.eager hstop htr
          rw [Network.state_of_state? hs] at heager
          show (u.passedLazy || (s.nonGreedy && s.kind.isDecision)) = false
          rw [hu.eager, heager, Bool.or_false]
        refine Tracing.asked (h.replaced (fun j hj => ?_) (List.subset_cons_self _ _) (fun v hv => by cases hv)
          fun v tr' hv htr' hfree' => ?_) _
        · rcases List.mem_cons.mp hj with rfl | hj
          · exact halong
          · exact h.behind_rest j hj
        · cases hv
          exact ⟨s, .pending List.mem_cons_self⟩
    · rw [if_neg fun hf => hfree ((isFree_iff hg.textual htr).mp hf)] at hrun
      cases hrun
      refine Tracing.asked (h.replaced h.behind_rest (List.Subset.refl rest) (fun v hv => by cases hv)
        fun v tr' hv htr' hfree' => ?_) _
      cases hv
      exact absurd hfree' hfree

theorem Met.isFollowed (hv : Met n [] p v) (hstop : ¬ n.isStop v.state) : v ∈ p.visited := by
  cases hv with
  | pending hv => cases hv
  | ended h => exact absurd h hstop
  | popped h => exact absurd h hstop
  | visited _ hv => exact hv

/-- A closure that came to its end has met every spot that the machine comes to freely. -/
theorem Tracing.exists_met (h : Tracing n t [] p) {z : Spot}
    (hz : Relation.ReflTransGen n.Free t.spot z) : ∃ v, v.spot = z ∧ Met n [] p v := by
  have hway : ∀ {v : Thread} {tr : Transition}, Met n [] p v → ¬ n.isStop v.state →
      tr ∈ n.ways v.state → tr.isFree → ∃ s, Met n [] p (along n v tr s) := fun hv hstop htr hfree =>
    (h.followed _ (hv.isFollowed hstop) _ htr hfree).resolve_left List.not_mem_nil
  induction hz with
  | refl => exact ⟨t, rfl, h.begun⟩
  | tail _ hmove ih =>
    obtain ⟨v, hspot, hv⟩ := ih
    cases hmove with
    | @pass state stack tr hstop htr hplain =>
      obtain ⟨rfl, rfl⟩ := Spot.mk.inj hspot
      obtain ⟨s, hs⟩ := hway hv hstop htr (by cases tr <;> first | rfl | cases hplain)
      refine ⟨_, ?_, hs⟩
      cases tr <;> first | rfl | cases hplain
    | call hstop htr =>
      obtain ⟨rfl, rfl⟩ := Spot.mk.inj hspot
      obtain ⟨s, hs⟩ := hway hv hstop htr rfl
      exact ⟨_, rfl, hs⟩
    | pop hstop =>
      obtain ⟨rfl, hstack⟩ := Spot.mk.inj hspot
      cases hv with
      | pending hv => cases hv
      | ended _ hnil => 
        rw [hstack] at hnil
        cases hnil
      | popped _ hcons hv =>
        rw [hstack] at hcons
        cases hcons
        exact ⟨_, rfl, hv⟩
      | visited hnot => exact absurd hstop hnot

/-- Closing a thread collects the spots that the machine comes to freely and at which it rests. -/
theorem trace_shows (hg : env.network.Greedy) {finished : Bool} (ht : t.passedLazy = false)
    (h : trace env finished t = .ok p) :
    (∀ u ∈ p.collected, u.passedLazy = false) ∧ ∀ z, (∃ u ∈ p.collected, u.spot = z) ↔
      env.network.Rests z ∧ Relation.ReflTransGen env.network.Free t.spot z := by
  have hend : Tracing env.network t [] p := by
    refine DepthFirst.run_keeps (run_of_trace h) (fun pending p => Tracing env.network t pending p)
      (tracing_start ht finished) fun i rest p o q hp hrun => visit_traces hg hp hrun
  refine ⟨fun u hu => (hend.collected u hu).1.eager, fun z => ⟨?_, ?_⟩⟩
  · rintro ⟨u, hu, rfl⟩
    exact ⟨(hend.collected u hu).2, (hend.collected u hu).1.free⟩
  · rintro ⟨hrests, hfree⟩
    obtain ⟨v, rfl, hv⟩ := hend.exists_met hfree
    refine ⟨v, ?_, rfl⟩
    rcases hrests with ⟨hstop, hnil⟩ | ⟨hstop, hfree⟩
    · cases hv with
      | pending hv => cases hv
      | ended _ _ hv => exact hv
      | popped _ hcons =>
        rw [spot, hcons] at hnil
        cases hnil
      | visited hnot => exact absurd hstop hnot
    · exact hend.rested v (hv.isFollowed hstop) hfree

/-! ## Threads one after another -/

/-- A thread of an alternative stands at a spot. -/
def Shows (ts : List Thread) (alt : Nat) (z : Spot) : Prop := ∃ u ∈ ts, u.alt = alt ∧ u.spot = z

/-- No thread went through a decision that prefers to leave. -/
def Eager (ts : List Thread) : Prop := ∀ u ∈ ts, u.passedLazy = false

theorem shows_append {ts us : List Thread} {alt : Nat} {z : Spot} :
    Shows (ts ++ us) alt z ↔ Shows ts alt z ∨ Shows us alt z := by
  simp only [Shows, List.mem_append, or_and_right, exists_or]

theorem Eager.append {ts us : List Thread} (hts : Eager ts) (hus : Eager us) : Eager (ts ++ us) :=
  fun u hu => (List.mem_append.mp hu).elim (hts u) (hus u)

theorem mem_unplaced_of_outline {ts us : List Thread} (h : outline ts = outline us) (hu : u ∈ ts) :
    ∃ v ∈ us, v.unplaced = u.unplaced := by
  have hmem : u.unplaced ∈ outline us := h ▸ mem_outline.mpr (List.mem_map_of_mem hu)
  exact List.mem_map.mp (mem_outline.mp hmem)

theorem Shows.of_outline {ts us : List Thread} (h : outline ts = outline us) {alt : Nat} {z : Spot}
    (hs : Shows ts alt z) : Shows us alt z := by
  obtain ⟨u, hu, rfl, rfl⟩ := hs
  obtain ⟨v, hv, he⟩ := mem_unplaced_of_outline h hu
  refine ⟨v, hv, ?_, ?_⟩
  · rw [← alt_unplaced v, he, alt_unplaced]
  · rw [← spot_unplaced v, he, spot_unplaced]

theorem Eager.of_outline {ts us : List Thread} (h : outline ts = outline us) (hts : Eager ts) :
    Eager us := by
  intro u hu
  obtain ⟨v, hv, he⟩ := mem_unplaced_of_outline h.symm hu
  rw [← passedLazy_unplaced, ← he, passedLazy_unplaced]
  exact hts v hv

/-- A closure collects spots of one alternative. -/
theorem trace_shows_alt (hg : env.network.Greedy) {finished : Bool} (ht : t.passedLazy = false)
    (h : trace env finished t = .ok p) : Eager p.collected ∧ ∀ alt z, Shows p.collected alt z ↔
      alt = t.alt ∧ env.network.Rests z ∧ Relation.ReflTransGen env.network.Free t.spot z := by
  obtain ⟨heager, hshows⟩ := trace_shows hg ht h
  refine ⟨heager, fun alt z => ?_⟩
  rw [← hshows]
  constructor
  · rintro ⟨u, hu, rfl, hspot⟩
    exact ⟨alt_of_trace h u hu, u, hu, hspot⟩
  · rintro ⟨rfl, u, hu, hspot⟩
    exact ⟨u, hu, alt_of_trace h u hu, hspot⟩

theorem startFrom_shows (hg : env.network.Greedy) {alt : Nat} {s s' : Sweep} {ts : List Transition}
    (hs : Eager s.threads) (h : startFrom env alt s ts = .ok s') : Eager s'.threads ∧
      ∀ a z, Shows s'.threads a z ↔ Shows s.threads a z ∨ ∃ i tr, ts[i]? = some tr ∧ a = alt + i ∧
        env.network.Rests z ∧ Relation.ReflTransGen env.network.Free ⟨tr.target, []⟩ z := by
  induction ts generalizing alt s with
  | nil =>
    cases h
    exact ⟨hs, fun a z => by simp⟩
  | cons tr rest ih =>
    obtain ⟨p, hp, h⟩ := ok_of_bind h
    obtain ⟨heager, hshows⟩ := trace_shows_alt hg rfl hp
    obtain ⟨heager', hshows'⟩ := ih (hs.append heager) h
    refine ⟨heager', fun a z => ?_⟩
    rw [hshows', Sweep.add, shows_append, hshows, or_assoc]
    refine or_congr_right ?_
    constructor
    · rintro (⟨rfl, hrests, hfree⟩ | ⟨i, tr', htr', rfl, hz⟩)
      · exact ⟨0, tr, rfl, rfl, hrests, hfree⟩
      · exact ⟨i + 1, tr', htr', by omega, hz⟩
    · rintro ⟨_ | i, tr', htr', rfl, hz⟩
      · cases htr'
        exact .inl ⟨rfl, hz⟩
      · exact .inr ⟨i, tr', htr', by omega, hz⟩

/-- The threads of a beginning stand where the machine rests before anything is read. -/
theorem starts_shows (hg : env.network.Greedy) {start : Nat} {s : Sweep}
    (h : starts env start = .ok s) : Eager s.threads ∧ ∀ alt z, Shows s.threads alt z ↔
      ∃ tr, (env.network.state start).alternative? alt = some tr ∧ env.network.Rests z ∧
        Relation.ReflTransGen env.network.Free ⟨tr.target, []⟩ z := by
  obtain ⟨q, hq, h⟩ := ok_of_bind h
  obtain ⟨heager, hshows⟩ := startFrom_shows hg (fun u hu => absurd hu List.not_mem_nil) h
  refine ⟨heager, fun alt z => ?_⟩
  rw [hshows, Network.state_of_state? hq, State.alternative?]
  constructor
  · rintro (⟨u, hu, -⟩ | ⟨i, tr, htr, rfl, hz⟩)
    · exact absurd hu List.not_mem_nil
    · refine ⟨tr, ?_, hz⟩
      rw [if_neg (by omega), Nat.add_sub_cancel_left]
      exact htr
  · rintro ⟨tr, htr, hz⟩
    split at htr
    · cases htr
    · exact .inr ⟨alt - 1, tr, htr, by omega, hz⟩

theorem consumes_not_isFree {lo hi x : Int} (h : tr.consumes lo hi x) : tr.isFree = false := by
  cases tr <;> first | rfl | cases h

/-- What a thread leads to over a character. -/
theorem yield_shows (hg : env.network.Greedy) {offset : Nat} {x : Symbol} {finished : Bool}
    (ht : t.passedLazy = false) {r : Bool × Sweep} (h : yield env offset x finished t = .ok r) :
    Eager r.2.threads ∧ ∀ alt z, Shows r.2.threads alt z ↔ alt = t.alt ∧ env.network.Rests z ∧
      ∃ y, env.network.Eats minCodePoint maxCodePoint x t.spot y ∧
        Relation.ReflTransGen env.network.Free y z := by
  unfold yield at h
  rw [ht, Bool.and_false, if_neg Bool.false_ne_true] at h
  obtain ⟨q, hq, h⟩ := ok_of_bind h
  have hways : env.network.ways t.state = q.transitions := by
    rw [Network.ways, Network.state_of_state? hq]
  rw [← hways] at h
  -- In a greedy network a transition that consumes is alone, so at most one is followed.
  by_cases hsome : ∃ tr ∈ env.network.ways t.state, tr.consumes minCodePoint maxCodePoint x
  · obtain ⟨tr, htr, hx⟩ := hsome
    have halone := hg.alone htr (consumes_not_isFree hx)
    have hstop : ¬ env.network.isStop t.state := by
      intro hstop
      have hfree := hg.stops hstop htr
      rw [consumes_not_isFree hx] at hfree
      cases hfree
    rw [halone, List.filter_cons_of_pos hx, List.filter_nil] at h
    obtain ⟨d, hcross, hrest⟩ := ok_of_bind h
    obtain ⟨p, hp, hend⟩ := ok_of_bind hrest
    obtain ⟨s, hs, hd⟩ := ok_of_bind hcross
    cases hd
    have hlazy : (t.passedLazy || (s.nonGreedy && s.kind.isDecision)) = false := by
      have heager := hg.eager hstop htr
      rw [Network.state_of_state? hs] at heager
      rw [ht, heager, Bool.or_false]
    obtain ⟨heager, hshows⟩ := trace_shows_alt hg hlazy hp
    have hthreads : r.2.threads = p.collected := by
      split at hend <;> cases hend <;> rfl
    rw [hthreads]
    refine ⟨heager, fun alt z => (hshows alt z).trans ?_⟩
    refine and_congr_right fun _ => and_congr_right fun _ => ?_
    constructor
    · intro hfree
      exact ⟨_, .along hstop htr hx, hfree⟩
    · rintro ⟨y, heats, hfree⟩
      generalize hz : t.spot = z₀ at heats
      cases heats with
      | along _ htr' _ =>
        obtain ⟨rfl, rfl⟩ := Spot.mk.inj hz
        have htr'' : _ ∈ env.network.ways t.state := htr'
        rw [halone, List.mem_singleton] at htr''
        subst htr''
        exact hfree
  · have hnil : (env.network.ways t.state).filter
        (Transition.consumes minCodePoint maxCodePoint x) = [] := by
      rw [List.filter_eq_nil_iff]
      exact fun tr htr hx => hsome ⟨tr, htr, hx⟩
    rw [hnil] at h
    cases h
    refine ⟨fun u hu => absurd hu List.not_mem_nil, fun alt z => ?_⟩
    constructor
    · rintro ⟨u, hu, -⟩
      exact absurd hu List.not_mem_nil
    · rintro ⟨-, -, y, heats, -⟩
      generalize hz : t.spot = z₀ at heats
      cases heats with
      | along _ htr hx =>
        obtain ⟨rfl, rfl⟩ := Spot.mk.inj hz
        exact absurd ⟨_, htr, hx⟩ hsome

theorem reachAll_shows (hg : env.network.Greedy) {offset : Nat} {x : Symbol} {done : Option Nat}
    {s s' : Sweep} {ts : List Thread} (hs : Eager s.threads) (hts : Eager ts)
    (h : reachAll env offset x done s ts = .ok s') : Eager s'.threads ∧
      ∀ alt z, Shows s'.threads alt z ↔ Shows s.threads alt z ∨ env.network.Rests z ∧
        ∃ y y', Shows ts alt y ∧ env.network.Eats minCodePoint maxCodePoint x y y' ∧
          Relation.ReflTransGen env.network.Free y' z := by
  induction ts generalizing done s with
  | nil =>
    cases h
    refine ⟨hs, fun alt z => (or_iff_left ?_).symm⟩
    rintro ⟨-, y, y', ⟨u, hu, -⟩, -⟩
    exact absurd hu List.not_mem_nil
  | cons t rest ih =>
    rw [reachAll_cons] at h
    obtain ⟨r, hr, h⟩ := ok_of_bind h
    obtain ⟨heager, hshows⟩ := yield_shows hg (hts t List.mem_cons_self) hr
    obtain ⟨heager', hshows'⟩ := ih (hs.append heager) (fun u hu => hts u (List.mem_cons_of_mem t hu)) h
    refine ⟨heager', fun alt z => ?_⟩
    rw [hshows', Sweep.append, shows_append, hshows, or_assoc]
    refine or_congr_right ?_
    constructor
    · rintro (⟨rfl, hrests, y, heats, hfree⟩ | ⟨hrests, y, y', ⟨u, hu, halt, hspot⟩, hz⟩)
      · exact ⟨hrests, t.spot, y, ⟨t, List.mem_cons_self, rfl, rfl⟩, heats, hfree⟩
      · exact ⟨hrests, y, y', ⟨u, List.mem_cons_of_mem t hu, halt, hspot⟩, hz⟩
    · rintro ⟨hrests, y, y', ⟨u, hu, rfl, rfl⟩, heats, hfree⟩
      rcases List.mem_cons.mp hu with rfl | hu
      · exact .inl ⟨rfl, hrests, y', heats, hfree⟩
      · exact .inr ⟨hrests, _, y', ⟨u, hu, rfl, rfl⟩, heats, hfree⟩

/-- The threads that are reached over a character stand where the machine rests when it has consumed it. -/
theorem reach_shows (hg : env.network.Greedy) {offset : Nat} {x : Symbol} {ts : List Thread} {s : Sweep}
    (hts : Eager ts) (h : reach env offset x ts = .ok s) : Eager s.threads ∧
      ∀ alt z, Shows s.threads alt z ↔ env.network.Rests z ∧
        ∃ y y', Shows ts alt y ∧ env.network.Eats minCodePoint maxCodePoint x y y' ∧
          Relation.ReflTransGen env.network.Free y' z := by
  obtain ⟨heager, hshows⟩ := reachAll_shows hg (fun u hu => absurd hu List.not_mem_nil) hts h
  refine ⟨heager, fun alt z => (hshows alt z).trans (or_iff_right ?_)⟩
  rintro ⟨u, hu, -⟩
  exact absurd hu List.not_mem_nil

/-! ## Keeping up with the machine -/

/-- After something was read the threads stand where the machine can rest then, for each alternative of the
state in which the match begins. -/
structure Tracks (n : Network) (start : Nat) (w : List Symbol) (ts : List Thread) : Prop where
  eager : Eager ts
  sorted : Sorted ts
  shows : ∀ alt z, Shows ts alt z ↔ n.Rests z ∧ ∃ tr, (n.state start).alternative? alt = some tr ∧
    n.Reads minCodePoint maxCodePoint ⟨tr.target, []⟩ w z

theorem shows_congr {ts us : List Thread} (h : outline ts = outline us) {alt : Nat} {z : Spot} :
    Shows ts alt z ↔ Shows us alt z := ⟨.of_outline h, .of_outline h.symm⟩

theorem tracks_starts (hg : env.network.Greedy) {start : Nat} {s : Sweep} {ts : List Thread}
    (h : starts env start = .ok s) (hts : Sorted ts) (heq : outline ts = outline s.threads) :
    Tracks env.network start [] ts where
  eager := (starts_shows hg h).1.of_outline heq.symm
  sorted := hts
  shows alt z := by
    rw [shows_congr heq, (starts_shows hg h).2]
    constructor
    · rintro ⟨tr, htr, hrests, hfree⟩
      exact ⟨hrests, tr, htr, .of_free hfree⟩
    · rintro ⟨hrests, tr, htr, hreads⟩
      exact ⟨tr, htr, hrests, hreads.free_of_nil⟩

/-- Before it consumes a character the machine rests. -/
theorem rests_of_eats (hg : n.Greedy) {lo hi : Int} {x : Symbol} {y z : Spot}
    (h : n.Eats lo hi x y z) : n.Rests y := by
  cases h with
  | along hstop htr hx =>
    refine .inr ⟨hstop, Bool.eq_false_iff.mpr fun hfree => ?_⟩
    have hfree' := hg.freeOnly _ hfree _ htr
    rw [consumes_not_isFree hx] at hfree'
    cases hfree'

theorem Tracks.reach (hg : env.network.Greedy) {start : Nat} {w : List Symbol} {offset : Nat}
    {x : Symbol} {s : Sweep} {ts ts' : List Thread} (h : Tracks env.network start w ts)
    (hr : reach env offset x ts = .ok s) (hts : Sorted ts') (heq : outline ts' = outline s.threads) :
    Tracks env.network start (w ++ [x]) ts' where
  eager := (reach_shows hg h.eager hr).1.of_outline heq.symm
  sorted := hts
  shows alt z := by
    rw [shows_congr heq, (reach_shows hg h.eager hr).2]
    refine and_congr_right fun hrests => ?_
    constructor
    · rintro ⟨y, y', hy, heats, hfree⟩
      obtain ⟨-, tr, htr, hreads⟩ := (h.shows alt y).mp hy
      exact ⟨tr, htr, hreads.append (.eat heats (.of_free hfree))⟩
    · rintro ⟨tr, htr, hreads⟩
      obtain ⟨y₀, hw, hx⟩ := hreads.exists_of_append
      obtain ⟨y, y', hfree, heats, hrest⟩ := hx.exists_of_cons
      refine ⟨y, y', (h.shows alt y).mpr ⟨rests_of_eats hg heats, tr, htr, ?_⟩, heats, hrest.free_of_nil⟩
      have happend := hw.append (.of_free hfree)
      rwa [List.append_nil] at happend

/-- Where no thread is left nothing more can be read up to the end of a token rule. -/
theorem Tracks.not_reads (hg : n.Greedy) {start : Nat} {w v : List Symbol} {ts : List Thread}
    (h : Tracks n start w ts) (hnil : ts = []) {alt : Nat} {tr : Transition}
    (htr : (n.state start).alternative? alt = some tr) {z : Nat} (hz : n.isStop z) :
    ¬ n.Reads minCodePoint maxCodePoint ⟨tr.target, []⟩ (w ++ v) ⟨z, []⟩ := by
  intro hreads
  obtain ⟨y, hw, hv⟩ := hreads.exists_of_append
  have hrests : ∃ y', n.Reads minCodePoint maxCodePoint ⟨tr.target, []⟩ w y' ∧ n.Rests y' := by
    cases v with
    | nil =>
      have happend := hw.append (.of_free hv.free_of_nil)
      rw [List.append_nil] at happend
      exact ⟨_, happend, .inl ⟨hz, rfl⟩⟩
    | cons x v =>
      obtain ⟨y', y'', hfree, heats, -⟩ := hv.exists_of_cons
      have happend := hw.append (.of_free hfree)
      rw [List.append_nil] at happend
      exact ⟨y', happend, rests_of_eats hg heats⟩
  obtain ⟨y', hy', hrests⟩ := hrests
  obtain ⟨u, hu, -⟩ := (h.shows alt y').mpr ⟨hrests, tr, htr, hy'⟩
  rw [hnil] at hu
  exact absurd hu List.not_mem_nil

end Thread
end AdaptiveLL
