import AdaptiveLL.Proofs.Grammar.Reading

/-! # Grammars without their guards

A guard is a predicate or a precedence requirement.  Read as the empty word, each is an element that
consumes nothing (`Element.unguarded`), and its transition a free one (`Transition.unguarded`).  The
network of a grammar without its guards is laid out like that of the grammar itself
(`Grammar.LaidOut.unguarded`), so what a walk reads that takes guards for granted is a word of the
language in which guards are empty (`Grammar.LaidOut.derives_unguarded`).
-/
namespace AdaptiveLL

namespace Element

mutual

/-- An element whose guards are read as the empty word. -/
def unguarded : Element → Element
  | predicate .. | precedence _ => seq []
  | seq items => seq (unguardedIn items)
  | alt items => alt (unguardedIn items)
  | optional body greedy => optional (unguarded body) greedy
  | star body greedy => star (unguarded body) greedy
  | plus body greedy => plus (unguarded body) greedy
  | symbol label => symbol label
  | range lo hi => range lo hi
  | set s => set s
  | notSet s => notSet s
  | wildcard => wildcard
  | call rule level => call rule level
  | action index => action index
  | command c => command c

/-- Elements whose guards are read as the empty word. -/
def unguardedIn : List Element → List Element
  | [] => []
  | e :: rest => unguarded e :: unguardedIn rest

end

theorem unguardedIn_eq_map (items : List Element) : unguardedIn items = items.map unguarded := by
  induction items with
  | nil => rw [unguardedIn, List.map_nil]
  | cons e items ih => rw [unguardedIn, ih, List.map_cons]

theorem branches_unguarded (e : Element) : e.unguarded.branches = e.branches.map unguarded := by
  cases e <;> simp [unguarded, branches, unguardedIn_eq_map]

end Element

/-- The rules of a grammar, their guards read as the empty word. -/
def Grammar.unguarded (g : Grammar) : Grammar :=
  { g with rules := g.rules.map fun r => { r with body := r.body.unguarded } }

/-- A transition whose guard is taken for granted. -/
def Transition.unguarded : Transition → Transition
  | predicate target .. | precedence target _ => epsilon target
  | t => t

/-- A network whose guards are taken for granted. -/
def Network.unguarded (n : Network) : Network :=
  { n with states := n.states.map fun s =>
      { s with transitions := s.transitions.map Transition.unguarded } }

namespace Transition

@[simp] theorem target_unguarded (t : Transition) : t.unguarded.target = t.target := by
  cases t <;> rfl

@[simp] theorem isFree_unguarded (t : Transition) : t.unguarded.isFree = t.isFree := by
  cases t <;> rfl

@[simp] theorem consumes_unguarded (lo hi x : Symbol) (t : Transition) :
    t.unguarded.consumes lo hi x = t.consumes lo hi x := by
  cases t <;> rfl

/-- Calls are no guards. -/
theorem unguarded_eq_call_iff {t : Transition} {target rule follow : Nat} {level : Int} :
    t.unguarded = .call target rule level follow ↔ t = .call target rule level follow := by
  cases t <;> simp [unguarded]

end Transition

namespace Network
variable (n : Network)

theorem getElem?_states_unguarded (q : Nat) : n.unguarded.states[q]? =
    n.states[q]?.map fun s => { s with transitions := s.transitions.map Transition.unguarded } := by
  rw [unguarded, Array.getElem?_map]

theorem state_unguarded (q : Nat) : n.unguarded.state q =
    { n.state q with transitions := (n.state q).transitions.map Transition.unguarded } := by
  rw [state, getElem?_states_unguarded, state]
  cases n.states[q]? <;> rfl

@[simp] theorem ways_unguarded (q : Nat) :
    n.unguarded.ways q = (n.ways q).map Transition.unguarded := by
  rw [ways, state_unguarded, ways]

@[simp] theorem isStop_unguarded (q : Nat) : n.unguarded.isStop q = n.isStop q := by
  rw [isStop, state_unguarded, isStop, State.isStop, State.isStop]

theorem call_mem_ways_unguarded {q target rule follow : Nat} {level : Int} :
    .call target rule level follow ∈ n.unguarded.ways q ↔ .call target rule level follow ∈ n.ways q := by
  rw [ways_unguarded, List.mem_map]
  constructor
  · rintro ⟨t, ht, heq⟩
    exact Transition.unguarded_eq_call_iff.mp heq ▸ ht
  · exact fun ht => ⟨_, ht, rfl⟩

end Network

/-! ## The layout -/

theorem map_unguarded_entries (part : Nat → Stretch) (count : Nat) :
    (entries part count).map Transition.unguarded = entries part count := by
  rw [entries, List.map_map]
  rfl

theorem map_unguarded_onward (greedy : Bool) (again out : Nat) :
    (onward greedy again out).map Transition.unguarded = onward greedy again out := by
  cases greedy <;> rfl

namespace Laid
variable {T : Nat → List Transition} {callees : Callees} {rule : Nat}

/-- A part laid out as it is, between the parts of other elements. -/
theorem unguarded_parts {items : List Element} {bound : Nat → Nat} {part : Nat → Stretch}
    (h : ∀ i (h : i < items.length), Laid (fun q => (T q).map Transition.unguarded) callees rule
      items[i].unguarded (bound i) (bound (i + 1)) (part i)) :
    ∀ i (h : i < (items.map Element.unguarded).length),
      Laid (fun q => (T q).map Transition.unguarded) callees rule
        (items.map Element.unguarded)[i] (bound i) (bound (i + 1)) (part i) := by
  intro i hi
  rw [List.getElem_map]
  exact h i (by rwa [List.length_map] at hi)

theorem unguarded_branches {body : Element} {bound : Nat → Nat} {part : Nat → Stretch}
    (h : ∀ i (h : i < body.branches.length), Laid (fun q => (T q).map Transition.unguarded) callees
      rule body.branches[i].unguarded (bound i) (bound (i + 1)) (part i)) :
    ∀ i (h : i < body.unguarded.branches.length),
      Laid (fun q => (T q).map Transition.unguarded) callees rule body.unguarded.branches[i]
        (bound i) (bound (i + 1)) (part i) := by
  rw [Element.branches_unguarded]
  exact unguarded_parts h

/-- Without its guards an element is laid out in the same states. -/
theorem unguarded {e : Element} {lo hi : Nat} {s : Stretch} (h : Laid T callees rule e lo hi s) :
    Laid (fun q => (T q).map Transition.unguarded) callees rule e.unguarded lo hi s := by
  induction h with
  | @direct e t lo hd hT =>
    have hT' : (T lo).map Transition.unguarded = [(t (lo + 1)).unguarded] := by
      rw [hT, List.map_singleton]
    -- A state that had a guard is now passed freely, as that of an empty element.
    cases hd with
    | predicate | precedence => exact .empty hT'
    | symbol => exact .direct (.symbol _) hT'
    | range => exact .direct (.range _ _) hT'
    | set => exact .direct (.set _) hT'
    | notSet => exact .direct (.notSet _) hT'
    | wildcard => exact .direct .wildcard hT'
    | call level hc => exact .direct (.call level hc) hT'
    | action => exact .direct (.action _ _) hT'
    | command => exact .direct (.command _ _) hT'
  | empty hT => exact .empty (by rw [hT]; rfl)
  | @seq e items bound part hparts hnext ih =>
    have hlen : (items.map Element.unguarded).length = items.length := List.length_map _
    have hseq : Laid (fun q => (T q).map Transition.unguarded) callees rule
        (.seq (e.unguarded :: items.map Element.unguarded)) (bound 0)
        (bound ((items.map Element.unguarded).length + 1))
        ⟨(part 0).entry, (part (items.map Element.unguarded).length).exit⟩ :=
      .seq (unguarded_parts ih) fun i hi => by
        rw [hnext i (hlen ▸ hi)]
        rfl
    rw [hlen] at hseq
    rw [Element.unguarded, Element.unguardedIn, Element.unguardedIn_eq_map]
    exact hseq
  | only _ ih => exact .only ih
  | @alt items lo bound part hone hbound hparts hstart hexit ih =>
    have hlen : (items.map Element.unguarded).length = items.length := List.length_map _
    have halt : Laid (fun q => (T q).map Transition.unguarded) callees rule
        (.alt (items.map Element.unguarded)) lo (bound (items.map Element.unguarded).length)
        ⟨lo, lo + 1⟩ :=
      .alt (hlen ▸ hone) hbound (unguarded_parts ih)
        (by rw [hstart, map_unguarded_entries, hlen]) fun i hi => by
          rw [hexit i (hlen ▸ hi)]
          rfl
    rw [hlen] at halt
    rw [Element.unguarded, Element.unguardedIn_eq_map]
    exact halt
  | @optional body greedy lo bound part hbound hparts hstart hexit ih =>
    have hlen : body.unguarded.branches.length = body.branches.length := by
      rw [Element.branches_unguarded, List.length_map]
    have hopt : Laid (fun q => (T q).map Transition.unguarded) callees rule
        (.optional body.unguarded greedy) lo (bound body.unguarded.branches.length) ⟨lo, lo + 1⟩ := by
      refine .optional hbound (unguarded_branches ih) ?_ fun i hi => ?_
      · rw [hstart, hlen]
        split
        · rw [List.map_append, map_unguarded_entries]
          rfl
        · rw [List.map_cons, map_unguarded_entries]
          rfl
      · rw [hexit i (hlen ▸ hi)]
        rfl
    rw [hlen] at hopt
    exact hopt
  | @star body greedy lo back bound part hbound hback hparts hentry hstart hexit hstop hagain ih =>
    have hlen : body.unguarded.branches.length = body.branches.length := by
      rw [Element.branches_unguarded, List.length_map]
    refine .star hbound (hlen ▸ hback) (unguarded_branches ih) ?_ ?_ (fun i hi => ?_) ?_ ?_
    · rw [hentry, map_unguarded_onward]
    · rw [hstart, map_unguarded_entries, hlen]
    · rw [hexit i (hlen ▸ hi)]
      rfl
    · rw [hstop]
      rfl
    · rw [hagain]
      rfl
  | @plus body greedy lo back bound part hbound hback hparts hstart hexit hstop hagain ih =>
    have hlen : body.unguarded.branches.length = body.branches.length := by
      rw [Element.branches_unguarded, List.length_map]
    refine .plus hbound (hlen ▸ hback) (unguarded_branches ih) ?_ (fun i hi => ?_) ?_ ?_
    · rw [hstart, map_unguarded_entries, hlen]
    · rw [hexit i (hlen ▸ hi)]
      rfl
    · rw [hstop]
      rfl
    · rw [hagain, map_unguarded_onward]

end Laid

namespace Grammar.LaidOut
variable {g : Grammar} {p : Plan} {lazy : Prop} {n : Network}

/-- Without their guards, the network is the layout of the grammar. -/
theorem unguarded (h : g.LaidOut p lazy n) : g.unguarded.LaidOut p lazy n.unguarded := by
  have hlen : g.unguarded.rules.length = g.rules.length := List.length_map _
  have hnames : ∀ k, (g.unguarded.rules.take k).map Rule.name = (g.rules.take k).map Rule.name := by
    intro k
    rw [Grammar.unguarded, ← List.map_take, List.map_map]
    rfl
  have htypes : ∀ k, (g.unguarded.rules.take k).map Rule.tokenType =
      (g.rules.take k).map Rule.tokenType := by
    intro k
    rw [Grammar.unguarded, ← List.map_take, List.map_map]
    rfl
  have hstate : ∀ {q : Nat} {s : State}, n.states[q]? = some s → n.unguarded.states[q]? =
      some { s with transitions := s.transitions.map Transition.unguarded } := fun hs => by
    rw [Network.getElem?_states_unguarded, hs, Option.map_some]
  have hone : ∀ {q z : Nat}, n.ways q = [.epsilon z] → n.unguarded.ways q = [.epsilon z] :=
    fun hq => by
      rw [Network.ways_unguarded, hq]
      rfl
  exact {
    kind := h.kind
    maxSymbol := h.maxSymbol
    modeStarts := h.modeStarts
    ruleStarts := hlen ▸ h.ruleStarts
    ruleStops := hlen ▸ h.ruleStops
    ruleNames := by rw [hnames, hlen]; exact h.ruleNames
    nodup := by rw [hnames, hlen]; exact h.nodup
    tokenTypes := by rw [htypes, hlen]; exact h.tokenTypes
    modes := h.modes
    base := hlen ▸ h.base
    size := by
      rw [hlen, ← h.size, Network.unguarded, Array.size_map]
    decisions := h.decisions
    mode := fun m hm => by
      obtain ⟨s, hs, h1, h2, h3, h4⟩ := h.mode m hm
      exact ⟨_, hstate hs, h1, h2, h3, h4⟩
    modeWays := fun m hm => by
      rw [Network.ways_unguarded, h.modeWays m hm, Grammar.modeWays, Grammar.modeWays, List.map_map,
        hlen]
      have hfilter : ∀ i, (g.unguarded.rules[i]?.any fun r : Rule => !r.isFragment && r.mode == m) =
          g.rules[i]?.any fun r : Rule => !r.isFragment && r.mode == m := fun i => by
        rw [Grammar.unguarded, List.getElem?_map]
        cases g.rules[i]? <;> rfl
      simp only [hfilter]
      rfl
    start := fun i hi => by
      obtain ⟨s, hs, h1, h2, h3, h4⟩ := h.start i (hlen ▸ hi)
      exact ⟨_, hstate hs, h1, h2, h3, h4⟩
    stop := fun i hi => by
      obtain ⟨s, hs, h1, h2, h3, h4⟩ := h.stop i (hlen ▸ hi)
      exact ⟨_, hstate hs, h1, h2, h3, h4⟩
    inner := fun i hi q s hlo hhi hget => by
      rw [Network.getElem?_states_unguarded] at hget
      obtain ⟨u, hu, rfl⟩ := Option.map_eq_some_iff.mp hget
      exact h.inner i (hlen ▸ hi) q u hlo hhi hu
    laid := fun i r hr => by
      rw [Grammar.unguarded, List.getElem?_map] at hr
      obtain ⟨u, hu, rfl⟩ := Option.map_eq_some_iff.mp hr
      rw [show n.unguarded.ways = fun q => (n.ways q).map Transition.unguarded from
        funext n.ways_unguarded]
      exact (h.laid i u hu).unguarded
    enter := fun i hi => hone (h.enter i (hlen ▸ hi))
    leave := fun i hi => hone (h.leave i (hlen ▸ hi))
    returns := fun i hi t => by
      simp only [Network.call_mem_ways_unguarded]
      rw [← h.returns i (hlen ▸ hi), Network.ways_unguarded, List.mem_map]
      constructor
      · rintro ⟨u, hu, rfl⟩
        obtain ⟨q, target, level, follow, rfl, -⟩ := (h.returns i (hlen ▸ hi) u).mp hu
        exact hu
      · intro ht
        obtain ⟨q, target, level, follow, rfl, -⟩ := (h.returns i (hlen ▸ hi) t).mp ht
        exact ⟨_, ht, rfl⟩
    freeOnly := fun q s hget => by
      rw [Network.getElem?_states_unguarded] at hget
      obtain ⟨u, hu, rfl⟩ := Option.map_eq_some_iff.mp hget
      have hfree : (Transition.isFree ∘ Transition.unguarded) = Transition.isFree :=
        funext Transition.isFree_unguarded
      rw [State.hasOnlyFree, List.isEmpty_map, List.all_map, hfree]
      exact h.freeOnly q u hu
    choices := fun i hi q hlo hhi hmany => by
      rw [Network.ways_unguarded, List.length_map] at hmany
      have hdecided := h.choices i (hlen ▸ hi) q hlo hhi hmany
      rwa [Network.Decided, Network.state_unguarded] }

/-- A walk from the start of a rule to its stop that takes guards for granted reads a word of the
language of the rule in which guards are empty. -/
theorem derives_unguarded (h : g.LaidOut p lazy n) {i : Nat} {r : Rule} (hr : g.rules[i]? = some r)
    {lo hi : Int} {w : List Symbol} (hw : n.unguarded.Reads lo hi ⟨p.start i, []⟩ w ⟨p.stop i, []⟩) :
    r.body.unguarded.Derives g.unguarded lo hi w := by
  have hg := h.unguarded
  have hr' : g.unguarded.rules[i]? = some { r with body := r.body.unguarded } := by
    rw [Grammar.unguarded, List.getElem?_map, hr, Option.map_some]
  obtain ⟨K, hstart, hstop, hleads⟩ := hg.exists_labels lo hi
  have hmem := hg.mem_of_reads hstart hstop hleads (List.getElem?_eq_some_iff.mp hr').1 hw rfl
  rw [List.map_nil, List.prod_nil, mul_one, hstart i _ hr'] at hmem
  exact hmem

end Grammar.LaidOut
end AdaptiveLL
