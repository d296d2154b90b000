import Mathlib
import AdaptiveLL.Proofs.Lexing.Course
import AdaptiveLL.Proofs.Lexing.Greedy
import AdaptiveLL.Proofs.Lexing.Termination

/-! # Predicates that are not asked

In a network without predicates the answers to predicates do not matter: a match is the same under all
callbacks that share the rest, to the end of its effect on the matcher (`Scan.next_unasked`).

A closure asks a predicate only where it follows one, so it is enough that no item of its walk does
(`Outlook.Item.Unasking`).
-/
namespace AdaptiveLL

namespace DepthFirst
variable {β σ : Type} {visit visit' : β → ExceptT RecognitionError (StateM σ) (Option (List β))}
  {tooDeep : RecognitionError} {good : β → Prop}

/-- Visits that are the same for good items, which open good items only, make the same walk through good
items. -/
theorem run_eq (hsame : ∀ i, good i → visit' i = visit i)
    (hopen : ∀ i s items t, good i → visit i s = (.ok (some items), t) → ∀ j ∈ items, good j) {room : Nat}
    {pending : List (List β)} {s : σ} (hgood : ∀ items ∈ pending, ∀ i ∈ items, good i) :
    run visit' tooDeep room pending s = run visit tooDeep room pending s := by
  fun_induction run visit tooDeep room pending s with
  | case1 => rw [run]
  | case2 room below s ih =>
    rw [run]
    exact ih (List.forall_mem_cons.mp hgood).2
  | case3 room s item rest below e t heq =>
    rw [run, hsame item (hgood _ List.mem_cons_self _ List.mem_cons_self), heq]
  | case4 room s item rest below t heq ih =>
    obtain ⟨hitems, hbelow⟩ := List.forall_mem_cons.mp hgood
    obtain ⟨hitem, hrest⟩ := List.forall_mem_cons.mp hitems
    rw [run, hsame item hitem, heq]
    exact ih (List.forall_mem_cons.mpr ⟨hrest, hbelow⟩)
  | case5 s item rest below items t heq =>
    rw [run, hsame item (hgood _ List.mem_cons_self _ List.mem_cons_self), heq]
  | case6 s item rest below items t heq room ih =>
    obtain ⟨hitems, hbelow⟩ := List.forall_mem_cons.mp hgood
    obtain ⟨hitem, hrest⟩ := List.forall_mem_cons.mp hitems
    rw [run, hsame item hitem, heq]
    exact ih (List.forall_mem_cons.mpr ⟨hopen item s items t hitem heq, List.forall_mem_cons.mpr ⟨hrest, hbelow⟩⟩)

end DepthFirst

/-- From states with a property two computations do the same. -/
def Run.Coincides {σ α : Type} (inv : σ → Prop) (m m' : Run σ α) : Prop := ∀ s, inv s → m s = m' s

namespace Run.Coincides
variable {σ α β : Type} {inv : σ → Prop}

theorem refl (m : Run σ α) : Coincides inv m m := fun _ _ => rfl

theorem bind {m m' : Run σ α} {k k' : α → Run σ β} (hm : Coincides inv m m') (hkeeps : Run.Preserves inv m')
    (hk : ∀ a, Coincides inv (k a) (k' a)) : Coincides inv (m >>= k) (m' >>= k') := by
  intro s hs
  rw [Run.bind_apply, Run.bind_apply, hm s hs]
  have hkept := hkeeps s hs
  rcases hr : m' s with ⟨e | a, t⟩
  · rfl
  · rw [hr] at hkept
    exact hk a t hkept

/-- What reads the state may be told apart by it. -/
theorem read {k k' : σ → Run σ β} (hk : ∀ s, inv s → Coincides inv (k s) (k' s)) :
    Coincides inv (get >>= k) (get >>= k') := fun s hs => hk s hs s hs

theorem ite {p : Prop} [Decidable p] {m m' l l' : Run σ α} (hm : Coincides inv m m') (hl : Coincides inv l l') :
    Coincides inv (if p then m else l) (if p then m' else l') := by
  split
  · exact hm
  · exact hl

end Run.Coincides

open Run (Leaves Keeps Coincides)

/-- No transition asks a predicate. -/
def Network.Unasked (n : Network) : Prop :=
  ∀ q, ∀ t ∈ (n.state q).transitions, ∀ target rule index contextual,
    t ≠ .predicate target rule index contextual

/-- Where only the text decides no predicate is asked. -/
theorem Network.Textual.unasked {n : Network} (h : n.Textual) : n.Unasked := by
  rintro q _ ht target rule index contextual rfl
  rcases h.free ht rfl with hplain | ⟨_, _, _, _, he⟩
  · cases hplain
  · cases he

theorem Network.Greedy.unasked {n : Network} (h : n.Greedy) : n.Unasked := h.textual.unasked

namespace Outlook
variable {σ : Type} {env env' : Outlook σ}

/-- Outlooks that differ in nothing but how predicates are decided. -/
structure Alike (env env' : Outlook σ) : Prop where
  network : env'.network = env.network
  endIsFree : env'.endIsFree = env.endIsFree
  maxDepth : env'.maxDepth = env.maxDepth

/-- An item that does not follow a predicate. -/
def Item.Unasking : Item → Prop
  | .follow _ t => ∀ target rule index contextual, t ≠ .predicate target rule index contextual
  | _ => True

theorem arrive_alike (h : Alike env env') (c : Config) : arrive env' c = arrive env c := by
  unfold arrive
  rw [h.network]

/-- An item that does not follow a predicate is visited alike. -/
theorem visit_alike (h : Alike env env') {i : Item} (hi : i.Unasking) : visit env' i = visit env i := by
  cases i with
  | arrive c => exact arrive_alike h c
  | pop c f =>
    show pop env' c f = pop env c f
    unfold pop
    split
    · exact arrive_alike h _
    · rfl
  | follow c t =>
    show follow env' c t = follow env c t
    have htarget : target? env' c t = target? env c t := by
      unfold target?
      rw [h.network, h.endIsFree]
      cases t with
      | predicate target rule index contextual => exact absurd rfl (hi target rule index contextual)
      | _ => rfl
    unfold follow
    rw [htarget]
    refine bind_congr fun o => ?_
    cases o with
    | none => rfl
    | some d => exact arrive_alike h d

theorem keeps_anything {τ α : Type} (m : Run τ α) : Keeps (fun _ => True) (fun _ => True) m :=
  fun _ _ _ _ _ => ⟨trivial, trivial⟩

/-- What opens are items that do not follow a predicate, where no transition asks one. -/
theorem unasking_of_arrive (hn : env.network.Unasked) (c : Config) :
    Keeps (fun _ => True) (fun o => ∀ j ∈ o.getD [], j.Unasking) (arrive env c) := by
  have hnone : ∀ j ∈ (none : Option (List Item)).getD [], j.Unasking := fun j hj => absurd hj List.not_mem_nil
  -- What opens at the end of a rule are frames to pop.
  have hpops : ∀ fs : List Frame, ∀ j ∈ (some (fs.map (Item.pop c))).getD [], j.Unasking := by
    intro fs j hj
    obtain ⟨f, -, rfl⟩ := List.mem_map.mp hj
    trivial
  have hlook : Keeps (fun _ => True) (fun s => env.network.state c.state = s)
      (lookUp env.network c.state : Run (Progress σ) State) := by
    unfold lookUp
    split
    · next s hs => exact .pure (Network.state_of_state? hs)
    · exact fun _ _ _ h => nomatch h
  refine hlook.bind fun s hs => .ite (.ite ?_ ?_) ?_
  · exact (keeps_anything _).andThen fun _ => .pure hnone
  · refine (keeps_anything _).andThen fun p => ?_
    have hrest : ∀ _ : PUnit, Keeps (fun _ => True) (fun o => ∀ j ∈ o.getD [], j.Unasking)
        (do pure (some (((← get (σ := Progress σ)).work.graph.frames c.stack).map (Item.pop c))) :
          Run (Progress σ) (Option (List Item))) :=
      fun _ => (keeps_anything _).andThen fun p => .pure (hpops _)
    exact .ite ((keeps_anything _).andThen hrest) ((keeps_anything (Pure.pure PUnit.unit)).andThen hrest)
  · have hfollows : ∀ j ∈ (some (s.transitions.map (Item.follow c))).getD [], j.Unasking := by
      intro j hj
      obtain ⟨t, ht, rfl⟩ := List.mem_map.mp hj
      exact hn c.state t (hs ▸ ht)
    refine (keeps_anything (markVisited c)).andThen fun fresh => .ite ?_ (.pure hnone)
    refine (keeps_anything _).andThen fun p => ?_
    exact .ite ((keeps_anything _).andThen fun _ => .pure hfollows) ((keeps_anything (Pure.pure PUnit.unit)).andThen fun _ => .pure hfollows)

theorem unasking_of_visit (hn : env.network.Unasked) (i : Item) :
    Keeps (fun _ => True) (fun o => ∀ j ∈ o.getD [], j.Unasking) (visit env i) := by
  have hnone : ∀ j ∈ (none : Option (List Item)).getD [], j.Unasking := fun j hj => absurd hj List.not_mem_nil
  cases i with
  | arrive c => exact unasking_of_arrive hn c
  | pop c f =>
    show Keeps _ _ (pop env c f)
    unfold pop
    split
    · exact unasking_of_arrive hn _
    · exact .pure hnone
  | follow c t =>
    refine (keeps_anything (target? env c t)).andThen fun o => ?_
    cases o with
    | none => exact .pure hnone
    | some d => exact unasking_of_arrive hn d

/-- Where no transition asks a predicate, closures under alike outlooks are the same. -/
theorem close_alike (h : Alike env env') (hn : env.network.Unasked) (finished : Bool) (out : ConfigSet)
    (c : Config) : close env' finished out c = close env finished out c := by
  funext ⟨graph, author, closures⟩
  have hrun : ∀ begin : Progress σ,
      DepthFirst.walk (visit env') (.closureDepthExceeded (env.maxDepth + 1) env.maxDepth) env.maxDepth
        (.arrive c) begin =
      DepthFirst.walk (visit env) (.closureDepthExceeded (env.maxDepth + 1) env.maxDepth) env.maxDepth
        (.arrive c) begin := by
    intro begin
    have hopen : ∀ (i : Item) (s : Progress σ) (items : List Item) (t : Progress σ), i.Unasking →
        visit env i s = (.ok (some items), t) → ∀ j ∈ items, j.Unasking :=
      fun i s items t _ hi => (unasking_of_visit hn i hi trivial).2
    refine DepthFirst.run_eq (fun i => visit_alike h) hopen ?_
    · intro items hitems i hi
      rw [List.mem_singleton.mp hitems] at hi
      rw [List.mem_singleton.mp hi]
      trivial
  unfold close
  rw [h.maxDepth]
  dsimp only
  rw [hrun]

theorem startFrom_alike (h : Alike env env') (hn : env.network.Unasked) (alt : Nat) (out : ConfigSet)
    (ts : List Transition) : startFrom env' alt out ts = startFrom env alt out ts := by
  induction ts generalizing alt out with
  | nil => rfl
  | cons t rest ih =>
    unfold startFrom
    rw [close_alike h hn]
    exact bind_congr fun r => ih _ _

theorem startConfigs_alike (h : Alike env env') (hn : env.network.Unasked) (state : Nat) :
    startConfigs env' state = startConfigs env state := by
  unfold startConfigs
  rw [h.network]
  exact bind_congr fun s => startFrom_alike h hn _ _ _

theorem reachFrom_alike (h : Alike env env') (hn : env.network.Unasked) (offset : Nat) (finished : Bool)
    (c : Config) (out : ConfigSet) (ts : List Transition) :
    reachFrom env' offset finished c out ts = reachFrom env offset finished c out ts := by
  induction ts generalizing out with
  | nil => rfl
  | cons t rest ih =>
    unfold reachFrom cross
    rw [h.network]
    refine bind_congr fun d => ?_
    rw [close_alike h hn]
    refine bind_congr fun r => ?_
    rcases r with ⟨_ | _, out⟩
    · exact ih out
    · rfl

theorem reachAll_alike (h : Alike env env') (hn : env.network.Unasked) (offset : Nat) (x : Symbol)
    (done : Option Nat) (out : ConfigSet) (cs : List Config) :
    reachAll env' offset x done out cs = reachAll env offset x done out cs := by
  induction cs generalizing done out with
  | nil => rfl
  | cons c rest ih =>
    unfold reachAll
    rw [h.network]
    dsimp only
    split
    · exact ih done out
    · refine bind_congr fun s => ?_
      rw [reachFrom_alike h hn]
      exact bind_congr fun r => ih _ _

theorem reach_alike (h : Alike env env') (hn : env.network.Unasked) (offset : Nat) (x : Symbol)
    (configs : ConfigSet) : reach env' offset x configs = reach env offset x configs :=
  reachAll_alike h hn _ _ _ _ _

end Outlook

/-! ## A match -/

namespace Scan
variable {σ : Type} {hooks hooks' : LexerHooks σ}

theorem outlook_alike (hooks hooks' : LexerHooks σ) (s : Scan σ) (cursor : Cursor) (endIsFree : Bool) :
    Outlook.Alike (s.outlook hooks cursor endIsFree) (s.outlook hooks' cursor endIsFree) := ⟨rfl, rfl, rfl⟩

/-- A network in which no predicate is asked. -/
def Silent (s : Scan σ) : Prop := s.network.Unasked

theorem silent_of_leaves {α : Type} {m : Run (Scan σ) α} (h : Leaves network m) : Run.Preserves Silent m := by
  intro s hs
  rw [Silent, h s]
  exact hs

theorem startState_coincides (mode d : Nat) :
    Coincides Silent (startState hooks' mode d) (startState hooks mode d) := by
  refine Coincides.read fun s hs => ?_
  split
  · exact .refl _
  · dsimp only
    rw [Outlook.startConfigs_alike (outlook_alike hooks hooks' s s.cursor false) hs]
    exact .refl _

theorem step_coincides (d : Nat) (source : Target) (x : Symbol) :
    Coincides Silent (step hooks' d source x) (step hooks d source x) := by
  refine Coincides.read fun s hs => ?_
  dsimp only
  generalize (if Matcher.isStored x then (s.matcher.cache.automaton d).edge? source x else none) = stored
  cases stored with
  | some t => exact .refl _
  | none =>
    refine (Coincides.refl _).bind (.modify fun _ h => h) fun _ => ?_
    refine (Coincides.refl _).bind (silent_of_leaves (leaves_automatonState d source)) fun state => ?_
    refine Coincides.read fun s hs => ?_
    dsimp only
    rw [Outlook.reach_alike (outlook_alike hooks hooks' s s.consume.cursor (x = endOfInput)) hs]
    exact .refl _

theorem munch_coincides (d fuel : Nat) (last : Option Checkpoint) (source : Target) (x : Symbol) :
    Coincides Silent (munch hooks' d fuel last source x) (munch hooks d fuel last source x) := by
  induction fuel generalizing last source x with
  | zero => exact .refl _
  | succ fuel ih =>
    unfold munch
    refine (step_coincides d source x).bind (silent_of_leaves ((leaves_step hooks d source x).map fun f => f.2.1)) fun t => ?_
    refine .ite (.refl _) ?_
    have hrest : ∀ _ : PUnit, Coincides Silent
        (do
          let here ← checkpoint? d t
          if x = endOfInput && here.isSome then pure (here, x)
          else munch hooks' d fuel (here <|> last) t (← get).stream.peek)
        (do
          let here ← checkpoint? d t
          if x = endOfInput && here.isSome then pure (here, x)
          else munch hooks d fuel (here <|> last) t (← get).stream.peek) := by
      intro _
      refine (Coincides.refl _).bind (silent_of_leaves (leaves_checkpoint? d t)) fun here => .ite (.refl _) ?_
      exact .read fun s _ => ih _ _ _
    exact .ite ((Coincides.refl _).bind (.modify fun _ h => h) hrest)
      ((Coincides.refl (Pure.pure ⟨⟩)).bind (.pure _) hrest)

/-- In a network without predicates a match is the same whatever decides them. -/
theorem next_unasked (mode : Nat) {s : Scan σ} (hn : s.network.Unasked) :
    next hooks' mode s = next hooks mode s := by
  have hsame : Coincides Silent (next hooks' mode) (next hooks mode) := by
    refine .read fun s _ => ?_
    refine (Coincides.refl _).bind (silent_of_leaves (leaves_check _)) fun d => ?_
    refine (Coincides.refl _).bind (.modify fun _ h => h) fun _ => .read fun begin _ => ?_
    refine (startState_coincides mode d).bind
      (silent_of_leaves ((leaves_startState hooks mode d).map fun f => f.2.1)) fun start => ?_
    refine (Coincides.refl _).bind (silent_of_leaves (leaves_checkpoint? d start)) fun first => ?_
    intro s hs
    rw [Run.bind_apply, Run.bind_apply, munch_coincides d _ first start _ s hs]
  exact hsame s hn

end Scan
end AdaptiveLL
