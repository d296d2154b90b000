import AdaptiveLL.Network.Codec
import AdaptiveLL.Proofs.Json
import AdaptiveLL.Proofs.Network.Relinking

/-!
# Networks come back from their text

A description can be read if its numbers lie in the ranges of their kinds and its commands do not nest
too deep (`Network.fits`).  Then every part is read back as it was written, and since linking a
linked network changes nothing, a linked network comes back from its text (`Network.ofText_toText`).

The lemmas that read one record take its parts as variables: what is read from each is all that
matters.
-/

namespace AdaptiveLL
namespace Json

/-! ## Shapes -/

/-- Whether a number may be written as an index. -/
def isIndex (n : Nat) : Bool := n < 18446744073709551616

/-- Whether an integer may be written as a symbol, a channel or a level. -/
def isInt32 (n : Int) : Bool := -2147483648 ≤ n && n < 2147483648

theorem asNat?_nat {n : Nat} (h : isIndex n) : asNat? (nat n) = some n := by
  have hlt : n < 18446744073709551616 := of_decide_eq_true h
  have hrange : (0 ≤ (n : Int) && (n : Int) < 18446744073709551616) = true := by
    rw [Bool.and_eq_true, decide_eq_true_eq, decide_eq_true_eq]
    omega
  rw [nat, asNat?, if_pos hrange]
  rfl

theorem asInt32?_int {n : Int} (h : isInt32 n) : asInt32? (int n) = some n := if_pos h

theorem required_nat {n : Nat} (h : isIndex n) : required asNat? (some (nat n)) = some n := by
  rw [required, Option.bind_some, asNat?_nat h]

theorem required_int {n : Int} (h : isInt32 n) : required asInt32? (some (int n)) = some n := by
  rw [required, Option.bind_some, asInt32?_int h]

/-- Reading goes on with what was read. -/
theorem bind_of_eq {α β : Type} {x : Option α} {a : α} {f : α → Option β} {r : Option β}
    (hx : x = some a) (h : f a = r) : x.bind f = r := by
  rw [hx]
  exact h

theorem mapM_map {α : Type} {f : α → Json} {g : Json → Option α} {l : List α}
    (h : ∀ a ∈ l, g (f a) = some a) : (l.map f).mapM g = some l := by
  induction l with
  | nil => rfl
  | cons a l ih =>
    rw [List.forall_mem_cons] at h
    rw [List.map_cons, List.mapM_cons, h.1, ih h.2]
    rfl

theorem asList?_list {α : Type} {f : α → Json} {g : Json → Option α} {l : List α}
    (h : ∀ a ∈ l, g (f a) = some a) : asList? g (list f l) = some l := mapM_map h

theorem asArray?_list {α : Type} {f : α → Json} {g : Json → Option α} {a : Array α}
    (h : ∀ x ∈ a, g (f x) = some x) : asArray? g (list f a.toList) = some a := by
  rw [asArray?, asList?_list fun x hx => h x (Array.mem_toList_iff.mp hx)]
  rfl

theorem asNullable?_ofOption {α : Type} {f : α → Json} {g : Json → Option α} (hnull : ∀ a, f a ≠ null)
    {o : Option α} (h : ∀ a ∈ o, g (f a) = some a) : asNullable? g (ofOption f o) = some o := by
  cases o with
  | none => rfl
  | some a => rw [ofOption, asNullable?.eq_2 g _ (hnull a), h a rfl, Option.map_some]

/-- A field is found under its name. -/
theorem filter_zip {names : List String} (hnodup : names.Nodup) {values : List Json} {i : Nat}
    {name : String} {v : Json} (hname : names[i]? = some name) (hv : values[i]? = some v) :
    (names.zip values).filter (·.1 == name) = [(name, v)] := by
  induction names generalizing values i with
  | nil => cases hname
  | cons a names ih =>
    obtain ⟨ha, hnodup⟩ := List.nodup_cons.mp hnodup
    cases values with
    | nil => cases hv
    | cons b values =>
      cases i with
      | zero =>
        obtain rfl := Option.some.inj hname
        obtain rfl := Option.some.inj hv
        rw [List.zip_cons_cons, List.filter_cons_of_pos (by simp), List.filter_eq_nil_iff.mpr]
        rintro ⟨k, w⟩ hk heq
        obtain rfl : k = a := by simpa using heq
        exact ha (List.of_mem_zip hk).1
      | succ i =>
        have hne : a ≠ name := fun h => ha (h ▸ List.mem_of_getElem? hname)
        rw [List.zip_cons_cons, List.filter_cons_of_neg (by simpa using hne)]
        exact ih hnodup hname hv

theorem mapM_eq_some {α β : Type} {f : α → Option β} {as : List α} {bs : List β}
    (h : List.Forall₂ (fun a b => f a = some b) as bs) : as.mapM f = some bs := by
  induction h with
  | nil => rfl
  | cons hab _ ih =>
    rw [List.mapM_cons, hab, ih]
    rfl

/-- A record is read back from its fields. -/
theorem asRecord?_zip (names : List String) (values : List Json) (hnodup : names.Nodup)
    (hlength : names.length = values.length) :
    asRecord? names (object (names.zip values)) = some (values.map some) := by
  unfold asRecord?
  refine mapM_eq_some (List.forall₂_iff_get.mpr ⟨by simp [hlength], fun i hi hi' => ?_⟩)
  rw [List.length_map] at hi'
  have hfound := filter_zip hnodup (List.getElem?_eq_getElem hi) (List.getElem?_eq_getElem hi')
  rw [List.get_eq_getElem, hfound]
  simp

/-! ## Plain values -/

theorem plainItems_iff {xs : List Json} : PlainItems xs ↔ ∀ x ∈ xs, x.Plain := by
  induction xs with
  | nil => simp [PlainItems]
  | cons x xs ih => simp [PlainItems, ih]

theorem plain_list {α : Type} {f : α → Json} (h : ∀ a, (f a).Plain) (l : List α) :
    (list f l).Plain :=
  plainItems_iff.mpr fun _ hx => by
    obtain ⟨a, -, rfl⟩ := List.mem_map.mp hx
    exact h a

end Json

/-! ## What fits a description -/

open Json

/-- Whether the bounds of a set may be written. -/
def IntervalSet.fits (s : IntervalSet) : Bool := s.ranges.all fun r => isInt32 r.1 && isInt32 r.2

/-- Whether the numbers in a command may be written. -/
def Command.fits : Command → Bool
  | channel c | type c => isInt32 c
  | custom rule index => isIndex rule && isIndex index
  | mode m | pushMode m => isIndex m
  | pinned offset command => isIndex offset && command.fits
  | more | popMode | skip => true

/-- How many levels the description of a command takes. -/
def Command.depth : Command → Nat
  | more | popMode | skip => 0
  | channel _ | type _ | mode _ | pushMode _ => 1
  | custom .. => 2
  | pinned _ command => command.depth + 2

/-- Whether the numbers in a transition may be written. -/
def Transition.fits : Transition → Bool
  | epsilon t | wildcard t | ret t => isIndex t
  | symbol t label => isIndex t && isInt32 label
  | range t lo hi => isIndex t && isInt32 lo && isInt32 hi
  | set t s | notSet t s => isIndex t && s.fits
  | call t rule level follow => isIndex t && isIndex rule && isInt32 level && isIndex follow
  | predicate t rule index _ | action t rule index _ => isIndex t && isIndex rule && isIndex index
  | precedence t level => isIndex t && isInt32 level

/-- Whether the numbers in a state may be written. -/
def State.fits (s : State) : Bool :=
  isIndex s.id && isIndex s.rule && s.transitions.all Transition.fits && s.decision.all isIndex

/-- Whether the numbers in a network may be written, and its commands nest no deeper than is read. -/
def Network.fits (n : Network) : Bool :=
  isInt32 n.maxSymbol && n.states.all State.fits && n.decisions.all isIndex
    && n.ruleStarts.all isIndex && n.ruleStops.all isIndex && n.tokenTypes.all isInt32
    && n.modeStarts.all isIndex
    && n.commands.all fun c => c.fits && decide (c.depth ≤ nestingLimit - 2)

/-! ## Sets and commands -/

theorem IntervalSet.ofJson?_toJson {s : IntervalSet} (h : s.fits) : ofJson? s.toJson = some s := by
  have hranges : asList? (asPair? asInt32? asInt32?)
      (list (fun r : Int × Int => array [int r.1, int r.2]) s.ranges) = some s.ranges := by
    refine asList?_list fun r hr => ?_
    have hr := List.all_eq_true.mp h r hr
    rw [Bool.and_eq_true] at hr
    simp [asPair?, asInt32?_int hr.1, asInt32?_int hr.2]
  have hrecord : asRecord? ["ranges"] s.toJson =
      some [some (list (fun r : Int × Int => array [int r.1, int r.2]) s.ranges)] :=
    asRecord?_zip ["ranges"] [_] (by simp) rfl
  simp [ofJson?, hrecord, required, hranges]

namespace Command

theorem ofJsonWithin?_custom {j : Json} {room rule index : Nat} {a b : Option Json}
    (h : asRecord? ["rule_index", "action_index"] j = some [a, b])
    (ha : required asNat? a = some rule) (hb : required asNat? b = some index) :
    ofJsonWithin? (room + 2) (object [("Custom", j)]) = some (custom rule index) :=
  bind_of_eq h (bind_of_eq ha (bind_of_eq hb rfl))

theorem ofJsonWithin?_pinned {j : Json} {room offset : Nat} {command : Command} {a b : Option Json}
    (h : asRecord? ["offset", "action"] j = some [a, b])
    (ha : required asNat? a = some offset) (hb : required (ofJsonWithin? room) b = some command) :
    ofJsonWithin? (room + 2) (object [("Indexed", j)]) = some (pinned offset command) :=
  bind_of_eq h (bind_of_eq ha (bind_of_eq hb rfl))

theorem ofJsonWithin?_channel {room : Nat} {j : Json} {c : Int} (h : asInt32? j = some c) :
    ofJsonWithin? (room + 1) (object [("Channel", j)]) = some (channel c) := by
  simp [ofJsonWithin?, h]

theorem ofJsonWithin?_type {room : Nat} {j : Json} {t : Int} (h : asInt32? j = some t) :
    ofJsonWithin? (room + 1) (object [("Type", j)]) = some (type t) := by
  simp [ofJsonWithin?, h]

theorem ofJsonWithin?_mode {room : Nat} {j : Json} {m : Nat} (h : asNat? j = some m) :
    ofJsonWithin? (room + 1) (object [("Mode", j)]) = some (mode m) := by
  simp [ofJsonWithin?, h]

theorem ofJsonWithin?_pushMode {room : Nat} {j : Json} {m : Nat} (h : asNat? j = some m) :
    ofJsonWithin? (room + 1) (object [("PushMode", j)]) = some (pushMode m) := by
  simp [ofJsonWithin?, h]

/-- A command is read back where there is room for it. -/
theorem ofJsonWithin?_toJson {c : Command} (h : c.fits) {room : Nat} (hroom : c.depth ≤ room) :
    ofJsonWithin? room c.toJson = some c := by
  induction c generalizing room with
  | channel c =>
    obtain ⟨room, rfl⟩ := Nat.exists_eq_add_of_le' hroom
    exact ofJsonWithin?_channel (asInt32?_int h)
  | custom rule index =>
    obtain ⟨room, rfl⟩ := Nat.exists_eq_add_of_le' hroom
    obtain ⟨hrule, hindex⟩ := Bool.and_eq_true_iff.mp h
    exact ofJsonWithin?_custom
      (asRecord?_zip ["rule_index", "action_index"] [nat rule, nat index] (by simp) rfl)
      (required_nat hrule) (required_nat hindex)
  | mode m =>
    obtain ⟨room, rfl⟩ := Nat.exists_eq_add_of_le' hroom
    exact ofJsonWithin?_mode (asNat?_nat h)
  | more => cases room <;> rfl
  | popMode => cases room <;> rfl
  | pushMode m =>
    obtain ⟨room, rfl⟩ := Nat.exists_eq_add_of_le' hroom
    exact ofJsonWithin?_pushMode (asNat?_nat h)
  | skip => cases room <;> rfl
  | type t =>
    obtain ⟨room, rfl⟩ := Nat.exists_eq_add_of_le' hroom
    exact ofJsonWithin?_type (asInt32?_int h)
  | pinned offset c ih =>
    obtain ⟨room, rfl⟩ := Nat.exists_eq_add_of_le' hroom
    obtain ⟨hoffset, hc⟩ := Bool.and_eq_true_iff.mp h
    have hroom' : c.depth ≤ room + c.depth := Nat.le_add_left _ _
    exact ofJsonWithin?_pinned
      (asRecord?_zip ["offset", "action"] [nat offset, c.toJson] (by simp) rfl)
      (required_nat hoffset) (ih hc hroom')

end Command

/-! ## Transitions and states -/

namespace Transition
variable {p : Json} {a b c d : Option Json} {t : Nat}

theorem ofJson?_epsilon (h : asRecord? ["target"] p = some [a]) (ha : required asNat? a = some t) :
    ofJson? (object [("Epsilon", p)]) = some (epsilon t) :=
  bind_of_eq h (bind_of_eq ha rfl)

theorem ofJson?_symbol {label : Int} (h : asRecord? ["target", "label"] p = some [a, b])
    (ha : required asNat? a = some t) (hb : required asInt32? b = some label) :
    ofJson? (object [("Atom", p)]) = some (symbol t label) :=
  bind_of_eq h (bind_of_eq ha (bind_of_eq hb rfl))

theorem ofJson?_range {lo hi : Int} (h : asRecord? ["target", "from", "to"] p = some [a, b, c])
    (ha : required asNat? a = some t) (hb : required asInt32? b = some lo)
    (hc : required asInt32? c = some hi) :
    ofJson? (object [("Range", p)]) = some (range t lo hi) :=
  bind_of_eq h (bind_of_eq ha (bind_of_eq hb (bind_of_eq hc rfl)))

theorem ofJson?_set {s : IntervalSet} (h : asRecord? ["target", "set"] p = some [a, b])
    (ha : required asNat? a = some t) (hb : required IntervalSet.ofJson? b = some s) :
    ofJson? (object [("Set", p)]) = some (set t s) :=
  bind_of_eq h (bind_of_eq ha (bind_of_eq hb rfl))

theorem ofJson?_notSet {s : IntervalSet} (h : asRecord? ["target", "set"] p = some [a, b])
    (ha : required asNat? a = some t) (hb : required IntervalSet.ofJson? b = some s) :
    ofJson? (object [("NotSet", p)]) = some (notSet t s) :=
  bind_of_eq h (bind_of_eq ha (bind_of_eq hb rfl))

theorem ofJson?_wildcard (h : asRecord? ["target"] p = some [a]) (ha : required asNat? a = some t) :
    ofJson? (object [("Wildcard", p)]) = some (wildcard t) :=
  bind_of_eq h (bind_of_eq ha rfl)

theorem ofJson?_call {rule follow : Nat} {level : Int}
    (h : asRecord? ["target", "rule_index", "precedence", "follow_state"] p = some [a, b, c, d])
    (ha : required asNat? a = some t) (hb : required asNat? b = some rule)
    (hc : required asInt32? c = some level) (hd : required asNat? d = some follow) :
    ofJson? (object [("Rule", p)]) = some (call t rule level follow) :=
  bind_of_eq h (bind_of_eq ha (bind_of_eq hb (bind_of_eq hc (bind_of_eq hd rfl))))

theorem ofJson?_ret (h : asRecord? ["target"] p = some [a]) (ha : required asNat? a = some t) :
    ofJson? (object [("Return", p)]) = some (ret t) :=
  bind_of_eq h (bind_of_eq ha rfl)

theorem ofJson?_predicate {rule index : Nat} {contextual : Bool}
    (h : asRecord? ["target", "rule_index", "pred_index", "ctx_dependent"] p = some [a, b, c, d])
    (ha : required asNat? a = some t) (hb : required asNat? b = some rule)
    (hc : required asNat? c = some index) (hd : required asBool? d = some contextual) :
    ofJson? (object [("Predicate", p)]) = some (predicate t rule index contextual) :=
  bind_of_eq h (bind_of_eq ha (bind_of_eq hb (bind_of_eq hc (bind_of_eq hd rfl))))

theorem ofJson?_precedence {level : Int} (h : asRecord? ["target", "precedence"] p = some [a, b])
    (ha : required asNat? a = some t) (hb : required asInt32? b = some level) :
    ofJson? (object [("Precedence", p)]) = some (precedence t level) :=
  bind_of_eq h (bind_of_eq ha (bind_of_eq hb rfl))

theorem ofJson?_action {rule index : Nat} {contextual : Bool}
    (h : asRecord? ["target", "rule_index", "action_index", "ctx_dependent"] p = some [a, b, c, d])
    (ha : required asNat? a = some t) (hb : required asNat? b = some rule)
    (hc : required asNat? c = some index) (hd : required asBool? d = some contextual) :
    ofJson? (object [("Action", p)]) = some (action t rule index contextual) :=
  bind_of_eq h (bind_of_eq ha (bind_of_eq hb (bind_of_eq hc (bind_of_eq hd rfl))))

/-- A transition is read back. -/
theorem ofJson?_toJson {t : Transition} (h : t.fits) : ofJson? t.toJson = some t := by
  -- Each kind is a record of its own fields, read in the order in which they are written.
  cases t with
  | epsilon t =>
    exact ofJson?_epsilon (asRecord?_zip ["target"] [nat t] (by simp) rfl) (required_nat h)
  | symbol t label =>
    obtain ⟨ht, hlabel⟩ := Bool.and_eq_true_iff.mp h
    exact ofJson?_symbol (asRecord?_zip ["target", "label"] [nat t, int label] (by simp) rfl)
      (required_nat ht) (required_int hlabel)
  | range t lo hi =>
    obtain ⟨h, hhi⟩ := Bool.and_eq_true_iff.mp h
    obtain ⟨ht, hlo⟩ := Bool.and_eq_true_iff.mp h
    exact ofJson?_range (asRecord?_zip ["target", "from", "to"] [nat t, int lo, int hi] (by simp) rfl)
      (required_nat ht) (required_int hlo) (required_int hhi)
  | set t s =>
    obtain ⟨ht, hs⟩ := Bool.and_eq_true_iff.mp h
    exact ofJson?_set (asRecord?_zip ["target", "set"] [nat t, s.toJson] (by simp) rfl)
      (required_nat ht) (IntervalSet.ofJson?_toJson hs)
  | notSet t s =>
    obtain ⟨ht, hs⟩ := Bool.and_eq_true_iff.mp h
    exact ofJson?_notSet (asRecord?_zip ["target", "set"] [nat t, s.toJson] (by simp) rfl)
      (required_nat ht) (IntervalSet.ofJson?_toJson hs)
  | wildcard t =>
    exact ofJson?_wildcard (asRecord?_zip ["target"] [nat t] (by simp) rfl) (required_nat h)
  | call t rule level follow =>
    obtain ⟨h, hfollow⟩ := Bool.and_eq_true_iff.mp h
    obtain ⟨h, hlevel⟩ := Bool.and_eq_true_iff.mp h
    obtain ⟨ht, hrule⟩ := Bool.and_eq_true_iff.mp h
    exact ofJson?_call (asRecord?_zip ["target", "rule_index", "precedence", "follow_state"]
        [nat t, nat rule, int level, nat follow] (by simp) rfl)
      (required_nat ht) (required_nat hrule) (required_int hlevel) (required_nat hfollow)
  | ret t =>
    exact ofJson?_ret (asRecord?_zip ["target"] [nat t] (by simp) rfl) (required_nat h)
  | predicate t rule index contextual =>
    obtain ⟨h, hindex⟩ := Bool.and_eq_true_iff.mp h
    obtain ⟨ht, hrule⟩ := Bool.and_eq_true_iff.mp h
    exact ofJson?_predicate (asRecord?_zip ["target", "rule_index", "pred_index", "ctx_dependent"]
        [nat t, nat rule, nat index, bool contextual] (by simp) rfl)
      (required_nat ht) (required_nat hrule) (required_nat hindex) rfl
  | precedence t level =>
    obtain ⟨ht, hlevel⟩ := Bool.and_eq_true_iff.mp h
    exact ofJson?_precedence (asRecord?_zip ["target", "precedence"] [nat t, int level] (by simp) rfl)
      (required_nat ht) (required_int hlevel)
  | action t rule index contextual =>
    obtain ⟨h, hindex⟩ := Bool.and_eq_true_iff.mp h
    obtain ⟨ht, hrule⟩ := Bool.and_eq_true_iff.mp h
    exact ofJson?_action (asRecord?_zip ["target", "rule_index", "action_index", "ctx_dependent"]
        [nat t, nat rule, nat index, bool contextual] (by simp) rfl)
      (required_nat ht) (required_nat hrule) (required_nat hindex) rfl

end Transition

namespace State

theorem ofJson?_record {j : Json} {s : State}
    {id rule kind transitions freeOnly decision nonGreedy : Option Json}
    (h : asRecord? ["id", "rule_index", "kind", "transitions", "epsilon_only", "decision",
      "non_greedy"] j = some [id, rule, kind, transitions, freeOnly, decision, nonGreedy])
    (hid : required asNat? id = some s.id) (hrule : required asNat? rule = some s.rule)
    (hkind : required StateKind.ofJson? kind = some s.kind)
    (htransitions : required (asList? Transition.ofJson?) transitions = some s.transitions)
    (hfree : optional false asBool? freeOnly = some s.freeOnly)
    (hdecision : optional none (asNullable? asNat?) decision = some s.decision)
    (hgreedy : optional false asBool? nonGreedy = some s.nonGreedy) : ofJson? j = some s := by
  simp [ofJson?, h, hid, hrule, hkind, htransitions, hfree, hdecision, hgreedy]

/-- A state is read back. -/
theorem ofJson?_toJson {s : State} (h : s.fits) : ofJson? s.toJson = some s := by
  obtain ⟨h, hdecision⟩ := Bool.and_eq_true_iff.mp h
  obtain ⟨h, htransitions⟩ := Bool.and_eq_true_iff.mp h
  obtain ⟨hid, hrule⟩ := Bool.and_eq_true_iff.mp h
  have hkind : StateKind.ofJson? (string s.kind.name) = some s.kind := StateKind.ofName?_name s.kind
  have hnullable : asNullable? asNat? (ofOption nat s.decision) = some s.decision :=
    asNullable?_ofOption (fun _ => by simp [nat]) fun d hd => by
      rw [Option.mem_def.mp hd] at hdecision
      exact asNat?_nat hdecision
  exact ofJson?_record
    (asRecord?_zip ["id", "rule_index", "kind", "transitions", "epsilon_only", "decision", "non_greedy"]
      [nat s.id, nat s.rule, string s.kind.name, list Transition.toJson s.transitions,
        bool s.freeOnly, ofOption nat s.decision, bool s.nonGreedy] (by simp) rfl)
    (required_nat hid) (required_nat hrule) hkind
    (asList?_list fun t ht => Transition.ofJson?_toJson (List.all_eq_true.mp htransitions t ht))
    rfl hnullable rfl

end State

/-! ## Networks -/

theorem NetworkKind.ofJson?_name (k : NetworkKind) : ofJson? (string k.name) = some k := by
  cases k <;> rfl

namespace Network
variable {n : Network}

theorem ofJson?_record {j : Json}
    {kind maxSymbol states decisions starts stops names types modeStarts modeNames commands :
      Option Json}
    (h : asRecord? ["kind", "max_token_type", "states", "decision_to_state", "rule_to_start",
      "rule_to_stop", "rule_names", "rule_to_token_type", "mode_to_start", "mode_names",
      "lexer_actions"] j =
      some [kind, maxSymbol, states, decisions, starts, stops, names, types, modeStarts, modeNames,
        commands])
    (hkind : required NetworkKind.ofJson? kind = some n.kind)
    (hmax : required asInt32? maxSymbol = some n.maxSymbol)
    (hstates : required (asArray? State.ofJson?) states = some n.states)
    (hdecisions : required (asArray? asNat?) decisions = some n.decisions)
    (hstarts : required (asArray? asNat?) starts = some n.ruleStarts)
    (hstops : required (asArray? asNat?) stops = some n.ruleStops)
    (hnames : optional #[] (asArray? asString?) names = some n.ruleNames)
    (htypes : optional #[] (asArray? asInt32?) types = some n.tokenTypes)
    (hmodes : optional #[] (asArray? asNat?) modeStarts = some n.modeStarts)
    (hmodeNames : optional #[] (asArray? asString?) modeNames = some n.modeNames)
    (hcommands : optional #[] (asArray? (Command.ofJsonWithin? (nestingLimit - 2))) commands =
      some n.commands) : ofJson? j = some n :=
  bind_of_eq h (bind_of_eq hkind (bind_of_eq hmax (bind_of_eq hstates (bind_of_eq hdecisions
    (bind_of_eq hstarts (bind_of_eq hstops (bind_of_eq hnames (bind_of_eq htypes
      (bind_of_eq hmodes (bind_of_eq hmodeNames (bind_of_eq hcommands rfl)))))))))))

/-- A network that fits is read back. -/
theorem ofJson?_toJson (h : n.fits) : ofJson? n.toJson = some n := by
  obtain ⟨h, hcommands⟩ := Bool.and_eq_true_iff.mp h
  obtain ⟨h, hmodes⟩ := Bool.and_eq_true_iff.mp h
  obtain ⟨h, htypes⟩ := Bool.and_eq_true_iff.mp h
  obtain ⟨h, hstops⟩ := Bool.and_eq_true_iff.mp h
  obtain ⟨h, hstarts⟩ := Bool.and_eq_true_iff.mp h
  obtain ⟨h, hdecisions⟩ := Bool.and_eq_true_iff.mp h
  obtain ⟨hmax, hstates⟩ := Bool.and_eq_true_iff.mp h
  have hindices : ∀ {a : Array Nat}, a.all isIndex = true →
      asArray? asNat? (list nat a.toList) = some a := fun ha =>
    asArray?_list fun x hx => asNat?_nat (Array.all_eq_true_iff_forall_mem.mp ha x hx)
  have hstrings : ∀ a : Array String, asArray? asString? (list string a.toList) = some a :=
    fun a => asArray?_list fun x _ => rfl
  refine ofJson?_record
    (asRecord?_zip ["kind", "max_token_type", "states", "decision_to_state", "rule_to_start",
      "rule_to_stop", "rule_names", "rule_to_token_type", "mode_to_start", "mode_names",
      "lexer_actions"]
      [string n.kind.name, int n.maxSymbol, list State.toJson n.states.toList,
        list nat n.decisions.toList, list nat n.ruleStarts.toList, list nat n.ruleStops.toList,
        list string n.ruleNames.toList, list int n.tokenTypes.toList, list nat n.modeStarts.toList,
        list string n.modeNames.toList, list Command.toJson n.commands.toList] (by simp) rfl)
    (NetworkKind.ofJson?_name n.kind) (required_int hmax) ?_ (hindices hdecisions)
    (hindices hstarts) (hindices hstops) (hstrings n.ruleNames) ?_ (hindices hmodes)
    (hstrings n.modeNames) ?_
  · exact asArray?_list fun s hs =>
      State.ofJson?_toJson (Array.all_eq_true_iff_forall_mem.mp hstates s hs)
  · exact asArray?_list fun t ht => asInt32?_int (Array.all_eq_true_iff_forall_mem.mp htypes t ht)
  · refine asArray?_list fun c hc => ?_
    obtain ⟨hfits, hdepth⟩ :=
      Bool.and_eq_true_iff.mp (Array.all_eq_true_iff_forall_mem.mp hcommands c hc)
    exact Command.ofJsonWithin?_toJson hfits (of_decide_eq_true hdepth)

end Network

/-! ## Descriptions are plain -/

theorem IntervalSet.plain_toJson (s : IntervalSet) : s.toJson.Plain := by
  have hrange : ∀ r : Int × Int, (array [int r.1, int r.2]).Plain :=
    fun _ => ⟨trivial, trivial, trivial⟩
  exact ⟨plain_list hrange s.ranges, trivial⟩

theorem Command.plain_toJson (c : Command) : c.toJson.Plain := by
  induction c with
  | pinned offset c ih => exact ⟨⟨trivial, ih, trivial⟩, trivial⟩
  | _ => simp [toJson, nat, Plain, PlainFields]

theorem Transition.plain_toJson (t : Transition) : t.toJson.Plain := by
  cases t with
  | set t s => exact ⟨⟨trivial, s.plain_toJson, trivial⟩, trivial⟩
  | notSet t s => exact ⟨⟨trivial, s.plain_toJson, trivial⟩, trivial⟩
  | _ => simp [toJson, nat, Plain, PlainFields]

theorem State.plain_toJson (s : State) : s.toJson.Plain := by
  have htransitions := plain_list Transition.plain_toJson s.transitions
  have hdecision : (ofOption nat s.decision).Plain := by
    cases s.decision <;> exact trivial
  exact ⟨trivial, trivial, trivial, htransitions, trivial, hdecision, trivial, trivial⟩

namespace Network

theorem plain_toJson (n : Network) : n.toJson.Plain := by
  have hnats : ∀ l : List Nat, (list nat l).Plain := plain_list fun _ => trivial
  have hints : ∀ l : List Int, (list int l).Plain := plain_list fun _ => trivial
  have hstrings : ∀ l : List String, (list string l).Plain := plain_list fun _ => trivial
  exact ⟨trivial, trivial, plain_list State.plain_toJson _, hnats _, hnats _, hnats _, hstrings _,
    hints _, hnats _, hstrings _, plain_list Command.plain_toJson _, trivial⟩

/-- **A linked network comes back from its text.** -/
theorem ofText_toText {n₀ n : Network} (hlink : n₀.link = .ok n) (hfits : n.fits) :
    ofText n.toText = .ok n := by
  rw [ofText, toText, ofText?_toText n.plain_toJson, Option.bind_some, ofJson?_toJson hfits]
  exact link_of_link hlink

/-- Two rules, of which one calls the other, with names and a command that need care. -/
def twoRules : Network where
  kind := .parser
  maxSymbol := 3
  states := #[{ id := 0, rule := 0, kind := .ruleStart, transitions := [.call 2 1 (-1) 1] },
    { id := 1, rule := 0, kind := .ruleStop },
    { id := 2, rule := 1, kind := .ruleStart, transitions := [.set 3 ⟨[(1, 2)]⟩] },
    { id := 3, rule := 1, kind := .ruleStop }]
  ruleStarts := #[0, 2]
  ruleStops := #[1, 3]
  ruleNames := #["\"a\"", "\n\u0001é"]
  commands := #[.pinned 1 (.custom 0 2)]

theorem ofText_toText_twoRules :
    twoRules.link = .ok twoRules.withReturns ∧ twoRules.withReturns.fits ∧
      ofText twoRules.withReturns.toText = .ok twoRules.withReturns :=
  have hlink : twoRules.link = .ok twoRules.withReturns := by cbv
  have hfits : twoRules.withReturns.fits := by cbv
  ⟨hlink, hfits, ofText_toText hlink hfits⟩

end Network
end AdaptiveLL
