import Mathlib
import AdaptiveLL.Proofs.StackGraph.History

/-! # Texts of nodes can be read in one way only

The text of a node lists its frames in brackets, and the text of a frame has that of its parent inside.
Where such a text ends shows in the text itself: a number ends before the first character that is no
digit, a frame before a comma or a closing bracket at its own level.  So if two texts, whatever follows
them, are the same characters, then they are texts of the same stacks, and what follows is the same
(`Sound.toText_append_inj`).  This goes by induction on the position of the node, frame by frame.

Hence a text says neither more nor less than which stacks a node has, even if the nodes are of different
graphs (`Sound.toText_eq_iff`).
-/
namespace AdaptiveLL
namespace StackGraph

/-! ## Where numbers and lists end -/

theorem takeWhile_isDigit {n : Nat} {x : List Char} (hx : ∀ c ∈ x.head?, c.isDigit = false) :
    (Nat.toDigits 10 n ++ x).takeWhile Char.isDigit = Nat.toDigits 10 n := by
  have hdigits : ∀ c ∈ Nat.toDigits 10 n, c.isDigit = true := fun c hc =>
    Nat.isDigit_of_mem_toDigits (by decide) (by decide) hc
  have hrest : x.takeWhile Char.isDigit = [] := by
    cases x with
    | nil => rfl
    | cons c x => simp [hx c rfl]
  rw [List.takeWhile_append_of_pos hdigits, hrest, List.append_nil]

/-- A number is told from what follows if that does not begin with a digit. -/
theorem toDigits_append_inj {m n : Nat} {x y : List Char} (hx : ∀ c ∈ x.head?, c.isDigit = false)
    (hy : ∀ c ∈ y.head?, c.isDigit = false)
    (heq : Nat.toDigits 10 m ++ x = Nat.toDigits 10 n ++ y) : m = n ∧ x = y := by
  have hdigits : Nat.toDigits 10 m = Nat.toDigits 10 n := by
    rw [← takeWhile_isDigit hx, heq, takeWhile_isDigit hy]
  refine ⟨?_, List.append_cancel_left (hdigits ▸ heq)⟩
  calc
    m = Nat.ofDigitChars 10 (Nat.toDigits 10 m) 0 := Nat.ofDigitChars_ten_toDigits.symm
    _ = Nat.ofDigitChars 10 (Nat.toDigits 10 n) 0 := by rw [hdigits]
    _ = n := Nat.ofDigitChars_ten_toDigits

/-- What follows an entry of a list: a comma or the closing bracket. -/
def Closes (x : List Char) : Prop := ∃ c ∈ x.head?, c = ',' ∨ c = ']'

/-- If single entries are told from what follows, then so are lists of them. -/
theorem entries_append_inj {α β : Type} {text : α → List Char} {text' : β → List Char}
    {rel : α → β → Prop} {as : List α} {bs : List β} (has : as ≠ []) (hbs : bs ≠ [])
    (hentry : ∀ a ∈ as, ∀ b ∈ bs, ∀ x y : List Char, Closes x → Closes y →
      text a ++ x = text' b ++ y → rel a b ∧ x = y) {x y : List Char}
    (heq : [',', ' '].intercalate (as.map text) ++ ']' :: x =
      [',', ' '].intercalate (bs.map text') ++ ']' :: y) :
    List.Forall₂ rel as bs ∧ x = y := by
  have hbracket (x : List Char) : Closes (']' :: x) := ⟨']', rfl, .inr rfl⟩
  have hcomma (x : List Char) : Closes (',' :: x) := ⟨',', rfl, .inl rfl⟩
  induction as generalizing bs with
  | nil => exact absurd rfl has
  | cons a as ih =>
    cases bs with
    | nil => exact absurd rfl hbs
    | cons b bs =>
      have hfirst := hentry a List.mem_cons_self b List.mem_cons_self
      -- After the first entries there is a comma on both sides, or a bracket on both.
      cases as with
      | nil =>
        cases bs with
        | nil =>
          obtain ⟨hab, hrest⟩ := hfirst _ _ (hbracket x) (hbracket y) (by simpa using heq)
          exact ⟨.cons hab .nil, List.cons_inj_right _ |>.mp hrest⟩
        | cons b' bs =>
          obtain ⟨-, hrest⟩ := hfirst (']' :: x) (',' :: ' ' :: _) (hbracket x) (hcomma _)
            (by simpa [List.intercalate_cons_cons] using heq)
          simp at hrest
      | cons a' as =>
        cases bs with
        | nil =>
          obtain ⟨-, hrest⟩ := hfirst (',' :: ' ' :: _) (']' :: y) (hcomma _) (hbracket y)
            (by simpa [List.intercalate_cons_cons] using heq)
          simp at hrest
        | cons b' bs =>
          obtain ⟨hab, hrest⟩ := hfirst (',' :: ' ' :: _) (',' :: ' ' :: _) (hcomma _) (hcomma _)
            (by simpa [List.intercalate_cons_cons] using heq)
          have hrest := (List.cons_inj_right _).mp ((List.cons_inj_right _).mp hrest)
          obtain ⟨hall, hxy⟩ := ih (List.cons_ne_nil _ _) (List.cons_ne_nil _ _)
            (fun c hc d hd => hentry c (List.mem_cons_of_mem _ hc) d (List.mem_cons_of_mem _ hd)) hrest
          exact ⟨.cons hab hall, hxy⟩

/-! ## The text of a node from those of its frames -/

/-- The text of a frame: `$` for the end of a stack, or a state and the text of what is below it. -/
def frameText (g : StackGraph) (f : Frame) : String :=
  match f.returnTo with
  | none => "$"
  | some state =>
    if f.parent.isBottom then toString state else toString state ++ " " ++ g.toText f.parent

namespace Sound
variable {g h : StackGraph} (hg : g.Sound)
include hg

/-- With more levels than its position, the text of a node no longer depends on their number. -/
theorem textWithin_eq {r : StackRef} (hr : g.knows r) {k l : Nat} (hk : r.index < k)
    (hl : r.index < l) : g.textWithin k r = g.textWithin l r := by
  induction k generalizing r l with
  | zero => omega
  | succ k ih =>
    cases l with
    | zero => omega
    | succ l =>
      rw [textWithin, textWithin]
      refine congrArg (fun entries => if r.isBottom then "$" else "[" ++ ", ".intercalate entries ++ "]")
        (List.map_congr_left fun f hf => ?_)
      cases hx : f.returnTo with
      | none => rfl
      | some x =>
        have hlt := hg.parent_lt hr hf hx
        simp only
        rw [ih (hg.knows_parent hr hf) (by omega) (by omega : f.parent.index < l)]

theorem toText_eq {r : StackRef} (hr : g.knows r) :
    g.toText r =
      if r.isBottom then "$" else "[" ++ ", ".intercalate ((g.frames r).map g.frameText) ++ "]" := by
  have hlt := knows_iff_lt.mp hr
  rw [toText, size, textWithin]
  refine congrArg (fun entries => if r.isBottom then "$" else "[" ++ ", ".intercalate entries ++ "]")
    (List.map_congr_left fun f hf => ?_)
  unfold frameText
  cases hx : f.returnTo with
  | none => rfl
  | some x =>
    have hp := hg.parent_lt hr hf hx
    simp only
    rw [toText, size, hg.textWithin_eq (hg.knows_parent hr hf) (by omega)
      (by omega : f.parent.index < g.nodes.size + 1)]

theorem toList_toText_bottom : (g.toText StackRef.bottom).toList = ['$'] := by
  rw [hg.toText_eq hg.knows_bottom, if_pos (isBottom_iff.mpr rfl)]
  rfl

theorem toList_toText {r : StackRef} (hr : g.knows r) (hne : r ≠ StackRef.bottom) :
    (g.toText r).toList =
      '[' :: ([',', ' '].intercalate ((g.frames r).map fun f => (g.frameText f).toList) ++ [']']) := by
  rw [hg.toText_eq hr, if_neg (mt isBottom_iff.mp hne)]
  simp [String.toList_append, String.toList_intercalate, Function.comp_def]

end Sound

/-- The characters between a return state and the end of the text of its frame. -/
def belowText (g : StackGraph) (parent : StackRef) : List Char :=
  if parent.isBottom then [] else ' ' :: (g.toText parent).toList

theorem toList_frameText_none {g : StackGraph} {f : Frame} (hx : f.returnTo = none) :
    (g.frameText f).toList = ['$'] := by
  simp [frameText, hx]

theorem toList_frameText_some {g : StackGraph} {f : Frame} {n : Nat} (hx : f.returnTo = some n) :
    (g.frameText f).toList = Nat.toDigits 10 n ++ g.belowText f.parent := by
  rw [frameText, hx, belowText]
  by_cases hp : f.parent.isBottom
  · simp [hp]
  · simp [hp]

theorem exists_digit (n : Nat) : ∃ c ∈ (Nat.toDigits 10 n).head?, c.isDigit = true := by
  cases h : Nat.toDigits 10 n with
  | nil => exact absurd h Nat.toDigits_ne_nil
  | cons c cs =>
    exact ⟨c, rfl, Nat.isDigit_of_mem_toDigits (by decide) (by decide) (h ▸ List.mem_cons_self)⟩

theorem Closes.noDigit {x : List Char} (hx : Closes x) : ∀ c ∈ x.head?, c.isDigit = false := by
  obtain ⟨c, hc, hclose⟩ := hx
  intro d hd
  obtain rfl : c = d := Option.some.inj (hc.symm.trans hd)
  rcases hclose with rfl | rfl <;> rfl

theorem noDigit_below (g : StackGraph) (parent : StackRef) {x : List Char} (hx : Closes x) :
    ∀ c ∈ (g.belowText parent ++ x).head?, c.isDigit = false := by
  unfold belowText
  split
  · exact hx.noDigit
  · intro c hc
    cases hc
    rfl

section Reading
variable {g h : StackGraph} (hg : g.Sound) (hh : h.Sound)
include hg hh

/-- The text of what is below a return state is told from what closes the frame. -/
theorem belowText_append_inj {p q : StackRef} {x y : List Char} (hx : Closes x) (hy : Closes y)
    (hparents : ∀ x y : List Char, (g.toText p).toList ++ x = (h.toText q).toList ++ y →
      g.stackSet p = h.stackSet q ∧ x = y)
    (heq : g.belowText p ++ x = h.belowText q ++ y) : g.stackSet p = h.stackSet q ∧ x = y := by
  have hblank {x z : List Char} (hx : Closes x) : x ≠ ' ' :: z := by
    rintro rfl
    obtain ⟨c, hc, hclose⟩ := hx
    cases hc
    simp at hclose
  by_cases hp : p = StackRef.bottom <;> by_cases hq : q = StackRef.bottom
  · subst hp hq
    exact ⟨by rw [hg.stackSet_bottom, hh.stackSet_bottom], heq⟩
  · rw [belowText, belowText, if_pos (isBottom_iff.mpr hp), if_neg (mt isBottom_iff.mp hq)] at heq
    exact absurd heq (hblank hx)
  · rw [belowText, belowText, if_neg (mt isBottom_iff.mp hp), if_pos (isBottom_iff.mpr hq)] at heq
    exact absurd heq.symm (hblank hy)
  · rw [belowText, belowText, if_neg (mt isBottom_iff.mp hp), if_neg (mt isBottom_iff.mp hq)] at heq
    exact hparents x y ((List.cons_inj_right _).mp heq)

/-- The text of a frame is told from what closes it, if those of the parents are. -/
theorem frameText_append_inj {a b : StackRef} (ha : g.knows a) (hb : h.knows b) {f f' : Frame}
    (hf : f ∈ g.frames a) (hf' : f' ∈ h.frames b) {x y : List Char} (hx : Closes x) (hy : Closes y)
    (hparents : ∀ n, f.returnTo = some n → ∀ x y : List Char,
      (g.toText f.parent).toList ++ x = (h.toText f'.parent).toList ++ y →
        g.stackSet f.parent = h.stackSet f'.parent ∧ x = y)
    (heq : (g.frameText f).toList ++ x = (h.frameText f').toList ++ y) :
    (f.returnTo = f'.returnTo ∧ g.stackSet f.parent = h.stackSet f'.parent) ∧ x = y := by
  have hdollar (n : Nat) {x z : List Char} : '$' :: x ≠ Nat.toDigits 10 n ++ z := by
    intro heq
    obtain ⟨c, hc, hdigit⟩ := exists_digit n
    obtain ⟨cs, hcs⟩ := List.head?_eq_some_iff.mp hc
    rw [hcs] at heq
    obtain ⟨rfl, -⟩ := List.cons_eq_cons.mp heq
    contradiction
  cases hr : f.returnTo with
  | none =>
    rw [toList_frameText_none hr] at heq
    cases hr' : f'.returnTo with
    | none =>
      rw [toList_frameText_none hr'] at heq
      rw [hg.parent_bottom ha hf hr, hh.parent_bottom hb hf' hr', hg.stackSet_bottom, hh.stackSet_bottom]
      exact ⟨⟨rfl, rfl⟩, List.append_cancel_left heq⟩
    | some n =>
      rw [toList_frameText_some hr', List.append_assoc] at heq
      exact absurd heq (hdollar n)
  | some m =>
    rw [toList_frameText_some hr, List.append_assoc] at heq
    cases hr' : f'.returnTo with
    | none =>
      rw [toList_frameText_none hr'] at heq
      exact absurd heq.symm (hdollar m)
    | some n =>
      rw [toList_frameText_some hr', List.append_assoc] at heq
      obtain ⟨rfl, hbelow⟩ := toDigits_append_inj (noDigit_below g _ hx) (noDigit_below h _ hy) heq
      obtain ⟨hstacks, hxy⟩ := belowText_append_inj hg hh hx hy (hparents m hr) hbelow
      exact ⟨⟨rfl, hstacks⟩, hxy⟩

/-- **Texts are told from what follows them.** -/
theorem toText_append_inj {a b : StackRef} (ha : g.knows a) (hb : h.knows b) {x y : List Char}
    (heq : (g.toText a).toList ++ x = (h.toText b).toList ++ y) :
    g.stackSet a = h.stackSet b ∧ x = y := by
  induction hi : a.index using Nat.strong_induction_on generalizing a b x y with
  | _ i ih =>
    by_cases hab : a = StackRef.bottom <;> by_cases hbb : b = StackRef.bottom
    · subst hab hbb
      rw [hg.toList_toText_bottom, hh.toList_toText_bottom] at heq
      exact ⟨by rw [hg.stackSet_bottom, hh.stackSet_bottom], List.append_cancel_left heq⟩
    · rw [hab, hg.toList_toText_bottom, hh.toList_toText hb hbb] at heq
      simp at heq
    · rw [hbb, hh.toList_toText_bottom, hg.toList_toText ha hab] at heq
      simp at heq
    · -- Only what is below a return state comes before `a`, so the hypothesis is for these parents alone.
      have hframe : ∀ f ∈ g.frames a, ∀ f' ∈ h.frames b, ∀ x y : List Char, Closes x → Closes y →
          (g.frameText f).toList ++ x = (h.frameText f').toList ++ y →
            (f.returnTo = f'.returnTo ∧ g.stackSet f.parent = h.stackSet f'.parent) ∧ x = y := by
        intro f hf f' hf' x y hx hy
        refine frameText_append_inj hg hh ha hb hf hf' hx hy fun n hn x y htexts => ?_
        have hlt : f.parent.index < i := hi ▸ hg.parent_lt ha hf hn
        exact ih f.parent.index hlt (hg.knows_parent ha hf) (hh.knows_parent hb hf') htexts rfl
      rw [hg.toList_toText ha hab, hh.toList_toText hb hbb] at heq
      obtain ⟨f, hf⟩ := hg.frames_ne_nil ha
      obtain ⟨f', hf'⟩ := hh.frames_ne_nil hb
      obtain ⟨hframes, hxy⟩ := entries_append_inj (List.ne_nil_of_mem hf) (List.ne_nil_of_mem hf') hframe
        (by simpa using heq)
      exact ⟨stackSet_eq_of_agree hg hh ha hb hframes, hxy⟩

/-! ## Texts and stacks -/

/-- Of nodes with the same stacks, either both are the empty stack or neither. -/
theorem isBottom_eq_of_stackSet {a b : StackRef} (ha : g.knows a) (hb : h.knows b)
    (heq : g.stackSet a = h.stackSet b) : a.isBottom = b.isBottom := by
  rw [Bool.eq_iff_iff, isBottom_iff, isBottom_iff]
  constructor
  · rintro rfl
    refine hh.eq_of_stackSet_eq hb hh.knows_bottom ?_
    rw [← heq, hg.stackSet_bottom, hh.stackSet_bottom]
  · rintro rfl
    refine hg.eq_of_stackSet_eq ha hg.knows_bottom ?_
    rw [heq, hg.stackSet_bottom, hh.stackSet_bottom]

/-- Frames that agree have the same text if their parents have. -/
theorem frameText_eq {f f' : Frame} (hp : g.knows f.parent) (hp' : h.knows f'.parent)
    (hx : f.returnTo = f'.returnTo) (hs : g.stackSet f.parent = h.stackSet f'.parent)
    (htext : ∀ n, f.returnTo = some n → g.toText f.parent = h.toText f'.parent) :
    g.frameText f = h.frameText f' := by
  unfold frameText
  rw [← hx]
  cases hn : f.returnTo with
  | none => rfl
  | some n =>
    simp only
    rw [isBottom_eq_of_stackSet hg hh hp hp' hs, htext n hn]

/-- Nodes with the same stacks have the same text. -/
theorem toText_eq_of_stackSet {a b : StackRef} (ha : g.knows a) (hb : h.knows b)
    (heq : g.stackSet a = h.stackSet b) : g.toText a = h.toText b := by
  induction hi : a.index using Nat.strong_induction_on generalizing a b with
  | _ i ih =>
    have hagree := frames_agree hg hh ha hb heq
    have htexts : (g.frames a).map g.frameText = (h.frames b).map h.frameText := by
      rw [← List.forall₂_eq_eq_eq, List.forall₂_map_left_iff, List.forall₂_map_right_iff]
      refine List.forall₂_iff_get.mpr ⟨hagree.length_eq, fun j hj hj' => ?_⟩
      obtain ⟨hx, hs⟩ := (List.forall₂_iff_get.mp hagree).2 j hj hj'
      have hf : (g.frames a).get ⟨j, hj⟩ ∈ g.frames a := List.get_mem _ _
      have hf' : (h.frames b).get ⟨j, hj'⟩ ∈ h.frames b := List.get_mem _ _
      have hp := hg.knows_parent ha hf
      have hp' := hh.knows_parent hb hf'
      refine frameText_eq hg hh hp hp' hx hs fun n hn => ?_
      exact ih _ (hi ▸ hg.parent_lt ha hf hn) hp hp' hs rfl
    rw [hg.toText_eq ha, hh.toText_eq hb, isBottom_eq_of_stackSet hg hh ha hb heq, htexts]

/-- The text of a node says which stacks it has, and nothing else. -/
theorem toText_eq_iff {a b : StackRef} (ha : g.knows a) (hb : h.knows b) :
    g.toText a = h.toText b ↔ g.stackSet a = h.stackSet b := by
  refine ⟨fun heq => ?_, toText_eq_of_stackSet hg hh ha hb⟩
  have hchars : (g.toText a).toList ++ [] = (h.toText b).toList ++ [] := by rw [heq]
  exact (toText_append_inj hg hh ha hb hchars).1

end Reading

/-- **Texts are unambiguous.**  In a graph that was used in any way, nodes with the same text are the same
node; and nodes of two such graphs have the same text exactly if they have the same stacks. -/
theorem Used.toText_injective {g h : StackGraph} {given given' : Set StackRef} (hu : Used g given)
    (hu' : Used h given') {a b c : StackRef} (ha : g.knows a) (hb : g.knows b) (hc : h.knows c) :
    (g.toText a = g.toText b ↔ a = b) ∧ (g.toText a = h.toText c ↔ g.stackSet a = h.stackSet c) := by
  have hg := hu.truthful_known.1.toSound
  have hh := hu'.truthful_known.1.toSound
  refine ⟨⟨fun heq => ?_, fun heq => heq ▸ rfl⟩, toText_eq_iff hg hh ha hc⟩
  exact hg.eq_of_stackSet_eq ha hb ((toText_eq_iff hg hg ha hb).mp heq)

/-- Pushes 12 on the node for the stack of 7 alone and the empty stack. -/
def twelveOnSeven (g : StackGraph) : StackRef × StackGraph :=
  let pushed := g.push StackRef.bottom (some 7)
  let both := pushed.2.merge pushed.1 StackRef.bottom false
  both.2.push both.1 (some 12)

theorem Used.twelveOnSeven {g : StackGraph} {given : Set StackRef} (hu : Used g given)
    (hbottom : StackRef.bottom ∈ given) : ∃ given', Used g.twelveOnSeven.2 given' := by
  have hpushed := hu.push (some 7) hbottom
  have hboth := hpushed.merge false (.inl rfl) (.inr hbottom)
  exact ⟨_, hboth.push (some 12) (.inl rfl)⟩

/-- Two nodes of a graph, and one with the stacks of the first in a graph that had another node before. -/
theorem Used.toText_injective_twelve :
    let g := StackGraph.empty.twelveOnSeven.2
    let h := (StackGraph.empty.push StackRef.bottom (some 3)).2.twelveOnSeven.2
    (∃ given, Used g given) ∧ (∃ given', Used h given') ∧
      (g.toText ⟨3⟩ = "[12 [7, $]]" ∧ g.toText ⟨2⟩ = "[7, $]" ∧ h.toText ⟨4⟩ = "[12 [7, $]]") ∧
      (g.toText ⟨3⟩ = g.toText ⟨2⟩ ↔ (⟨3⟩ : StackRef) = ⟨2⟩) ∧
      (g.toText ⟨3⟩ = h.toText ⟨4⟩ ↔ g.stackSet ⟨3⟩ = h.stackSet ⟨4⟩) := by
  obtain ⟨given, hu⟩ := Used.empty.twelveOnSeven rfl
  obtain ⟨given', hu'⟩ := (Used.empty.push (some 3) rfl).twelveOnSeven (.inr rfl)
  have hthree : StackGraph.empty.twelveOnSeven.2.knows ⟨3⟩ := by cbv
  have htwo : StackGraph.empty.twelveOnSeven.2.knows ⟨2⟩ := by cbv
  have hfour : (StackGraph.empty.push StackRef.bottom (some 3)).2.twelveOnSeven.2.knows ⟨4⟩ := by cbv
  have htexts : StackGraph.empty.twelveOnSeven.2.toText ⟨3⟩ = "[12 [7, $]]" ∧
      StackGraph.empty.twelveOnSeven.2.toText ⟨2⟩ = "[7, $]" ∧
      (StackGraph.empty.push StackRef.bottom (some 3)).2.twelveOnSeven.2.toText ⟨4⟩ = "[12 [7, $]]" :=
    ⟨by cbv, by cbv, by cbv⟩
  exact ⟨⟨given, hu⟩, ⟨given', hu'⟩, htexts, Used.toText_injective hu hu' hthree htwo hfour⟩

end StackGraph
end AdaptiveLL
