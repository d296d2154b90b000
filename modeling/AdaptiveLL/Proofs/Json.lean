import Mathlib
import AdaptiveLL.Json.Reader

/-!
# Reading back what was written

A value without fractions is read back from its text, whatever follows it, as long as that begins like
something that may follow a value.  Strings go through their escapes and numbers through their digits;
lists and objects follow by induction on the value.
-/

namespace AdaptiveLL
namespace Json

/-! ## Strings -/

/-- A part of a string stands for a character: it is the character, or the unit of a control
character. -/
inductive Piece.Names : Piece → Char → Prop
  | char (c : Char) : Names (.char c) c
  | unit {c : Char} : c.toNat < 32 → Names (.unit c.toNat) c

theorem unit?_hexDigit : ∀ n < 32, unit? '0' '0' (hexDigit (n / 16)) (hexDigit (n % 16)) = some n := by
  decide

/-- Parts that name characters, and what follows. -/
def Reads (cs : List Char) (rest : List Char) (r : Option (List Piece × List Char)) : Prop :=
  ∃ ps, r = some (ps, rest) ∧ List.Forall₂ Piece.Names ps cs

theorem reads_cons {c : Char} {cs rest : List Char} {p : Piece} {r : Option (List Piece × List Char)}
    (hp : p.Names c) (hr : Reads cs rest r) :
    Reads (c :: cs) rest (do
      let (ps, rest) ← r
      pure (p :: ps, rest)) := by
  obtain ⟨ps, rfl, hps⟩ := hr
  exact ⟨p :: ps, rfl, .cons hp hps⟩

/-- An escaped character is read as a part that names it. -/
theorem reads_escapeChar (c : Char) {cs input rest : List Char} (h : Reads cs rest (readPieces input)) :
    Reads (c :: cs) rest (readPieces (escapeChar c ++ input)) := by
  have hnamed : ∀ n : Nat, c.toNat = n → Reads (c :: cs) rest (do
      let (ps, rest) ← readPieces input
      pure (.char (Char.ofNat n) :: ps, rest)) := by
    rintro n rfl
    rw [Char.ofNat_toNat]
    exact reads_cons (.char c) h
  unfold escapeChar
  split_ifs with hquote hslash h8 h9 h10 h12 h13 hlow
  · subst hquote
    exact reads_cons (.char '"') h
  · subst hslash
    exact reads_cons (.char '\\') h
  · exact hnamed 8 h8
  · exact hnamed 9 h9
  · exact hnamed 10 h10
  · exact hnamed 12 h12
  · exact hnamed 13 h13
  · change Reads (c :: cs) rest (do
      let n ← unit? '0' '0' (hexDigit (c.toNat / 16)) (hexDigit (c.toNat % 16))
      let (ps, rest) ← readPieces input
      pure (.unit n :: ps, rest))
    rw [unit?_hexDigit c.toNat hlow]
    exact reads_cons (.unit hlow) h
  · have hread : readPieces (c :: input) = (do
        let (ps, rest) ← readPieces input
        pure (.char c :: ps, rest)) := by
      rw [readPieces.eq_def]
      split
      · contradiction
      · simp_all
      · simp_all
      · simp_all
      · simp_all
    rw [List.singleton_append, hread]
    exact reads_cons (.char c) h

theorem reads_escaped (cs rest : List Char) :
    Reads cs rest (readPieces (cs.flatMap escapeChar ++ '"' :: rest)) := by
  induction cs with
  | nil => exact ⟨[], rfl, .nil⟩
  | cons c cs ih =>
    rw [List.flatMap_cons, List.append_assoc]
    exact reads_escapeChar c ih

/-- Parts that name characters add up to these. -/
theorem assemble_of_names {ps : List Piece} {cs : List Char} (h : List.Forall₂ Piece.Names ps cs) :
    assemble ps = some cs := by
  induction h with
  | nil => rfl
  | @cons p c ps cs hp _ ih =>
    cases hp with
    | char => rw [assemble, ih, Option.map_some]
    | unit hlow =>
      have hhigh : isHigh c.toNat = false := by simp [isHigh]; omega
      have hlow' : isLow c.toNat = false := by simp [isLow]; omega
      have hstep : assemble (.unit c.toNat :: ps) = (assemble ps).map (Char.ofNat c.toNat :: ·) := by
        rw [assemble.eq_def]
        split <;> simp_all
      rw [hstep, ih, Char.ofNat_toNat, Option.map_some]

/-- A string is read back behind its opening quote. -/
theorem readString_quoted (s : String) (rest : List Char) :
    readString (s.toList.flatMap escapeChar ++ '"' :: rest) = some (some s, rest) := by
  obtain ⟨ps, hread, hnames⟩ := reads_escaped s.toList rest
  simp [readString, hread, assemble_of_names hnames]

/-! ## Numbers -/

/-- What may follow a value: nothing, a comma, or a closing bracket or brace. -/
def Follows (rest : List Char) : Prop := ∀ c ∈ rest.head?, c = ',' ∨ c = ']' ∨ c = '\x7d'

theorem isDigit_eq (c : Char) : isDigit c = c.isDigit := by
  rw [Bool.eq_iff_iff]
  simp only [isDigit, Char.isDigit, Bool.and_eq_true, decide_eq_true_eq]
  exact Iff.rfl

theorem Follows.noDigit {rest : List Char} (h : Follows rest) : ∀ c ∈ rest.head?, isDigit c = false := by
  intro c hc
  rcases h c hc with rfl | rfl | rfl <;> rfl

theorem readDigits_append {ds rest : List Char} (hne : ds ≠ []) (hds : ∀ c ∈ ds, isDigit c = true)
    (hrest : Follows rest) : readDigits (ds ++ rest) = some (ds, rest) := by
  have htake : rest.takeWhile isDigit = [] := by
    cases rest with
    | nil => rfl
    | cons c rest => simp [hrest.noDigit c rfl]
  have hdrop : rest.dropWhile isDigit = rest := by
    cases rest with
    | nil => rfl
    | cons c rest => simp [hrest.noDigit c rfl]
  rw [readDigits, List.takeWhile_append_of_pos hds, htake, List.append_nil,
    List.dropWhile_append_of_pos hds, hdrop]
  split
  · contradiction
  · rfl

/-- Digits of a positive number do not begin with a zero. -/
theorem head_toDigits {n : Nat} (hn : 0 < n) : ∀ c ∈ (Nat.toDigits 10 n).head?, c ≠ '0' := by
  induction n using Nat.base_induction 10 (by decide) with
  | single m hm =>
    rw [Nat.toDigits_of_lt_base hm]
    rintro c ⟨⟩
    decide +revert
  | digit m k hk hm ih =>
    rw [← Nat.toDigits_append_toDigits (by decide) hm hk,
      List.head?_append_of_ne_nil _ Nat.toDigits_ne_nil]
    exact ih hm

theorem readWhole_toDigits (n : Nat) {rest : List Char} (hrest : Follows rest) :
    readWhole (Nat.toDigits 10 n ++ rest) = some (Nat.toDigits 10 n, rest) := by
  have hds : ∀ c ∈ Nat.toDigits 10 n, isDigit c = true := fun c hc => by
    rw [isDigit_eq]
    exact Nat.isDigit_of_mem_toDigits (by decide) (by decide) hc
  rw [readWhole, readDigits_append Nat.toDigits_ne_nil hds hrest]
  by_cases hn : n = 0
  · subst hn
    rfl
  · have hhead := head_toDigits (Nat.pos_of_ne_zero hn)
    revert hhead
    generalize Nat.toDigits 10 n = ds
    intro hhead
    simp only [Option.bind_eq_bind, Option.bind_some]
    split
    · exact absurd rfl (hhead '0' rfl)
    · rfl

theorem digitsValue_toDigits (n : Nat) : digitsValue (Nat.toDigits 10 n) = n := by
  have hstep : digitsValue (Nat.toDigits 10 n) = Nat.ofDigitChars 10 (Nat.toDigits 10 n) 0 := by
    rw [digitsValue, Nat.ofDigitChars_eq_foldl]
    simp only [Nat.mul_comm]
    rfl
  rw [hstep, Nat.ofDigitChars_ten_toDigits]

theorem readFraction_of_follows {rest : List Char} (h : Follows rest) :
    readFraction rest = some ([], rest) := by
  cases rest with
  | nil => rfl
  | cons c rest => rcases h c rfl with rfl | rfl | rfl <;> rfl

theorem readExponent_of_follows {rest : List Char} (h : Follows rest) :
    readExponent rest = some ([], rest) := by
  cases rest with
  | nil => rfl
  | cons c rest => rcases h c rfl with rfl | rfl | rfl <;> rfl

/-- The digits of a number, behind a sign if it is negative. -/
theorem toList_toString_int (n : Int) : (toString n).toList =
    if n < 0 then '-' :: Nat.toDigits 10 n.natAbs else Nat.toDigits 10 n.natAbs := by
  cases n with
  | ofNat m =>
    rw [if_neg (by simp)]
    change (Nat.repr m).toList = _
    rw [Nat.toList_repr]
    rfl
  | negSucc m =>
    rw [if_pos (Int.negSucc_lt_zero m)]
    change ("-" ++ Nat.repr (m + 1)).toList = _
    rw [String.toList_append, Nat.toList_repr]
    rfl

/-- A number that is written without a sign begins with a digit. -/
theorem exists_toDigits_eq (n : Nat) : ∃ c cs, Nat.toDigits 10 n = c :: cs ∧ isDigit c = true := by
  cases h : Nat.toDigits 10 n with
  | nil => exact absurd h Nat.toDigits_ne_nil
  | cons c cs =>
    refine ⟨c, cs, rfl, ?_⟩
    rw [isDigit_eq]
    exact Nat.isDigit_of_mem_toDigits (by decide) (by decide) (h ▸ List.mem_cons_self)

theorem readNumber_toDigits (m : Nat) {rest : List Char} (hrest : Follows rest) :
    readNumber (Nat.toDigits 10 m ++ rest) = some (int m, rest) := by
  have hread := readWhole_toDigits m hrest
  have hvalue := digitsValue_toDigits m
  obtain ⟨c, cs, hds, hc⟩ := exists_toDigits_eq m
  rw [hds, List.cons_append] at hread ⊢
  rw [hds] at hvalue
  unfold readNumber
  split
  next sign behind hsign =>
    split at hsign
    · next hminus =>
      obtain rfl := (List.cons.inj hminus).1
      cases hc
    · cases hsign
      simp [hread, readFraction_of_follows hrest, readExponent_of_follows hrest, hvalue]

theorem readNumber_minus {m : Nat} (hm : 0 < m) {rest : List Char} (hrest : Follows rest) :
    readNumber ('-' :: Nat.toDigits 10 m ++ rest) = some (int (-m), rest) := by
  have hne : m ≠ 0 := Nat.pos_iff_ne_zero.mp hm
  unfold readNumber
  simp [readWhole_toDigits m hrest, readFraction_of_follows hrest, readExponent_of_follows hrest,
    digitsValue_toDigits, hne]

/-- A number is read back. -/
theorem readNumber_toString (n : Int) {rest : List Char} (hrest : Follows rest) :
    readNumber ((toString n).toList ++ rest) = some (int n, rest) := by
  rw [toList_toString_int]
  by_cases hn : n < 0
  · rw [if_pos hn, readNumber_minus (Int.natAbs_pos.mpr hn.ne) hrest,
      Int.ofNat_natAbs_of_nonpos hn.le, Int.neg_neg]
  · rw [if_neg hn, readNumber_toDigits _ hrest, Int.natAbs_of_nonneg (Int.not_lt.mp hn)]

/-! ## Values -/

mutual

/-- A value in which every number is an integer and every string names a text. -/
def Plain : Json → Prop
  | decimal _ | unreadable => False
  | array items => PlainItems items
  | object fields => PlainFields fields
  | _ => True

/-- Plain values. -/
def PlainItems : List Json → Prop
  | [] => True
  | x :: xs => x.Plain ∧ PlainItems xs

/-- Fields with plain values. -/
def PlainFields : List (String × Json) → Prop
  | [] => True
  | (_, v) :: fs => v.Plain ∧ PlainFields fs

end

/-- The characters of list items behind the first. -/
def renderMore (items : List Json) : List Char := items.flatMap fun x => ',' :: x.render

/-- The characters of a field. -/
def renderField (f : String × Json) : List Char := quote f.1 ++ ':' :: f.2.render

/-- The characters of object fields behind the first. -/
def renderMoreFields (fields : List (String × Json)) : List Char :=
  fields.flatMap fun f => ',' :: renderField f

theorem renderItems_cons (x : Json) (xs : List Json) :
    renderItems (x :: xs) = x.render ++ renderMore xs := by
  induction xs generalizing x with
  | nil => simp [renderItems, renderMore]
  | cons y ys ih => rw [renderItems, ih, renderMore, renderMore, List.flatMap_cons, List.cons_append]

theorem renderFields_cons (f : String × Json) (fs : List (String × Json)) :
    renderFields (f :: fs) = renderField f ++ renderMoreFields fs := by
  induction fs generalizing f with
  | nil => simp [renderFields, renderMoreFields, renderField]
  | cons g gs ih =>
    obtain ⟨k, v⟩ := f
    rw [renderFields, ih, renderMoreFields, renderMoreFields, List.flatMap_cons, List.cons_append]
    rfl

/-- A sign or a digit, with which a number begins. -/
def BeginsNumber (c : Char) : Prop := c = '-' ∨ isDigit c = true

theorem beginsNumber_toString (n : Int) : ∃ c cs, (toString n).toList = c :: cs ∧ BeginsNumber c := by
  rw [toList_toString_int]
  split
  · exact ⟨_, _, rfl, .inl rfl⟩
  · obtain ⟨c, cs, h, hc⟩ := exists_toDigits_eq n.natAbs
    exact ⟨c, cs, h, .inr hc⟩

/-- A number begins like nothing else that has a place in a text. -/
theorem BeginsNumber.ne {c : Char} (h : BeginsNumber c) {d : Char}
    (hd : d ≠ '-' ∧ isDigit d = false) : c ≠ d := by
  rintro rfl
  rcases h with h | h
  · exact hd.1 h
  · rw [hd.2] at h
    cases h

theorem BeginsNumber.not_blank {c : Char} (h : BeginsNumber c) : isBlank c = false := by
  have hcode : ∀ n < 32, c.toNat ≠ n := by
    rintro n hn rfl
    have hd : ∀ n < 32, Char.ofNat n ≠ '-' ∧ isDigit (Char.ofNat n) = false := by decide
    exact h.ne (hd _ hn) (Char.ofNat_toNat c).symm
  simp [isBlank, h.ne (d := ' ') (by decide), hcode 9 (by decide), hcode 10 (by decide),
    hcode 13 (by decide)]

/-- A value's text begins with a character that is no blank and closes nothing. -/
theorem exists_render_eq {j : Json} (h : j.Plain) :
    ∃ c cs, j.render = c :: cs ∧ isBlank c = false ∧ c ≠ ']' ∧ c ≠ '\x7d' := by
  cases j with
  | null => exact ⟨_, _, rfl, by decide⟩
  | bool b => cases b <;> exact ⟨_, _, rfl, by decide⟩
  | int n =>
    obtain ⟨c, cs, hrender, hc⟩ := beginsNumber_toString n
    exact ⟨c, cs, hrender, hc.not_blank, hc.ne (by decide), hc.ne (by decide)⟩
  | decimal lexeme => exact h.elim
  | string s => exact ⟨_, _, rfl, by decide⟩
  | unreadable => exact h.elim
  | array items => exact ⟨_, _, rfl, by decide⟩
  | object fields => exact ⟨_, _, rfl, by decide⟩

theorem skipBlanks_cons {c : Char} (hc : isBlank c = false) (cs : List Char) :
    skipBlanks (c :: cs) = c :: cs := by
  rw [skipBlanks, List.dropWhile_cons_of_neg (by simp [hc])]

theorem follows_comma (cs : List Char) : Follows (',' :: cs) := by
  rintro c ⟨⟩
  exact .inl rfl

theorem follows_renderMore (xs : List Json) (rest : List Char) :
    Follows (renderMore xs ++ ']' :: rest) := by
  cases xs with
  | nil =>
    rintro c ⟨⟩
    exact .inr (.inl rfl)
  | cons x xs => exact follows_comma _

theorem follows_renderMoreFields (fs : List (String × Json)) (rest : List Char) :
    Follows (renderMoreFields fs ++ '\x7d' :: rest) := by
  cases fs with
  | nil =>
    rintro c ⟨⟩
    exact .inr (.inr rfl)
  | cons f fs => exact follows_comma _

/-- What begins like a number is read as one. -/
theorem readValue_eq_readNumber {c : Char} (hc : BeginsNumber c) (fuel : Nat) (cs : List Char) :
    readValue (fuel + 1) (c :: cs) = readNumber (c :: cs) := by
  have hother : ∀ {d : Char} {ds : List Char}, c :: cs = d :: ds →
      ¬ (d ≠ '-' ∧ isDigit d = false) := fun heq hd => hc.ne hd (List.cons.inj heq).1
  rw [readValue, skipBlanks_cons hc.not_blank]
  split
  · next heq => exact absurd (by decide) (hother heq)
  · next heq => exact absurd (by decide) (hother heq)
  · next heq => exact absurd (by decide) (hother heq)
  · next heq => exact absurd (by decide) (hother heq)
  · next heq => exact absurd (by decide) (hother heq)
  · next heq => exact absurd (by decide) (hother heq)
  · rfl

theorem ofFields_some (fs : List (String × Json)) :
    ofFields (fs.map fun f => (some f.1, f.2)) = object fs := by
  have hall : (fs.map fun f => (some f.1, f.2)).mapM (fun (f : Option String × Json) =>
      f.1.map (·, f.2)) = some fs := by
    induction fs with
    | nil => rfl
    | cons f fs ih => simp [ih]
  unfold ofFields
  split
  · next fields heq => exact congrArg object (Option.some.inj (heq.symm.trans hall))
  · next heq => exact absurd (hall.symm.trans heq) (Option.some_ne_none fs)

/-- Behind an opening bracket comes a closing one or an item. -/
theorem readValue_array {c : Char} (hblank : isBlank c = false) (hclose : c ≠ ']') (fuel : Nat)
    (cs : List Char) :
    readValue (fuel + 1) ('[' :: c :: cs) = (do
      let (x, rest) ← readValue fuel (c :: cs)
      let (xs, rest) ← readItems fuel rest
      pure (array (x :: xs), rest)) := by
  rw [readValue, skipBlanks_cons (by decide)]
  simp only [skipBlanks_cons hblank]
  split
  · next heq => exact absurd (List.cons.inj heq).1 hclose
  · rfl

/-- Behind an opening brace comes a closing one or a field. -/
theorem readValue_object {c : Char} (hblank : isBlank c = false) (hclose : c ≠ '\x7d') (fuel : Nat)
    (cs : List Char) :
    readValue (fuel + 1) ('\x7b' :: c :: cs) = (do
      let (f, rest) ← readField fuel (c :: cs)
      let (fs, rest) ← readFields fuel rest
      pure (ofFields (f :: fs), rest)) := by
  rw [readValue, skipBlanks_cons (by decide)]
  simp only [skipBlanks_cons hblank]
  split
  · next heq => exact absurd (List.cons.inj heq).1 hclose
  · rfl

/-- A key is read back, and then the value under it. -/
theorem readField_quote (k : String) (fuel : Nat) (cs : List Char) :
    readField (fuel + 1) (quote k ++ ':' :: cs) = (do
      let (v, rest) ← readValue fuel cs
      pure ((some k, v), rest)) := by
  have hquote : quote k ++ ':' :: cs = '"' :: (k.toList.flatMap escapeChar ++ '"' :: ':' :: cs) := by
    simp [quote]
  rw [hquote, readField, skipBlanks_cons (by decide)]
  simp [readString_quoted, skipBlanks_cons (c := ':') (by decide)]

mutual

/-- A plain value is read back, with what follows it. -/
theorem readValue_render : ∀ {j : Json}, j.Plain → ∀ {fuel : Nat}, j.render.length ≤ fuel →
    ∀ {rest : List Char}, Follows rest → readValue fuel (j.render ++ rest) = some (j, rest)
  | null, _, fuel + 1, _, rest, _ => by rfl
  | bool true, _, fuel + 1, _, rest, _ => by rfl
  | bool false, _, fuel + 1, _, rest, _ => by rfl
  | int n, _, fuel, hfuel, rest, hrest => by
    obtain ⟨c, cs, hrender, hc⟩ := beginsNumber_toString n
    have hnumber := readNumber_toString n hrest
    rw [render, hrender] at hfuel ⊢
    rw [hrender] at hnumber
    obtain ⟨fuel, rfl⟩ := Nat.exists_eq_add_one.mpr (Nat.lt_of_lt_of_le (Nat.succ_pos _) hfuel)
    rw [List.cons_append, readValue_eq_readNumber hc]
    exact hnumber
  | string s, _, fuel + 1, _, rest, _ => by
    have hquote : (string s).render ++ rest = '"' :: (s.toList.flatMap escapeChar ++ '"' :: rest) := by
      simp [render, quote]
    rw [hquote, readValue, skipBlanks_cons (by decide)]
    simp [readString_quoted]
  | array [], _, fuel + 1, _, rest, _ => by rfl
  | array (x :: xs), h, fuel + 1, hfuel, rest, _ => by
    have hrender : (array (x :: xs)).render ++ rest =
        '[' :: (x.render ++ (renderMore xs ++ ']' :: rest)) := by
      simp [render, renderItems_cons]
    have hlength : x.render.length + (renderMore xs).length + 1 ≤ fuel := by
      rw [render, renderItems_cons] at hfuel
      simp at hfuel
      omega
    -- The first item ends where a comma or the bracket follows, so it is read back alone.
    have hx := readValue_render h.1 (show x.render.length ≤ fuel by omega)
      (follows_renderMore xs rest)
    have hxs := readItems_render h.2 (show (renderMore xs).length + 1 ≤ fuel by omega) rest
    obtain ⟨c, cs, hbegin, hblank, hclose, -⟩ := exists_render_eq h.1
    rw [hrender]
    rw [hbegin, List.cons_append] at hx ⊢
    rw [readValue_array hblank hclose, hx]
    simp [hxs]
  | object [], _, fuel + 1, _, rest, _ => by rfl
  | object (f :: fs), h, fuel + 1, hfuel, rest, _ => by
    have hrender : (object (f :: fs)).render ++ rest =
        '\x7b' :: (renderField f ++ (renderMoreFields fs ++ '\x7d' :: rest)) := by
      simp [render, renderFields_cons]
    have hlength : (renderField f).length + (renderMoreFields fs).length + 1 ≤ fuel := by
      rw [render, renderFields_cons] at hfuel
      simp at hfuel
      omega
    have hf := readField_render h.1 (show (renderField f).length ≤ fuel by omega)
      (follows_renderMoreFields fs rest)
    have hfs := readFields_render h.2 (show (renderMoreFields fs).length + 1 ≤ fuel by omega) rest
    have hbegin : ∃ cs, renderField f = '"' :: cs := ⟨_, rfl⟩
    obtain ⟨cs, hbegin⟩ := hbegin
    rw [hrender]
    rw [hbegin, List.cons_append] at hf ⊢
    rw [readValue_object (by decide) (by decide), hf]
    simp [hfs, ← ofFields_some]

/-- The items of a list behind the first are read back. -/
theorem readItems_render : ∀ {xs : List Json}, PlainItems xs → ∀ {fuel : Nat},
    (renderMore xs).length + 1 ≤ fuel → ∀ rest : List Char,
    readItems fuel (renderMore xs ++ ']' :: rest) = some (xs, rest)
  | [], _, fuel + 1, _, rest => by rfl
  | x :: xs, h, fuel + 1, hfuel, rest => by
    have hrender : renderMore (x :: xs) ++ ']' :: rest =
        ',' :: (x.render ++ (renderMore xs ++ ']' :: rest)) := by
      simp [renderMore]
    have hlength : x.render.length + (renderMore xs).length + 1 ≤ fuel := by
      simp [renderMore] at hfuel ⊢
      omega
    have hx := readValue_render h.1 (show x.render.length ≤ fuel by omega)
      (follows_renderMore xs rest)
    have hxs := readItems_render h.2 (show (renderMore xs).length + 1 ≤ fuel by omega) rest
    rw [hrender, readItems, skipBlanks_cons (by decide)]
    simp [hx, hxs]

/-- A field is read back. -/
theorem readField_render : ∀ {f : String × Json}, f.2.Plain → ∀ {fuel : Nat},
    (renderField f).length ≤ fuel → ∀ {rest : List Char}, Follows rest →
    readField fuel (renderField f ++ rest) = some ((some f.1, f.2), rest)
  | (k, v), h, fuel + 1, hfuel, rest, hrest => by
    have hlength : v.render.length ≤ fuel := by
      simp [renderField] at hfuel
      omega
    have hv := readValue_render h hlength hrest
    rw [renderField, List.append_assoc, List.cons_append, readField_quote]
    simp [hv]

/-- The fields of an object behind the first are read back. -/
theorem readFields_render : ∀ {fs : List (String × Json)}, PlainFields fs → ∀ {fuel : Nat},
    (renderMoreFields fs).length + 1 ≤ fuel → ∀ rest : List Char,
    readFields fuel (renderMoreFields fs ++ '\x7d' :: rest) =
      some (fs.map fun f => (some f.1, f.2), rest)
  | [], _, fuel + 1, _, rest => by rfl
  | f :: fs, h, fuel + 1, hfuel, rest => by
    have hrender : renderMoreFields (f :: fs) ++ '\x7d' :: rest =
        ',' :: (renderField f ++ (renderMoreFields fs ++ '\x7d' :: rest)) := by
      simp [renderMoreFields]
    have hlength : (renderField f).length + (renderMoreFields fs).length + 1 ≤ fuel := by
      simp [renderMoreFields] at hfuel ⊢
      omega
    have hf := readField_render h.1 (show (renderField f).length ≤ fuel by omega)
      (follows_renderMoreFields fs rest)
    have hfs := readFields_render h.2 (show (renderMoreFields fs).length + 1 ≤ fuel by omega) rest
    rw [hrender, readFields, skipBlanks_cons (by decide)]
    simp [hf, hfs]

end

/-- **What is written can be read.**  The text of a plain value gives back the value. -/
theorem ofText?_toText {j : Json} (h : j.Plain) : ofText? j.toText = some j := by
  have hread : readValue (2 * j.render.length + 1) (j.render ++ []) = some (j, []) :=
    readValue_render h (by omega) fun c hc => nomatch hc
  rw [List.append_nil] at hread
  rw [ofText?, toText, String.toList_ofList]
  dsimp only
  rw [hread]
  rfl

end Json
end AdaptiveLL
