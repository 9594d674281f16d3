import Mathlib.Data.List.Basic
import Mathlib.Data.Nat.Basic
import Mathlib.Tactic.Common

/-!
# VDexNode.Lib.JsonText — reading JSON, and arrays of strings written without escapes

A reader takes what it needs from the front of a text and returns the rest.  `parse` reads a whole
text: white space, literals, numbers, strings with their escapes, arrays and objects.

`written ks` puts each string between quotation marks as it is.  Reading it back gives `ks` exactly
when no string needs an escape (`parse_written`): a string read up to a quotation mark of its own
comes out shorter than what was read (`stringBody_spec`), so it is not the string that was written
(`stringBody_self`).
-/

namespace VDexNode.JsonText

/-- A JSON value; a number is kept as it is written. -/
inductive Value where
  | null
  | bool (b : Bool)
  | num (lexeme : List Char)
  | str (s : List Char)
  | arr (items : List Value)
  | obj (members : List (List Char × Value))

/-- Reads a value from the front of a text. -/
abbrev Reader (α : Type) := List Char → Option (α × List Char)

/-- The quotation mark. -/
def quote : Char := Char.ofNat 0x22

/-- The backslash. -/
def backslash : Char := Char.ofNat 0x5C

/-! ## Readers -/

/-- White space: space, tab, line feed and carriage return. -/
def isSpace (c : Char) : Bool := c.toNat ∈ [0x20, 0x09, 0x0A, 0x0D]

/-- The text from its first character on that is not white space. -/
def skipSpace (cs : List Char) : List Char := cs.dropWhile isSpace

/-- The value of a hexadecimal digit. -/
def hexDigit (c : Char) : Option ℕ :=
  if '0' ≤ c ∧ c ≤ '9' then some (c.toNat - 0x30)
  else if 'a' ≤ c ∧ c ≤ 'f' then some (c.toNat - 0x57)
  else if 'A' ≤ c ∧ c ≤ 'F' then some (c.toNat - 0x37)
  else none

/-- Four hexadecimal digits. -/
def hex4 : Reader ℕ
  | c₁ :: c₂ :: c₃ :: c₄ :: rest => do
    let d₁ ← hexDigit c₁
    let d₂ ← hexDigit c₂
    let d₃ ← hexDigit c₃
    let d₄ ← hexDigit c₄
    return (((d₁ * 16 + d₂) * 16 + d₃) * 16 + d₄, rest)
  | _ => none

/-- The second half of a surrogate pair that starts with `hi`. -/
def lowSurrogate (hi : ℕ) : Reader Char
  | c :: u :: cs =>
    if c = backslash ∧ u = 'u' then do
      let (lo, rest) ← hex4 cs
      if 0xDC00 ≤ lo ∧ lo ≤ 0xDFFF then
        return (Char.ofNat (0x10000 + (hi - 0xD800) * 0x400 + (lo - 0xDC00)), rest)
      else none
    else none
  | _ => none

/-- What follows the `u` of an escape: a code unit, or a surrogate pair. -/
def unicodeEscape (cs : List Char) : Option (Char × List Char) := do
  let (unit, rest) ← hex4 cs
  if unit < 0xD800 ∨ 0xDFFF < unit then return (Char.ofNat unit, rest)
  else if unit < 0xDC00 then lowSurrogate unit rest
  else none

/-- The escapes of one character. -/
def shortEscape (c : Char) : Option Char :=
  if c = quote ∨ c = backslash ∨ c = '/' then some c
  else if c = 'b' then some (Char.ofNat 0x08)
  else if c = 'f' then some (Char.ofNat 0x0C)
  else if c = 'n' then some (Char.ofNat 0x0A)
  else if c = 'r' then some (Char.ofNat 0x0D)
  else if c = 't' then some (Char.ofNat 0x09)
  else none

/-- What follows a backslash. -/
def escape : Reader Char
  | [] => none
  | c :: cs => if c = 'u' then unicodeEscape cs else (shortEscape c).map (fun ch => (ch, cs))

/-- What follows an opening quotation mark, up to the closing one. -/
def stringBody : ℕ → Reader (List Char)
  | 0, _ => none
  | _ + 1, [] => none
  | fuel + 1, c :: cs =>
    if c = quote then some ([], cs)
    else if c = backslash then do
      let (ch, rest) ← escape cs
      let (s, rest) ← stringBody fuel rest
      return (ch :: s, rest)
    else if c.toNat < 0x20 then none
    else do
      let (s, rest) ← stringBody fuel cs
      return (c :: s, rest)

/-- `stringBody` with a turn for each character. -/
def string (cs : List Char) : Option (List Char × List Char) := stringBody (cs.length + 1) cs

/-- One of `chars`, if the text starts with it. -/
def optional (chars : List Char) : List Char → List Char × List Char
  | [] => ([], [])
  | c :: cs => if c ∈ chars then ([c], cs) else ([], c :: cs)

/-- One or more digits. -/
def digits (cs : List Char) : Option (List Char × List Char) :=
  if cs.takeWhile Char.isDigit = [] then none
  else some (cs.takeWhile Char.isDigit, cs.dropWhile Char.isDigit)

/-- The exponent of a number, if there is one. -/
def exponent (cs : List Char) : Option (List Char × List Char) :=
  let (e, rest) := optional ['e', 'E'] cs
  if e = [] then some ([], rest)
  else do
    let (sign, rest) := optional ['+', '-'] rest
    let (ds, rest) ← digits rest
    return (e ++ sign ++ ds, rest)

/-- The fraction of a number, if there is one. -/
def fraction (cs : List Char) : Option (List Char × List Char) :=
  let (point, rest) := optional ['.'] cs
  if point = [] then some ([], rest)
  else do
    let (ds, rest) ← digits rest
    return (point ++ ds, rest)

/-- A number; only `0` itself starts with that digit. -/
def number (cs : List Char) : Option (List Char × List Char) := do
  let (sign, rest) := optional ['-'] cs
  let (int, rest) ← digits rest
  if 1 < int.length ∧ int.head? = some '0' then none
  else
    let (frac, rest) ← fraction rest
    let (exp, rest) ← exponent rest
    return (sign ++ int ++ frac ++ exp, rest)

/-- The rest of a literal name. -/
def literal (word : String) (v : Value) (cs : List Char) : Option (Value × List Char) :=
  if word.toList.isPrefixOf cs then some (v, cs.drop word.toList.length) else none

/-- Items with commas between them, up to `close`; there is at least one. -/
def separated {α : Type} (item : Reader α) (close : Char) : ℕ → Reader (List α)
  | 0, _ => none
  | fuel + 1, cs => do
    let (v, rest) ← item cs
    match skipSpace rest with
    | [] => none
    | c :: rest =>
      if c = close then return ([v], rest)
      else if c = ',' then do
        let (vs, rest) ← separated item close fuel rest
        return (v :: vs, rest)
      else none

/-- `separated`, or nothing at all before `close`. -/
def enclosed {α : Type} (item : Reader α) (close : Char) (cs : List Char) :
    Option (List α × List Char) :=
  if (skipSpace cs).head? = some close then some ([], (skipSpace cs).tail)
  else separated item close (cs.length + 1) cs

/-- A member of an object. -/
def member (value : Reader Value) (cs : List Char) : Option ((List Char × Value) × List Char) :=
  match skipSpace cs with
  | [] => none
  | c :: rest =>
    if c = quote then do
      let (name, rest) ← string rest
      match skipSpace rest with
      | [] => none
      | c :: rest =>
        if c = ':' then do
          let (v, rest) ← value rest
          return ((name, v), rest)
        else none
    else none

/-- A value nested less than `depth` deep. -/
def value : ℕ → Reader Value
  | 0, _ => none
  | depth + 1, cs =>
    match skipSpace cs with
    | [] => none
    | c :: rest =>
      if c = quote then (string rest).map (fun r => (.str r.1, r.2))
      else if c = '[' then
        (enclosed (value depth) ']' rest).map (fun r => (.arr r.1, r.2))
      else if c.toNat = 0x7B then
        (enclosed (member (value depth)) (Char.ofNat 0x7D) rest).map (fun r => (.obj r.1, r.2))
      else if c = 't' then literal "rue" (.bool true) rest
      else if c = 'f' then literal "alse" (.bool false) rest
      else if c = 'n' then literal "ull" .null rest
      else (number (c :: rest)).map (fun r => (.num r.1, r.2))

/-- A whole text; it is not nested deeper than it is long. -/
def parse (text : List Char) : Option Value := do
  let (v, rest) ← value (text.length + 1) text
  if skipSpace rest = [] then some v else none

/-- A string. -/
def Value.asString : Value → Option (List Char)
  | .str s => some s
  | _ => none

/-- An array of strings. -/
def Value.asStrings : Value → Option (List (List Char))
  | .arr items => items.mapM Value.asString
  | _ => none

/-! ## What a string reader takes

`quote` is never part of an escape but for the one it is the whole of, so each quotation mark in what
was read stands behind one that it came out as. -/

theorem hexDigit_ne_quote {c : Char} {d : ℕ} (h : hexDigit c = some d) : quote ≠ c := by
  rintro rfl
  have hnone : hexDigit quote = none := by decide
  rw [hnone] at h
  cases h

/-- `hex4` takes no quotation mark. -/
theorem hex4_spec {cs rest : List Char} {n : ℕ} (h : hex4 cs = some (n, rest)) :
    ∃ w, cs = w ++ rest ∧ quote ∉ w := by
  match cs, h with
  | c₁ :: c₂ :: c₃ :: c₄ :: cs, h =>
    simp only [hex4, Option.bind_eq_bind, Option.bind_eq_some_iff, Option.pure_def,
      Option.some.injEq, Prod.mk.injEq] at h
    obtain ⟨d₁, h₁, d₂, h₂, d₃, h₃, d₄, h₄, -, rfl⟩ := h
    refine ⟨[c₁, c₂, c₃, c₄], rfl, ?_⟩
    simp only [List.mem_cons, List.not_mem_nil, or_false, not_or]
    exact ⟨hexDigit_ne_quote h₁, hexDigit_ne_quote h₂, hexDigit_ne_quote h₃, hexDigit_ne_quote h₄⟩

theorem lowSurrogate_spec {hi : ℕ} {cs rest : List Char} {ch : Char}
    (h : lowSurrogate hi cs = some (ch, rest)) : ∃ w, cs = w ++ rest ∧ quote ∉ w := by
  match cs, h with
  | c :: u :: cs, h =>
    simp only [lowSurrogate] at h
    by_cases hu : c = backslash ∧ u = 'u'
    · rw [if_pos hu] at h
      simp only [Option.bind_eq_bind, Option.bind_eq_some_iff] at h
      obtain ⟨⟨lo, rest'⟩, hlo, h⟩ := h
      obtain ⟨w, rfl, hw⟩ := hex4_spec hlo
      split_ifs at h
      simp only [Option.pure_def, Option.some.injEq, Prod.mk.injEq] at h
      obtain ⟨-, rfl⟩ := h
      refine ⟨c :: u :: w, rfl, ?_⟩
      rw [hu.1, hu.2, List.mem_cons, List.mem_cons, not_or, not_or]
      exact ⟨by decide, by decide, hw⟩
    · rw [if_neg hu] at h
      cases h

theorem unicodeEscape_spec {cs rest : List Char} {ch : Char}
    (h : unicodeEscape cs = some (ch, rest)) : ∃ w, cs = w ++ rest ∧ quote ∉ w := by
  simp only [unicodeEscape, Option.bind_eq_bind, Option.bind_eq_some_iff] at h
  obtain ⟨⟨unit, rest'⟩, hunit, h⟩ := h
  obtain ⟨w, rfl, hw⟩ := hex4_spec hunit
  split_ifs at h
  · cases h
    exact ⟨w, rfl, hw⟩
  · obtain ⟨w', rfl, hw'⟩ := lowSurrogate_spec h
    refine ⟨w ++ w', by rw [List.append_assoc], ?_⟩
    rw [List.mem_append, not_or]
    exact ⟨hw, hw'⟩

/-- An escape takes at least one character; a quotation mark it takes is all it takes. -/
theorem escape_spec {cs rest : List Char} {ch : Char} (h : escape cs = some (ch, rest)) :
    ∃ w, cs = w ++ rest ∧ w ≠ [] ∧ (w = [quote] ∧ ch = quote ∨ quote ∉ w) := by
  match cs, h with
  | c :: cs, h =>
    simp only [escape] at h
    by_cases hu : c = 'u'
    · rw [if_pos hu] at h
      obtain ⟨w, rfl, hw⟩ := unicodeEscape_spec h
      refine ⟨c :: w, rfl, List.cons_ne_nil c w, Or.inr ?_⟩
      rw [hu, List.mem_cons, not_or]
      exact ⟨by decide, hw⟩
    · rw [if_neg hu, Option.map_eq_some_iff] at h
      obtain ⟨ch', hshort, heq⟩ := h
      cases heq
      refine ⟨[c], rfl, List.cons_ne_nil c [], ?_⟩
      by_cases hq : c = quote
      · subst hq
        refine Or.inl ⟨rfl, ?_⟩
        have hself : shortEscape quote = some quote := by decide
        rw [hself] at hshort
        exact (Option.some.inj hshort).symm
      · rw [List.mem_singleton]
        exact Or.inr (Ne.symm hq)

/-- A character that a string holds as it is. -/
def Plain (c : Char) : Prop := c ≠ quote ∧ c ≠ backslash ∧ 0x20 ≤ c.toNat

instance (c : Char) : Decidable (Plain c) := inferInstanceAs (Decidable (_ ∧ _ ∧ _))

/-- `raw` can have been read as `s`: it is no shorter, only a string of plain characters is as long as
what was read, and a quotation mark in `raw` stands behind one in `s`. -/
structure ReadAs (raw s : List Char) : Prop where
  length_le : s.length ≤ raw.length
  plain : s.length = raw.length → raw = s ∧ ∀ c ∈ s, Plain c
  behind : ∀ p : ℕ, raw[p]? = some quote → ∃ d < p, s[d]? = some quote

theorem ReadAs.nil : ReadAs [] [] where
  length_le := Nat.le_refl 0
  plain := fun _ => ⟨rfl, fun c hc => absurd hc List.not_mem_nil⟩
  behind := fun p hp => by cases hp

/-- A character that is read as it is. -/
theorem ReadAs.cons {raw s : List Char} {c : Char} (h : ReadAs raw s) (hc : Plain c) :
    ReadAs (c :: raw) (c :: s) where
  length_le := Nat.succ_le_succ h.length_le
  plain := fun hlength => by
    obtain ⟨rfl, hplain⟩ := h.plain (Nat.succ.inj hlength)
    exact ⟨rfl, List.forall_mem_cons.mpr ⟨hc, hplain⟩⟩
  behind := fun p hp => by
    cases p with
    | zero => exact absurd (Option.some.inj hp) hc.1
    | succ p =>
      obtain ⟨d, hd, hs⟩ := h.behind p hp
      exact ⟨d + 1, Nat.succ_lt_succ hd, hs⟩

/-- A character that is read from an escape. -/
theorem ReadAs.escaped {raw s w : List Char} {ch : Char} (h : ReadAs raw s) (hne : w ≠ [])
    (hw : w = [quote] ∧ ch = quote ∨ quote ∉ w) :
    ReadAs (backslash :: (w ++ raw)) (ch :: s) := by
  have hle := h.length_le
  have hpos : 0 < w.length := List.length_pos_iff.mpr hne
  have hlt : (ch :: s).length < (backslash :: (w ++ raw)).length := by
    simp only [List.length_cons, List.length_append]
    omega
  refine ⟨le_of_lt hlt, fun hlength => absurd hlength (ne_of_lt hlt), ?_⟩
  rintro (_ | p) hp
  · exact absurd (Option.some.inj hp) (by decide)
  · rw [List.getElem?_cons_succ, List.getElem?_append] at hp
    split_ifs at hp with hin
    · obtain ⟨rfl, rfl⟩ := hw.resolve_right (not_not.mpr (List.mem_of_getElem? hp))
      exact ⟨0, Nat.succ_pos p, rfl⟩
    · obtain ⟨d, hd, hs⟩ := h.behind _ hp
      exact ⟨d + 1, by omega, hs⟩

/-- **What a string reader takes** is what can be read as the string it returns, and the closing
quotation mark. -/
theorem stringBody_spec : ∀ (fuel : ℕ) {cs s rest : List Char},
    stringBody fuel cs = some (s, rest) →
      ∃ raw : List Char, cs = raw ++ quote :: rest ∧ ReadAs raw s
  | 0, _, _, _, h => by cases h
  | _ + 1, [], _, _, h => by cases h
  | fuel + 1, c :: cs, s, rest, h => by
    rw [stringBody] at h
    split_ifs at h with hquote hback hcontrol
    · cases h
      exact ⟨[], by rw [hquote, List.nil_append], ReadAs.nil⟩
    · simp only [Option.bind_eq_bind, Option.bind_eq_some_iff, Option.pure_def,
        Option.some.injEq, Prod.mk.injEq] at h
      obtain ⟨⟨ch, rest₁⟩, hesc, ⟨s', rest₂⟩, hbody, rfl, rfl⟩ := h
      obtain ⟨w, rfl, hne, hw⟩ := escape_spec hesc
      obtain ⟨raw, rfl, hread⟩ := stringBody_spec fuel hbody
      subst hback
      exact ⟨backslash :: (w ++ raw), by simp, hread.escaped hne hw⟩
    · simp only [Option.bind_eq_bind, Option.bind_eq_some_iff, Option.pure_def,
        Option.some.injEq, Prod.mk.injEq] at h
      obtain ⟨⟨s', rest'⟩, hbody, rfl, rfl⟩ := h
      obtain ⟨raw, rfl, hread⟩ := stringBody_spec fuel hbody
      exact ⟨c :: raw, rfl, hread.cons ⟨hquote, hback, not_lt.mp hcontrol⟩⟩

/-- **Breaking out**: if what is read back from a string written as it is is that string, it had
nothing to escape. -/
theorem stringBody_self {fuel : ℕ} {k tail rest : List Char}
    (h : stringBody fuel (k ++ quote :: tail) = some (k, rest)) :
    (∀ c ∈ k, Plain c) ∧ rest = tail := by
  obtain ⟨raw, htext, hread⟩ := stringBody_spec fuel h
  have hraw : ∀ p : ℕ, p < raw.length → raw[p]? = (k ++ quote :: tail)[p]? := by
    intro p hp
    rw [htext, List.getElem?_append_left hp]
  rcases Nat.lt_or_eq_of_le hread.length_le with hlt | hlength
  · -- a first quotation mark would stand behind an earlier one
    have hnone : ∀ p : ℕ, p ≤ k.length → raw[p]? ≠ some quote := by
      intro p
      induction p using Nat.strong_induction_on with
      | _ p ih =>
        intro hp hquote
        obtain ⟨d, hd, hk⟩ := hread.behind p hquote
        refine ih d hd (by omega) ?_
        rw [hraw d (by omega), List.getElem?_append_left (by omega), hk]
    refine absurd ?_ (hnone k.length le_rfl)
    rw [hraw k.length hlt, List.getElem?_append_right le_rfl, Nat.sub_self,
      List.getElem?_cons_zero]
  · obtain ⟨rfl, hplain⟩ := hread.plain hlength
    exact ⟨hplain, (List.cons.inj (List.append_cancel_left htext)).2.symm⟩

/-- A string of plain characters is read as it is. -/
theorem stringBody_plain : ∀ {k : List Char} {fuel : ℕ} (tail : List Char), k.length < fuel →
    (∀ c ∈ k, Plain c) → stringBody fuel (k ++ quote :: tail) = some (k, tail)
  | _, 0, _, hfuel, _ => absurd hfuel (Nat.not_lt_zero _)
  | [], fuel + 1, tail, _, _ => by
    rw [List.nil_append, stringBody, if_pos rfl]
  | c :: k, fuel + 1, tail, hfuel, hplain => by
    obtain ⟨⟨hquote, hback, hcontrol⟩, hk⟩ := List.forall_mem_cons.mp hplain
    have hrest := stringBody_plain tail (by simpa using hfuel) hk
    rw [List.cons_append, stringBody, if_neg hquote, if_neg hback, if_neg (not_lt.mpr hcontrol),
      hrest]
    rfl

/-! ## Arrays of strings -/

/-- `k` between quotation marks, as it is. -/
def quoted (k : List Char) : List Char := quote :: (k ++ [quote])

/-- What follows an element of a written array. -/
def closing : List (List Char) → List Char
  | [] => [']']
  | k :: ks => ',' :: ' ' :: (quoted k ++ closing ks)

/-- The array of the strings `ks`, each written as it is. -/
def written : List (List Char) → List Char
  | [] => ['[', ']']
  | k :: ks => '[' :: (quoted k ++ closing ks)

theorem quoted_append (k tail : List Char) : quoted k ++ tail = quote :: (k ++ quote :: tail) := by
  rw [quoted, List.cons_append, List.append_assoc, List.singleton_append]

theorem length_le_closing : ∀ ks : List (List Char), ks.length < (closing ks).length
  | [] => Nat.zero_lt_one
  | k :: ks => by
    have := length_le_closing ks
    simp only [closing, List.length_cons, List.length_append]
    omega

theorem skipSpace_of_not {c : Char} (h : isSpace c = false) (cs : List Char) :
    skipSpace (c :: cs) = c :: cs := by
  rw [skipSpace, List.dropWhile_cons, h, if_neg Bool.false_ne_true]

theorem value_space (depth : ℕ) (cs : List Char) : value depth (' ' :: cs) = value depth cs := by
  cases depth with
  | zero => rfl
  | succ depth =>
    have hskip : skipSpace (' ' :: cs) = skipSpace cs := by
      rw [skipSpace, List.dropWhile_cons, if_pos (by decide), skipSpace]
    rw [value, value, hskip]

theorem separated_space {depth : ℕ} {close : Char} (fuel : ℕ) (cs : List Char) :
    separated (value depth) close fuel (' ' :: cs) = separated (value depth) close fuel cs := by
  cases fuel with
  | zero => rfl
  | succ fuel => rw [separated, separated, value_space]

theorem value_quoted (depth : ℕ) (k tail : List Char) :
    value (depth + 1) (quoted k ++ tail) =
      (string (k ++ quote :: tail)).map (fun r => (.str r.1, r.2)) := by
  rw [quoted_append, value, skipSpace_of_not (by decide)]
  simp only [if_true]

/-- One turn over an element that is read as written. -/
theorem separated_turn {depth fuel : ℕ} {k : List Char} {ks : List (List Char)}
    (h : string (k ++ quote :: closing ks) = some (k, closing ks)) :
    separated (value (depth + 1)) ']' (fuel + 1) (quoted k ++ closing ks) =
      match ks with
      | [] => some ([.str k], [])
      | k' :: ks' => (separated (value (depth + 1)) ']' fuel (quoted k' ++ closing ks')).map
          (fun r => (.str k :: r.1, r.2)) := by
  rw [separated, value_quoted, h]
  cases ks with
  | nil => rfl
  | cons k' ks' =>
    have hcomma : isSpace ',' = false := by decide
    simp only [closing, Option.map_some, Option.bind_eq_bind, Option.bind_some,
      skipSpace_of_not hcomma, separated_space]
    rw [if_neg (by decide), if_pos trivial]
    cases separated (value (depth + 1)) ']' fuel (quoted k' ++ closing ks') <;> rfl

/-- The elements are read as written when they have nothing to escape. -/
theorem separated_plain (depth : ℕ) : ∀ (ks : List (List Char)) (k : List Char) {fuel : ℕ},
    ks.length < fuel → (∀ c ∈ k, Plain c) → (∀ k' ∈ ks, ∀ c ∈ k', Plain c) →
      separated (value (depth + 1)) ']' fuel (quoted k ++ closing ks) =
        some ((k :: ks).map .str, [])
  | _, _, 0, hfuel, _, _ => absurd hfuel (Nat.not_lt_zero _)
  | ks, k, fuel + 1, hfuel, hk, hks => by
    have hstring : string (k ++ quote :: closing ks) = some (k, closing ks) :=
      stringBody_plain (closing ks) (by rw [List.length_append]; omega) hk
    rw [separated_turn hstring]
    cases ks with
    | nil => rfl
    | cons k' ks' =>
      obtain ⟨hk', hks'⟩ := List.forall_mem_cons.mp hks
      show (separated _ _ _ _).map _ = _
      rw [separated_plain depth ks' k' (by simpa using hfuel) hk' hks']
      rfl

theorem separated_head {α : Type} {item : Reader α} {close : Char} {fuel : ℕ}
    {cs rest : List Char} {vs : List α} (h : separated item close fuel cs = some (vs, rest)) :
    ∃ v vs' rest', item cs = some (v, rest') ∧ vs = v :: vs' := by
  cases fuel with
  | zero => cases h
  | succ fuel =>
    rw [separated] at h
    obtain ⟨⟨v, rest'⟩, hitem, h⟩ := Option.bind_eq_some_iff.mp h
    cases hrest : skipSpace rest' with
    | nil =>
      simp only [hrest] at h
      cases h
    | cons c cs' =>
      simp only [hrest] at h
      split_ifs at h
      · cases h
        exact ⟨v, [], rest', hitem, rfl⟩
      · obtain ⟨⟨vs', _⟩, -, heq⟩ := Option.bind_eq_some_iff.mp h
        cases heq
        exact ⟨v, vs', rest', hitem, rfl⟩

theorem asString_cons {v : Value} {vs : List Value} {k : List Char} {ks : List (List Char)}
    (h : (v :: vs).mapM Value.asString = some (k :: ks)) :
    v.asString = some k ∧ vs.mapM Value.asString = some ks := by
  simp only [List.mapM_cons, Option.bind_eq_bind, Option.bind_eq_some_iff, Option.pure_def,
    Option.some.injEq, List.cons.injEq] at h
  obtain ⟨_, hv, _, hvs, rfl, rfl⟩ := h
  exact ⟨hv, hvs⟩

theorem asString_map (ks : List (List Char)) :
    (ks.map Value.str).mapM Value.asString = some ks := by
  induction ks with
  | nil => rfl
  | cons k ks ih =>
    rw [List.map_cons, List.mapM_cons, ih]
    rfl

/-- Elements that are read as written have nothing to escape. -/
theorem plain_of_separated {depth : ℕ} : ∀ {ks : List (List Char)} {k : List Char} {fuel : ℕ}
    {vs : List Value} {rest : List Char},
    separated (value (depth + 1)) ']' fuel (quoted k ++ closing ks) = some (vs, rest) →
      vs.mapM Value.asString = some (k :: ks) → ∀ k' ∈ k :: ks, ∀ c ∈ k', Plain c
  | _, _, 0, _, _, h, _ => by cases h
  | ks, k, fuel + 1, vs, rest, h, hvs => by
    have hstring : ∃ rest', string (k ++ quote :: closing ks) = some (k, rest') := by
      obtain ⟨v, vs', rest', hv, rfl⟩ := separated_head h
      rw [value_quoted] at hv
      obtain ⟨⟨s, _⟩, hs, heq⟩ := Option.map_eq_some_iff.mp hv
      cases heq
      obtain ⟨hk, -⟩ := asString_cons hvs
      cases hk
      exact ⟨_, hs⟩
    obtain ⟨rest', hstring⟩ := hstring
    obtain ⟨hk, rfl⟩ := stringBody_self hstring
    rw [separated_turn hstring] at h
    cases ks with
    | nil => simpa using hk
    | cons k' ks' =>
      obtain ⟨⟨vs', rest''⟩, hrec, heq⟩ := Option.map_eq_some_iff.mp h
      cases heq
      exact List.forall_mem_cons.mpr ⟨hk, plain_of_separated hrec (asString_cons hvs).2⟩

theorem parse_written_cons (k : List Char) (ks : List (List Char)) :
    parse (written (k :: ks)) =
      (separated (value ((quoted k ++ closing ks).length + 1)) ']'
        ((quoted k ++ closing ks).length + 1) (quoted k ++ closing ks)).bind
        (fun r => if skipSpace r.2 = [] then some (.arr r.1) else none) := by
  have hbracket : isSpace '[' = false := by decide
  have hopen : enclosed (value ((quoted k ++ closing ks).length + 1)) ']'
      (quoted k ++ closing ks) = separated (value ((quoted k ++ closing ks).length + 1)) ']'
        ((quoted k ++ closing ks).length + 1) (quoted k ++ closing ks) := by
    have hquote : isSpace quote = false := by decide
    unfold enclosed
    rw [if_neg]
    rw [quoted_append, skipSpace_of_not hquote, List.head?_cons]
    decide
  rw [parse, written, List.length_cons, value, skipSpace_of_not hbracket]
  simp only [if_true]
  rw [if_neg (by decide), hopen]
  cases separated _ _ _ _ <;> rfl

/-- **Arrays of strings written as they are** read back as written exactly when no string has
anything to escape. -/
theorem parse_written (ks : List (List Char)) :
    (parse (written ks)).bind Value.asStrings = some ks ↔ ∀ k ∈ ks, ∀ c ∈ k, Plain c := by
  cases ks with
  | nil =>
    have hread : (parse (written [])).bind Value.asStrings = some [] := by decide
    exact iff_of_true hread (by simp)
  | cons k ks =>
    rw [parse_written_cons]
    constructor
    · intro h
      obtain ⟨v, hparse, hstrings⟩ := Option.bind_eq_some_iff.mp h
      obtain ⟨⟨vs, rest⟩, hsep, hv⟩ := Option.bind_eq_some_iff.mp hparse
      split_ifs at hv
      cases hv
      exact plain_of_separated hsep hstrings
    · intro h
      obtain ⟨hk, hks⟩ := List.forall_mem_cons.mp h
      have hfuel : ks.length < (quoted k ++ closing ks).length + 1 := by
        have := length_le_closing ks
        rw [List.length_append]
        omega
      rw [separated_plain _ ks k hfuel hk hks]
      exact asString_map (k :: ks)

end VDexNode.JsonText
