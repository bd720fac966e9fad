import Mathlib.Data.List.TakeDrop
import Mathlib.Tactic.SplitIfs
import TrieLexer.Json.Decoding
import TrieLexer.Json.Value

/-!
# Reading what was written

The text of a JSON value is read as the document of that value, whatever stands behind it. Between
the parts of a value there may be blanks.

## Main definitions

* `Value.document` — the document of a value.
* `Value.Spells` — a text of a value, with blanks between its parts.

## Main results

* `readString_render`, `readNumber_render` — strings and whole numbers are read back.
* `Value.spells_renderChars` — the text of a value without blanks is one of its texts.
* `Document.readValue_of_spells` — the text of a value is read as its document.
* `Decoder.decode_of_spells` — so a decoder is given the document of the value.
-/

namespace TrieLexer.Json

open Document (isBlank skipBlank)

/-! ### Strings -/

/-- The piece that a character in writing is read as. -/
def pieceOf (c : Char) : Piece :=
  if c.toNat < 32 ∧ c ∉ ['\x08', '\x0c', '\n', '\r', '\t'] then .unit c.toNat else .char c

theorem hexQuad?_digitChar {n : Nat} (h : n < 32) :
    hexQuad? '0' '0' (Nat.digitChar (n / 16)) (Nat.digitChar (n % 16)) = some n := by
  have hzero : Text.hexValue? '0' = some 0 := rfl
  rw [hexQuad?, hzero, Text.hexValue?_digitChar _ (by omega), Text.hexValue?_digitChar _ (by omega)]
  simp only [Option.bind_eq_bind, Option.bind_some, Option.pure_def, Option.some.injEq]
  omega

theorem scanString_escapedChar (c : Char) (cs : List Char) :
    scanString (Value.escapedChar c ++ cs) =
      (pieceOf c :: (scanString cs).1, (scanString cs).2) := by
  unfold Value.escapedChar
  split_ifs with hquote hslash hb hf hn hr ht hcontrol
  · subst hquote; rfl
  · subst hslash; rfl
  · subst hb; rfl
  · subst hf; rfl
  · subst hn; rfl
  · subst hr; rfl
  · subst ht; rfl
  · have hpiece : pieceOf c = .unit c.toNat := if_pos ⟨hcontrol, by simp_all⟩
    simp only [List.cons_append, List.nil_append, scanString, hexQuad?_digitChar hcontrol, hpiece]
  · have hpiece : pieceOf c = .char c := if_neg fun h => hcontrol h.1
    rw [List.cons_append, List.nil_append, scanString.eq_def, hpiece]
    split <;> simp_all

/-- The pieces of a string in writing stand for the string. -/
theorem assemble_pieceOf (s : List Char) : assemble none (s.map pieceOf) = .ok s := by
  induction s with
  | nil => rfl
  | cons c s ih =>
    rw [List.map_cons, pieceOf]
    split_ifs with h
    · have htrailing : isTrailing c.toNat = false := by simp [isTrailing]; omega
      have hleading : isLeading c.toNat = false := by simp [isLeading]; omega
      rw [assemble.eq_def]
      simp [htrailing, hleading, ih, Except.map]
    · rw [assemble, ih]
      rfl

theorem scanString_render (s rest : List Char) :
    scanString (s.flatMap Value.escapedChar ++ '"' :: rest) = (s.map pieceOf, .ok rest) := by
  induction s with
  | nil => rfl
  | cons c s ih =>
    rw [List.flatMap_cons, List.append_assoc, scanString_escapedChar, ih]
    rfl

/-- A string in writing is read back. -/
theorem readString_render (s : String) (rest : List Char) :
    readString (s.toList.flatMap Value.escapedChar ++ '"' :: rest) = .item (.ok s) rest := by
  rw [readString, scanString_render]
  simp [assemble_pieceOf, Except.map]

/-! ### Whole numbers -/

/-- What may follow a value: a blank, a comma, a closing bracket, or nothing. -/
def Stops (rest : List Char) : Prop :=
  ∀ c ∈ rest.head?, isBlank c = true ∨ c ∈ [',', ']', '}']

theorem Stops.not_mem {rest : List Char} (h : Stops rest) {c : Char} (hc : c ∈ rest.head?) :
    c.isDigit = false ∧ c ≠ '.' ∧ c ≠ 'e' ∧ c ≠ 'E' := by
  have hcases := h c hc
  simp only [isBlank, Bool.or_eq_true, beq_iff_eq, List.mem_cons, List.not_mem_nil, or_false]
    at hcases
  rcases hcases with (((rfl | rfl) | rfl) | rfl) | rfl | rfl | rfl <;> decide

/-- Digits are taken up to the first character that is none. -/
theorem span_digits {digits rest : List Char} (hdigits : ∀ c ∈ digits, c.isDigit = true)
    (hrest : Stops rest) : (digits ++ rest).span Char.isDigit = (digits, rest) := by
  have htake : rest.takeWhile Char.isDigit = [] ∧ rest.dropWhile Char.isDigit = rest := by
    cases rest with
    | nil => exact ⟨rfl, rfl⟩
    | cons c rest => simp [(hrest.not_mem (c := c) rfl).1]
  rw [List.span_eq_takeWhile_dropWhile, List.takeWhile_append_of_pos hdigits,
    List.dropWhile_append_of_pos hdigits, htake.1, htake.2, List.append_nil]

theorem le_ofDigitChars (n : Nat) (digits : List Char) : n ≤ Nat.ofDigitChars 10 digits n := by
  induction digits generalizing n with
  | nil => exact Nat.le_refl n
  | cons c digits ih =>
    rw [Nat.ofDigitChars_cons]
    exact Nat.le_trans (by omega) (ih _)

/-- Digits are absorbed as long as their value fits. -/
theorem absorbDigits_eq {digits : List Char} {n : Nat}
    (h : Nat.ofDigitChars 10 digits n < UInt64.size) :
    absorbDigits n digits = (Nat.ofDigitChars 10 digits n, 0) := by
  induction digits generalizing n with
  | nil => rfl
  | cons c digits ih =>
    rw [Nat.ofDigitChars_cons] at h ⊢
    rw [absorbDigits]
    have hfits : 10 * n + digitValue c < UInt64.size := Nat.lt_of_le_of_lt (le_ofDigitChars _ _) h
    rw [if_pos hfits]
    exact ih h

/-- Only zero begins with a zero. -/
theorem eq_zero_of_head?_toDigits {n : Nat} (h : (Nat.toDigits 10 n).head? = some '0') : n = 0 := by
  induction n using Nat.strongRecOn with
  | ind n ih =>
    rcases Nat.lt_or_ge n 10 with hn | hn
    · rw [Nat.toDigits_of_lt_base hn, List.head?_cons, Option.some.injEq] at h
      have hdigit := Nat.toNat_digitChar_of_lt_ten hn
      rw [h] at hdigit
      have hzero : '0'.toNat = 48 := rfl
      omega
    · obtain ⟨d, digits, hd⟩ :=
        List.exists_cons_of_ne_nil (Nat.toDigits_ne_nil (n := n / 10) (b := 10))
      rw [Nat.toDigits_of_base_le (by decide) hn, hd] at h
      have := ih (n / 10) (by omega) (by rwa [hd])
      omega

/-- The number that the digits of a whole number are read as. -/
def numberOf (n : Nat) : Except Flaw Number :=
  NumberText.value ⟨false, Nat.toDigits 10 n, none, none⟩

theorem numberOf_eq {n : Nat} (h : n < UInt64.size) : numberOf n = .ok (.natural n) := by
  have hdigits : Nat.ofDigitChars 10 (Nat.toDigits 10 n) 0 = n :=
    Nat.ofDigitChars_toDigits (by decide) (Nat.le_refl _)
  rw [numberOf, NumberText.value, absorbDigits_eq (by rwa [hdigits]), hdigits]
  rfl

theorem readFraction?_of_stops (t : NumberText) {rest : List Char} (hrest : Stops rest) :
    readFraction? t rest = .item t.value rest := by
  cases rest with
  | nil => rfl
  | cons c rest =>
    obtain ⟨-, hpoint, he, hE⟩ := hrest.not_mem (c := c) rfl
    rw [readFraction?.eq_def]
    split
    · simp_all
    · rw [readExponent?.eq_def]
      split <;> simp_all

/-- A whole number is read back. -/
theorem readNumber_render (n : Nat) {rest : List Char} (hrest : Stops rest) :
    readNumber (Nat.toDigits 10 n ++ rest) = .item (numberOf n) rest := by
  have hdigits : ∀ c ∈ Nat.toDigits 10 n, c.isDigit = true := fun c hc =>
    Nat.isDigit_of_mem_toDigits (by decide) (Nat.le_refl _) hc
  have hspan := span_digits hdigits hrest
  cases hd : Nat.toDigits 10 n with
  | nil => exact absurd hd Nat.toDigits_ne_nil
  | cons d digits =>
    rw [hd] at hspan hdigits
    have hfirst : d.isDigit = true := hdigits d (List.mem_cons_self ..)
    have hminus : d ≠ '-' := by rintro rfl; exact absurd hfirst (by decide)
    have hread : readNumber (d :: digits ++ rest) = readWhole false (d :: digits ++ rest) := by
      rw [readNumber.eq_def]
      split <;> simp_all
    rw [hread, numberOf, hd]
    by_cases hzero : d = '0'
    · subst hzero
      obtain rfl : n = 0 := eq_zero_of_head?_toDigits (by rw [hd]; rfl)
      obtain rfl : digits = [] := by simpa using hd.symm
      have hhead : rest.head?.any Char.isDigit = false := by
        cases rest with
        | nil => rfl
        | cons c rest => simp [(hrest.not_mem (c := c) rfl).1]
      rw [List.singleton_append, readWhole, hhead]
      exact readFraction?_of_stops _ hrest
    · rw [readWhole.eq_def]
      split
      · simp_all
      · rw [hspan]
        exact readFraction?_of_stops _ hrest

/-! ### Values -/

namespace Value

mutual

/-- The document of a value. -/
def document : Value → Document
  | null => .null
  | boolean b => .boolean b
  | number n => .number (numberOf n)
  | string s => .string (.ok s)
  | array items => .array (documents items) none
  | object fields => .object (entries fields) none

/-- The documents of the items of an array. -/
def documents : List Value → List Document
  | [] => []
  | v :: vs => v.document :: documents vs

/-- The entries of the fields of an object. -/
def entries : List (String × Value) → List (Entry Document)
  | [] => []
  | f :: fs => entry f :: entries fs

/-- The entry of a field. -/
def entry : String × Value → Entry Document
  | (key, v) => .field (.ok key) v.document

end

/-- A text of nothing but blanks. -/
def Blanks (text : List Char) : Prop := ∀ c ∈ text, isBlank c = true

/-- Some text with blanks around it. -/
def Padded (spells : List Char → Prop) (text : List Char) : Prop :=
  ∃ before inner after, Blanks before ∧ spells inner ∧ Blanks after ∧
    text = before ++ inner ++ after

theorem padded_of_spells {spells : List Char → Prop} {text : List Char} (h : spells text) :
    Padded spells text := ⟨[], text, [], nofun, h, nofun, by simp⟩

mutual

/-- A text of a value. Between the parts of arrays and objects there may be blanks. -/
def Spells : Value → List Char → Prop
  | array items, text => ∃ inner, SpellsItems items inner ∧ text = '[' :: inner ++ [']']
  | object fields, text => ∃ inner, SpellsFields fields inner ∧ text = '{' :: inner ++ ['}']
  | v, text => text = v.renderChars

/-- A text of the items of an array. -/
def SpellsItems : List Value → List Char → Prop
  | [], text => Blanks text
  | [v], text => Padded v.Spells text
  | v :: w :: vs, text => ∃ first rest, Padded v.Spells first ∧ SpellsItems (w :: vs) rest ∧
      text = first ++ ',' :: rest

/-- A text of the fields of an object. -/
def SpellsFields : List (String × Value) → List Char → Prop
  | [], text => Blanks text
  | [f], text => Padded (SpellsField f) text
  | f :: g :: fs, text => ∃ first rest, Padded (SpellsField f) first ∧
      SpellsFields (g :: fs) rest ∧ text = first ++ ',' :: rest

/-- A text of a field. -/
def SpellsField : String × Value → List Char → Prop
  | (key, v), text => ∃ before after inner, Blanks before ∧ Blanks after ∧ v.Spells inner ∧
      text = renderString key ++ (before ++ ':' :: (after ++ inner))

end

mutual

/-- The text of a value without blanks is a text of the value. -/
theorem spells_renderChars : ∀ v : Value, v.Spells v.renderChars
  | null => rfl
  | boolean _ => rfl
  | number _ => rfl
  | string _ => rfl
  | array items => ⟨_, spellsItems_renderItems items, rfl⟩
  | object fields => ⟨_, spellsFields_renderFields fields, rfl⟩

theorem spellsItems_renderItems : ∀ vs : List Value, SpellsItems vs (renderItems vs)
  | [] => nofun
  | [v] => padded_of_spells (spells_renderChars v)
  | v :: w :: vs =>
    ⟨_, _, padded_of_spells (spells_renderChars v), spellsItems_renderItems (w :: vs), rfl⟩

theorem spellsFields_renderFields :
    ∀ fs : List (String × Value), SpellsFields fs (renderFields fs)
  | [] => nofun
  | [f] => padded_of_spells (spellsField_renderField f)
  | f :: g :: fs =>
    ⟨_, _, padded_of_spells (spellsField_renderField f), spellsFields_renderFields (g :: fs), rfl⟩

theorem spellsField_renderField : ∀ f : String × Value, SpellsField f (renderField f)
  | (_, v) => ⟨[], [], _, nofun, nofun, spells_renderChars v, rfl⟩

end

/-- A text of a value begins with a character that is no blank and no closing bracket. -/
theorem Spells.exists_head {v : Value} {text : List Char} (h : v.Spells text) :
    ∃ c cs, text = c :: cs ∧ isBlank c = false ∧ c ≠ ']' := by
  cases v with
  | null => exact ⟨_, _, h, rfl, by decide⟩
  | boolean b => cases b <;> exact ⟨_, _, h, rfl, by decide⟩
  | number n =>
    have h : text = Nat.toDigits 10 n := h
    obtain ⟨d, digits, hd⟩ := List.exists_cons_of_ne_nil (Nat.toDigits_ne_nil (n := n) (b := 10))
    have hdigit : d.isDigit = true :=
      Nat.isDigit_of_mem_toDigits (by decide) (Nat.le_refl _) (hd ▸ List.mem_cons_self ..)
    refine ⟨d, digits, h.trans hd, ?_, by rintro rfl; exact absurd hdigit (by decide)⟩
    rw [Bool.eq_false_iff]
    intro hblank
    simp only [isBlank, Bool.or_eq_true, beq_iff_eq] at hblank
    rcases hblank with ((rfl | rfl) | rfl) | rfl <;> exact absurd hdigit (by decide)
  | string s => exact ⟨_, _, h, rfl, by decide⟩
  | array items =>
    obtain ⟨inner, -, rfl⟩ := h
    exact ⟨_, _, rfl, rfl, by decide⟩
  | object fields =>
    obtain ⟨inner, -, rfl⟩ := h
    exact ⟨_, _, rfl, rfl, by decide⟩

end Value

namespace Document

open Value (Blanks Padded Spells SpellsItems SpellsFields SpellsField renderString)

variable {blanks cs : List Char}

theorem skipBlank_append (h : Blanks blanks) (cs : List Char) :
    skipBlank (blanks ++ cs) = skipBlank cs := List.dropWhile_append_of_pos h

theorem skipBlank_cons {c : Char} (h : isBlank c = false) (cs : List Char) :
    skipBlank (c :: cs) = c :: cs := by
  rw [skipBlank, List.dropWhile_cons, h]
  rfl

theorem skipBlank_skipBlank (cs : List Char) : skipBlank (skipBlank cs) = skipBlank cs := by
  induction cs with
  | nil => rfl
  | cons c cs ih =>
    cases h : isBlank c with
    | true =>
      rwa [show skipBlank (c :: cs) = skipBlank cs by rw [skipBlank, List.dropWhile_cons, h]; rfl]
    | false => rw [skipBlank_cons h, skipBlank_cons h]

/-- A value is looked for behind blanks. -/
theorem readValue_congr {cs ds : List Char} (h : skipBlank cs = skipBlank ds) (fuel : Nat) :
    readValue fuel cs = readValue fuel ds := by
  cases fuel with
  | zero => rfl
  | succ fuel => rw [readValue, readValue, h]

theorem readItems_congr {cs ds : List Char} (h : skipBlank cs = skipBlank ds) (fuel : Nat) :
    readItems fuel cs = readItems fuel ds := by
  cases fuel with
  | zero => rfl
  | succ fuel => rw [readItems, readItems, readValue_congr h]

theorem readEntries_congr {cs ds : List Char} (h : skipBlank cs = skipBlank ds) (fuel : Nat) :
    readEntries fuel cs = readEntries fuel ds := by
  cases fuel with
  | zero => rfl
  | succ fuel =>
    cases fuel with
    | zero => rfl
    | succ fuel => rw [readEntries, readEntries, readEntry, readEntry, h]

theorem continuation_comma (h : Blanks blanks) (close : Char) (rest : List Char) :
    continuation close (blanks ++ ',' :: rest) = .more rest := by
  rw [continuation, skipBlank_append h, skipBlank_cons rfl]
  rfl

theorem continuation_close (h : Blanks blanks) {close : Char} (hblank : isBlank close = false)
    (hcomma : close ≠ ',') (rest : List Char) :
    continuation close (blanks ++ close :: rest) = .done rest := by
  rw [continuation, skipBlank_append h, skipBlank_cons hblank]
  simp [hcomma]

theorem stops_of_blanks (h : Blanks blanks) {c : Char} (hc : c ∈ [',', ']', '}'])
    (rest : List Char) : Stops (blanks ++ c :: rest) := by
  intro d hd
  cases blanks with
  | nil =>
    cases hd
    exact .inr hc
  | cons b blanks =>
    cases hd
    exact .inl (h d (List.mem_cons_self ..))

/-- The text of an array or object goes on behind its opening bracket. -/
theorem skipBlank_items {v : Value} {vs : List Value} {text : List Char}
    (h : SpellsItems (v :: vs) text) (rest : List Char) :
    ∃ c cs, skipBlank (text ++ rest) = c :: cs ∧ c ≠ ']' := by
  obtain ⟨first, more, ⟨before, inner, after, hbefore, hv, -, rfl⟩, rfl⟩ :
      ∃ first more, Padded v.Spells first ∧ text = first ++ more := by
    cases vs with
    | nil => exact ⟨text, [], h, (List.append_nil _).symm⟩
    | cons w vs =>
      obtain ⟨first, more, hfirst, -, rfl⟩ := h
      exact ⟨first, ',' :: more, hfirst, rfl⟩
  obtain ⟨c, cs, rfl, hblank, hclose⟩ := hv.exists_head
  refine ⟨c, cs ++ (after ++ (more ++ rest)), ?_, hclose⟩
  simp only [List.append_assoc, List.cons_append]
  rw [skipBlank_append hbefore, skipBlank_cons hblank]

theorem skipBlank_fields {f : String × Value} {fs : List (String × Value)} {text : List Char}
    (h : SpellsFields (f :: fs) text) (rest : List Char) :
    ∃ cs, skipBlank (text ++ rest) = '"' :: cs := by
  obtain ⟨first, more, ⟨before, inner, after, hbefore, hf, -, rfl⟩, rfl⟩ :
      ∃ first more, Padded (SpellsField f) first ∧ text = first ++ more := by
    cases fs with
    | nil => exact ⟨text, [], h, (List.append_nil _).symm⟩
    | cons g fs =>
      obtain ⟨first, more, hfirst, -, rfl⟩ := h
      exact ⟨first, ',' :: more, hfirst, rfl⟩
  obtain ⟨key, v⟩ := f
  obtain ⟨gap, gap', value, -, -, -, rfl⟩ := hf
  simp only [List.append_assoc, List.cons_append, renderString]
  rw [skipBlank_append hbefore, skipBlank_cons rfl]
  exact ⟨_, rfl⟩

theorem readValue_string (s : String) (rest : List Char) (fuel : Nat) :
    readValue (fuel + 1) (renderString s ++ rest) = (string (.ok s), some rest) := by
  simp only [renderString, List.cons_append, List.append_assoc, List.nil_append]
  rw [readValue, skipBlank_cons rfl]
  simp only [readString_render, ofFront]

theorem readValue_number (n : Nat) {rest : List Char} (hrest : Stops rest) (fuel : Nat) :
    readValue (fuel + 1) (Nat.toDigits 10 n ++ rest) = (number (numberOf n), some rest) := by
  obtain ⟨d, digits, hd⟩ := List.exists_cons_of_ne_nil (Nat.toDigits_ne_nil (n := n) (b := 10))
  have hdigit : d.isDigit = true :=
    Nat.isDigit_of_mem_toDigits (by decide) (Nat.le_refl _) (hd ▸ List.mem_cons_self ..)
  have hblank : isBlank d = false := by
    have hspells : Spells (.number n) (d :: digits) := hd.symm
    obtain ⟨c, cs, hc, hblank, -⟩ := hspells.exists_head
    cases hc
    exact hblank
  have hread := readNumber_render n hrest
  rw [hd, List.cons_append] at hread ⊢
  rw [readValue, skipBlank_cons hblank]
  split
  case h_8 c cs _ _ _ _ _ _ heq =>
    cases heq
    rw [hdigit, Bool.or_true, if_pos rfl, hread]
    rfl
  all_goals simp_all

/-- There is fuel for a value. -/
theorem fuel_of_spells {v : Value} {text inner : List Char} {fuel : Nat} (h : v.Spells inner)
    (hfuel : 2 * text.length ≤ fuel) (hle : inner.length ≤ text.length) :
    ∃ k, fuel = k + 2 := by
  obtain ⟨c, cs, rfl, -⟩ := h.exists_head
  rw [List.length_cons] at hle
  exact ⟨fuel - 2, by omega⟩

theorem fuel_of_spellsField {f : String × Value} {text inner : List Char} {fuel : Nat}
    (h : SpellsField f inner) (hfuel : 2 * text.length ≤ fuel)
    (hle : inner.length ≤ text.length) : ∃ k, fuel = k + 2 := by
  obtain ⟨key, v⟩ := f
  obtain ⟨gap, gap', value, -, -, -, rfl⟩ := h
  simp only [renderString, List.length_append, List.length_cons] at hle
  exact ⟨fuel - 2, by omega⟩

mutual

/-- The text of a value is read as its document, whatever stands behind it. -/
theorem readValue_of_spells : ∀ (v : Value) (rest : List Char) (fuel : Nat) {text : List Char},
    v.Spells text → Stops rest → 2 * text.length ≤ fuel + 2 →
    readValue (fuel + 1) (text ++ rest) = (v.document, some rest)
  | .null, _, _, _, rfl, _, _ => rfl
  | .boolean true, _, _, _, rfl, _, _ => rfl
  | .boolean false, _, _, _, rfl, _, _ => rfl
  | .number n, _, fuel, _, rfl, hrest, _ => readValue_number n hrest fuel
  | .string s, rest, fuel, _, rfl, _, _ => readValue_string s rest fuel
  | .array [], rest, fuel, _, ⟨inner, hinner, rfl⟩, _, _ => by
    have hinner : Blanks inner := hinner
    simp only [List.cons_append, List.append_assoc, List.nil_append]
    rw [readValue, skipBlank_cons rfl]
    simp only [skipBlank_append hinner, skipBlank_cons (show isBlank ']' = false from rfl)]
    rfl
  | .array (v :: vs), rest, fuel, _, ⟨inner, hinner, rfl⟩, _, hfuel => by
    obtain ⟨c, cs, hskip, hc⟩ := skipBlank_items hinner (']' :: rest)
    have hitems := readItems_of_spells (v :: vs) rest fuel (List.cons_ne_nil _ _) hinner
      (by simp at hfuel; omega)
    simp only [List.cons_append, List.append_assoc, List.nil_append]
    rw [readValue, skipBlank_cons rfl]
    have hsame : skipBlank (inner ++ ']' :: rest) = skipBlank (c :: cs) := by
      rw [← hskip, skipBlank_skipBlank]
    rw [readItems_congr hsame] at hitems
    simp only [hskip]
    split
    · simp_all
    · simp_all
    · rw [hitems]
      rfl
  | .object [], rest, fuel, _, ⟨inner, hinner, rfl⟩, _, _ => by
    have hinner : Blanks inner := hinner
    simp only [List.cons_append, List.append_assoc, List.nil_append]
    rw [readValue, skipBlank_cons rfl]
    simp only [skipBlank_append hinner, skipBlank_cons (show isBlank '}' = false from rfl)]
    rfl
  | .object (f :: fs), rest, fuel, _, ⟨inner, hinner, rfl⟩, _, hfuel => by
    obtain ⟨cs, hskip⟩ := skipBlank_fields hinner ('}' :: rest)
    have hentries := readEntries_of_spells (f :: fs) rest fuel (List.cons_ne_nil _ _) hinner
      (by simp at hfuel; omega)
    simp only [List.cons_append, List.append_assoc, List.nil_append]
    rw [readValue, skipBlank_cons rfl]
    have hsame : skipBlank (inner ++ '}' :: rest) = skipBlank ('"' :: cs) := by
      rw [← hskip, skipBlank_skipBlank]
    rw [readEntries_congr hsame] at hentries
    simp only [hskip]
    split
    · simp_all
    · simp_all
    · rw [hentries]
      rfl

/-- The text of items is read as their documents. -/
theorem readItems_of_spells :
    ∀ (vs : List Value) (rest : List Char) (fuel : Nat) {text : List Char},
      vs ≠ [] → SpellsItems vs text → 2 * text.length ≤ fuel →
    readItems fuel (text ++ ']' :: rest) = (Value.documents vs, none, some rest)
  | [], _, _, _, h, _, _ => absurd rfl h
  | [v], rest, fuel, _, _, ⟨before, inner, after, hbefore, hv, hafter, rfl⟩, hfuel => by
    obtain ⟨fuel, rfl⟩ := fuel_of_spells hv hfuel (by simp; omega)
    have hvalue := readValue_of_spells v (after ++ ']' :: rest) fuel hv
      (stops_of_blanks hafter (by simp) rest) (by simp at hfuel; omega)
    rw [List.append_assoc, List.append_assoc, readItems,
      readValue_congr (skipBlank_append hbefore _), hvalue]
    simp only [continuation_close hafter (show isBlank ']' = false from rfl) (by decide)]
    rfl
  | v :: w :: vs, rest, fuel, _, _,
    ⟨_, more, hfirst, hmore, rfl⟩, hfuel => by
    obtain ⟨before, inner, after, hbefore, hv, hafter, rfl⟩ := hfirst
    obtain ⟨fuel, rfl⟩ := fuel_of_spells hv hfuel (by simp; omega)
    have hvalue := readValue_of_spells v (after ++ ',' :: (more ++ ']' :: rest)) fuel hv
      (stops_of_blanks hafter (by simp) _) (by simp at hfuel; omega)
    have hitems := readItems_of_spells (w :: vs) rest (fuel + 1)
      (List.cons_ne_nil _ _) hmore (by simp at hfuel; omega)
    simp only [List.append_assoc, List.cons_append]
    rw [readItems, readValue_congr (skipBlank_append hbefore _), hvalue]
    simp only [continuation_comma hafter, hitems]
    rfl

/-- The text of fields is read as their entries. -/
theorem readEntries_of_spells : ∀ (fs : List (String × Value)) (rest : List Char) (fuel : Nat)
    {text : List Char}, fs ≠ [] → SpellsFields fs text → 2 * text.length ≤ fuel →
    readEntries fuel (text ++ '}' :: rest) = (Value.entries fs, none, some rest)
  | [], _, _, _, h, _, _ => absurd rfl h
  | [f], rest, fuel, _, _, ⟨before, inner, after, hbefore, hf, hafter, rfl⟩, hfuel => by
    obtain ⟨fuel, rfl⟩ := fuel_of_spellsField hf hfuel (by simp; omega)
    have hentry := readEntry_of_spells f (after ++ '}' :: rest) fuel hf
      (stops_of_blanks hafter (by simp) rest) (by simp at hfuel; omega)
    rw [List.append_assoc, List.append_assoc, readEntries_congr (skipBlank_append hbefore _),
      readEntries, hentry]
    simp only [continuation_close hafter (show isBlank '}' = false from rfl) (by decide)]
    rfl
  | f :: g :: fs, rest, fuel, _, _,
    ⟨_, more, hfirst, hmore, rfl⟩, hfuel => by
    obtain ⟨before, inner, after, hbefore, hf, hafter, rfl⟩ := hfirst
    obtain ⟨fuel, rfl⟩ := fuel_of_spellsField hf hfuel (by simp; omega)
    have hentry := readEntry_of_spells f (after ++ ',' :: (more ++ '}' :: rest)) fuel hf
      (stops_of_blanks hafter (by simp) _) (by simp at hfuel; omega)
    have hentries := readEntries_of_spells (g :: fs) rest (fuel + 1)
      (List.cons_ne_nil _ _) hmore (by simp at hfuel; omega)
    simp only [List.append_assoc, List.cons_append]
    rw [readEntries_congr (skipBlank_append hbefore _), readEntries, hentry]
    simp only [continuation_comma hafter, hentries]
    rfl

/-- The text of a field is read as its entry. -/
theorem readEntry_of_spells : ∀ (f : String × Value) (rest : List Char) (fuel : Nat)
    {text : List Char}, SpellsField f text → Stops rest → 2 * text.length ≤ fuel + 2 →
    readEntry (fuel + 1) (text ++ rest) = (Value.entry f, some rest)
  | (key, v), rest, fuel, _, ⟨before, after, inner, hbefore, hafter, hv, rfl⟩, hrest, hfuel => by
    obtain ⟨k, rfl⟩ : ∃ k, fuel = k + 1 := by
      refine ⟨fuel - 1, ?_⟩
      simp [renderString] at hfuel
      omega
    have hvalue := readValue_of_spells v rest k hv hrest (by
      simp [renderString] at hfuel
      omega)
    simp only [renderString, List.cons_append, List.append_assoc, List.nil_append]
    rw [readEntry, skipBlank_cons rfl]
    simp only [readString_render]
    rw [skipBlank_append hbefore, skipBlank_cons rfl]
    simp only [readValue_congr (skipBlank_append hafter _), hvalue]
    rfl

end

end Document

/-- A decoder is given the document of the value that a text spells. -/
theorem Decoder.decode_of_spells {α : Type} (decoder : Decoder α) {v : Value} {text : String}
    (h : Value.Padded v.Spells text.toList) : decode decoder text = decoder v.document := by
  obtain ⟨before, inner, after, hbefore, hv, hafter, htext⟩ := h
  have hstops : Stops after := fun c hc => .inl (hafter c (List.mem_of_mem_head? hc))
  have hread : Document.ofText text = (v.document, some after) := by
    simp only [Document.ofText, htext, List.append_assoc]
    rw [Document.readValue_congr (Document.skipBlank_append hbefore _)]
    exact Document.readValue_of_spells v after _ hv hstops (by simp; omega)
  have hblank : skipBlank after = [] := by
    have := Document.skipBlank_append hafter []
    rwa [List.append_nil] at this
  simp only [decode, hread, hblank]
  cases decoder v.document <;> rfl

end TrieLexer.Json
