/-!
# Byte lengths of text

Positions and lengths are counted in UTF-8 bytes, while text is handled as a list of characters.
This module measures a list of characters in bytes and cuts it at a byte count. A cut exists only
between two characters, so `splitBytes?` is partial: it refuses a count that falls inside a
character or beyond the end.

## Main definitions

* `byteLength` — the number of bytes of a text.
* `splitBytes?` — the cut after exactly so many bytes.
* `frontWithin` — the longest front that has at most so many bytes.

## Main results

* `splitBytes?_eq_some_iff` — a cut is found exactly where the text has a front of that length.
-/

namespace TrieLexer.Text

/-- The number of bytes that a text takes in UTF-8. -/
def byteLength : List Char → Nat
  | [] => 0
  | c :: cs => c.utf8Size + byteLength cs

@[simp] theorem byteLength_nil : byteLength [] = 0 := rfl

@[simp] theorem byteLength_cons (c : Char) (cs : List Char) :
    byteLength (c :: cs) = c.utf8Size + byteLength cs := rfl

@[simp] theorem byteLength_append (a b : List Char) :
    byteLength (a ++ b) = byteLength a + byteLength b := by
  induction a with
  | nil => simp
  | cons c a ih => simp [ih, Nat.add_assoc]

@[simp] theorem byteLength_reverse (a : List Char) : byteLength a.reverse = byteLength a := by
  induction a with
  | nil => rfl
  | cons c a ih => simp [ih, Nat.add_comm]

theorem byteLength_eq_zero_iff {a : List Char} : byteLength a = 0 ↔ a = [] := by
  cases a with
  | nil => simp
  | cons c a =>
    have := c.utf8Size_pos
    simp only [byteLength_cons, reduceCtorEq, iff_false]
    omega

theorem byteLength_pos_iff {a : List Char} : 0 < byteLength a ↔ a ≠ [] :=
  Nat.pos_iff_ne_zero.trans (not_congr byteLength_eq_zero_iff)

theorem byteLength_le_of_isPrefix {a b : List Char} (h : a <+: b) :
    byteLength a ≤ byteLength b := by
  obtain ⟨c, rfl⟩ := h
  rw [byteLength_append]
  exact Nat.le_add_right ..

/-- Two fronts of a text with as many bytes are the same. -/
theorem append_inj_of_byteLength {a b a' b' : List Char} (h : a ++ b = a' ++ b')
    (hn : byteLength a = byteLength a') : a = a' ∧ b = b' := by
  obtain ⟨c, rfl, rfl⟩ | ⟨c, rfl, rfl⟩ := List.append_eq_append_iff.1 h
  · obtain rfl : c = [] := byteLength_eq_zero_iff.1 (by rw [byteLength_append] at hn; omega)
    simp
  · obtain rfl : c = [] := byteLength_eq_zero_iff.1 (by rw [byteLength_append] at hn; omega)
    simp

/-- Two ways to cut a text in three are the same if their fronts and their ends are as long. -/
theorem append_append_inj_of_byteLength {a b c a' b' c' : List Char}
    (h : a ++ b ++ c = a' ++ b' ++ c') (ha : byteLength a = byteLength a')
    (hc : byteLength c = byteLength c') : a = a' ∧ b = b' ∧ c = c' := by
  have hlength := congrArg byteLength h
  simp only [byteLength_append] at hlength
  obtain ⟨hfront, rfl⟩ := append_inj_of_byteLength h (by simp only [byteLength_append]; omega)
  obtain ⟨rfl, rfl⟩ := append_inj_of_byteLength hfront ha
  exact ⟨rfl, rfl, rfl⟩

/-- Of two beginnings of a text the shorter one begins the longer one. -/
theorem isPrefix_of_byteLength_le {a b s : List Char} (ha : a <+: s) (hb : b <+: s)
    (h : byteLength a ≤ byteLength b) : a <+: b := by
  rcases List.prefix_or_prefix_of_prefix ha hb with hab | ⟨c, rfl⟩
  · exact hab
  · rw [byteLength_append] at h
    obtain rfl : c = [] := byteLength_eq_zero_iff.1 (by omega)
    simp

/-- Splits off the front that takes exactly `n` bytes, if the text has such a front. -/
def splitBytes? : Nat → List Char → Option (List Char × List Char)
  | 0, cs => some ([], cs)
  | _ + 1, [] => none
  | n + 1, c :: cs =>
    if c.utf8Size ≤ n + 1 then
      (splitBytes? (n + 1 - c.utf8Size) cs).map fun (front, rest) => (c :: front, rest)
    else none

/-- A cut after `n` bytes exists exactly where some front of the text has `n` bytes. -/
theorem splitBytes?_eq_some_iff {n : Nat} {cs a b : List Char} :
    splitBytes? n cs = some (a, b) ↔ cs = a ++ b ∧ byteLength a = n := by
  induction cs generalizing n a b with
  | nil =>
    cases n with
    | zero =>
      simp only [splitBytes?, Option.some.injEq, Prod.mk.injEq, byteLength_eq_zero_iff]
      constructor
      · rintro ⟨rfl, rfl⟩; simp
      · rintro ⟨h, rfl⟩; simp_all
    | succ n => simp only [splitBytes?, reduceCtorEq, false_iff]; rintro ⟨h, hn⟩; simp_all
  | cons c cs ih =>
    cases n with
    | zero =>
      simp only [splitBytes?, Option.some.injEq, Prod.mk.injEq, byteLength_eq_zero_iff]
      constructor
      · rintro ⟨rfl, rfl⟩; simp
      · rintro ⟨h, rfl⟩; simp_all
    | succ n =>
      simp only [splitBytes?]
      split
      · next hle =>
        simp only [Option.map_eq_some_iff, Prod.mk.injEq, Prod.exists]
        constructor
        · rintro ⟨front, rest, h, rfl, rfl⟩
          obtain ⟨rfl, hl⟩ := ih.1 h
          exact ⟨rfl, by simp only [byteLength_cons, hl]; omega⟩
        · rintro ⟨h, hl⟩
          cases a with
          | nil => simp at hl
          | cons d a =>
            obtain ⟨rfl, rfl⟩ := List.cons.inj h
            exact ⟨a, b, ih.2 ⟨rfl, by simp only [byteLength_cons] at hl; omega⟩, rfl, rfl⟩
      · next hlt =>
        simp only [reduceCtorEq, false_iff]
        rintro ⟨h, hl⟩
        cases a with
        | nil => simp at hl
        | cons d a =>
          obtain ⟨rfl, rfl⟩ := List.cons.inj h
          simp only [byteLength_cons] at hl
          omega

/-- A cut behind a front goes on in the rest. -/
theorem splitBytes?_append_right (u s : List Char) (n : Nat) :
    splitBytes? (byteLength u + n) (u ++ s) = (splitBytes? n s).map fun p => (u ++ p.1, p.2) := by
  cases h : splitBytes? n s with
  | some p =>
    obtain ⟨rfl, hn⟩ := splitBytes?_eq_some_iff.1 h
    exact splitBytes?_eq_some_iff.2 ⟨(List.append_assoc ..).symm, by rw [byteLength_append, hn]⟩
  | none =>
    rw [Option.map_none, Option.eq_none_iff_forall_ne_some]
    rintro ⟨a, b⟩ hab
    obtain ⟨h₁, h₂⟩ := splitBytes?_eq_some_iff.1 hab
    obtain ⟨c, rfl, rfl⟩ | ⟨c, rfl, rfl⟩ := List.append_eq_append_iff.1 h₁
    · have hc : splitBytes? n (c ++ b) = some (c, b) :=
        splitBytes?_eq_some_iff.2 ⟨rfl, by rw [byteLength_append] at h₂; omega⟩
      rw [h] at hc
      cases hc
    · have hn : n = 0 := by rw [byteLength_append] at h₂; omega
      rw [hn] at h
      cases s <;> cases h

/-- A cut within a front does not see what follows the front. -/
theorem splitBytes?_append_left {s : List Char} {n : Nat} (h : n ≤ byteLength s) (v : List Char) :
    splitBytes? n (s ++ v) = (splitBytes? n s).map fun p => (p.1, p.2 ++ v) := by
  induction s generalizing n with
  | nil =>
    obtain rfl : n = 0 := by simpa using h
    cases v <;> rfl
  | cons c s ih =>
    cases n with
    | zero => rfl
    | succ n =>
      simp only [List.cons_append, splitBytes?]
      split
      · rw [ih (by rw [byteLength_cons] at h; omega), Option.map_map, Option.map_map]
        rfl
      · rfl

/-! ### Fronts -/

/-- The longest front of a text that takes at most `n` bytes. -/
def frontWithin : Nat → List Char → List Char
  | _, [] => []
  | n, c :: cs => if c.utf8Size ≤ n then c :: frontWithin (n - c.utf8Size) cs else []

theorem frontWithin_isPrefix (n : Nat) (s : List Char) : frontWithin n s <+: s := by
  induction s generalizing n with
  | nil => exact List.nil_prefix
  | cons c s ih =>
    rw [frontWithin]
    split
    · exact List.cons_prefix_cons.2 ⟨rfl, ih _⟩
    · exact List.nil_prefix

theorem byteLength_frontWithin_le (n : Nat) (s : List Char) : byteLength (frontWithin n s) ≤ n := by
  induction s generalizing n with
  | nil => exact Nat.zero_le n
  | cons c s ih =>
    rw [frontWithin]
    split
    · have := ih (n - c.utf8Size)
      rw [byteLength_cons]
      omega
    · exact Nat.zero_le n

/-- No longer front fits. -/
theorem isPrefix_frontWithin {a s : List Char} (h : a <+: s) {n : Nat} (hn : byteLength a ≤ n) :
    a <+: frontWithin n s := by
  induction s generalizing a n with
  | nil => rwa [frontWithin]
  | cons c s ih =>
    cases a with
    | nil => exact List.nil_prefix
    | cons d a =>
      obtain ⟨rfl, ha⟩ := List.cons_prefix_cons.1 h
      rw [byteLength_cons] at hn
      rw [frontWithin, if_pos (by omega)]
      exact List.cons_prefix_cons.2 ⟨rfl, ih ha (by omega)⟩

theorem frontWithin_append_right (u s : List Char) (n : Nat) :
    frontWithin (byteLength u + n) (u ++ s) = u ++ frontWithin n s := by
  induction u with
  | nil => simp
  | cons c u ih =>
    rw [List.cons_append, frontWithin, byteLength_cons, if_pos (by omega), Nat.add_assoc,
      Nat.add_sub_cancel_left, ih, List.cons_append]

theorem frontWithin_append_left {s : List Char} {n : Nat} (h : n ≤ byteLength s) (v : List Char) :
    frontWithin n (s ++ v) = frontWithin n s := by
  induction s generalizing n with
  | nil =>
    obtain rfl : n = 0 := by simpa using h
    cases v with
    | nil => rfl
    | cons c v => exact if_neg (Nat.not_le.2 c.utf8Size_pos)
  | cons c s ih =>
    rw [byteLength_cons] at h
    rw [List.cons_append, frontWithin, frontWithin, ih (by omega)]

end TrieLexer.Text
