import TrieLexer.Text.Bytes

/-!
# Spans of a string

A span of a string runs from one byte offset to another. Both have to fall between characters, and
the second must not come before the first; otherwise there is no such span. This module cuts spans
out of strings and finds offsets that fall between characters.

## Main definitions

* `IsSpan` — two offsets bound a span.
* `span?` — the text of a span.
* `floorBoundary` — the last offset between characters up to a given one.
* `rowBefore` — how many times a character is repeated up to an offset.

## Main results

* `span?_eq_some_iff` — a span is found exactly where the string is made up of three parts.
* `span?_ofList_append` — the spans of a string are the cuts of its text.
* `floorBoundary_ofList`, `rowBefore_ofList` — offsets and rows in terms of the text.
-/

namespace TrieLexer.Text

/-- Two byte offsets of a string bound a span: they fall between characters and are in order. -/
def IsSpan (s : String) (start stop : Nat) : Prop :=
  start ≤ stop ∧ String.Pos.Raw.IsValid s ⟨start⟩ ∧ String.Pos.Raw.IsValid s ⟨stop⟩

instance (s : String) (start stop : Nat) : Decidable (IsSpan s start stop) :=
  inferInstanceAs (Decidable (_ ∧ _ ∧ _))

/-- The text between two byte offsets, if they bound a span. -/
def span? (s : String) (start stop : Nat) : Option String :=
  if h : IsSpan s start stop then some (s.slice (s.pos _ h.2.1) (s.pos _ h.2.2) h.1).copy else none

/-- The last byte offset up to `i` that falls between characters. -/
def floorBoundary (s : String) : Nat → Nat
  | 0 => 0
  | i + 1 => if String.Pos.Raw.IsValid s ⟨i + 1⟩ then i + 1 else floorBoundary s i

/-- How many times `c` is repeated right before an offset; at most `bound` places are looked at. -/
def rowBefore (s : String) (c : Char) : (bound stop : Nat) → Nat
  | 0, _ => 0
  | bound + 1, stop =>
    if span? s (stop - c.utf8Size) stop = some c.toString then
      rowBefore s c bound (stop - c.utf8Size) + 1
    else 0

/-! ### Spans as parts of a text -/

/-- The bytes of a string are those of its characters. -/
theorem utf8ByteSize_eq (s : String) : s.utf8ByteSize = byteLength s.toList := by
  obtain ⟨cs, rfl⟩ := s.exists_eq_ofList
  induction cs with
  | nil => rfl
  | cons c cs ih =>
    rw [String.ofList_cons, String.utf8ByteSize_append, ih]
    simp

/-- A span is found exactly where the string is made up of three parts. -/
theorem span?_eq_some_iff {s t : String} {start stop : Nat} :
    span? s start stop = some t ↔ ∃ u v, s = u ++ t ++ v ∧ u.utf8ByteSize = start ∧
      start + t.utf8ByteSize = stop := by
  constructor
  · intro h
    obtain ⟨hspan, h⟩ := Option.dite_none_right_eq_some.1 h
    obtain ⟨u, v, hstart, hstop⟩ := String.copy_slice_eq_iff_splits.1 ⟨hspan.1, Option.some.inj h⟩
    have hu := hstart.offset_eq_rawEndPos
    have ht := hstop.offset_eq_rawEndPos
    simp only [String.Pos.Raw.ext_iff, String.offset_pos, String.byteIdx_rawEndPos] at hu ht
    rw [String.utf8ByteSize_append] at ht
    exact ⟨u, v, hstop.eq_append, hu.symm, by omega⟩
  · rintro ⟨u, v, rfl, rfl, rfl⟩
    have hu : String.Pos.Raw.IsValid (u ++ t ++ v) ⟨u.utf8ByteSize⟩ :=
      String.Pos.Raw.isValid_iff_exists_append.2 ⟨u, t ++ v, by rw [String.append_assoc], rfl⟩
    have ht : String.Pos.Raw.IsValid (u ++ t ++ v) ⟨u.utf8ByteSize + t.utf8ByteSize⟩ :=
      String.Pos.Raw.isValid_iff_exists_append.2 ⟨u ++ t, v, rfl, by
        rw [String.Pos.Raw.ext_iff, String.byteIdx_rawEndPos, String.utf8ByteSize_append]⟩
    have hspan : IsSpan (u ++ t ++ v) u.utf8ByteSize (u.utf8ByteSize + t.utf8ByteSize) :=
      ⟨Nat.le_add_right .., hu, ht⟩
    have hstart : ((u ++ t ++ v).pos _ hu).Splits u (t ++ v) :=
      ⟨by rw [String.append_assoc], rfl⟩
    have hstop : ((u ++ t ++ v).pos _ ht).Splits (u ++ t) v := ⟨rfl, by
      rw [String.Pos.Raw.ext_iff, String.byteIdx_rawEndPos, String.utf8ByteSize_append]; rfl⟩
    obtain ⟨_, heq⟩ := String.copy_slice_eq_iff_splits.2 ⟨u, v, hstart, hstop⟩
    rw [span?, dif_pos hspan, heq]

/-- A span that begins after a front is a cut of the rest. -/
theorem span?_ofList_append (u s : List Char) (n : Nat) :
    span? (String.ofList (u ++ s)) (byteLength u) (byteLength u + n) =
      (splitBytes? n s).map fun p => String.ofList p.1 := by
  cases h : splitBytes? n s with
  | some p =>
    obtain ⟨rfl, rfl⟩ := splitBytes?_eq_some_iff.1 h
    refine span?_eq_some_iff.2 ⟨String.ofList u, String.ofList p.2, ?_, ?_, ?_⟩
    · rw [← String.ofList_append, ← String.ofList_append, List.append_assoc]
    · rw [utf8ByteSize_eq, String.toList_ofList]
    · rw [utf8ByteSize_eq, String.toList_ofList]
  | none =>
    rw [Option.map_none, Option.eq_none_iff_forall_ne_some]
    intro t ht
    obtain ⟨a, b, hs, ha, hb⟩ := span?_eq_some_iff.1 ht
    have hlist : u ++ s = a.toList ++ (t.toList ++ b.toList) := by
      rw [← String.toList_ofList (l := u ++ s), hs, String.toList_append, String.toList_append,
        List.append_assoc]
    rw [utf8ByteSize_eq] at ha hb
    obtain ⟨rfl, rfl⟩ := append_inj_of_byteLength hlist ha.symm
    rw [splitBytes?_eq_some_iff.2 ⟨rfl, Nat.add_left_cancel hb⟩] at h
    cases h

/-- An offset is valid exactly where the text can be cut. -/
theorem isValid_ofList_iff {s : List Char} {n : Nat} :
    String.Pos.Raw.IsValid (String.ofList s) ⟨n⟩ ↔ (splitBytes? n s).isSome := by
  rw [String.Pos.Raw.isValid_iff_exists_append, Option.isSome_iff_exists]
  constructor
  · rintro ⟨a, b, hs, hn⟩
    have hlist : s = a.toList ++ b.toList := by
      rw [← String.toList_ofList (l := s), hs, String.toList_append]
    rw [String.Pos.Raw.ext_iff, String.byteIdx_rawEndPos, utf8ByteSize_eq] at hn
    exact ⟨_, splitBytes?_eq_some_iff.2 ⟨hlist, hn.symm⟩⟩
  · rintro ⟨p, hp⟩
    obtain ⟨hs, hn⟩ := splitBytes?_eq_some_iff.1 hp
    refine ⟨String.ofList p.1, String.ofList p.2, by rw [hs, String.ofList_append], ?_⟩
    rw [String.Pos.Raw.ext_iff, String.byteIdx_rawEndPos, utf8ByteSize_eq, String.toList_ofList, hn]

/-! ### Fronts and rows -/

/-- The offset is the length of the longest front that fits. -/
theorem floorBoundary_ofList (s : List Char) (i : Nat) :
    floorBoundary (String.ofList s) i = byteLength (frontWithin i s) := by
  induction i with
  | zero => exact (Nat.le_zero.1 (byteLength_frontWithin_le 0 s)).symm
  | succ i ih =>
    rw [floorBoundary]
    split
    · next h =>
      obtain ⟨p, hp⟩ := Option.isSome_iff_exists.1 (isValid_ofList_iff.1 h)
      obtain ⟨rfl, hn⟩ := splitBytes?_eq_some_iff.1 hp
      have hle := byteLength_le_of_isPrefix
        (isPrefix_frontWithin (List.prefix_append p.1 p.2) (Nat.le_of_eq hn))
      exact Nat.le_antisymm (hn ▸ hle) (byteLength_frontWithin_le _ _)
    · next h =>
      rw [ih]
      obtain ⟨b, hb⟩ := frontWithin_isPrefix (i + 1) s
      have hne : byteLength (frontWithin (i + 1) s) ≠ i + 1 := fun hn => h <|
        isValid_ofList_iff.2 <| Option.isSome_iff_exists.2 ⟨_, splitBytes?_eq_some_iff.2
          ⟨hb.symm, hn⟩⟩
      have hlt := byteLength_frontWithin_le (i + 1) s
      have h₁ := byteLength_le_of_isPrefix (isPrefix_frontWithin (frontWithin_isPrefix (i + 1) s)
        (n := i) (by omega))
      have h₂ := byteLength_le_of_isPrefix (isPrefix_frontWithin (frontWithin_isPrefix i s)
        (n := i + 1) (Nat.le_succ_of_le (byteLength_frontWithin_le i s)))
      exact Nat.le_antisymm h₂ h₁

/-- A character that ends a part of the text is the only one that ends there. -/
theorem span?_eq_toString_iff {s v : List Char} {c d : Char}
    (hc : c.utf8Size ≤ byteLength s + d.utf8Size) :
    span? (String.ofList (s ++ d :: v)) (byteLength s + d.utf8Size - c.utf8Size)
      (byteLength s + d.utf8Size) = some c.toString ↔ d = c := by
  constructor
  · intro h
    obtain ⟨a, b, hs, ha, hb⟩ := span?_eq_some_iff.1 h
    have hlist : (s ++ [d]) ++ v = (a.toList ++ [c]) ++ b.toList := by
      rw [List.append_assoc, List.singleton_append, ← String.toList_ofList (l := s ++ d :: v), hs,
        String.toList_append, String.toList_append, Char.toString, String.toList_singleton]
    rw [utf8ByteSize_eq] at ha
    have hn : byteLength (s ++ [d]) = byteLength (a.toList ++ [c]) := by
      simp only [byteLength_append, byteLength_cons, byteLength_nil]
      omega
    have hlast := congrArg List.getLast? (append_inj_of_byteLength hlist hn).1
    simpa using hlast
  · rintro rfl
    have h := span?_ofList_append s (d :: v) d.utf8Size
    rw [Nat.add_sub_cancel, h, splitBytes?_eq_some_iff.2 ⟨List.singleton_append.symm, by simp⟩]
    exact congrArg some String.singleton_eq_ofList.symm

/-- A row that ends a part of the text is counted on the reversed part. -/
theorem rowBefore_ofList (u s v : List Char) (c : Char) :
    rowBefore (String.ofList (u ++ s.reverse ++ v)) c (byteLength s / c.utf8Size)
      (byteLength u + byteLength s) = (s.takeWhile (· == c)).length := by
  have hc := c.utf8Size_pos
  induction s generalizing v with
  | nil => simp [rowBefore]
  | cons d s ih =>
    have htext : u ++ (d :: s).reverse ++ v = (u ++ s.reverse) ++ d :: v := by simp
    have hstop : byteLength u + byteLength (d :: s) =
        byteLength (u ++ s.reverse) + d.utf8Size := by
      rw [byteLength_cons, byteLength_append, byteLength_reverse, Nat.add_comm d.utf8Size,
        Nat.add_assoc]
    rw [htext, hstop, List.takeWhile_cons]
    by_cases hd : d = c
    · subst hd
      have hbound : byteLength (d :: s) / d.utf8Size = byteLength s / d.utf8Size + 1 := by
        rw [byteLength_cons, Nat.add_comm, Nat.add_div_right _ hc]
      rw [hbound, rowBefore, if_pos ((span?_eq_toString_iff (by omega)).2 rfl),
        Nat.add_sub_cancel, byteLength_append, byteLength_reverse, ih]
      simp
    · rw [if_neg (by simpa using hd), List.length_nil]
      cases hbound : byteLength (d :: s) / c.utf8Size with
      | zero => rfl
      | succ n =>
        have hle : c.utf8Size ≤ byteLength (d :: s) := by
          rcases Nat.lt_or_ge (byteLength (d :: s)) c.utf8Size with hlt | hle
          · rw [Nat.div_eq_of_lt hlt] at hbound
            cases hbound
          · exact hle
        rw [rowBefore, if_neg fun h => hd ((span?_eq_toString_iff (by omega)).1 h)]

end TrieLexer.Text
