import TrieLexer.CommandLine.Place
import TrieLexer.Text.Span
import Mathlib.Data.List.Induction

/-!
# Lines and columns as coordinates

The place of an offset tells the offset: it is the length of the lines above, with their ends, and
of the characters to the left. Hence places are ordered as the offsets are.

## Main definitions

* `Text.rowsLength` — the length of whole lines, with their ends.
* `Place.Locates` — an offset in terms of its line and column.
* `Place.Precedes` — the order of places.

## Main results

* `Place.exists_rows` — the place after a text, from its lines.
* `Place.Locates.precedes` — places that tell offsets are ordered as these.
* `coordinates` — every boundary has a place that tells it, and the order is kept.
-/

namespace TrieLexer

/-! ### Lines -/

namespace Text

/-- The number of bytes of whole lines, each with its end. -/
def rowsLength : List (List Char) → Nat
  | [] => 0
  | row :: rows => byteLength row + 1 + rowsLength rows

@[simp] theorem rowsLength_nil : rowsLength [] = 0 := rfl

@[simp] theorem rowsLength_append (rows rows' : List (List Char)) :
    rowsLength (rows ++ rows') = rowsLength rows + rowsLength rows' := by
  induction rows with
  | nil => rw [List.nil_append, rowsLength_nil, Nat.zero_add]
  | cons row rows ih =>
    rw [List.cons_append, rowsLength, ih, rowsLength]
    omega

@[simp] theorem rowsLength_singleton (row : List Char) :
    rowsLength [row] = byteLength row + 1 := rfl

theorem rowsLength_take_mono (rows : List (List Char)) {n m : Nat} (h : n ≤ m) :
    rowsLength (rows.take n) ≤ rowsLength (rows.take m) := by
  obtain ⟨k, rfl⟩ := Nat.exists_eq_add_of_le h
  rw [List.take_add, rowsLength_append]
  omega

theorem byteLength_take_mono (row : List Char) {n m : Nat} (h : n ≤ m) :
    byteLength (row.take n) ≤ byteLength (row.take m) := by
  obtain ⟨k, rfl⟩ := Nat.exists_eq_add_of_le h
  rw [List.take_add, byteLength_append]
  omega

/-- The next line comes on top. -/
theorem rowsLength_take_succ {rows : List (List Char)} {n : Nat} {row : List Char}
    (h : rows[n]? = some row) :
    rowsLength (rows.take (n + 1)) = rowsLength (rows.take n) + (byteLength row + 1) := by
  rw [List.take_add_one, h, Option.toList_some, rowsLength_append, rowsLength_singleton]

theorem byteLength_rows (rows : List (List Char)) :
    byteLength (rows.flatMap (· ++ ['\n'])) = rowsLength rows := by
  induction rows with
  | nil => rfl
  | cons row rows ih =>
    have hend : byteLength ['\n'] = 1 := by decide
    rw [List.flatMap_cons, byteLength_append, byteLength_append, ih, hend, rowsLength]

/-- Characters in front of a text without a line end belong to its first line. -/
theorem splitOn_append {front : List Char} (h : '\n' ∉ front) (rest : List Char) :
    (front ++ rest).splitOn '\n' = (rest.splitOn '\n').modifyHead (front ++ ·) := by
  induction front with
  | nil =>
    obtain ⟨row, rows, hrows⟩ := List.exists_cons_of_ne_nil (List.splitOn_ne_nil '\n' rest)
    rw [List.nil_append, hrows]
    rfl
  | cons c front ih =>
    rw [List.mem_cons, not_or] at h
    obtain ⟨hc, hfront⟩ := h
    obtain ⟨row, rows, hrows⟩ := List.exists_cons_of_ne_nil (List.splitOn_ne_nil '\n' rest)
    rw [List.cons_append, List.splitOn, List.splitOnP_cons_eq_if_modifyHead, if_neg]
    · change ((front ++ rest).splitOn '\n').modifyHead _ = _
      rw [ih hfront, hrows]
      rfl
    · simpa using fun h => hc h.symm

/-- The lines of a text are whole lines, then those of the rest. -/
theorem splitOn_rows {rows : List (List Char)} (h : ∀ row ∈ rows, '\n' ∉ row) (rest : List Char) :
    (rows.flatMap (· ++ ['\n']) ++ rest).splitOn '\n' = rows ++ rest.splitOn '\n' := by
  induction rows with
  | nil => rfl
  | cons row rows ih =>
    obtain ⟨hrow, hrows⟩ := List.forall_mem_cons.1 h
    have hend : ∀ s : List Char, ('\n' :: s).splitOn '\n' = [] :: s.splitOn '\n' := fun s => by
      rw [List.splitOn, List.splitOnP_cons_eq_if_modifyHead, if_pos (beq_self_eq_true _)]
      rfl
    rw [List.flatMap_cons, List.append_assoc, List.append_assoc, splitOn_append hrow,
      List.singleton_append, hend, ih hrows, List.modifyHead_cons, List.append_nil,
      List.cons_append]

end Text

/-! ### Places -/

namespace Place

/-- The place tells the offset: so many lines, with their ends, and so many characters of the next
line stand in front of it. -/
structure Locates (p : Place) (text : String) (offset : Nat) : Prop where
  line_pos : 1 ≤ p.line
  column_pos : 1 ≤ p.column
  line_le : p.line ≤ (text.toList.splitOn '\n').length
  exists_row : ∃ row, (text.toList.splitOn '\n')[p.line - 1]? = some row ∧
    p.column - 1 ≤ row.length ∧
    offset = Text.rowsLength ((text.toList.splitOn '\n').take (p.line - 1)) +
      Text.byteLength (row.take (p.column - 1))

/-- The place is on an earlier line, or further to the left on the same one. -/
def Precedes (p q : Place) : Prop := p.line < q.line ∨ p.line = q.line ∧ p.column < q.column

/-- The place after a text is known from its whole lines and from what stands after them. -/
theorem exists_rows (before : List Char) : ∃ (rows : List (List Char)) (last : List Char),
    before = rows.flatMap (· ++ ['\n']) ++ last ∧ (∀ row ∈ rows, '\n' ∉ row) ∧ '\n' ∉ last ∧
      first.after before = ⟨rows.length + 1, last.length + 1⟩ := by
  induction before using List.reverseRecOn with
  | nil => exact ⟨[], [], rfl, nofun, nofun, rfl⟩
  | append_singleton before c ih =>
    obtain ⟨rows, last, hbefore, hrows, hlast, hafter⟩ := ih
    have hnext : first.after (before ++ [c]) = (first.after before).next c := by
      rw [after, List.foldl_append]
      rfl
    rw [hnext, hafter, next]
    by_cases hc : c = '\n'
    · subst hc
      refine ⟨rows ++ [last], [], ?_, ?_, nofun, ?_⟩
      · rw [hbefore, List.flatMap_append, List.flatMap_singleton, List.append_nil,
          List.append_assoc]
      · rintro row hrow
        rcases List.mem_append.1 hrow with hrow | hrow
        · exact hrows row hrow
        · rw [List.mem_singleton.1 hrow]
          exact hlast
      · rw [if_pos rfl, List.length_append]
        rfl
    · refine ⟨rows, last ++ [c], ?_, hrows, ?_, ?_⟩
      · rw [hbefore, List.append_assoc]
      · rw [List.mem_append, List.mem_singleton, not_or]
        exact ⟨hlast, fun h => hc h.symm⟩
      · rw [if_neg hc, List.length_append]
        rfl

/-- The lines above a place, and the characters to the left of it, tell where it is. -/
theorem locates_after (before rest : List Char) :
    (first.after before).Locates (String.ofList (before ++ rest)) (Text.byteLength before) := by
  obtain ⟨rows, last, rfl, hrows, hlast, hafter⟩ := exists_rows before
  obtain ⟨row, rows', hrest⟩ := List.exists_cons_of_ne_nil (List.splitOn_ne_nil '\n' rest)
  have hlines : (String.ofList (rows.flatMap (· ++ ['\n']) ++ last ++ rest)).toList.splitOn '\n' =
      rows ++ (last ++ row) :: rows' := by
    rw [String.toList_ofList, List.append_assoc, Text.splitOn_rows hrows, Text.splitOn_append hlast,
      hrest, List.modifyHead_cons]
  rw [hafter]
  refine ⟨Nat.succ_pos _, Nat.succ_pos _, ?_, last ++ row, ?_, ?_, ?_⟩
  · rw [hlines, List.length_append, List.length_cons]
    change rows.length + 1 ≤ _
    omega
  · rw [hlines, Nat.add_sub_cancel, List.getElem?_append_right (Nat.le_refl _), Nat.sub_self]
    rfl
  · rw [Nat.add_sub_cancel, List.length_append]
    omega
  · rw [hlines, Nat.add_sub_cancel, Nat.add_sub_cancel, List.take_left, List.take_left,
      Text.byteLength_append, Text.byteLength_rows]

/-- Places that tell offsets are ordered as these. -/
theorem Locates.precedes {p q : Place} {text : String} {offset offset' : Nat}
    (hp : p.Locates text offset) (hq : q.Locates text offset') (h : offset < offset') :
    p.Precedes q := by
  obtain ⟨row, hrow, -, hoffset⟩ := hp.exists_row
  obtain ⟨row', hrow', -, hoffset'⟩ := hq.exists_row
  rcases Nat.lt_trichotomy p.line q.line with hline | hline | hline
  · exact .inl hline
  · refine .inr ⟨hline, Nat.lt_of_not_le fun hcolumn => ?_⟩
    rw [hline, hrow'] at hrow
    obtain rfl := Option.some.inj hrow
    have hle := Text.byteLength_take_mono row' (Nat.sub_le_sub_right hcolumn 1)
    rw [hline] at hoffset
    omega
  · -- The whole line of the second place lies above the first one.
    have hpos := hq.line_pos
    have hwhole := Text.byteLength_le_of_isPrefix (List.take_prefix (q.column - 1) row')
    have habove := Text.rowsLength_take_mono (text.toList.splitOn '\n')
      (n := q.line - 1 + 1) (m := p.line - 1) (by omega)
    rw [Text.rowsLength_take_succ hrow'] at habove
    omega

end Place

/-- Every boundary of a text has a place that tells it, and places are ordered as the boundaries
are. -/
theorem coordinates (text : String) :
    (∀ offset, String.Pos.Raw.IsValid text ⟨offset⟩ →
        ∃ p, placeAt? text offset = some p ∧ p.Locates text offset) ∧
      ∀ offset offset', String.Pos.Raw.IsValid text ⟨offset⟩ →
        String.Pos.Raw.IsValid text ⟨offset'⟩ → offset < offset' →
        ∃ p q, placeAt? text offset = some p ∧ placeAt? text offset' = some q ∧ p.Precedes q := by
  have hplace : ∀ offset, String.Pos.Raw.IsValid text ⟨offset⟩ →
      ∃ p, placeAt? text offset = some p ∧ p.Locates text offset := by
    intro offset hoffset
    rw [← String.ofList_toList (s := text), Text.isValid_ofList_iff,
      Option.isSome_iff_exists] at hoffset
    obtain ⟨⟨before, rest⟩, hsplit⟩ := hoffset
    obtain ⟨htext, hlength⟩ := Text.splitBytes?_eq_some_iff.1 hsplit
    refine ⟨Place.first.after before, by rw [placeAt?, hsplit, Option.map_some], ?_⟩
    have hlocates := Place.locates_after before rest
    rw [← htext, String.ofList_toList, hlength] at hlocates
    exact hlocates
  refine ⟨hplace, fun offset offset' hoffset hoffset' hlt => ?_⟩
  obtain ⟨p, hp, hlocates⟩ := hplace offset hoffset
  obtain ⟨q, hq, hlocates'⟩ := hplace offset' hoffset'
  exact ⟨p, q, hp, hq, hlocates.precedes hlocates' hlt⟩

/-- A letter of two bytes counts as one character, and an end of line opens a new one. -/
theorem coordinates_accented :
    (∃ p, placeAt? "ab\ncé d\n" 6 = some p ∧ p.Locates "ab\ncé d\n" 6) ∧
      placeAt? "ab\ncé d\n" 6 = some ⟨2, 3⟩ ∧
      ∃ p q, placeAt? "ab\ncé d\n" 6 = some p ∧ placeAt? "ab\ncé d\n" 9 = some q ∧
        p.Precedes q := by
  have hsix : String.Pos.Raw.IsValid "ab\ncé d\n" ⟨6⟩ := by decide +kernel
  have hnine : String.Pos.Raw.IsValid "ab\ncé d\n" ⟨9⟩ := by decide +kernel
  obtain ⟨hplace, horder⟩ := coordinates "ab\ncé d\n"
  exact ⟨hplace 6 hsix, by decide +kernel, horder 6 9 hsix hnine (by decide)⟩

end TrieLexer
