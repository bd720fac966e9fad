import Mathlib.Data.List.Infix
import Mathlib.Data.List.TakeDrop
import Mathlib.Tactic.Push

/-!
# Looking for a terminator without looking back

The end of a run is looked for along one path. A character that does not go on along the path is
taken as the first one after the body; what came before it is forgotten. So the search may miss a
terminator that overlaps a part of itself. It never does if the terminator is steady: wherever its
first character occurs again in it, it begins again.

## Main definitions

* `seek` — how far along the terminator a character leads.
* `Steady` — a terminator that begins again wherever its first character occurs.
* `Sought` — the search has come as far as the text before it allows.

## Main results

* `lt_of_steady` — the search for a steady terminator goes on until the terminator has been read.
* `seekAll_eq_length_of_steady` — and then it ends.
* `exists_missed` — a terminator that is not steady is missed in some text.
-/

namespace TrieLexer

variable {t s u v w p : List Char} {k i : Nat} {c : Char}

/-- How far along a terminator a character leads from the place `k`: one character further, else
behind the first character of the terminator, else to its beginning. -/
def seek (t : List Char) (k : Nat) (c : Char) : Nat :=
  if t[k]? = some c then k + 1 else if t[0]? = some c then 1 else 0

/-- How far along a terminator a text leads. -/
def seekAll (t : List Char) (s : List Char) : Nat := s.foldl (seek t) 0

@[simp] theorem seekAll_nil (t : List Char) : seekAll t [] = 0 := rfl

@[simp] theorem seekAll_concat (t s : List Char) (c : Char) :
    seekAll t (s ++ [c]) = seek t (seekAll t s) c := by
  rw [seekAll, List.foldl_append]
  rfl

/-- A terminator begins again wherever its first character occurs in it again. -/
def Steady (t : List Char) : Prop := ∀ w ∈ t.tails, w.head? = t.head? → w <+: t

instance (t : List Char) : Decidable (Steady t) :=
  inferInstanceAs (Decidable (∀ w ∈ t.tails, w.head? = t.head? → w <+: t))

theorem Steady.prefix (h : Steady t) (hw : w <:+ t) (hhead : w.head? = t.head?) : w <+: t :=
  h w (List.mem_tails w t |>.2 hw) hhead

/-- The search never leads beyond the terminator. -/
theorem seek_le_length (ht : t ≠ []) : seek t k c ≤ t.length := by
  have hpos := List.length_pos_iff.2 ht
  rw [seek]
  split
  · next h => exact (List.getElem?_eq_some_iff.1 h).1
  · split
    · exact hpos
    · exact Nat.zero_le _

/-- A beginning of the terminator that ends a text with one more character goes on after a
shorter one. -/
theorem take_succ_suffix_concat : t.take (i + 1) <:+ s ++ [c] ∧ i < t.length ↔
    t.take i <:+ s ∧ t[i]? = some c := by
  constructor
  · rintro ⟨h, hi⟩
    rw [List.take_succ_eq_append_getElem hi] at h
    obtain ⟨r, hr⟩ := h
    rw [← List.append_assoc] at hr
    obtain ⟨hr, hc⟩ := List.append_inj' hr rfl
    exact ⟨⟨r, hr⟩, by rw [List.getElem?_eq_getElem hi, List.head_eq_of_cons_eq hc]⟩
  · rintro ⟨⟨r, rfl⟩, hc⟩
    obtain ⟨hi, rfl⟩ := List.getElem?_eq_some_iff.1 hc
    exact ⟨⟨r, by rw [List.take_succ_eq_append_getElem hi, List.append_assoc]⟩, hi⟩

/-- The part of the terminator that the search has come to ends the text. -/
theorem take_seek_suffix (h : t.take k <:+ s) : t.take (seek t k c) <:+ s ++ [c] := by
  rw [seek]
  split
  · next hc => exact (take_succ_suffix_concat.2 ⟨h, hc⟩).1
  · split
    · next hc => exact (take_succ_suffix_concat.2 ⟨List.take_zero ▸ List.nil_suffix, hc⟩).1
    · exact List.nil_suffix

/-- The search has come as far as the text before it allows: no longer part of the terminator ends
the text. -/
def Sought (t s : List Char) (k : Nat) : Prop :=
  t.take k <:+ s ∧ ∀ i ≤ t.length, t.take i <:+ s → i ≤ k

theorem sought_nil (t : List Char) : Sought t [] 0 := by
  refine ⟨List.nil_suffix, fun i hi h => ?_⟩
  have hlength := congrArg List.length (List.suffix_nil.1 h)
  rw [List.length_take_of_le hi] at hlength
  exact Nat.le_of_eq hlength

/-- Where a part of a steady terminator has been read, a shorter part that ends it goes on alike. -/
theorem Steady.getElem?_eq (h : Steady t) (hk : k < t.length) (hi : 0 < i) (hik : i ≤ k)
    (hsuffix : t.take i <:+ t.take k) : t[i]? = t[k]? := by
  have hlength : (t.take i).length = i :=
    List.length_take_of_le (Nat.le_trans hik (Nat.le_of_lt hk))
  obtain ⟨r, hr⟩ := hsuffix
  have hrest : r ++ (t.take i ++ t.drop k) = t := by
    rw [← List.append_assoc, hr, List.take_append_drop]
  have hhead : (t.take i ++ t.drop k).head? = t.head? := by
    rw [List.head?_append_of_ne_nil _ (List.ne_nil_of_length_pos (hlength.symm ▸ hi)),
      List.head?_take, if_neg (Nat.ne_of_gt hi)]
  obtain ⟨more, hmore⟩ := h.prefix ⟨r, hrest⟩ hhead
  have hlt : i < (t.take i ++ t.drop k).length := by
    rw [List.length_append, hlength, List.length_drop]
    omega
  calc t[i]? = ((t.take i ++ t.drop k) ++ more)[i]? := by rw [hmore]
    _ = (t.take i ++ t.drop k)[i]? := List.getElem?_append_left hlt
    _ = (t.drop k)[0]? := by
      rw [List.getElem?_append_right (Nat.le_of_eq hlength), hlength, Nat.sub_self]
    _ = t[k]? := by rw [List.getElem?_drop, Nat.add_zero]

/-- The search for a steady terminator keeps coming as far as it can. -/
theorem Sought.seek (h : Steady t) (hk : k < t.length) (hs : Sought t s k) (c : Char) :
    Sought t (s ++ [c]) (seek t k c) := by
  refine ⟨take_seek_suffix hs.1, fun i hi hsuffix => ?_⟩
  cases i with
  | zero => exact Nat.zero_le _
  | succ i =>
    obtain ⟨hbefore, hc⟩ := take_succ_suffix_concat.1 ⟨hsuffix, hi⟩
    have hik := hs.2 i (Nat.le_of_succ_le hi) hbefore
    rw [TrieLexer.seek]
    split
    · exact Nat.succ_le_succ hik
    · next hne =>
      rcases Nat.eq_zero_or_pos i with rfl | hpos
      · rw [if_pos hc]
      · -- The shorter part would go on as the longer one, which does not go on with `c`.
        have hshort : t.take i <:+ t.take k := by
          refine List.suffix_of_suffix_length_le hbefore hs.1 ?_
          rw [List.length_take_of_le (Nat.le_of_succ_le hi),
            List.length_take_of_le (Nat.le_of_lt hk)]
          exact hik
        exact absurd ((h.getElem?_eq hk hpos hik hshort).symm.trans hc) hne

/-! ### Steady terminators -/

/-- As long as a steady terminator has not been read, the search has come as far as it can. -/
theorem sought_of_steady (h : Steady t) (ht : t ≠ [])
    (hu : ∀ p, p <+: u → ¬t <:+ p) : Sought t u (seekAll t u) ∧ seekAll t u < t.length := by
  induction u using List.reverseRecOn with
  | nil => exact ⟨sought_nil t, List.length_pos_iff.2 ht⟩
  | append_singleton u c ih =>
    obtain ⟨hs, hlt⟩ := ih fun p hp => hu p (hp.trans (List.prefix_append _ _))
    rw [seekAll_concat]
    have hs' := hs.seek h hlt c
    refine ⟨hs', Nat.lt_of_le_of_ne (seek_le_length ht) fun heq => hu _ List.prefix_rfl ?_⟩
    have hwhole := hs'.1
    rwa [heq, List.take_length] at hwhole

/-- The search for a steady terminator goes on until the terminator has been read. -/
theorem lt_of_steady (h : Steady t) (ht : t ≠ []) (hu : ∀ p, p <+: u → ¬t <:+ p) :
    seekAll t u < t.length :=
  (sought_of_steady h ht hu).2

/-- Before its first occurrence is complete, a terminator does not end the text. -/
theorem not_suffix_of_first (ht : t = s ++ [c])
    (hfirst : ∀ front rest, u ++ t ++ v = front ++ t ++ rest → u.length ≤ front.length)
    (hp : p <+: u ++ s) : ¬t <:+ p := by
  rintro ⟨front, rfl⟩
  obtain ⟨rest, hrest⟩ := hp
  have hwhole : u ++ t ++ v = front ++ t ++ (rest ++ [c] ++ v) := by
    calc u ++ t ++ v = (u ++ s) ++ ([c] ++ v) := by rw [ht]; simp only [List.append_assoc]
      _ = front ++ t ++ (rest ++ [c] ++ v) := by rw [← hrest]; simp only [List.append_assoc]
  have hle := hfirst front _ hwhole
  have hlength := congrArg List.length hrest
  simp only [ht, List.length_append, List.length_singleton] at hlength
  omega

/-- The search for a steady terminator ends when the terminator has been read. -/
theorem seekAll_eq_length_of_steady (h : Steady t) (ht : t ≠ [])
    (hu : ∀ p, p <+: u → ¬t <:+ p) (hc : t <:+ u ++ [c]) :
    seekAll t (u ++ [c]) = t.length := by
  obtain ⟨hs, hlt⟩ := sought_of_steady h ht hu
  rw [seekAll_concat]
  refine Nat.le_antisymm (seek_le_length ht) ((hs.seek h hlt c).2 _ (Nat.le_refl _) ?_)
  rwa [List.take_length]

/-! ### Other terminators -/

theorem seek_le_succ (t : List Char) (k : Nat) (c : Char) : seek t k c ≤ k + 1 := by
  rw [seek]
  split
  · exact Nat.le_refl _
  · split <;> omega

/-- Every character leads on by one at most. -/
theorem foldl_seek_le (t s : List Char) (k : Nat) : s.foldl (seek t) k ≤ k + s.length := by
  induction s generalizing k with
  | nil => exact Nat.le_refl _
  | cons c s ih =>
    have hstep := seek_le_succ t k c
    have hrest := ih (seek t k c)
    rw [List.foldl_cons, List.length_cons]
    omega

/-- The beginnings of the terminator lead along it. -/
theorem seekAll_take (hk : k ≤ t.length) : seekAll t (t.take k) = k := by
  induction k with
  | zero => rw [List.take_zero, seekAll_nil]
  | succ k ih =>
    rw [List.take_succ_eq_append_getElem hk, seekAll_concat, ih (Nat.le_of_succ_le hk), seek,
      if_pos (List.getElem?_eq_getElem hk)]

/-- Two texts of which the first one is no beginning of the second one part somewhere. -/
theorem exists_parting (hlength : w.length ≤ t.length) (h : ¬w <+: t) :
    ∃ z d x e y, w = z ++ d :: x ∧ t = z ++ e :: y ∧ d ≠ e := by
  induction w generalizing t with
  | nil => exact absurd List.nil_prefix h
  | cons a w ih =>
    cases t with
    | nil => exact absurd hlength (Nat.not_succ_le_zero _)
    | cons b t =>
      by_cases hab : a = b
      · subst hab
        obtain ⟨z, d, x, e, y, rfl, rfl, hne⟩ := ih (Nat.le_of_succ_le_succ hlength)
          fun hprefix => h (List.cons_prefix_cons.2 ⟨rfl, hprefix⟩)
        exact ⟨a :: z, d, x, e, y, rfl, rfl, hne⟩
      · exact ⟨[], a, w, b, t, rfl, rfl, hab⟩

/-- A terminator that is not steady is missed where it comes after the part of it that it overlaps
with. -/
theorem exists_missed (h : ¬Steady t) :
    ∃ s, t <:+ s ∧ ∀ p, p <+: s → seekAll t p < t.length := by
  rw [Steady] at h
  push Not at h
  obtain ⟨w, hw, hhead, hprefix⟩ := h
  obtain ⟨front, hfront⟩ := (List.mem_tails w t).1 hw
  obtain ⟨z, d, x, e, y, rfl, ht, hne⟩ := exists_parting
    (hfront ▸ (List.length_append ▸ Nat.le_add_left _ _)) hprefix
  have hz : 0 < z.length := by
    refine List.length_pos_iff.2 ?_
    rintro rfl
    rw [ht] at hhead
    exact hne (Option.some.inj hhead)
  have hlength : t.length = z.length + (y.length + 1) := by
    rw [ht, List.length_append, List.length_cons]
  have hfrontLength : t.length = (front ++ z).length + (x.length + 1) := by
    rw [← hfront, ← List.append_assoc]
    exact List.length_append
  have hcommon : front ++ z = t.take (front ++ z).length := by
    rw [← hfront, ← List.append_assoc, List.take_left]
  have hgoes : t[(front ++ z).length]? = some d := by
    rw [← hfront, ← List.append_assoc, List.getElem?_append_right (Nat.le_refl _), Nat.sub_self]
    rfl
  have htext : front ++ t = (front ++ z) ++ e :: y := by rw [List.append_assoc, ← ht]
  refine ⟨front ++ t, List.suffix_append _ _, fun p hp => ?_⟩
  have htogether : front ++ z <+: front ++ t := ⟨e :: y, htext.symm⟩
  rcases List.prefix_or_prefix_of_prefix hp htogether with hshort | hlong
  · -- Up to where both part, the text leads along the terminator.
    have hle := hshort.length_le
    rw [hcommon] at hshort
    have hp : p = t.take p.length := by
      rw [← List.prefix_iff_eq_take]
      exact hshort.trans (List.take_prefix _ _)
    rw [hp, seekAll_take (by omega)]
    omega
  · -- There it leads behind the first character at most, and what is left is too short.
    obtain ⟨rest, rfl⟩ := hlong
    rw [htext, List.prefix_append_right_inj] at hp
    cases rest with
    | nil =>
      rw [List.append_nil, hcommon, seekAll_take (by omega)]
      omega
    | cons a rest =>
      obtain ⟨rfl, hrest⟩ := List.cons_prefix_cons.1 hp
      have hback : seek t (front ++ z).length a ≤ 1 := by
        rw [seek, if_neg (by rw [hgoes]; exact fun heq => hne (Option.some.inj heq))]
        split <;> omega
      have hfar := foldl_seek_le t rest (seek t (front ++ z).length a)
      have hle := hrest.length_le
      have hseek : seekAll t (front ++ z) = (front ++ z).length := by
        conv_lhs => rw [hcommon]
        exact seekAll_take (by omega)
      rw [seekAll, List.foldl_append, List.foldl_cons,
        show (front ++ z).foldl (seek t) 0 = _ from hseek]
      omega

end TrieLexer
