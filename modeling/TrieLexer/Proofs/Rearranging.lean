import Mathlib.Data.List.Perm.Basic
import TrieLexer.Proofs.Rereading

/-!
# Fields in any order

The fields of an object may be written in any order, at every depth. A decoder that reads a record
takes each field in as it comes, and what one field does to the record does not depend on the
others, so the record that is read is the same.

## Main definitions

* `Value.Rearranges` — a value whose fields stand in another order.
* `Value.depth` — how deep arrays and objects are nested.
* `Decoder.Reads` — a decoder reads a value, in whatever order its fields stand.
* `Decoder.Sets` — the field of a record that a field of an object is for, and what it sets.

## Main results

* `Value.rearranges_self` — the fields may stand as they do.
* `Decoder.reads_list`, `Decoder.reads_record` — lists and records are read from their parts.
-/

namespace TrieLexer.Json

namespace Value

mutual

/-- The second value is the first one with the fields of objects in another order. -/
def Rearranges : Value → Value → Prop
  | array items, w => ∃ ws, RearrangesItems items ws ∧ w = array ws
  | object fields, w => ∃ gs hs, RearrangesFields fields gs ∧ gs.Perm hs ∧ w = object hs
  | v, w => w = v
termination_by structural v => v

/-- The same for the items of an array. -/
def RearrangesItems : List Value → List Value → Prop
  | [], ws => ws = []
  | v :: vs, ws => ∃ w rest, v.Rearranges w ∧ RearrangesItems vs rest ∧ ws = w :: rest
termination_by structural vs => vs

/-- The same for the values of fields. -/
def RearrangesFields : List (String × Value) → List (String × Value) → Prop
  | [], gs => gs = []
  | f :: fs, gs => ∃ g rest, RearrangesField f g ∧ RearrangesFields fs rest ∧ gs = g :: rest
termination_by structural fs => fs

/-- The same for the value of a field. -/
def RearrangesField : String × Value → String × Value → Prop
  | (key, v), g => ∃ w, v.Rearranges w ∧ g = (key, w)
termination_by structural f => f

end

mutual

/-- How deep arrays and objects are nested. -/
def depth : Value → Nat
  | array items => depthOfItems items + 1
  | object fields => depthOfFields fields + 1
  | _ => 0

/-- How deep the items of an array are nested. -/
def depthOfItems : List Value → Nat
  | [] => 0
  | v :: vs => max v.depth (depthOfItems vs)

/-- How deep the fields of an object are nested. -/
def depthOfFields : List (String × Value) → Nat
  | [] => 0
  | f :: fs => max (depthOfField f) (depthOfFields fs)

/-- How deep the value of a field is nested. -/
def depthOfField : String × Value → Nat
  | (_, v) => v.depth

end

mutual

/-- The fields of a value may stand as they do. -/
theorem rearranges_self : ∀ v : Value, v.Rearranges v
  | null => rfl
  | boolean _ => rfl
  | number _ => rfl
  | string _ => rfl
  | array items => ⟨items, rearrangesItems_self items, rfl⟩
  | object fields => ⟨fields, fields, rearrangesFields_self fields, .refl _, rfl⟩

theorem rearrangesItems_self : ∀ vs : List Value, RearrangesItems vs vs
  | [] => rfl
  | v :: vs => ⟨v, vs, rearranges_self v, rearrangesItems_self vs, rfl⟩

theorem rearrangesFields_self : ∀ fs : List (String × Value), RearrangesFields fs fs
  | [] => rfl
  | f :: fs => ⟨f, fs, rearrangesField_self f, rearrangesFields_self fs, rfl⟩

theorem rearrangesField_self : ∀ f : String × Value, RearrangesField f f
  | (_, v) => ⟨v, rearranges_self v, rfl⟩

end

theorem Rearranges.ne_null {v w : Value} (h : v.Rearranges w) (hv : v ≠ null) : w ≠ null := by
  cases v with
  | null => exact absurd rfl hv
  | array items => obtain ⟨ws, -, rfl⟩ := h; nofun
  | object fields => obtain ⟨gs, hs, -, -, rfl⟩ := h; nofun
  | boolean b => rintro rfl; cases h
  | number n => rintro rfl; cases h
  | string s => rintro rfl; cases h

end Value

namespace Decoder

variable {α β : Type}

/-- A decoder reads a value, in whatever order its fields stand. -/
def Reads (decoder : Decoder α) (v : Value) (x : α) : Prop :=
  ∀ w, v.Rearranges w → decoder w.document = .ok x

theorem reads_text (s : String) : Reads text (.string s) s := by
  rintro w rfl
  rfl

theorem reads_truth (b : Bool) : Reads truth (.boolean b) b := by
  rintro w rfl
  rfl

theorem reads_optional_null (decoder : Decoder α) : Reads (optional decoder) .null none := by
  rintro w rfl
  rfl

theorem Reads.optional {decoder : Decoder α} {v : Value} {x : α} (h : Reads decoder v x)
    (hv : v ≠ .null) : Reads (optional decoder) v (some x) := by
  intro w hw
  have hread := h w hw
  have hne := hw.ne_null hv
  cases w with
  | null => exact absurd rfl hne
  | _ => exact congrArg (Functor.map some) hread

/-! ### Lists -/

/-- A list is read from its items. -/
theorem reads_list {decoder : Decoder α} {vs : List Value} {xs : List α}
    (h : List.Forall₂ (Reads decoder) vs xs) : Reads (list decoder) (.array vs) xs := by
  rintro w ⟨ws, hws, rfl⟩
  have hitems : items decoder (Value.documents ws) = .ok xs := by
    induction h generalizing ws with
    | nil =>
      cases hws
      rfl
    | cons hv _ ih =>
      obtain ⟨w, rest, hw, hrest, rfl⟩ := hws
      rw [Value.documents, items, hv w hw, ih rest hrest]
      rfl
  rw [Value.document, list, hitems]
  rfl

/-! ### Records -/

/-- A field of an object is for a field of the record, which does the given thing to the record. -/
def Sets (fields : List (Field α)) (f : String × Value) (change : α → α) : Prop :=
  ∃ field, fields.find? (·.name == f.1) = some field ∧
    ∀ record, Reads (field.read record) f.2 (change record)

/-- A field that a decoder reads on its own. -/
theorem sets_of_reads {fields : List (Field α)} {name : String} {v : Value} {x : β}
    {decoder : Decoder β} (change : β → α → α)
    (hfield : fields.find? (·.name == name) =
      some ⟨name, fun record d => return change (← decoder d) record⟩)
    (h : Reads decoder v x) : Sets fields (name, v) (change x) := by
  refine ⟨_, hfield, fun record w hw => ?_⟩
  dsimp only
  rw [h w hw]
  rfl

/-- The entries of a record are read one after the other. -/
theorem entries_eq {fields : List (Field α)} {fs : List (String × Value)} {changes : List (α → α)}
    (h : List.Forall₂ (fun f change => ∃ field, fields.find? (·.name == f.1) = some field ∧
      ∀ record, field.read record f.2.document = .ok (change record)) fs changes)
    (hnodup : (fs.map Prod.fst).Nodup) {seen : List String} (hseen : ∀ f ∈ fs, f.1 ∉ seen)
    (record : α) :
    entries fields seen record (Value.entries fs) =
      .ok (changes.foldl (fun record change => change record) record) := by
  induction h generalizing seen record with
  | nil => rfl
  | @cons f change fs changes hf _ ih =>
    obtain ⟨key, v⟩ := f
    obtain ⟨field, hfind, hread⟩ := hf
    rw [List.map_cons, List.nodup_cons] at hnodup
    have hnew : seen.contains key = false := by
      simpa using hseen (key, v) (List.mem_cons_self ..)
    have hrest : ∀ f ∈ fs, f.1 ∉ key :: seen := by
      intro f hf hmem
      rcases List.mem_cons.1 hmem with heq | hmem
      · exact hnodup.1 (List.mem_map.2 ⟨f, hf, heq⟩)
      · exact hseen f (List.mem_cons_of_mem _ hf) hmem
    rw [Value.entries, Value.entry, entries]
    simp only [accept, Except.mapError, bind, Except.bind, hfind, hnew, hread]
    exact ih hnodup.2 hrest _

/-- A record is read from its fields, if it makes no difference which of them comes first. -/
theorem reads_record {fields : List (Field α)} {fs : List (String × Value)}
    (changes : List (α → α)) (h : List.Forall₂ (Sets fields) fs changes)
    (hnodup : (fs.map Prod.fst).Nodup)
    (hcomm : ∀ f ∈ changes, ∀ g ∈ changes, ∀ record, g (f record) = f (g record)) (name : String)
    (required : Nat) (start : α) :
    Reads (record name required fields start) (.object fs)
      (changes.foldl (fun record change => change record) start) := by
  rintro w ⟨gs, hs, hgs, hperm, rfl⟩
  have hkeys : gs.map Prod.fst = fs.map Prod.fst := by
    clear h hnodup hperm
    induction fs generalizing gs with
    | nil =>
      cases hgs
      rfl
    | cons f fs ih =>
      obtain ⟨key, v⟩ := f
      obtain ⟨g, rest, ⟨w, hw, rfl⟩, hrest, rfl⟩ := hgs
      rw [List.map_cons, List.map_cons, ih rest hrest]
  have hsets : List.Forall₂ (fun f change => ∃ field, fields.find? (·.name == f.1) = some field ∧
      ∀ record, field.read record f.2.document = .ok (change record)) gs changes := by
    clear hnodup hperm hcomm hkeys
    induction h generalizing gs with
    | nil =>
      cases hgs
      exact .nil
    | @cons f change fs changes hf _ ih =>
      obtain ⟨key, v⟩ := f
      obtain ⟨g, rest, ⟨w, hw, rfl⟩, hrest, rfl⟩ := hgs
      obtain ⟨field, hfind, hread⟩ := hf
      exact .cons ⟨field, hfind, fun record => hread record w hw⟩ (ih rest hrest)
  obtain ⟨changes', hsets', hperm'⟩ := List.perm_comp_forall₂ hperm.symm hsets
  have hnodup' : (hs.map Prod.fst).Nodup := (hperm.map Prod.fst).nodup_iff.1 (hkeys ▸ hnodup)
  have hentries := entries_eq hsets' hnodup' (fun _ _ => List.not_mem_nil) start
  rw [Value.document, record, hentries]
  refine congrArg Except.ok (hperm'.foldl_eq' (fun f hf g hg r => ?_) start)
  exact hcomm f (hperm'.mem_iff.1 hf) g (hperm'.mem_iff.1 hg) r

end Decoder

end TrieLexer.Json
