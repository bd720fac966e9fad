import Mathlib.Data.List.Permutation
import Mathlib.Data.List.TakeWhile
import TrieLexer.Grammar.Writing
import TrieLexer.Proofs.Rearranging

/-!
# Grammars out of their documents

A grammar is written as a document and read from it again. Whatever order the fields stand in and
however many blanks are put between them, the grammar that is read is the one that was written, as
long as its document is not nested too deep.

## Main results

* `CharFlags.ofText?_text` — flags are read as they were written.
* `Definition.reads`, `Labels.reads`, `CharClass.reads` — so are the parts of a grammar.
* `reads_matcher`, `reads_grammar` — so are matchers and grammars, if their interiors are.
* `Grammar.ofText?_toJson` — a valid grammar is read from every text of its document.
-/

namespace TrieLexer

open Json (Decoder Document Value Entry)

/-! ### Flags -/

namespace CharFlags

/-- The name of a group or the number of other bits: it holds no bar and no blank. -/
def IsWord (w : List Char) : Prop := w ≠ [] ∧ ∀ c ∈ w, c ≠ '|' ∧ Text.isBlank c = false

-- The characters of the word are looked through, not all characters.
instance (w : List Char) : Decidable (IsWord w) :=
  @instDecidableAnd _ _ _ (List.decidableBAll _ _)

theorem IsWord.dropWhile {w : List Char} (h : IsWord w) (cs : List Char) :
    (w ++ cs).dropWhile Text.isBlank = w ++ cs := by
  cases w with
  | nil => exact absurd rfl h.1
  | cons c w =>
    rw [List.cons_append, List.dropWhile_cons, (h.2 c (List.mem_cons_self ..)).2]
    rfl

theorem IsWord.reverse {w : List Char} (h : IsWord w) : IsWord w.reverse :=
  ⟨mt List.reverse_eq_nil_iff.1 h.1, fun c hc => h.2 c (List.mem_reverse.1 hc)⟩

/-- Blanks around a word are taken off. -/
theorem IsWord.trimBlank {w before after : List Char} (h : IsWord w)
    (hbefore : ∀ c ∈ before, Text.isBlank c = true) (hafter : ∀ c ∈ after, Text.isBlank c = true) :
    Text.trimBlank (before ++ w ++ after) = w := by
  have hreverse : ∀ c ∈ after.reverse, Text.isBlank c = true := fun c hc =>
    hafter c (List.mem_reverse.1 hc)
  have hword := h.reverse.dropWhile []
  rw [List.append_nil] at hword
  rw [Text.trimBlank, List.append_assoc, List.dropWhile_append_of_pos hbefore, h.dropWhile,
    List.reverse_append, List.dropWhile_append_of_pos hreverse, hword, List.reverse_reverse]

theorem IsWord.part? {w before after : List Char} (h : IsWord w)
    (hbefore : ∀ c ∈ before, Text.isBlank c = true) (hafter : ∀ c ∈ after, Text.isBlank c = true) :
    CharFlags.part? (before ++ w ++ after) = CharFlags.part? w := by
  have hself := @IsWord.trimBlank w [] [] h (List.forall_mem_nil _) (List.forall_mem_nil _)
  rw [List.nil_append, List.append_nil] at hself
  rw [CharFlags.part?, CharFlags.part?, h.trimBlank hbefore hafter, hself]

theorem parts_of_not_mem {cs : List Char} (h : '|' ∉ cs) : parts cs = [cs] := by
  induction cs with
  | nil => rfl
  | cons c cs ih =>
    rw [List.mem_cons, not_or] at h
    rw [parts, if_neg (Ne.symm h.1), ih h.2]

theorem parts_append {cs : List Char} (h : '|' ∉ cs) (rest : List Char) :
    parts (cs ++ '|' :: rest) = cs :: parts rest := by
  induction cs with
  | nil => rfl
  | cons c cs ih =>
    rw [List.mem_cons, not_or] at h
    rw [List.cons_append, parts, if_neg (Ne.symm h.1), ih h.2]

/-- Words with bars between them are taken apart again. -/
theorem combine_intercalate {ws : List (List Char)} {bits : List UInt8}
    (h : List.Forall₂ (fun w b => IsWord w ∧ part? w = .ok b) ws bits) (hne : ws ≠ [])
    {before : List Char} (hbefore : ∀ c ∈ before, Text.isBlank c = true) :
    combine (parts (before ++ [' ', '|', ' '].intercalate ws)) = .ok (bits.foldr (· ||| ·) 0) := by
  have hbar : ∀ {cs : List Char}, (∀ c ∈ cs, Text.isBlank c = true) → '|' ∉ cs := fun hcs hmem =>
    absurd (hcs _ hmem) (by decide)
  have hword : ∀ {w : List Char}, IsWord w → '|' ∉ w := fun hw hmem => (hw.2 _ hmem).1 rfl
  have hspace : ∀ c ∈ [' '], Text.isBlank c = true := List.forall_mem_singleton.2 rfl
  induction h generalizing before with
  | nil => exact absurd rfl hne
  | @cons w b ws bits hw hrest ih =>
    obtain ⟨hw, hpart⟩ := hw
    cases hrest with
    | nil =>
      have htrim := @IsWord.part? w before [] hw hbefore (List.forall_mem_nil _)
      rw [List.append_nil] at htrim
      have hparts : parts (before ++ w) = [before ++ w] :=
        parts_of_not_mem (by simp [hbar hbefore, hword hw])
      rw [List.intercalate_singleton, hparts, combine, htrim, hpart]
      rfl
    | @cons w' b' ws bits hw' hrest =>
      have htrim := hw.part? hbefore hspace
      have hrest := ih (List.cons_ne_nil _ _) hspace
      rw [List.intercalate_cons_cons]
      have hsplit : before ++ (w ++ [' ', '|', ' '] ++ [' ', '|', ' '].intercalate (w' :: ws)) =
          (before ++ w ++ [' ']) ++ '|' :: ([' '] ++ [' ', '|', ' '].intercalate (w' :: ws)) := by
        simp
      rw [hsplit, parts_append (by simp [hbar hbefore, hword hw]), combine, htrim, hpart, hrest]
      rfl

theorem hexByte?_toDigits (bits : UInt8) : hexByte? (Nat.toDigits 16 bits.toNat) = some bits := by
  have hall : ∀ n : Fin 256, hexByte? (Nat.toDigits 16 n) = some ⟨⟨n⟩⟩ := by decide +kernel
  exact hall bits.toBitVec.toFin

theorem part?_name (group : CharGroup) :
    IsWord group.name.toList ∧ part? group.name.toList = .ok group.bit := by
  cases group <;> exact ⟨by decide, rfl⟩

theorem part?_hexText (bits : UInt8) :
    IsWord (hexText bits).toList ∧ part? (hexText bits).toList = .ok bits := by
  have hall : ∀ n : Fin 256, IsWord (Nat.toDigits 16 n) := by decide +kernel
  have hdigits : IsWord (Nat.toDigits 16 bits.toNat) := hall bits.toBitVec.toFin
  have hword : IsWord (hexText bits).toList := by
    rw [hexText, String.toList_ofList]
    refine ⟨List.cons_ne_nil _ _, fun c hc => ?_⟩
    rcases List.mem_cons.1 hc with rfl | hc
    · decide
    · rcases List.mem_cons.1 hc with rfl | hc
      · decide
      · exact hdigits.2 c hc
  have htrim := @IsWord.trimBlank _ [] [] hword (List.forall_mem_nil _) (List.forall_mem_nil _)
  rw [List.nil_append, List.append_nil] at htrim
  refine ⟨hword, ?_⟩
  rw [part?, htrim, hexText, String.toList_ofList]
  simp only [hexByte?_toDigits]

/-- The bits of the chosen groups and the other bits are all bits. -/
theorem foldr_bits (flags : CharFlags) :
    ((CharGroup.all.filter flags.has).map CharGroup.bit).foldr (· ||| ·) flags.unnamedBits =
      flags.bits := by
  have hall : ∀ n : Fin 256, ((CharGroup.all.filter (mk ⟨⟨n⟩⟩).has).map CharGroup.bit).foldr
      (· ||| ·) (mk ⟨⟨n⟩⟩).unnamedBits = ⟨⟨n⟩⟩ := by
    decide +kernel
  exact hall flags.bits.toBitVec.toFin

/-- Flags are read as they were written. -/
theorem ofText?_text (flags : CharFlags) : ofText? flags.text = .ok flags := by
  obtain ⟨ws, bits, htext, hws, hbits⟩ : ∃ (ws : List (List Char)) (bits : List UInt8),
      flags.text.toList = [' ', '|', ' '].intercalate ws ∧
      List.Forall₂ (fun w b => IsWord w ∧ part? w = .ok b) ws bits ∧
      bits.foldr (· ||| ·) 0 = flags.bits := by
    have hnames (groups : List CharGroup) : List.Forall₂ (fun w b => IsWord w ∧ part? w = .ok b)
        (groups.map (·.name.toList)) (groups.map CharGroup.bit) := by
      induction groups with
      | nil => exact .nil
      | cons group groups ih => exact .cons (part?_name group) ih
    have hall := flags.foldr_bits
    by_cases hnone : flags.unnamedBits = 0
    · rw [hnone] at hall
      refine ⟨_, _, ?_, hnames (CharGroup.all.filter flags.has), hall⟩
      rw [text, String.toList_intercalate, if_pos hnone, List.append_nil, List.map_map]
      rfl
    · refine ⟨_, _, ?_, List.rel_append (hnames (CharGroup.all.filter flags.has))
        (.cons (part?_hexText flags.unnamedBits) .nil), ?_⟩
      · rw [text, String.toList_intercalate, if_neg hnone, List.map_append, List.map_map]
        rfl
      · rwa [List.foldr_append, List.foldr_cons, List.foldr_nil, UInt8.or_zero]
  rw [ofText?, htext]
  cases hws with
  | nil =>
    obtain ⟨b⟩ := flags
    obtain rfl : 0 = b := hbits
    rfl
  | @cons w b ws bits hw hrest =>
    have hnonblank : (Text.trimBlank ([' ', '|', ' '].intercalate (w :: ws))).isEmpty = false := by
      obtain ⟨more, hmore⟩ : ∃ more, [' ', '|', ' '].intercalate (w :: ws) = w ++ more := by
        cases ws with
        | nil => exact ⟨[], by simp⟩
        | cons w' ws => exact ⟨_, by rw [List.intercalate_cons_cons, List.append_assoc]⟩
      rw [hmore, Bool.eq_false_iff, ne_eq, List.isEmpty_iff, Text.trimBlank, hw.1.dropWhile,
        List.reverse_eq_nil_iff, List.dropWhile_eq_nil_iff]
      obtain ⟨c, w, rfl⟩ := List.exists_cons_of_ne_nil hw.1.1
      intro hblank
      have hc := hblank c (by simp)
      rw [(hw.1.2 c (List.mem_cons_self ..)).2] at hc
      cases hc
    have hcombine := @combine_intercalate (w :: ws) (b :: bits) (.cons hw hrest)
      (List.cons_ne_nil _ _) [] (List.forall_mem_nil _)
    rw [List.nil_append, hbits] at hcombine
    rw [hnonblank, hcombine]
    rfl

end CharFlags

/-! ### Classes, labels and policies -/

theorem CharClass.reads (k : CharClass) (levels : Nat) :
    Decoder.Reads (CharClass.read (levels + 1)) k.toJson k := by
  have hflags : Decoder.Reads CharFlags.read (.string k.flags.text) k.flags := by
    rintro w rfl
    simp only [Value.document, CharFlags.read, Decoder.accept, Except.mapError, bind, Except.bind,
      CharFlags.ofText?_text]
    rfl
  refine Decoder.reads_record [fun (c : CharClass) => { c with flags := k.flags },
    fun c => { c with extra := k.extra }] (.cons ?_ (.cons ?_ .nil)) (by simp) ?_ "CharClass" 0 {}
  · exact Decoder.sets_of_reads (fun flags (c : CharClass) => { c with flags }) rfl hflags
  · exact Decoder.sets_of_reads (fun extra (c : CharClass) => { c with extra }) rfl
      (Decoder.reads_text k.extra)
  · intro f hf g hg c
    simp only [List.mem_cons, List.not_mem_nil, or_false] at hf hg
    rcases hf with rfl | rfl <;> rcases hg with rfl | rfl <;> rfl

theorem Labels.reads (l : Labels) (levels : Nat) :
    Decoder.Reads (Labels.read (levels + 1)) l.toJson l := by
  have hfloat : Decoder.Reads (Decoder.optional Decoder.text)
      ((l.float.map Value.string).getD .null) l.float := by
    cases l.float with
    | none => exact Decoder.reads_optional_null _
    | some label => exact (Decoder.reads_text label).optional nofun
  refine Decoder.reads_record [fun (r : Labels) => { r with keyword := l.keyword },
    fun r => { r with punctuation := l.punctuation }, fun r => { r with delimiter := l.delimiter },
    fun r => { r with identifier := l.identifier }, fun r => { r with number := l.number },
    fun r => { r with float := l.float }, fun r => { r with unknown := l.unknown },
    fun r => { r with haltedMark := l.haltedMark }]
    (.cons ?_ (.cons ?_ (.cons ?_ (.cons ?_ (.cons ?_ (.cons ?_ (.cons ?_ (.cons ?_ .nil))))))))
    (by simp) ?_ "Labels" 0 {}
  · exact Decoder.sets_of_reads (fun keyword (r : Labels) => { r with keyword }) rfl
      (Decoder.reads_text _)
  · exact Decoder.sets_of_reads (fun punctuation (r : Labels) => { r with punctuation }) rfl
      (Decoder.reads_text _)
  · exact Decoder.sets_of_reads (fun delimiter (r : Labels) => { r with delimiter }) rfl
      (Decoder.reads_text _)
  · exact Decoder.sets_of_reads (fun identifier (r : Labels) => { r with identifier }) rfl
      (Decoder.reads_text _)
  · exact Decoder.sets_of_reads (fun number (r : Labels) => { r with number }) rfl
      (Decoder.reads_text _)
  · exact Decoder.sets_of_reads (fun float (r : Labels) => { r with float }) rfl hfloat
  · exact Decoder.sets_of_reads (fun unknown (r : Labels) => { r with unknown }) rfl
      (Decoder.reads_text _)
  · exact Decoder.sets_of_reads (fun haltedMark (r : Labels) => { r with haltedMark }) rfl
      (Decoder.reads_text _)
  · intro f hf g hg r
    simp only [List.mem_cons, List.not_mem_nil, or_false] at hf hg
    rcases hf with rfl | rfl | rfl | rfl | rfl | rfl | rfl | rfl <;>
      rcases hg with rfl | rfl | rfl | rfl | rfl | rfl | rfl | rfl <;> rfl

theorem ConflictPolicy.reads (policy : ConflictPolicy) (levels : Nat) :
    Decoder.Reads (ConflictPolicy.read levels) (.string policy.name) policy := by
  rintro w rfl
  cases policy <;> rfl

/-! ### Definitions -/

theorem Json.Value.eq_of_rearrangesItems_string {literals : List String} {ws : List Value}
    (h : Value.RearrangesItems (literals.map .string) ws) : ws = literals.map .string := by
  induction literals generalizing ws with
  | nil => exact h
  | cons s literals ih =>
    obtain ⟨w, rest, rfl, hrest, rfl⟩ := h
    rw [ih hrest]
    rfl

theorem stringItems?_documents (literals : List String) :
    stringItems? (Value.documents (literals.map .string)) = some literals := by
  induction literals with
  | nil => rfl
  | cons s literals ih =>
    rw [List.map_cons, Value.documents, Value.document, stringItems?, ih]
    rfl

theorem readItemsFlaw_documents (literals : List String) (levels : Nat) :
    Document.readItemsFlaw levels (Value.documents (literals.map .string)) = none := by
  induction literals with
  | nil => rfl
  | cons s literals ih =>
    rw [List.map_cons, Value.documents, Value.document, Document.readItemsFlaw, ih]
    rfl

/-- Literals are taken in whole and read as they were written. -/
theorem Matches.ofDocument?_document {group : Matches} {levels : Nat}
    (hdepth : group.toJson.depth ≤ levels) {w : Value} (hw : group.toJson.Rearranges w) :
    w.document.readFlaw levels = none ∧ Matches.ofDocument? w.document = some group := by
  cases group with
  | one literal =>
    obtain rfl : w = .string literal := hw
    exact ⟨rfl, rfl⟩
  | many literals =>
    obtain ⟨ws, hws, rfl⟩ := hw
    obtain rfl := Value.eq_of_rearrangesItems_string hws
    obtain ⟨levels, rfl⟩ := Nat.exists_eq_add_of_le' (Nat.le_trans (Nat.le_add_left 1 _) hdepth)
    rw [Value.document, Document.readFlaw, readItemsFlaw_documents, Matches.ofDocument?,
      stringItems?_documents]
    exact ⟨rfl, rfl⟩

theorem Definition.reads {definition : Definition} {levels : Nat}
    (hdepth : definition.toJson.depth ≤ levels) :
    Decoder.Reads (Definition.read levels) definition.toJson definition := by
  cases definition with
  | bare literal =>
    rintro w rfl
    rfl
  | named label group =>
    rintro w ⟨gs, hs, ⟨-, -, ⟨-, rfl, rfl⟩, ⟨-, -, ⟨w, hw, rfl⟩, rfl, rfl⟩, rfl⟩, hperm, rfl⟩
    obtain ⟨levels, rfl⟩ := Nat.exists_eq_add_of_le' (Nat.le_trans (Nat.le_add_left 1 _) hdepth)
    have hgroup : group.toJson.depth ≤ levels := by
      simp only [Definition.toJson, Value.depth, Value.depthOfFields, Value.depthOfField] at hdepth
      omega
    obtain ⟨hflaw, hform⟩ := Matches.ofDocument?_document hgroup hw
    have horder : hs ∈ [[("type", .string label), ("matches", w)],
        [("matches", w), ("type", .string label)]] := List.mem_permutations'.2 hperm.symm
    simp only [List.mem_cons, List.not_mem_nil, or_false] at horder
    have hreads (es : List (Entry Document)) (hes : Document.readEntriesFlaw levels es = none)
        (hof : Definition.ofDocument? (.object es none) = some (.named label group)) :
        Definition.read (levels + 1) (.object es none) = .ok (.named label group) := by
      rw [Definition.read, readForm, Document.readFlaw, hes, hof]
      rfl
    have hother : Document.readEntryFlaw levels (Value.entry ("type", .string label)) = none := rfl
    have hvalue : Document.readEntryFlaw levels (Value.entry ("matches", w)) = none := hflaw
    rcases horder with rfl | rfl <;> refine hreads _ ?_ ?_
    · simp only [Value.entries, Document.readEntriesFlaw, hother, hvalue]
      rfl
    · exact congrArg (Functor.map (Definition.named label)) hform
    · simp only [Value.entries, Document.readEntriesFlaw, hother, hvalue]
      rfl
    · exact congrArg (Functor.map (Definition.named label)) hform

theorem Json.Value.depth_le_of_mem {v : Value} {vs : List Value} (h : v ∈ vs) :
    v.depth ≤ Value.depthOfItems vs := by
  induction vs with
  | nil => cases h
  | cons w vs ih =>
    rw [Value.depthOfItems]
    rcases List.mem_cons.1 h with rfl | h
    · exact Nat.le_max_left ..
    · exact Nat.le_trans (ih h) (Nat.le_max_right ..)

theorem Json.Value.depth_le_of_mem_fields {v : Value} {fs : List (String × Value)} (name : String)
    (h : (name, v) ∈ fs) : v.depth ≤ Value.depthOfFields fs := by
  induction fs with
  | nil => cases h
  | cons g fs ih =>
    rw [Value.depthOfFields]
    rcases List.mem_cons.1 h with rfl | h
    · exact Nat.le_max_left ..
    · exact Nat.le_trans (ih h) (Nat.le_max_right ..)

theorem reads_definitions {definitions : List Definition} {levels : Nat}
    (hdepth : (definitionsToJson definitions).depth ≤ levels) :
    Decoder.Reads (readDefinitions levels) (definitionsToJson definitions) definitions := by
  obtain ⟨levels, rfl⟩ := Nat.exists_eq_add_of_le' (Nat.le_trans (Nat.le_add_left 1 _) hdepth)
  have hitems := Nat.le_of_succ_le_succ hdepth
  refine Decoder.reads_list (List.forall₂_map_left_iff.2 (List.forall₂_same.2 fun d hd => ?_))
  exact Definition.reads (Nat.le_trans (Value.depth_le_of_mem (List.mem_map_of_mem hd)) hitems)

/-! ### Matchers and grammars -/

section

variable {α β : Type} {fields : List (Decoder.Field α)} {name : String}

/-- A field that is left out if there is nothing to write. -/
theorem sets_presentField {decoder : Decoder β} {write : β → Value} {value : Option β}
    (change : Option β → α → α)
    (hfield : fields.find? (·.name == name) =
      some ⟨name, fun record d => return change (← Decoder.optional decoder d) record⟩)
    (h : ∀ x ∈ value, Decoder.Reads decoder (write x) x ∧ write x ≠ .null) :
    List.Forall₂ (Decoder.Sets fields) (presentField name (value.map write))
      (value.toList.map fun _ => change value) := by
  cases value with
  | none => exact .nil
  | some x =>
    obtain ⟨hreads, hnull⟩ := h x rfl
    exact .cons (Decoder.sets_of_reads change hfield (hreads.optional hnull)) .nil

end

theorem interiorToJson_eq_map (interior : Option Grammar) :
    interiorToJson interior = interior.map Grammar.toJson := by
  cases interior <;> rfl

theorem matchersToJson_eq_map (ms : List (GreedyMatcher Grammar)) :
    matchersToJson ms = ms.map matcherToJson := by
  induction ms with
  | nil => rfl
  | cons m ms ih => rw [matchersToJson, ih, List.map_cons]

/-- A matcher is read if its interior grammar is. -/
theorem reads_matcher {m : GreedyMatcher Grammar} {levels : Nat}
    (hinterior : ∀ g ∈ m.subGrammar, Decoder.Reads (Grammar.read levels) g.toJson g) :
    Decoder.Reads (readMatcher (levels + 1)) (matcherToJson m) m := by
  obtain ⟨kind, startsWith, endsWith, haltsWith, escapesWith, interior⟩ := m
  have hstring : ∀ (value : Option String), ∀ s ∈ value,
      Decoder.Reads Decoder.text (.string s) s ∧ Value.string s ≠ .null := fun _ s _ =>
    ⟨Decoder.reads_text s, nofun⟩
  have hsets : List.Forall₂ (Decoder.Sets (PartialMatcher.fields (Grammar.read levels)))
      ([("type", .string kind), ("starts_with", .string startsWith)] ++
        presentField "ends_with" (endsWith.map .string) ++
        presentField "halts_with" (haltsWith.map .string) ++
        presentField "escapes_with" (escapesWith.map .string) ++
        presentField "sub_grammar" (interior.map Grammar.toJson))
      ([fun m => { m with kind := some kind }, fun m => { m with startsWith := some startsWith }] ++
        endsWith.toList.map (fun _ m => { m with endsWith }) ++
        haltsWith.toList.map (fun _ m => { m with haltsWith }) ++
        escapesWith.toList.map (fun _ m => { m with escapesWith }) ++
        interior.toList.map (fun _ m => { m with subGrammar := interior })) := by
    refine List.rel_append (List.rel_append (List.rel_append (List.rel_append
      (.cons ?_ (.cons ?_ .nil)) ?_) ?_) ?_) ?_
    · exact Decoder.sets_of_reads (fun kind (m : PartialMatcher) => { m with kind := some kind })
        rfl (Decoder.reads_text _)
    · exact Decoder.sets_of_reads
        (fun startsWith (m : PartialMatcher) => { m with startsWith := some startsWith })
        rfl (Decoder.reads_text _)
    · exact sets_presentField (fun endsWith (m : PartialMatcher) => { m with endsWith }) rfl
        (hstring _)
    · exact sets_presentField (fun haltsWith (m : PartialMatcher) => { m with haltsWith }) rfl
        (hstring _)
    · exact sets_presentField (fun escapesWith (m : PartialMatcher) => { m with escapesWith }) rfl
        (hstring _)
    · exact sets_presentField (fun subGrammar (m : PartialMatcher) => { m with subGrammar }) rfl
        fun g hg => ⟨hinterior g hg, by cases g; nofun⟩
  intro w hw
  have hrecord := Decoder.reads_record _ hsets ?_ ?_ "GreedyMatcher" 2 {} w
    (by rwa [matcherToJson, interiorToJson_eq_map] at hw)
  · rw [readMatcher]
    dsimp only
    rw [hrecord]
    cases endsWith <;> cases haltsWith <;> cases escapesWith <;> cases interior <;> rfl
  · cases endsWith <;> cases haltsWith <;> cases escapesWith <;> cases interior <;>
      simp [presentField]
  · intro f hf g hg m
    simp only [List.mem_append, List.mem_cons, List.not_mem_nil, or_false, List.mem_map] at hf hg
    rcases hf with ((((rfl | rfl) | ⟨-, -, rfl⟩) | ⟨-, -, rfl⟩) | ⟨-, -, rfl⟩) | ⟨-, -, rfl⟩ <;>
      rcases hg with ((((rfl | rfl) | ⟨-, -, rfl⟩) | ⟨-, -, rfl⟩) | ⟨-, -, rfl⟩) | ⟨-, -, rfl⟩ <;>
      rfl

/-- A grammar is read if its matchers are. -/
theorem reads_grammar {g : Grammar} {levels : Nat} (hdepth : g.toJson.depth ≤ levels + 1)
    (hmatchers : Decoder.Reads (readMatchers levels) (.array (matchersToJson g.greedyMatchers))
      g.greedyMatchers) :
    Decoder.Reads (Grammar.read (levels + 1)) g.toJson g := by
  obtain ⟨lexicon, matchers⟩ := g
  rw [Grammar.toJson] at hdepth ⊢
  have hfield (name : String) (v : Value) (hf : (name, v) ∈ _) : v.depth ≤ levels :=
    Nat.le_trans (Value.depth_le_of_mem_fields name hf) (Nat.le_of_succ_le_succ hdepth)
  have hlabels := hfield "labels" lexicon.labels.toJson (by simp)
  obtain ⟨levels, rfl⟩ := Nat.exists_eq_add_of_le' (Nat.le_trans (Nat.le_add_left 1 _) hlabels)
  refine Decoder.reads_record [fun (g : Grammar) => { g with keywords := lexicon.keywords },
    fun g => { g with punctuation := lexicon.punctuation },
    fun g => { g with delimiters := lexicon.delimiters },
    fun g => { g with greedyMatchers := matchers },
    fun g => { g with floatsHaveLeadingNumber := lexicon.floatsHaveLeadingNumber },
    fun g => { g with identifierStart := lexicon.identifierStart },
    fun g => { g with identifierContinue := lexicon.identifierContinue },
    fun g => { g with labels := lexicon.labels },
    fun g => { g with includeUnnamedDelimiters := lexicon.includeUnnamedDelimiters },
    fun g => { g with conflicts := lexicon.conflicts }]
    (.cons ?_ (.cons ?_ (.cons ?_ (.cons ?_ (.cons ?_ (.cons ?_ (.cons ?_ (.cons ?_
      (.cons ?_ (.cons ?_ .nil)))))))))) (by simp) ?_ "GrammarConfig" 0 {}
  · exact Decoder.sets_of_reads (fun keywords (g : Grammar) => { g with keywords }) rfl
      (reads_definitions (hfield "keywords" _ (by simp)))
  · exact Decoder.sets_of_reads (fun punctuation (g : Grammar) => { g with punctuation }) rfl
      (reads_definitions (hfield "punctuation" _ (by simp)))
  · exact Decoder.sets_of_reads (fun delimiters (g : Grammar) => { g with delimiters }) rfl
      (reads_definitions (hfield "delimiters" _ (by simp)))
  · exact Decoder.sets_of_reads (fun greedyMatchers (g : Grammar) => { g with greedyMatchers }) rfl
      hmatchers
  · exact Decoder.sets_of_reads
      (fun floatsHaveLeadingNumber (g : Grammar) => { g with floatsHaveLeadingNumber }) rfl
      (Decoder.reads_truth _)
  · exact Decoder.sets_of_reads (fun identifierStart (g : Grammar) => { g with identifierStart })
      rfl (CharClass.reads _ _)
  · exact Decoder.sets_of_reads
      (fun identifierContinue (g : Grammar) => { g with identifierContinue }) rfl
      (CharClass.reads _ _)
  · exact Decoder.sets_of_reads (fun labels (g : Grammar) => { g with labels }) rfl
      (Labels.reads _ _)
  · exact Decoder.sets_of_reads
      (fun includeUnnamedDelimiters (g : Grammar) => { g with includeUnnamedDelimiters }) rfl
      (Decoder.reads_truth _)
  · exact Decoder.sets_of_reads (fun conflicts (g : Grammar) => { g with conflicts }) rfl
      (ConflictPolicy.reads _ _)
  · intro f hf h hh g
    simp only [List.mem_cons, List.not_mem_nil, or_false] at hf hh
    rcases hf with rfl | rfl | rfl | rfl | rfl | rfl | rfl | rfl | rfl | rfl <;>
      rcases hh with rfl | rfl | rfl | rfl | rfl | rfl | rfl | rfl | rfl | rfl <;> rfl

/-- Grammars are read at every depth, with the grammars of their interiors. -/
theorem reads_levels (levels : Nat) :
    (∀ g : Grammar, g.toJson.depth ≤ levels → Decoder.Reads (Grammar.read levels) g.toJson g) ∧
    (∀ ms, (Value.array (matchersToJson ms)).depth ≤ levels →
      Decoder.Reads (readMatchers levels) (.array (matchersToJson ms)) ms) ∧
    (∀ m, (matcherToJson m).depth ≤ levels →
      Decoder.Reads (readMatcher levels) (matcherToJson m) m) := by
  induction levels with
  | zero =>
    refine ⟨fun g hdepth => ?_, fun ms hdepth => ?_, fun m hdepth => ?_⟩
    · obtain ⟨lexicon, matchers⟩ := g
      exact absurd hdepth (Nat.not_succ_le_zero _)
    · exact absurd hdepth (Nat.not_succ_le_zero _)
    · obtain ⟨kind, startsWith, endsWith, haltsWith, escapesWith, interior⟩ := m
      exact absurd hdepth (Nat.not_succ_le_zero _)
  | succ levels ih =>
    obtain ⟨hgrammar, hmatchers, hmatcher⟩ := ih
    refine ⟨fun g hdepth => reads_grammar hdepth (hmatchers _ ?_), fun ms hdepth => ?_,
      fun m hdepth => reads_matcher fun g hg => hgrammar g ?_⟩
    · obtain ⟨lexicon, matchers⟩ := g
      refine Nat.le_trans (Value.depth_le_of_mem_fields "greedy_matchers" ?_)
        (Nat.le_of_succ_le_succ hdepth)
      simp
    · rw [matchersToJson_eq_map] at hdepth ⊢
      refine Decoder.reads_list (List.forall₂_map_left_iff.2 (List.forall₂_same.2 fun m hm => ?_))
      exact hmatcher m (Nat.le_trans (Value.depth_le_of_mem (List.mem_map_of_mem hm))
        (Nat.le_of_succ_le_succ hdepth))
    · obtain ⟨kind, startsWith, endsWith, haltsWith, escapesWith, interior⟩ := m
      obtain rfl : interior = some g := hg
      refine Nat.le_trans (Value.depth_le_of_mem_fields "sub_grammar" ?_)
        (Nat.le_of_succ_le_succ hdepth)
      simp [presentField, interiorToJson]

namespace Grammar

/-- A valid grammar is read from its text, in whatever order the fields of the objects stand and
whatever blanks are around their parts. -/
theorem ofText?_toJson {g : Grammar} (hvalid : g.validate = .ok ())
    (hdepth : g.toJson.depth ≤ Decoder.maxLevels) {v : Value} (hv : g.toJson.Rearranges v) :
    ofText? v.render = .ok g ∧
      ∀ text : String, Value.Padded v.Spells text.toList → ofText? text = .ok g := by
  have hspells (text : String) (htext : Value.Padded v.Spells text.toList) :
      ofText? text = .ok g := by
    have hread := (reads_levels Decoder.maxLevels).1 g hdepth v hv
    rw [ofText?, parse?, Decoder.decode_of_spells _ htext, hread]
    exact congrArg (· >>= fun _ => .ok g) hvalid
  refine ⟨hspells _ ?_, hspells⟩
  rw [Value.render, String.toList_ofList]
  exact Value.padded_of_spells (Value.spells_renderChars v)

/-- Literals of one label, bits without a name, a character that is escaped, and an interior. -/
def motley : Grammar where
  keywords := [.named "loop" (.many ["for", "while"]), .bare "é\n"]
  identifierStart := ⟨⟨0xc1⟩, "\"_"⟩
  greedyMatchers := [{
    kind := "text", startsWith := "'", endsWith := some "'"
    subGrammar := some { delimiters := [.bare " "], conflicts := .reject } }]

/-- The fields stand in the opposite order. -/
theorem ofText?_motley : ∃ fields, motley.toJson = .object fields ∧
    ofText? (Value.object fields.reverse).render = .ok motley := by
  refine ⟨_, rfl, (ofText?_toJson (g := motley) (by decide +kernel) (by decide +kernel) ?_).1⟩
  exact ⟨_, _, Value.rearrangesFields_self _, (List.reverse_perm _).symm, rfl⟩

end Grammar

end TrieLexer
