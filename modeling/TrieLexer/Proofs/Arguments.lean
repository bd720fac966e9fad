import TrieLexer.CommandLine.Options
import Mathlib.Data.Nat.Digits.Defs
import Mathlib.Data.List.Basic
import Mathlib.Data.List.Induction

/-!
# Arguments in any order

Arguments are taken in from the left. The first one that offends against those before it is what
the whole line is refused for. Where none offends, each choice is made by the last flag that makes
it, so the path and flags of different kinds may change places.

## Main definitions

* `Options.IsCount` — the texts that stand for a positive count.
* `Options.Offends` — the arguments that are refused after others.
* `Options.Makes` — the choices that flags make.
* `Options.Outcome` — what becomes of arguments.

## Main results

* `parseCount?_eq_some_iff` — which texts are read as counts.
* `Options.Pending.Reflects.add` — one argument is taken in or offends.
* `Options.exists_reflects` — a line is taken in up to its first offence.
* `Options.parsing` — what becomes of arguments, and that order matters within a kind only.
-/

namespace TrieLexer

/-! ### Forms of arguments -/

namespace Argument

/-- The argument is no flag. -/
def IsInput (text : String) : Prop := text.toList.head? ≠ some '-'

/-- The argument is a flag that chooses a grammar. -/
def IsGrammarFlag (text : String) : Prop :=
  "--preset=".toList <+: text.toList ∨ "--grammar=".toList <+: text.toList

/-- The argument is a flag that chooses the length of pieces. -/
def IsChunkFlag (text : String) : Prop := "--chunk=".toList <+: text.toList

instance : DecidablePred IsInput := fun _ => inferInstanceAs (Decidable (_ ≠ _))

instance : DecidablePred IsGrammarFlag := fun _ => inferInstanceAs (Decidable (_ ∨ _))

instance : DecidablePred IsChunkFlag := fun _ => inferInstanceAs (Decidable (_ <+: _))

theorem after?_eq_some_iff {lead text rest : String} :
    after? lead text = some rest ↔ text = lead ++ rest := by
  rw [after?, Option.map_eq_some_iff]
  constructor
  · rintro ⟨cs, hcs, rfl⟩
    rw [← String.toList_inj, String.toList_append, String.toList_ofList]
    exact (List.isPrefixOf?_eq_some_iff_append_eq.1 hcs).symm
  · rintro rfl
    exact ⟨rest.toList, List.isPrefixOf?_eq_some_iff_append_eq.2 String.toList_append.symm,
      String.ofList_toList⟩

theorem after?_eq_none_iff {lead text : String} :
    after? lead text = none ↔ ¬ lead.toList <+: text.toList := by
  rw [after?, Option.map_eq_none_iff, Option.eq_none_iff_forall_ne_some]
  simp only [ne_eq, List.isPrefixOf?_eq_some_iff_append_eq, List.IsPrefix, not_exists]

/-- One of two leads does not begin a text that the other begins, if none is the beginning of the
other. -/
theorem after?_eq_none_of_lead {lead lead' : String} (rest : String)
    (h : ¬ lead.toList <+: lead'.toList) (h' : ¬ lead'.toList <+: lead.toList) :
    after? lead (lead' ++ rest) = none := by
  rw [after?_eq_none_iff, String.toList_append]
  intro hlead
  exact (List.prefix_or_prefix_of_prefix hlead (List.prefix_append ..)).elim h h'

theorem ofText_preset (name : String) : ofText ("--preset=" ++ name) = .preset name := by
  rw [ofText, after?_eq_some_iff.2 rfl]

theorem ofText_grammar (path : String) : ofText ("--grammar=" ++ path) = .grammar path := by
  rw [ofText, after?_eq_none_of_lead path (by decide) (by decide), after?_eq_some_iff.2 rfl]

theorem ofText_chunk (value : String) : ofText ("--chunk=" ++ value) = .chunk value := by
  rw [ofText, after?_eq_none_of_lead value (by decide) (by decide),
    after?_eq_none_of_lead value (by decide) (by decide), after?_eq_some_iff.2 rfl]

theorem ofText_json : ofText "--json" = .json := by
  decide

/-- An argument that none of the known leads begins. -/
theorem ofText_of_plain {text : String} (hgrammar : ¬ IsGrammarFlag text)
    (hchunk : ¬ IsChunkFlag text) (hjson : text ≠ "--json") :
    ofText text = if IsInput text then .input text else .unknownFlag text := by
  obtain ⟨hpreset, hfile⟩ := not_or.1 hgrammar
  rw [ofText, after?_eq_none_iff.2 hpreset, after?_eq_none_iff.2 hfile, after?_eq_none_iff.2 hchunk]
  simp only [if_neg hjson]
  by_cases hinput : IsInput text
  · rw [if_neg hinput, if_pos hinput]
  · rw [if_pos (not_not.1 hinput), if_neg hinput]

theorem IsInput.not_flag {text : String} (h : IsInput text) :
    ¬ IsGrammarFlag text ∧ ¬ IsChunkFlag text ∧ text ≠ "--json" := by
  have hlead : ∀ lead : List Char, lead.head? = some '-' → ¬ lead <+: text.toList := by
    rintro lead hhead ⟨rest, hrest⟩
    rw [IsInput, ← hrest, List.head?_append, hhead] at h
    exact h rfl
  refine ⟨fun hflag => hflag.elim (hlead _ (by decide)) (hlead _ (by decide)),
    hlead _ (by decide), fun hjson => hlead "--json".toList (by decide) ⟨[], ?_⟩⟩
  rw [hjson, List.append_nil]

/-- The form of an argument, by how it is written. -/
inductive Written (text : String) : Argument → Prop
  | preset {name : String} (h : text = "--preset=" ++ name) : Written text (.preset name)
  | grammar {path : String} (h : text = "--grammar=" ++ path) : Written text (.grammar path)
  | chunk {value : String} (h : text = "--chunk=" ++ value) : Written text (.chunk value)
  | json (h : text = "--json") : Written text .json
  | unknownFlag (hdash : ¬ IsInput text) (hgrammar : ¬ IsGrammarFlag text)
      (hchunk : ¬ IsChunkFlag text) (hjson : text ≠ "--json") : Written text (.unknownFlag text)
  | input (h : IsInput text) : Written text (.input text)

theorem Written.ofText_eq {text : String} {a : Argument} (h : Written text a) :
    ofText text = a := by
  cases h with
  | preset h => rw [h, ofText_preset]
  | grammar h => rw [h, ofText_grammar]
  | chunk h => rw [h, ofText_chunk]
  | json h => rw [h, ofText_json]
  | unknownFlag hdash hgrammar hchunk hjson =>
    rw [ofText_of_plain hgrammar hchunk hjson, if_neg hdash]
  | input h => rw [ofText_of_plain h.not_flag.1 h.not_flag.2.1 h.not_flag.2.2, if_pos h]

theorem exists_of_lead {lead text : String} (h : lead.toList <+: text.toList) :
    ∃ rest, text = lead ++ rest := by
  obtain ⟨rest, hrest⟩ := h
  exact ⟨String.ofList rest, by
    rw [← String.toList_inj, String.toList_append, String.toList_ofList, hrest]⟩

theorem exists_written (text : String) : ∃ a, Written text a := by
  by_cases hgrammar : IsGrammarFlag text
  · rcases hgrammar with hpreset | hfile
    · obtain ⟨name, h⟩ := exists_of_lead hpreset
      exact ⟨_, .preset h⟩
    · obtain ⟨path, h⟩ := exists_of_lead hfile
      exact ⟨_, .grammar h⟩
  by_cases hchunk : IsChunkFlag text
  · obtain ⟨value, h⟩ := exists_of_lead hchunk
    exact ⟨_, .chunk h⟩
  by_cases hjson : text = "--json"
  · exact ⟨_, .json hjson⟩
  by_cases hinput : IsInput text
  · exact ⟨_, .input hinput⟩
  · exact ⟨_, .unknownFlag hinput hgrammar hchunk hjson⟩

theorem written_ofText (text : String) : Written text (ofText text) := by
  obtain ⟨a, h⟩ := exists_written text
  exact h.ofText_eq.symm ▸ h

theorem written_of_eq {text : String} {a : Argument} (h : ofText text = a) : Written text a :=
  h ▸ written_ofText text

theorem isInput_iff {text : String} : IsInput text ↔ ∃ path, ofText text = .input path := by
  refine ⟨fun h => ⟨text, (Written.input h).ofText_eq⟩, fun ⟨path, h⟩ => ?_⟩
  cases written_of_eq h with
  | input hinput => exact hinput

theorem isGrammarFlag_iff {text : String} : IsGrammarFlag text ↔
    (∃ name, ofText text = .preset name) ∨ ∃ path, ofText text = .grammar path := by
  constructor
  · rintro (h | h)
    · obtain ⟨name, rfl⟩ := exists_of_lead h
      exact .inl ⟨name, ofText_preset name⟩
    · obtain ⟨path, rfl⟩ := exists_of_lead h
      exact .inr ⟨path, ofText_grammar path⟩
  · rintro (⟨name, h⟩ | ⟨path, h⟩)
    · cases written_of_eq h with
      | preset h => exact .inl ⟨name.toList, by rw [h, String.toList_append]⟩
    · cases written_of_eq h with
      | grammar h => exact .inr ⟨path.toList, by rw [h, String.toList_append]⟩

theorem isChunkFlag_iff {text : String} :
    IsChunkFlag text ↔ ∃ value, ofText text = .chunk value := by
  constructor
  · intro h
    obtain ⟨value, rfl⟩ := exists_of_lead h
    exact ⟨value, ofText_chunk value⟩
  · rintro ⟨value, h⟩
    cases written_of_eq h with
    | chunk h => exact ⟨value.toList, by rw [h, String.toList_append]⟩

theorem eq_json_iff {text : String} : text = "--json" ↔ ofText text = .json := by
  refine ⟨fun h => (Written.json h).ofText_eq, fun h => ?_⟩
  cases written_of_eq h with
  | json h => exact h

end Argument

/-! ### Counts -/

/-- The characters are decimal digits, and the number that they stand for is below `2 ^ 64`. -/
def IsNumeral (digits : List Char) (n : Nat) : Prop :=
  digits ≠ [] ∧ (∀ c ∈ digits, c.isDigit) ∧
    Nat.ofDigits 10 (digits.reverse.map fun c => c.toNat - '0'.toNat) = n ∧ n < 2 ^ 64

/-- The text is a numeral, perhaps after a plus sign. -/
def IsCount (text : String) (n : Nat) : Prop :=
  IsNumeral text.toList n ∨ ∃ digits, text.toList = '+' :: digits ∧ IsNumeral digits n

/-- Reading digits from the left gives the number that they stand for. -/
theorem foldl_digits (digits : List Char) :
    digits.foldl (fun n c => 10 * n + (c.toNat - '0'.toNat)) 0 =
      Nat.ofDigits 10 (digits.reverse.map fun c => c.toNat - '0'.toNat) := by
  rw [Nat.ofDigits_eq_foldr, List.foldr_map, List.foldr_reverse]
  simp only [Nat.cast_id, Nat.add_comm]

theorem not_isNumeral_plus (digits : List Char) (n : Nat) : ¬ IsNumeral ('+' :: digits) n :=
  fun h => absurd (h.2.1 '+' List.mem_cons_self) (by decide)

theorem isNumeral_iff {digits : List Char} {n : Nat} :
    (if digits.isEmpty || !digits.all Char.isDigit then none
      else
        let n := digits.foldl (fun n c => 10 * n + (c.toNat - '0'.toNat)) 0
        if n < UInt64.size then some n else none) = some n ↔ IsNumeral digits n := by
  simp only [foldl_digits, show UInt64.size = 2 ^ 64 from rfl, IsNumeral]
  by_cases hdigits : digits ≠ [] ∧ ∀ c ∈ digits, c.isDigit
  · rw [if_neg (by simpa using hdigits), Option.ite_none_right_eq_some, Option.some.injEq]
    constructor
    · rintro ⟨hn, rfl⟩
      exact ⟨hdigits.1, hdigits.2, rfl, hn⟩
    · rintro ⟨-, -, rfl, hn⟩
      exact ⟨hn, rfl⟩
  · rw [if_pos (by simpa [or_iff_not_imp_left] using hdigits)]
    exact ⟨nofun, fun h => absurd ⟨h.1, h.2.1⟩ hdigits⟩

theorem parseCount?_eq_some_iff {text : String} {n : Nat} :
    parseCount? text = some n ↔ IsCount text n := by
  rw [parseCount?, isNumeral_iff, IsCount]
  split
  · next digits h =>
    rw [h]
    simp only [not_isNumeral_plus, false_or, List.cons.injEq, true_and, exists_eq_left']
  · next h =>
    exact ⟨.inl, fun hn => hn.resolve_right fun ⟨digits, hplus, _⟩ => h digits hplus⟩

theorem IsCount.unique {text : String} {n m : Nat} (hn : IsCount text n) (hm : IsCount text m) :
    n = m :=
  Option.some.inj ((parseCount?_eq_some_iff.2 hn).symm.trans (parseCount?_eq_some_iff.2 hm))

/-! ### What arguments say -/

namespace Options

open Argument

/-- Why an argument is refused after the ones before it. -/
inductive Offends (before : List String) (text : String) : OptionError → Prop
  | preset {name : String} (hname : text = "--preset=" ++ name)
      (hunknown : ∀ p : Preset, p.name ≠ name) : Offends before text (.unknownPreset name)
  | chunk {value : String} (hvalue : text = "--chunk=" ++ value)
      (hcount : ∀ n, IsCount value n → n = 0) : Offends before text (.badChunk value)
  | flag (hdash : ¬ IsInput text) (hgrammar : ¬ IsGrammarFlag text) (hchunk : ¬ IsChunkFlag text)
      (hjson : text ≠ "--json") : Offends before text (.unknownFlag text)
  | extra (hinput : IsInput text) (hbefore : ∃ path ∈ before, IsInput path) :
      Offends before text (.extraArgument text)

/-- No argument offends after those before it. -/
def Innocent (arguments : List String) : Prop :=
  ∀ before text after error, arguments = before ++ text :: after → ¬ Offends before text error

/-- The source that a flag names. -/
inductive Names (flag : String) : GrammarSource → Prop
  | preset (p : Preset) (h : flag = "--preset=" ++ p.name) : Names flag (.preset p)
  | file (path : String) (h : flag = "--grammar=" ++ path) : Names flag (.file path)

/-- The length of pieces that a flag asks for. -/
inductive Measures (flag : String) : Option Nat → Prop
  | bytes {value : String} {n : Nat} (h : flag = "--chunk=" ++ value) (hpos : 0 < n)
      (hcount : IsCount value n) : Measures flag (some n)

/-- The last of some flags tells the choice, and without flags it is the usual one. -/
def Last {α : Type} (tells : String → α → Prop) (usual : α) (flags : List String) (choice : α) :
    Prop :=
  match flags.getLast? with
  | none => choice = usual
  | some flag => tells flag choice

/-- The choices that flags make. -/
structure Makes (arguments : List String) (source : GrammarSource) (chunk : Option Nat)
    (json : Bool) : Prop where
  grammar : Last Names (.preset .common) (arguments.filter (IsGrammarFlag ·)) source
  chunk : Last Measures none (arguments.filter (IsChunkFlag ·)) chunk
  json : json = true ↔ "--json" ∈ arguments

/-- What becomes of arguments. -/
inductive Outcome : List String → Except OptionError Options → Prop
  | refused {before after : List String} {text : String} {error : OptionError}
      (hbefore : Innocent before) (h : Offends before text error) :
      Outcome (before ++ text :: after) (.error error)
  | missing {arguments : List String} (h : Innocent arguments)
      (hnone : ∀ text ∈ arguments, ¬ IsInput text) : Outcome arguments (.error .missingPath)
  | accepted {arguments : List String} {o : Options} (h : Innocent arguments)
      (hpath : arguments.filter (IsInput ·) = [o.path])
      (hmakes : Makes arguments o.grammar o.chunk o.json) : Outcome arguments (.ok o)

/-- The choices so far are those that the arguments so far make. -/
structure Pending.Reflects (p : Pending) (arguments : List String) : Prop where
  path : arguments.filter (IsInput ·) = p.path.toList
  makes : Makes arguments p.grammar p.chunk p.json

theorem reflects_start : ({} : Pending).Reflects [] :=
  ⟨rfl, rfl, rfl, by simp only [List.not_mem_nil, Bool.false_eq_true]⟩

section Last

variable {α : Type} {tells : String → α → Prop} {usual choice choice' : α}

theorem Last.concat {flags : List String} {p : String → Prop} [DecidablePred p] {flag : String}
    (h : Last tells usual (flags.filter (p ·)) choice)
    (hflag : if p flag then tells flag choice' else choice' = choice) :
    Last tells usual ((flags ++ [flag]).filter (p ·)) choice' := by
  rw [List.filter_append]
  by_cases hp : p flag
  · rw [if_pos hp] at hflag
    rw [List.filter_cons_of_pos (by simpa using hp), List.filter_nil, Last, List.getLast?_concat]
    exact hflag
  · rw [if_neg hp] at hflag
    rw [List.filter_cons_of_neg (by simpa using hp), List.filter_nil, List.append_nil, hflag]
    exact h

theorem Last.unique {flags : List String} (h : Last tells usual flags choice)
    (h' : Last tells usual flags choice')
    (htells : ∀ flag, tells flag choice → tells flag choice' → choice = choice') :
    choice = choice' := by
  rw [Last] at h h'
  cases hlast : flags.getLast? with
  | none =>
    rw [hlast] at h h'
    exact h.trans h'.symm
  | some flag =>
    rw [hlast] at h h'
    exact htells flag h h'

end Last

theorem Makes.concat {arguments : List String} {source source' : GrammarSource}
    {chunk chunk' : Option Nat} {json json' : Bool} (h : Makes arguments source chunk json)
    {text : String} (hgrammar : if IsGrammarFlag text then Names text source' else source' = source)
    (hchunk : if IsChunkFlag text then Measures text chunk' else chunk' = chunk)
    (hjson : json' = true ↔ json = true ∨ text = "--json") :
    Makes (arguments ++ [text]) source' chunk' json' where
  grammar := h.grammar.concat hgrammar
  chunk := h.chunk.concat hchunk
  json := by
    rw [hjson, h.json, List.mem_append, List.mem_singleton, eq_comm (a := text)]

/-- A name chooses the preset that bears it, or it is refused. -/
theorem add_preset (p : Pending) (name : String) :
    (∃ preset : Preset, preset.name = name ∧
        p.add (.preset name) = .ok { p with grammar := .preset preset }) ∨
      (∀ preset : Preset, preset.name ≠ name) ∧
        p.add (.preset name) = .error (.unknownPreset name) := by
  rw [Pending.add]
  cases hfound : Preset.ofName? name with
  | none =>
    refine .inr ⟨?_, rfl⟩
    rintro preset rfl
    rw [Preset.ofName?_name] at hfound
    cases hfound
  | some preset =>
    have hname : preset.name = name := by simpa using List.find?_some hfound
    exact .inl ⟨preset, hname, rfl⟩

/-- A positive count is the length of pieces, or the value is refused. -/
theorem add_chunk (p : Pending) (value : String) :
    (∃ n, 0 < n ∧ IsCount value n ∧ p.add (.chunk value) = .ok { p with chunk := some n }) ∨
      (∀ n, IsCount value n → n = 0) ∧ p.add (.chunk value) = .error (.badChunk value) := by
  simp only [← parseCount?_eq_some_iff, Pending.add]
  rcases parseCount? value with _ | _ | n
  · exact .inr ⟨nofun, rfl⟩
  · exact .inr ⟨fun n h => (Option.some.inj h).symm, rfl⟩
  · exact .inl ⟨n + 1, Nat.succ_pos n, rfl, rfl⟩

theorem offends_iff {before : List String} {text : String} {error : OptionError} :
    Offends before text error ↔
      match ofText text with
      | .preset name => (∀ p : Preset, p.name ≠ name) ∧ error = .unknownPreset name
      | .chunk value => (∀ n, IsCount value n → n = 0) ∧ error = .badChunk value
      | .unknownFlag flag => error = .unknownFlag flag
      | .input path => (∃ path ∈ before, IsInput path) ∧ error = .extraArgument path
      | .grammar _ | .json => False := by
  constructor
  · intro h
    cases h with
    | preset hname hunknown =>
      rw [(Written.preset hname).ofText_eq]
      exact ⟨hunknown, rfl⟩
    | chunk hvalue hcount =>
      rw [(Written.chunk hvalue).ofText_eq]
      exact ⟨hcount, rfl⟩
    | flag hdash hgrammar hchunk hjson =>
      rw [(Written.unknownFlag hdash hgrammar hchunk hjson).ofText_eq]
    | extra hinput hbefore =>
      rw [(Written.input hinput).ofText_eq]
      exact ⟨hbefore, rfl⟩
  · have hwritten := written_ofText text
    generalize ofText text = form at hwritten
    cases hwritten with
    | preset hname =>
      rintro ⟨hunknown, rfl⟩
      exact .preset hname hunknown
    | grammar => exact False.elim
    | chunk hvalue =>
      rintro ⟨hcount, rfl⟩
      exact .chunk hvalue hcount
    | json => exact False.elim
    | unknownFlag hdash hgrammar hchunk hjson =>
      rintro rfl
      exact .flag hdash hgrammar hchunk hjson
    | input hinput =>
      rintro ⟨hbefore, rfl⟩
      exact .extra hinput hbefore

namespace Pending

theorem Reflects.take_flag {p q : Pending} {before : List String} (h : p.Reflects before)
    {text : String} (hflag : ¬ IsInput text) (hpath : q.path = p.path)
    (hmakes : Makes (before ++ [text]) q.grammar q.chunk q.json) :
    q.Reflects (before ++ [text]) where
  path := by
    rw [List.filter_append, List.filter_cons_of_neg (by simpa using hflag), List.filter_nil,
      List.append_nil, h.path, hpath]
  makes := hmakes

/-- The first input is the path, and a second one offends. -/
theorem Reflects.add_input {p : Pending} {before : List String} (h : p.Reflects before)
    {text : String} (hinput : IsInput text) :
    (p.add (.input text) = .ok { p with path := some text } ∧
        Reflects { p with path := some text } (before ++ [text]) ∧
        ¬ ∃ path ∈ before, IsInput path) ∨
      p.add (.input text) = .error (.extraArgument text) ∧ ∃ path ∈ before, IsInput path := by
  have hinputs := h.path
  obtain ⟨hgrammar, hchunk, hjson⟩ := hinput.not_flag
  rw [Pending.add]
  cases hp : p.path with
  | some path =>
    have hmem : path ∈ before.filter (IsInput ·) := by
      rw [hinputs, hp]
      exact List.mem_singleton_self path
    rw [List.mem_filter, decide_eq_true_iff] at hmem
    exact .inr ⟨rfl, path, hmem⟩
  | none =>
    rw [hp, Option.toList_none] at hinputs
    refine .inl ⟨rfl, ⟨?_, h.makes.concat ?_ ?_ ?_⟩, ?_⟩
    · rw [List.filter_append, hinputs, List.filter_cons_of_pos (by simpa using hinput)]
      rfl
    · rw [if_neg hgrammar]
    · rw [if_neg hchunk]
    · simp [hjson]
    · rintro ⟨path, hmem, hpath⟩
      rw [List.filter_eq_nil_iff] at hinputs
      exact hinputs path hmem (decide_eq_true hpath)

/-- One argument is taken in or offends. -/
theorem Reflects.add {p : Pending} {before : List String} (h : p.Reflects before) (text : String) :
    (∃ p', p.add (ofText text) = .ok p' ∧ p'.Reflects (before ++ [text]) ∧
        ∀ error, ¬ Offends before text error) ∨
      ∃ error, p.add (ofText text) = .error error ∧ Offends before text error := by
  simp only [offends_iff]
  have hinput := @isInput_iff text
  have hgrammar := @isGrammarFlag_iff text
  have hchunk := @isChunkFlag_iff text
  have hjson := @eq_json_iff text
  have hform := written_ofText text
  generalize ofText text = form at hinput hgrammar hchunk hjson hform
  cases hform with
  | @preset name hname =>
    rcases add_preset p name with ⟨preset, hbears, hadd⟩ | ⟨hunknown, hadd⟩
    · refine .inl ⟨_, hadd, h.take_flag (by simp [hinput]) rfl (h.makes.concat ?_ ?_ ?_), ?_⟩
      · rw [if_pos (hgrammar.2 (.inl ⟨name, rfl⟩))]
        exact .preset preset (by rw [hname, hbears])
      · rw [if_neg (by simp [hchunk])]
      · simp [hjson]
      · exact fun error herror => herror.1 preset hbears
    · exact .inr ⟨_, hadd, hunknown, rfl⟩
  | @grammar path hname =>
    refine .inl ⟨_, rfl, h.take_flag (by simp [hinput]) rfl (h.makes.concat ?_ ?_ ?_), ?_⟩
    · rw [if_pos (hgrammar.2 (.inr ⟨path, rfl⟩))]
      exact .file path hname
    · rw [if_neg (by simp [hchunk])]
    · simp [hjson]
    · exact fun _ => id
  | @chunk value hvalue =>
    rcases add_chunk p value with ⟨n, hpos, hcount, hadd⟩ | ⟨hcount, hadd⟩
    · refine .inl ⟨_, hadd, h.take_flag (by simp [hinput]) rfl (h.makes.concat ?_ ?_ ?_), ?_⟩
      · rw [if_neg (by simp [hgrammar])]
      · rw [if_pos (hchunk.2 ⟨value, rfl⟩)]
        exact .bytes hvalue hpos hcount
      · simp [hjson]
      · rintro error ⟨hzero, -⟩
        have := hzero n hcount
        omega
    · exact .inr ⟨_, hadd, hcount, rfl⟩
  | json =>
    refine .inl ⟨_, rfl, h.take_flag (by simp [hinput]) rfl (h.makes.concat ?_ ?_ ?_), ?_⟩
    · rw [if_neg (by simp [hgrammar])]
    · rw [if_neg (by simp [hchunk])]
    · simp [hjson]
    · exact fun _ => id
  | unknownFlag => exact .inr ⟨_, rfl, rfl⟩
  | input hpath =>
    rcases h.add_input hpath with ⟨hadd, hreflects, hnone⟩ | ⟨hadd, hsome⟩
    · exact .inl ⟨_, hadd, hreflects, fun _ herror => hnone herror.1⟩
    · exact .inr ⟨_, hadd, hsome, rfl⟩

end Pending

/-! ### What becomes of a line -/

theorem innocent_concat {arguments : List String} {text : String} :
    Innocent (arguments ++ [text]) ↔
      Innocent arguments ∧ ∀ error, ¬ Offends arguments text error := by
  constructor
  · intro h
    refine ⟨fun before t after error hsplit => ?_, fun error => h arguments text [] error rfl⟩
    exact h before t (after ++ [text]) error (by rw [hsplit, List.append_assoc, List.cons_append])
  · rintro ⟨harguments, htext⟩ before t after error hsplit
    rcases after.eq_nil_or_concat with rfl | ⟨after, last, rfl⟩
    · obtain ⟨rfl, hlast⟩ := List.append_inj' hsplit rfl
      exact List.singleton_inj.1 hlast ▸ htext error
    · rw [List.concat_eq_append, ← List.cons_append, ← List.append_assoc] at hsplit
      exact harguments before t after error (List.append_inj' hsplit rfl).1

/-- Takes in arguments. -/
def Pending.addAll (p : Pending) (arguments : List String) : Except OptionError Pending :=
  arguments.foldlM (fun p text => p.add (ofText text)) p

theorem Pending.addAll_cons (p : Pending) (text : String) (after : List String) :
    p.addAll (text :: after) = p.add (ofText text) >>= (·.addAll after) :=
  List.foldlM_cons

theorem Pending.addAll_append (p : Pending) (before after : List String) :
    p.addAll (before ++ after) = p.addAll before >>= (·.addAll after) :=
  List.foldlM_append

theorem Pending.addAll_append_of_ok {p q : Pending} {before : List String}
    (h : p.addAll before = .ok q) (after : List String) :
    p.addAll (before ++ after) = q.addAll after := by
  rw [addAll_append, h]
  rfl

theorem parse_of_ok {arguments : List String} {p : Pending}
    (h : ({} : Pending).addAll arguments = .ok p) : parse arguments = p.complete := by
  rw [Pending.addAll] at h
  rw [parse, h]
  rfl

theorem parse_of_error {arguments : List String} {error : OptionError}
    (h : ({} : Pending).addAll arguments = .error error) : parse arguments = .error error := by
  rw [Pending.addAll] at h
  rw [parse, h]
  rfl

/-- A line is taken in up to its first offence. -/
theorem exists_reflects (arguments : List String) :
    (∃ p, ({} : Pending).addAll arguments = .ok p ∧ p.Reflects arguments ∧ Innocent arguments) ∨
      ∃ before text after error, arguments = before ++ text :: after ∧ Innocent before ∧
        Offends before text error ∧ ({} : Pending).addAll arguments = .error error := by
  induction arguments using List.reverseRecOn with
  | nil => exact .inl ⟨{}, rfl, reflects_start, fun before _ _ _ h => by
      cases before <;> cases h⟩
  | append_singleton arguments text ih =>
    rcases ih with ⟨p, hp, hreflects, hinnocent⟩ |
      ⟨before, t, after, error, hsplit, hbefore, hoffends, herror⟩
    · rw [Pending.addAll_append_of_ok hp, Pending.addAll_cons]
      rcases hreflects.add text with ⟨p', hadd, hp', hnone⟩ | ⟨error, hadd, hoffends⟩
      · rw [hadd]
        exact .inl ⟨p', rfl, hp', innocent_concat.2 ⟨hinnocent, hnone⟩⟩
      · rw [hadd]
        exact .inr ⟨arguments, text, [], error, rfl, hinnocent, hoffends, rfl⟩
    · rw [Pending.addAll_append, herror]
      refine .inr ⟨before, t, after ++ [text], error, ?_, hbefore, hoffends, rfl⟩
      rw [hsplit, List.append_assoc, List.cons_append]

/-- Arguments none of which offends are taken in. -/
theorem Innocent.exists_reflects {arguments : List String} (h : Innocent arguments) :
    ∃ p, ({} : Pending).addAll arguments = .ok p ∧ p.Reflects arguments := by
  rcases Options.exists_reflects arguments with ⟨p, hp, hreflects, -⟩ |
    ⟨before, text, after, error, hsplit, -, hoffends, -⟩
  · exact ⟨p, hp, hreflects⟩
  · exact absurd hoffends (h before text after error hsplit)

theorem Offends.unique {before : List String} {text : String} {error error' : OptionError}
    (h : Offends before text error) (h' : Offends before text error') : error = error' := by
  rw [offends_iff] at h h'
  cases hform : ofText text with
  | preset | chunk | input =>
    rw [hform] at h h'
    rw [h.2, h'.2]
  | unknownFlag =>
    rw [hform] at h h'
    exact h.trans h'.symm
  | grammar | json =>
    rw [hform] at h
    exact h.elim

theorem Names.unique {flag : String} {source source' : GrammarSource} (h : Names flag source)
    (h' : Names flag source') : source = source' := by
  cases h with
  | preset p hp =>
    have hform := (Written.preset hp).ofText_eq
    cases h' with
    | preset q hq =>
      have hname := Argument.preset.inj (hform.symm.trans (Written.preset hq).ofText_eq)
      have hfound := congrArg Preset.ofName? hname
      rw [Preset.ofName?_name, Preset.ofName?_name] at hfound
      rw [Option.some.inj hfound]
    | file path hpath => cases hform.symm.trans (Written.grammar hpath).ofText_eq
  | file path hpath =>
    have hform := (Written.grammar hpath).ofText_eq
    cases h' with
    | preset q hq => cases hform.symm.trans (Written.preset hq).ofText_eq
    | file path' hpath' =>
      rw [Argument.grammar.inj (hform.symm.trans (Written.grammar hpath').ofText_eq)]

theorem Measures.unique {flag : String} {chunk chunk' : Option Nat} (h : Measures flag chunk)
    (h' : Measures flag chunk') : chunk = chunk' := by
  obtain ⟨hvalue, -, hcount⟩ := h
  obtain ⟨hvalue', -, hcount'⟩ := h'
  have hform := (Written.chunk hvalue).ofText_eq.symm.trans (Written.chunk hvalue').ofText_eq
  rw [hcount.unique (Argument.chunk.inj hform ▸ hcount')]

theorem Makes.unique {arguments : List String} {source source' : GrammarSource}
    {chunk chunk' : Option Nat} {json json' : Bool} (h : Makes arguments source chunk json)
    (h' : Makes arguments source' chunk' json') :
    source = source' ∧ chunk = chunk' ∧ json = json' :=
  ⟨h.grammar.unique h'.grammar fun _ => Names.unique,
    h.chunk.unique h'.chunk fun _ => Measures.unique, Bool.eq_iff_iff.2 (h.json.trans h'.json.symm)⟩

theorem outcome_parse (arguments : List String) : Outcome arguments (parse arguments) := by
  rcases exists_reflects arguments with ⟨p, hp, hreflects, hinnocent⟩ |
    ⟨before, text, after, error, rfl, hbefore, hoffends, herror⟩
  · have hpath := hreflects.path
    rw [parse_of_ok hp, Pending.complete]
    cases hcomplete : p.path with
    | none =>
      rw [hcomplete, Option.toList_none, List.filter_eq_nil_iff] at hpath
      exact .missing hinnocent fun text htext hinput => hpath text htext (decide_eq_true hinput)
    | some path =>
      rw [hcomplete, Option.toList_some] at hpath
      exact .accepted hinnocent hpath hreflects.makes
  · rw [parse_of_error herror]
    exact .refused hbefore hoffends

theorem Outcome.parse_eq {arguments : List String} {r : Except OptionError Options}
    (h : Outcome arguments r) : parse arguments = r := by
  cases h with
  | @refused before after text error hbefore hoffends =>
    obtain ⟨p, hp, hreflects⟩ := hbefore.exists_reflects
    rcases hreflects.add text with ⟨-, -, -, hnone⟩ | ⟨error', hadd, hoffends'⟩
    · exact absurd hoffends (hnone error)
    · apply parse_of_error
      rw [Pending.addAll_append_of_ok hp, Pending.addAll_cons, hadd, hoffends.unique hoffends']
      rfl
  | missing hinnocent hnone =>
    obtain ⟨p, hp, hreflects⟩ := hinnocent.exists_reflects
    have hpath : p.path.toList = [] := by
      rw [← hreflects.path, List.filter_eq_nil_iff]
      exact fun text htext => by simpa using hnone text htext
    rw [parse_of_ok hp, Pending.complete, Option.toList_eq_nil_iff.1 hpath]
  | @accepted arguments o hinnocent hpath hmakes =>
    obtain ⟨p, hp, hreflects⟩ := hinnocent.exists_reflects
    obtain ⟨hgrammar, hchunk, hjson⟩ := hreflects.makes.unique hmakes
    rw [hreflects.path, Option.toList_eq_singleton_iff] at hpath
    rw [parse_of_ok hp, Pending.complete, hpath, hgrammar, hchunk, hjson]

theorem parse_eq_iff {arguments : List String} {r : Except OptionError Options} :
    parse arguments = r ↔ Outcome arguments r :=
  ⟨fun h => h ▸ outcome_parse arguments, Outcome.parse_eq⟩

/-! ### The order of arguments -/

/-- Arguments with one input, all of whose flags stand in a line without offence, do not offend. -/
theorem Innocent.perm {arguments arguments' : List String} (h : Innocent arguments)
    (hperm : arguments.Perm arguments') {path : String}
    (hpath : arguments'.filter (IsInput ·) = [path]) : Innocent arguments' := by
  rintro before text after error rfl hoffends
  obtain ⟨before', after', hsplit⟩ := List.append_of_mem
    (hperm.mem_iff.2 (List.mem_append_right before List.mem_cons_self))
  have halone : ¬ Offends before' text error := h before' text after' error hsplit
  cases hoffends with
  | preset hname hunknown => exact halone (.preset hname hunknown)
  | chunk hvalue hcount => exact halone (.chunk hvalue hcount)
  | flag hdash hgrammar hchunk hjson => exact halone (.flag hdash hgrammar hchunk hjson)
  | extra hinput hbefore =>
    obtain ⟨other, hother, hotherInput⟩ := hbefore
    rw [List.filter_append, List.filter_cons_of_pos (by simpa using hinput)] at hpath
    have hlength := congrArg List.length hpath
    have hpos : 0 < (before.filter (IsInput ·)).length :=
      List.length_pos_of_mem (List.mem_filter.2 ⟨hother, decide_eq_true hotherInput⟩)
    simp only [List.length_append, List.length_cons, List.length_nil] at hlength
    omega

/-- What arguments say does not depend on where the path and the flags of different kinds stand. -/
theorem Outcome.perm {arguments arguments' : List String} {o : Options}
    (h : Outcome arguments (.ok o)) (hperm : arguments.Perm arguments')
    (hgrammar : arguments.filter (IsGrammarFlag ·) = arguments'.filter (IsGrammarFlag ·))
    (hchunk : arguments.filter (IsChunkFlag ·) = arguments'.filter (IsChunkFlag ·)) :
    Outcome arguments' (.ok o) := by
  cases h with
  | accepted hinnocent hpath hmakes =>
    have hpath' : arguments'.filter (IsInput ·) = [o.path] :=
      List.perm_singleton.1 (hpath ▸ (hperm.filter _).symm)
    exact .accepted (hinnocent.perm hperm hpath') hpath'
      ⟨hgrammar ▸ hmakes.grammar, hchunk ▸ hmakes.chunk, hmakes.json.trans hperm.mem_iff⟩

/-- What becomes of arguments is said by their first offence, else by what is missing, else by the
last flag of each kind; and arguments that are accepted may change places, if flags of one kind
keep their order. -/
theorem parsing (arguments : List String) :
    (∀ r, parse arguments = r ↔ Outcome arguments r) ∧
      ∀ arguments' o, parse arguments = .ok o → arguments.Perm arguments' →
        arguments.filter (IsGrammarFlag ·) = arguments'.filter (IsGrammarFlag ·) →
        arguments.filter (IsChunkFlag ·) = arguments'.filter (IsChunkFlag ·) →
        parse arguments' = .ok o := by
  refine ⟨fun r => parse_eq_iff, fun arguments' o h hperm hgrammar hchunk => ?_⟩
  exact parse_eq_iff.2 ((parse_eq_iff.1 h).perm hperm hgrammar hchunk)

/-- Flags of different kinds change places around the path. -/
theorem parsing_moved : parse ["--json", "q.sql", "--preset=sql", "--chunk=64"] =
      .ok ⟨"q.sql", .preset .sql, some 64, true⟩ ∧
    parse ["--chunk=64", "--preset=sql", "--json", "q.sql"] =
      .ok ⟨"q.sql", .preset .sql, some 64, true⟩ := by
  have h : parse ["--json", "q.sql", "--preset=sql", "--chunk=64"] =
      .ok ⟨"q.sql", .preset .sql, some 64, true⟩ := by decide +kernel
  exact ⟨h, (parsing _).2 _ _ h (by decide +kernel) (by decide +kernel) (by decide +kernel)⟩

end Options

end TrieLexer
