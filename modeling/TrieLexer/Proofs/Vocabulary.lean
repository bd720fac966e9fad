import TrieLexer.Proofs.Subtrees

/-!
# What building keywords leaves behind

Keywords are built one after the other, and may be beginnings of each other. Wherever a text from
the root has come to stand for, a word or the beginning of one, nothing but longer words and the
ends of its token stand below it. A word that is built over the beginning of another one takes its
node over, and a beginning leaves a word alone, so in the end the order of the keywords does not
matter.

## Main definitions

* `Alphabet` — with which characters words begin and go on, with `Alphabet.IsWord` and
  `Alphabet.IsEnding`, the texts that words begin with and the paths that end words.
* `Lexicon.alphabet` — the alphabet of words that go on as identifiers do.
* `Standing`, `Lexicon.face` — what a text from the root stands for, and what then stands below it.
* `Draft.Learned` — a draft in which texts stand for this.
* `Lexicon.keywordLabels`, `standingIn` — the keywords with their labels, and what they make of a
  text.

## Main results

* `Draft.Learned.buildKeyword` — one keyword.
* `Draft.Learned.buildKeywords` — all keywords.
-/

namespace TrieLexer

open Text (byteLength)

/-! ### Words and their ends -/

/-- With which characters words begin, and with which ones they go on. -/
structure Alphabet where
  starts : Char → Prop
  goes : Char → Prop

namespace Alphabet

variable {α : Alphabet} {x y : List Char} {q r : List Symbol}

/-- A text that begins and goes on as words do. -/
def IsWord (α : Alphabet) (x : List Char) : Prop :=
  x ≠ [] ∧ (∀ c ∈ x.head?, α.starts c) ∧ ∀ c ∈ x.tail, α.goes c

/-- A path that does not go on as words do. -/
def IsEnding (α : Alphabet) (q : List Symbol) : Prop := ∀ c, q.head? = some (.char c) → ¬α.goes c

theorem isEnding_nil (α : Alphabet) : α.IsEnding [] := nofun

theorem IsEnding.of_front (h : α.IsEnding q) (hr : r <+: q) : α.IsEnding r := by
  intro c hc
  obtain ⟨rest, rfl⟩ := hr
  exact h c (by rw [List.head?_append, hc]; rfl)

theorem IsWord.of_front (h : α.IsWord y) (hne : x ≠ []) (hx : x <+: y) : α.IsWord x := by
  obtain ⟨rest, rfl⟩ := hx
  refine ⟨hne, fun c hc => h.2.1 c ?_, fun c hc => h.2.2 c ?_⟩
  · rw [List.head?_append, hc]
    rfl
  · rw [List.tail_append_of_ne_nil hne]
    exact List.mem_append_left _ hc

/-- A run of characters that words go on with ends where something else begins. -/
theorem split_goes {cs ds : List Char} (hc : ∀ c ∈ cs, α.goes c) (hd : ∀ c ∈ ds, α.goes c)
    (hq : α.IsEnding q) (hr : α.IsEnding r)
    (h : cs.map Symbol.char ++ q = ds.map Symbol.char ++ r) : cs = ds ∧ q = r := by
  induction cs generalizing ds with
  | nil =>
    cases ds with
    | nil => exact ⟨rfl, h⟩
    | cons d ds =>
      rw [List.map_nil, List.nil_append] at h
      exact absurd (hd d List.mem_cons_self) (hq d (by rw [h]; rfl))
  | cons c cs ih =>
    cases ds with
    | nil =>
      rw [List.map_nil, List.nil_append] at h
      exact absurd (hc c List.mem_cons_self) (hr c (by rw [← h]; rfl))
    | cons d ds =>
      obtain ⟨hhead, htail⟩ := List.cons.inj h
      rw [List.forall_mem_cons] at hc hd
      obtain ⟨rfl, rfl⟩ := ih hc.2 hd.2 htail
      exact ⟨by rw [Symbol.char.inj hhead], rfl⟩

/-- A word and what ends it are known by the path that they make. -/
theorem IsWord.split (hx : α.IsWord x) (hy : α.IsWord y) (hq : α.IsEnding q) (hr : α.IsEnding r)
    (h : x.map Symbol.char ++ q = y.map Symbol.char ++ r) : x = y ∧ q = r := by
  obtain ⟨c, cs, rfl⟩ := List.exists_cons_of_ne_nil hx.1
  obtain ⟨d, ds, rfl⟩ := List.exists_cons_of_ne_nil hy.1
  obtain ⟨hhead, htail⟩ := List.cons.inj h
  obtain ⟨htails, rfl⟩ := split_goes hx.2.2 hy.2.2 hq hr htail
  exact ⟨by rw [Symbol.char.inj hhead, show cs = ds from htails], rfl⟩

/-- A word begins with what leads along it. -/
theorem prefix_of_map {more : List Symbol} (h : x.map Symbol.char ++ more = y.map Symbol.char) :
    x <+: y := by
  have htext := congrArg pathText h
  rw [pathText_append, pathText_map_char, pathText_map_char] at htext
  exact ⟨_, htext⟩

/-- Only beginnings of a word lead along it. -/
theorem IsWord.along_iff (hx : α.IsWord x) (hy : α.IsWord y) (hq : α.IsEnding q) :
    Along [] (y.map .char) (x.map .char ++ q) ↔ q = [] ∧ x <+: y := by
  constructor
  · rintro ⟨r, -, ⟨more, hmore⟩, heq⟩
    have hpath : x.map .char ++ (q ++ more) = y.map .char := by
      rw [← List.append_assoc, heq, List.nil_append, hmore]
    cases q with
    | nil => exact ⟨rfl, prefix_of_map hpath⟩
    | cons s q =>
      have hsplit := hx.split hy (q := s :: q ++ more) hq α.isEnding_nil
        (hpath.trans (List.append_nil _).symm)
      cases hsplit.2
  · rintro ⟨rfl, hfront⟩
    exact ⟨x.map .char, by simpa using hx.1, hfront.map _, List.append_nil _⟩

end Alphabet

namespace Lexicon

variable {lexicon : Lexicon} {x y : List Char} {q r : List Symbol}

/-- A text whose characters after the first one go on as an identifier does. -/
def IsWordlike (lexicon : Lexicon) (x : List Char) : Prop :=
  x ≠ [] ∧ ∀ c ∈ x.tail, lexicon.identifierContinue.contains c = true

/-- A path that does not go on as an identifier does. -/
def IsEnding (lexicon : Lexicon) (q : List Symbol) : Prop :=
  ∀ c, q.head? = some (.char c) → lexicon.identifierContinue.contains c = false

theorem isEnding_nil (lexicon : Lexicon) : lexicon.IsEnding [] := nofun

theorem IsEnding.of_front (h : lexicon.IsEnding q) (hr : r <+: q) : lexicon.IsEnding r := by
  intro c hc
  obtain ⟨rest, rfl⟩ := hr
  exact h c (by rw [List.head?_append, hc]; rfl)

/-- Words that go on as identifiers do. -/
def alphabet (lexicon : Lexicon) : Alphabet where
  starts _ := True
  goes c := lexicon.identifierContinue.contains c = true

theorem IsWordlike.isWord (h : lexicon.IsWordlike x) : lexicon.alphabet.IsWord x :=
  ⟨h.1, fun _ _ => trivial, h.2⟩

theorem IsEnding.alphabet (h : lexicon.IsEnding q) : lexicon.alphabet.IsEnding q :=
  fun c hc hgoes => Bool.false_ne_true ((h c hc).symm.trans hgoes)

theorem isWordlike_of_shaped (h : lexicon.isIdentifierShaped x = true) : lexicon.IsWordlike x := by
  cases x with
  | nil => cases h
  | cons c cs => exact ⟨List.cons_ne_nil _ _, List.all_eq_true.1 (Bool.and_eq_true_iff.1 h).2⟩

end Lexicon

/-- What a text from the root stands for while keywords are built. -/
inductive Standing where
  /-- No node. -/
  | absent
  /-- A node that has no role yet. -/
  | blank
  /-- The beginning of a word. -/
  | begun
  | word (label : Label)
deriving DecidableEq, Repr

namespace Lexicon

/-- What stands at the end of a path below open-ended text that is claimed for a role. -/
def standing (lexicon : Lexicon) (role : Role) (label : Label) (weak : Bool) (q : List Symbol) :
    Option Face :=
  if q = [] then some (.word role) else lexicon.ending label weak q

/-- What stands at the end of a path below a text, longer words apart. -/
def face (lexicon : Lexicon) : Standing → List Symbol → Option Face
  | .absent, _ => none
  | .blank, q => if q = [] then some {} else none
  | .begun, q => lexicon.standing .identifierPrefix lexicon.labels.identifier true q
  | .word label, q => lexicon.standing (.keyword label) label false q

theorem face_eq_or (lexicon : Lexicon) (s : Standing) {q : List Symbol} (hq : q ≠ []) :
    lexicon.face s q = none ∨ ∃ label weak, lexicon.face s q = lexicon.ending label weak q := by
  cases s with
  | absent => exact .inl rfl
  | blank => exact .inl (if_neg hq)
  | begun => exact .inr ⟨_, _, if_neg hq⟩
  | word label => exact .inr ⟨_, _, if_neg hq⟩

theorem face_nil_eq_none {lexicon : Lexicon} {s : Standing} :
    lexicon.face s [] = none ↔ s = .absent := by
  cases s <;> simp [face, standing]

end Lexicon

namespace Draft

open Assembly (yields_bind yields_pure yields_get yields_modify)

/-- In this draft, texts that begin and go on as words do stand for what `status` says. -/
structure Learned (lexicon : Lexicon) (α : Alphabet) (status : List Char → Standing) (d : Draft) :
    Prop where
  forest : d.trie.Forest
  pos : NodeId.root < d.trie.size
  below {x : List Char} {q : List Symbol} (hx : α.IsWord x) (hq : α.IsEnding q) :
    d.below .root (x.map .char ++ q) = lexicon.face (status x) q

variable {lexicon : Lexicon} {α : Alphabet} {status status' : List Char → Standing}
  {d d₁ d' : Draft} {x y : List Char} {n : NodeId} {steps : List Trie.Step} {literal : String}
  {label : Label} {weak : Bool}

namespace Learned

theorem congr (h : d.Learned lexicon α status)
    (heq : ∀ x, α.IsWord x → status' x = status x) : d.Learned lexicon α status' :=
  ⟨h.forest, h.pos, fun hx hq => by rw [heq _ hx]; exact h.below hx hq⟩

theorem below_word (h : d.Learned lexicon α status) (hx : α.IsWord x) :
    d.below .root (x.map .char) = lexicon.face (status x) [] := by
  rw [← h.below hx (α.isEnding_nil), List.append_nil]

/-- Spelling a word adds the texts that it begins with. -/
theorem spell (h : d.Learned lexicon α status) (hl : α.IsWord literal.toList)
    (hy : (Assembly.path .root literal.toList).Yields d steps d') :
    d'.Learned lexicon α (fun x => if status x = .absent ∧ x <+: literal.toList then .blank
      else status x) ∧
      d.trie.Walked d'.trie .root [] (literal.toList.map .char) steps := by
  obtain ⟨he, hw⟩ := extends_path (p := []) h.forest h.pos rfl hy
  have hspelling : spelling literal.toList = literal.toList.map .char := by
    rw [spelling, if_neg (by simpa using hl.1)]
  rw [hspelling] at he hw
  refine ⟨⟨he.forest, Nat.lt_of_lt_of_le h.pos he.size, fun {x q} hx hq => ?_⟩, hw⟩
  have hon := hx.along_iff hl hq
  have hold := h.below hx hq
  rcases below_extends he (x.map .char ++ q) with hsame | ⟨hnone, hnew, halong⟩
  · rw [hsame, hold]
    split
    · next habsent =>
      obtain ⟨habsent, hfront⟩ := habsent
      rw [habsent, Lexicon.face, Lexicon.face, if_neg]
      rintro rfl
      obtain ⟨_, -, hm⟩ := hw.exists_step (hon.2 ⟨rfl, hfront⟩)
      rw [hold, habsent] at hsame
      rw [below_eq_none.1 hsame] at hm
      cases hm
    · rfl
  · obtain ⟨rfl, hfront⟩ := hon.1 halong
    rw [hnew, if_pos ⟨Lexicon.face_nil_eq_none.1 (hold.symm.trans hnone), hfront⟩]
    rfl

/-- A text gets a role, and nothing but the ends of its token stands below it then. -/
theorem take (h : d.Learned lexicon α status) (hends : ∀ t ∈ lexicon.terminators,
      α.IsEnding (spelling t.toList)) (hx : α.IsWord x)
    (hn : d.trie.follow? .root (x.map .char) = some n) {policy : ConflictPolicy} {role : Role}
    {ok : Bool} {s : Standing} (hs : ∀ q, lexicon.face s q = lexicon.standing role label weak q)
    (hblank : role.isWeak = true ∨ weak = true → status x = .blank)
    (hclaim : (Assembly.claim policy n literal role).Yields d ok d₁)
    (hy : (if ok = true then do
        Assembly.modifyBehaviour n fun b =>
          { b with action := .none, fallback := Lexicon.identifierFallback }
        lexicon.endBeforeTerminators n label weak
      else pure PUnit.unit : Assembly PUnit).Yields d₁ ⟨⟩ d') :
    d'.Learned lexicon α (fun y => if y = x then s else status y) ∧
      ∀ {q : List Symbol} {m : NodeId}, d.trie.follow? .root q = some m →
        d'.trie.follow? .root q = some m := by
  have hgives (hweak : status x = .blank) :
      ∀ face ∈ d.below .root (x.map .char), face.GivesWay := by
    rw [h.below_word hx, hweak]
    rintro face ⟨⟩ role ⟨⟩
  have hlt := h.forest.lt_size_of_follow? h.pos hn
  obtain ⟨rfl, hassigned⟩ := alters_assign h.forest hlt hn hclaim
    (fun hw => hgives (hblank (.inl hw)))
    (f := fun b => { b with action := .none, fallback := Lexicon.identifierFallback })
    (φ := fun face => { face with action := .none, fallback := Lexicon.identifierFallback })
    fun _ => rfl
  obtain ⟨⟨⟩, d₂, hmod, hy⟩ := yields_bind.1 hy
  obtain rfl := yields_modify.1 hmod
  generalize d₁.modifyBehaviour n _ = d₂ at hassigned hy
  have hforest := hassigned.forest h.forest
  have hfollow := hassigned.follow?
  have hsize := hassigned.size
  have hoff {q : List Symbol} (hq : q ≠ x.map .char) := hassigned.off hq
  have hon : d₂.below .root (x.map .char) = some (.word role) := by
    rw [hassigned.on rfl, Draft.below, hn]
    rfl
  have hbelow {q : List Symbol} (hne : q ≠ []) (hq : α.IsEnding q) :
      d₂.below .root (x.map .char ++ q) = lexicon.face (status x) q := by
    rw [hoff fun heq => hne (List.append_cancel_left (heq.trans (List.append_nil _).symm)),
      h.below hx hq]
  have hover := overwrites_forM hforest (hsize ▸ h.pos) ((hfollow _).trans hn)
    (fun hw t ht face hface => by
      rw [hbelow (spelling_ne_nil _) (hends t ht), hblank (.inr hw)] at hface
      cases hface.symm.trans (if_neg (spelling_ne_nil _))) hy
  refine ⟨⟨hover.forest, Nat.lt_of_lt_of_le (hsize ▸ h.pos) hover.size, fun {y q} hy hq => ?_⟩,
    fun hm => hover.keep ((hfollow _).trans hm)⟩
  split
  · next heq =>
    subst heq
    rw [hs, Lexicon.standing]
    split
    · next hnil =>
      subst hnil
      rw [List.append_nil, hover.rest fun t _ => not_along_self _ _]
      exact hon
    · next hne =>
      refine hover.below_eq hne ?_
      rw [hbelow hne hq]
      exact lexicon.face_eq_or _ hne
  · next hne =>
    rw [hover.rest, hoff, h.below hy hq]
    · intro heq
      exact hne (hy.split hx hq α.isEnding_nil (heq.trans (List.append_nil _).symm)).1
    · rintro t ht ⟨r, -, hr, heq⟩
      exact hne (hy.split hx hq ((hends t ht).of_front hr) heq).1

/-- The beginning of a word. -/
theorem buildPrefix (h : d.Learned lexicon α status) (hends : ∀ t ∈ lexicon.terminators,
      α.IsEnding (spelling t.toList)) (hx : α.IsWord x)
    (hn : d.trie.follow? .root (x.map .char) = some n) {text : String}
    (hy : (lexicon.buildPrefix n text).Yields d ⟨⟩ d') :
    d'.Learned lexicon α (fun y => if y = x ∧ status y = .blank then .begun else status y) ∧
      ∀ {q : List Symbol} {m : NodeId}, d.trie.follow? .root q = some m →
        d'.trie.follow? .root q = some m := by
  obtain ⟨_, _, hget, hy⟩ := yields_bind.1 hy
  obtain ⟨rfl, rfl⟩ := yields_get.1 hget
  have hface := h.below_word hx
  rw [Draft.below, hn, Option.map_some] at hface
  have hclaim : d.claim? n = ((lexicon.face (status x) []).map Face.claim).join := by
    rw [← hface]
    rfl
  have hkeep (hne : status x ≠ .blank) : d.Learned lexicon α
      (fun y => if y = x ∧ status y = .blank then .begun else status y) :=
    h.congr fun y _ => if_neg (by rintro ⟨rfl, hy⟩; exact hne hy)
  cases hstatus : status x with
  | absent =>
    rw [hstatus] at hface
    cases hface
  | blank =>
    rw [hstatus] at hclaim
    rw [if_neg (by rw [hclaim]; simp [Lexicon.face])] at hy
    obtain ⟨ok, d₁, hclaimed, hy⟩ := yields_bind.1 hy
    obtain ⟨h', hkeep⟩ :=
      h.take hends hx hn (s := .begun) (fun _ => rfl) (fun _ => hstatus) hclaimed hy
    refine ⟨h'.congr fun y _ => ?_, hkeep⟩
    by_cases hyx : y = x
    · rw [if_pos hyx, if_pos ⟨hyx, hyx ▸ hstatus⟩]
    · rw [if_neg hyx, if_neg fun hy => hyx hy.1]
  | begun =>
    rw [hstatus] at hclaim
    have hclaim : d.claim? n = some .identifierPrefix := hclaim
    rw [if_pos hclaim] at hy
    obtain ⟨-, rfl⟩ := yields_pure.1 hy
    exact ⟨hkeep (by rw [hstatus]; simp), id⟩
  | word label =>
    rw [hstatus] at hclaim
    have hclaim : d.claim? n = some (.keyword label) := hclaim
    rw [if_neg (by rw [hclaim]; simp)] at hy
    obtain ⟨ok, d₁, hclaimed, hrest⟩ := yields_bind.1 hy
    rcases hclaimed.claim with ⟨-, -, hweak⟩ | ⟨rfl, rfl, -⟩
    · rcases hweak rfl _ hclaim with heq | heq <;> cases heq
    · obtain ⟨-, rfl⟩ := yields_pure.1 hrest
      exact ⟨hkeep (by rw [hstatus]; simp), id⟩

/-- A text that stands for something leads to a node. -/
theorem exists_node (h : d.Learned lexicon α status) (hx : α.IsWord x)
    (hs : status x ≠ .absent) : ∃ n, d.trie.follow? .root (x.map .char) = some n := by
  refine Option.ne_none_iff_exists'.1 fun hnone => hs ?_
  rw [← Lexicon.face_nil_eq_none, ← h.below_word hx, below_eq_none]
  exact hnone

/-- The beginnings of words at some nodes. -/
theorem buildPrefixes (h : d.Learned lexicon α status) (hends : ∀ t ∈ lexicon.terminators,
      α.IsEnding (spelling t.toList)) {ps : List (Trie.Step × String)}
    (hnodes : ∀ p ∈ ps, ∃ x, α.IsWord x ∧
      d.trie.follow? .root (x.map .char) = some p.1.node)
    (hy : (ps.forM fun (step, text) => lexicon.buildPrefix step.node text).Yields d ⟨⟩ d') :
    d'.Learned lexicon α (fun x => if status x = .blank ∧
        ∃ p ∈ ps, d.trie.follow? .root (x.map .char) = some p.1.node then .begun else status x) ∧
      ∀ {q : List Symbol} {m : NodeId}, d.trie.follow? .root q = some m →
        d'.trie.follow? .root q = some m := by
  induction ps generalizing d status with
  | nil =>
    obtain ⟨-, rfl⟩ := yields_pure.1 hy
    exact ⟨h.congr fun x _ => if_neg (by simp), id⟩
  | cons p ps ih =>
    obtain ⟨⟨⟩, d₁, hfirst, hy⟩ := yields_bind.1 hy
    rw [List.forall_mem_cons] at hnodes
    obtain ⟨⟨x, hx, hn⟩, hnodes⟩ := hnodes
    obtain ⟨h₁, hkeep⟩ := h.buildPrefix hends hx hn hfirst
    obtain ⟨h', hkeep'⟩ := ih h₁ (fun p hp =>
      let ⟨y, hy, hm⟩ := hnodes p hp
      ⟨y, hy, hkeep hm⟩) hy
    refine ⟨h'.congr fun y hwordlike => ?_, fun hm => hkeep' (hkeep hm)⟩
    by_cases hblank : status y = .blank
    · obtain ⟨m, hm⟩ := h.exists_node hwordlike (by rw [hblank]; simp)
      have heq : p.1.node = m ↔ y = x := by
        constructor
        · rintro rfl
          exact (List.map_inj_right fun _ _ => Symbol.char.inj).1 (h.forest.follow?_inj hm hn)
        · rintro rfl
          exact Option.some.inj (hn.symm.trans hm)
      by_cases hyx : y = x
      · have hbegun : (if y = x ∧ status y = .blank then Standing.begun else status y) = .begun :=
          if_pos ⟨hyx, hblank⟩
        rw [if_pos ⟨hblank, p, List.mem_cons_self, by rw [hm, heq.2 hyx]⟩, hbegun, ite_self]
      · have hsame : (if y = x ∧ status y = .blank then Standing.begun else status y) = status y :=
          if_neg fun hy => hyx hy.1
        rw [hsame]
        refine ite_congr (propext (and_congr_right fun _ => ?_)) (fun _ => rfl) fun _ => rfl
        rw [hm, hkeep hm]
        simp only [List.mem_cons, exists_eq_or_imp]
        exact or_iff_right fun hpm => hyx (heq.1 (Option.some.inj hpm).symm)
    · simp [hblank]

/-- Building a keyword makes it a word and its beginnings, where they are new, beginnings. -/
def learn (status : List Char → Standing) (pair : String × Label) (x : List Char) : Standing :=
  if x = pair.1.toList then .word pair.2
  else if status x = .absent ∧ x <+: pair.1.toList then .begun
  else status x

/-- What stands there before the end of a keyword is claimed: its proper beginnings are words or the
beginnings of words, and its end stands for no less than before. -/
theorem approach (h : d.Learned lexicon α status) (hblank : ∀ x, status x ≠ .blank)
    (hends : ∀ t ∈ lexicon.terminators, α.IsEnding (spelling t.toList))
    (hl : α.IsWord literal.toList)
    (hpath : (Assembly.path .root literal.toList).Yields d steps d₁)
    (hloop : ((Lexicon.properPrefixes literal steps).forM fun (step, text) =>
      lexicon.buildPrefix step.node text).Yields d₁ ⟨⟩ d') :
    ∃ status' last, d'.Learned lexicon α status' ∧ steps.getLast? = some last ∧
      d'.trie.follow? .root (literal.toList.map .char) = some last.node ∧
      (∀ x, α.IsWord x → x ≠ literal.toList →
        status' x = if status x = .absent ∧ x <+: literal.toList then .begun else status x) ∧
      (status literal.toList = .absent →
        status' literal.toList = .blank ∨ status' literal.toList = .begun) ∧
      (status literal.toList ≠ .absent → status' literal.toList = status literal.toList) := by
  obtain ⟨h₁, hw⟩ := h.spell hl hpath
  have hwordlike {q : List Symbol} (hq : Along [] (literal.toList.map .char) q) :
      ∃ x, α.IsWord x ∧ q = x.map .char := by
    obtain ⟨r, hne, hr, rfl⟩ := hq
    obtain ⟨x, hx, rfl⟩ := List.prefix_map_iff.1 hr
    exact ⟨x, hl.of_front (by simpa using hne) hx, rfl⟩
  obtain ⟨h₂, hkeep⟩ := h₁.buildPrefixes hends (fun p hp => by
    obtain ⟨q, hq, hnode⟩ := hw.exists_along (mem_of_mem_properPrefixes hp)
    obtain ⟨x, hx, rfl⟩ := hwordlike hq
    exact ⟨x, hx, hnode⟩) hloop
  obtain ⟨last, hlast, hnode⟩ := hw.getLast? (by simpa using hl.1)
  refine ⟨_, last, h₂, hlast, hkeep hnode, fun x hx hne => ?_, fun habsent => ?_, fun hthere => ?_⟩
  · by_cases hnew : status x = .absent ∧ x <+: literal.toList
    · rw [if_pos hnew, if_pos hnew, if_pos]
      obtain ⟨rest, hrest⟩ := hnew.2
      have hproper : x.map .char <+: (literal.toList.map Symbol.char).dropLast := by
        rw [← List.map_dropLast, ← hrest, List.dropLast_append_of_ne_nil]
        · exact (List.prefix_append ..).map _
        · rintro rfl
          exact hne ((List.append_nil x).symm.trans hrest)
      obtain ⟨step, hstep, hn⟩ := hw.dropLast.exists_step ⟨_, by simpa using hx.1, hproper, rfl⟩
      obtain ⟨text, htext⟩ := exists_mem_properPrefixes hstep
      exact ⟨rfl, _, htext, hn⟩
    · rw [if_neg hnew, if_neg hnew, if_neg fun hx => hblank x hx.1]
  · have hnew : (if status literal.toList = .absent ∧ literal.toList <+: literal.toList
        then Standing.blank else status literal.toList) = .blank :=
      if_pos ⟨habsent, List.prefix_rfl⟩
    rw [hnew]
    split
    · exact .inr rfl
    · exact .inl rfl
  · have hsame : (if status literal.toList = .absent ∧ literal.toList <+: literal.toList
        then Standing.blank else status literal.toList) = status literal.toList :=
      if_neg fun hnew => hthere hnew.1
    rw [hsame, if_neg fun hx => hblank _ hx.1]

/-- One keyword. -/
theorem buildKeyword (h : d.Learned lexicon α status) (hblank : ∀ x, status x ≠ .blank)
    (hends : ∀ t ∈ lexicon.terminators, α.IsEnding (spelling t.toList))
    (hl : α.IsWord literal.toList)
    (hy : (lexicon.buildKeyword label literal).Yields d ⟨⟩ d') :
    d'.Learned lexicon α (learn status (literal, label)) := by
  obtain ⟨steps, d₁, hpath, hy⟩ := yields_bind.1 hy
  obtain ⟨⟨⟩, d₂, hloop, hy⟩ := yields_bind.1 hy
  obtain ⟨status₂, last, h₂, hlast, hnode, hothers, -⟩ := h.approach hblank hends hl hpath hloop
  rw [hlast] at hy
  obtain ⟨ok, d₃, hclaim, hy⟩ := yields_bind.1 hy
  obtain ⟨h₃, -⟩ := h₂.take hends hl hnode (s := .word label) (fun _ => rfl)
    (fun hweak => by simp [Role.isWeak] at hweak) hclaim hy
  refine h₃.congr fun x hx => ?_
  rw [learn]
  split
  · rfl
  · next hne => exact (hothers x hx hne).symm

end Learned

end Draft

/-! ### All keywords -/

/-- The literals of definitions with their labels, in their order. -/
def labelled (definitions : List Definition) (default : Label) : List (String × Label) :=
  definitions.flatMap fun definition =>
    definition.literals.map fun t => (t, definition.label.getD default)

theorem map_fst_labelled (definitions : List Definition) (default : Label) :
    (labelled definitions default).map Prod.fst = literalsOf definitions := by
  rw [labelled, List.map_flatMap, literalsOf]
  refine congrArg (List.flatMap · definitions) (funext fun definition => ?_)
  rw [List.map_map]
  exact List.map_id _

/-- Definitions are built in the order of their literals. -/
theorem forM_labelled (f : Label → String → Assembly PUnit) (definitions : List Definition)
    (default : Label) : (definitions.forM fun definition =>
      definition.literals.forM (f (definition.label.getD default))) =
    (labelled definitions default).forM fun p => f p.2 p.1 := by
  rw [labelled]
  simp only [List.forM_eq_forM]
  induction definitions with
  | nil => rfl
  | cons definition definitions ih =>
    rw [List.flatMap_cons, List.forM_append, List.forM_cons, ih, List.forM_map]

/-- The keywords with their labels, in their order. -/
def Lexicon.keywordLabels (lexicon : Lexicon) : List (String × Label) :=
  lexicon.keywords.flatMap fun definition =>
    definition.literals.map fun t => (t, definition.label.getD lexicon.labels.keyword)

theorem Lexicon.map_fst_keywordLabels (lexicon : Lexicon) :
    lexicon.keywordLabels.map Prod.fst = literalsOf lexicon.keywords :=
  map_fst_labelled lexicon.keywords lexicon.labels.keyword

/-- Keywords are built in the order of their literals. -/
theorem Lexicon.buildKeywords_eq (lexicon : Lexicon) : lexicon.buildKeywords =
    lexicon.keywordLabels.forM fun p => lexicon.buildKeyword p.2 p.1 :=
  forM_labelled lexicon.buildKeyword lexicon.keywords lexicon.labels.keyword

/-- What labelled words make of a text. -/
def standingIn (words : List (String × Label)) (x : List Char) : Standing :=
  match words.lookup (String.ofList x) with
  | some label => .word label
  | none => if ∃ p ∈ words, x <+: p.1.toList then .begun else .absent

/-- Words under one label each are looked up in any order. -/
theorem lookup_eq_some_iff {words : List (String × Label)}
    (hsame : ∀ p ∈ words, ∀ p' ∈ words, p.1 = p'.1 → p.2 = p'.2) {key : String} {label : Label} :
    words.lookup key = some label ↔ (key, label) ∈ words := by
  induction words with
  | nil => simp
  | cons p words ih =>
    rw [List.lookup_cons, List.mem_cons]
    by_cases hkey : key = p.1
    · subst hkey
      rw [beq_self_eq_true]
      refine ⟨fun h => .inl (Prod.ext rfl (Option.some.inj h).symm), fun h => ?_⟩
      exact congrArg some (hsame p List.mem_cons_self _ (List.mem_cons.2 h) rfl)
    · rw [beq_false_of_ne hkey]
      refine (ih fun q hq q' hq' => hsame q (List.mem_cons_of_mem _ hq) q'
        (List.mem_cons_of_mem _ hq')).trans ⟨.inr, fun h => h.resolve_left fun heq => ?_⟩
      exact hkey (congrArg Prod.fst heq)

theorem lookup_eq_none {words : List (String × Label)} {x : List Char} :
    words.lookup (String.ofList x) = none ↔ ∀ p ∈ words, x ≠ p.1.toList := by
  rw [List.lookup_eq_none_iff]
  refine forall₂_congr fun p _ => ?_
  rw [bne_iff_ne, ne_eq, ← String.toList_inj, String.toList_ofList]

/-- A text is nothing exactly if no word begins with it. -/
theorem standingIn_eq_absent {words : List (String × Label)} {x : List Char} :
    standingIn words x = .absent ↔ ∀ p ∈ words, ¬x <+: p.1.toList := by
  rw [standingIn]
  cases hlookup : words.lookup (String.ofList x) with
  | some label =>
    refine ⟨nofun, fun h => ?_⟩
    have hnone : words.lookup (String.ofList x) = none := lookup_eq_none.2 fun p hp hx =>
      h p hp (hx ▸ List.prefix_rfl)
    rw [hlookup] at hnone
    cases hnone
  | none => simp

theorem standingIn_ne_blank (words : List (String × Label)) (x : List Char) :
    standingIn words x ≠ .blank := by
  rw [standingIn]
  split
  · nofun
  · split <;> nofun

/-- Where a text stands for something, the ends of its token stand below it. -/
theorem face_standingIn (lexicon : Lexicon) {words : List (String × Label)} {x : List Char}
    (h : standingIn words x ≠ .absent) :
    ∃ role weak, ∀ q, lexicon.face (standingIn words x) q = lexicon.standing role
      ((words.lookup (String.ofList x)).getD lexicon.labels.identifier) weak q := by
  unfold standingIn at h ⊢
  split
  · next label hlookup => exact ⟨.keyword label, false, fun _ => by rw [hlookup]; rfl⟩
  · next hlookup =>
    rw [hlookup] at h ⊢
    dsimp only at h
    split
    · exact ⟨.identifierPrefix, true, fun _ => rfl⟩
    · next hnone => exact absurd (if_neg hnone) h

/-- One more word is learned. It may be a word already, but not under another label. -/
theorem learn_standingIn {words : List (String × Label)} {p : String × Label}
    (hp : ∀ label ∈ words.lookup p.1, label = p.2) (x : List Char) :
    standingIn (words ++ [p]) x = Draft.Learned.learn (standingIn words) p x := by
  have hlast : [p].lookup (String.ofList x) = if x = p.1.toList then some p.2 else none := by
    rw [List.lookup_cons]
    by_cases hx : x = p.1.toList
    · rw [if_pos hx, hx, String.ofList_toList, beq_self_eq_true]
    · rw [if_neg hx, beq_false_of_ne fun heq => hx (by rw [← heq, String.toList_ofList])]
      rfl
  rw [Draft.Learned.learn, standingIn, List.lookup_append, hlast]
  by_cases hx : x = p.1.toList
  · rw [if_pos hx, if_pos hx, hx, String.ofList_toList]
    cases hlookup : words.lookup p.1 with
    | none => rfl
    | some label =>
      rw [hp label hlookup]
      rfl
  · rw [if_neg hx, if_neg hx, Option.or_none, standingIn]
    cases words.lookup (String.ofList x) with
    | some label => simp
    | none =>
      by_cases hwords : ∃ p ∈ words, x <+: p.1.toList
      · simp [hwords]
      · simp [hwords, List.mem_append, or_and_right, exists_or]

namespace Draft

open Assembly (yields_bind yields_pure)

variable {lexicon : Lexicon} {α : Alphabet} {d d' : Draft}

/-- All keywords. -/
theorem Learned.buildKeywords (h : d.Learned lexicon α fun _ => .absent)
    (hends : ∀ t ∈ lexicon.terminators, α.IsEnding (spelling t.toList))
    {words : List (String × Label)} (hdistinct : (words.map Prod.fst).Nodup)
    (hwords : ∀ p ∈ words, α.IsWord p.1.toList)
    (hy : (words.forM fun p => lexicon.buildKeyword p.2 p.1).Yields d ⟨⟩ d') :
    d'.Learned lexicon α (standingIn words) := by
  induction words using List.reverseRecOn generalizing d' with
  | nil =>
    obtain ⟨-, rfl⟩ := yields_pure.1 hy
    exact h.congr fun x _ => by simp [standingIn]
  | append_singleton words p ih =>
    rw [List.forM_eq_forM, List.forM_append] at hy
    obtain ⟨⟨⟩, d₁, hfront, hy⟩ := yields_bind.1 hy
    obtain ⟨⟨⟩, d₂, hlast, hy⟩ := yields_bind.1 hy
    obtain ⟨-, rfl⟩ := yields_pure.1 hy
    rw [List.map_append, List.nodup_append] at hdistinct
    rw [List.forall_mem_append] at hwords
    have hnew (label : Label) (hlabel : words.lookup p.1 = some label) : label = p.2 := by
      rw [List.lookup_eq_none_iff.2 fun p' hp' => ?_] at hlabel
      · cases hlabel
      · exact bne_iff_ne.2 (Ne.symm (hdistinct.2.2 p'.1 (List.mem_map_of_mem hp') p.1
          (List.mem_singleton_self _)))
    exact ((ih hdistinct.1 hwords.1 hfront).buildKeyword (standingIn_ne_blank words) hends
      (hwords.2 p (List.mem_singleton_self p)) hlast).congr fun x _ => learn_standingIn hnew x

end Draft

end TrieLexer
