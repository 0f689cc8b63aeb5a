import AvroTree.Proofs.JsonSpans
import AvroTree.Proofs.Munching

/-!
# What a token owes to its context

The kinds that are wanted decide whether a token is found. Where it ends and what it does to the
state depends only on whether a JSON value is among them, and its kind only in that a keyword that
is not wanted is a name and a doc comment that is not wanted is a comment (`scan_contexts`).
-/

namespace AvroTree

open Token (Kind)
open JsonGrammar (IsLiteral Parts Value)
open Text

namespace Lexer

/-- The kinds that the text `s` has where the first is wanted and where only the second is. -/
inductive Renamed (s : List Char) : Kind → Kind → Prop
  | word {k : Keyword} (h : s = k.spelling.toList) : Renamed s (.keyword k) .identifier
  | comment (h : BlockComment s) : Renamed s .docComment .comment

/-- Two kinds that the text `s` may have as different ones are wanted. -/
def Alike (s : List Char) (j k : Kind) : Prop :=
  j = k ∨ Renamed s j k ∨ Renamed s k j

/-- The word of a keyword comes next, blanks apart, and no name goes on behind it. -/
def WordAhead (k : Keyword) (s : List Char) : Prop :=
  ∃ after, ahead s = k.spelling.toList ++ after ∧ NameEnds after

variable {cap : Nat} {V W : TokenSet} {state : State} {mode : Mode} {c : Char}
  {s cs : List Char} {j k : Kind}

namespace Alike

theorem refl (s : List Char) (k : Kind) : Alike s k k :=
  .inl rfl

/-- Neither kind opens or closes a bracket unless both do, and both settle the same language. -/
theorem effects (h : Alike s j k) (cap : Nat) (state : State) (c : Char) :
    impliedMode state k c = impliedMode state j c ∧ (track cap state k).2 = (track cap state j).2
      ∧ Alike s (track cap state j).1 (track cap state k).1 := by
  rcases h with rfl | h | h
  · exact ⟨rfl, rfl, refl s _⟩
  · cases h with
    | word h => exact ⟨rfl, rfl, .inr (.inl (.word h))⟩
    | comment h => exact ⟨rfl, rfl, .inr (.inl (.comment h))⟩
  · cases h with
    | word h => exact ⟨rfl, rfl, .inr (.inr (.word h))⟩
    | comment h => exact ⟨rfl, rfl, .inr (.inr (.comment h))⟩

end Alike

/-! ## Single tokens -/

/-- Two readings of the text `s` that end at the same place and have seen the same. -/
structure Coincide (s : List Char) (a b : Reading (Except LexError Kind)) : Prop where
  used : b.used = a.used
  seen : b.seen = a.seen
  kind : Alike (s.take a.used) (kindOf a.value) (kindOf b.value)

namespace Coincide

variable {a b : Reading (Except LexError Kind)}

theorem refl (s : List Char) (a : Reading (Except LexError Kind)) : Coincide s a a :=
  ⟨rfl, rfl, .refl _ _⟩

theorem seeing (h : Coincide s a b) (n : Nat) : Coincide s (a.seeing n) (b.seeing n) :=
  ⟨h.used, congrArg (max n) h.seen, h.kind⟩

end Coincide

theorem wordKind_alike (V W : TokenSet) (w : List Char) :
    Alike w (wordKind V w) (wordKind W w) := by
  unfold wordKind
  cases hk : Keyword.ofSpelling? (String.ofList w) with
  | none => exact .refl _ _
  | some k =>
    have hspelled := spelling_of_ofSpelling? hk
    simp only []
    split <;> split
    · exact .refl _ _
    · exact .inr (.inl (.word hspelled))
    · exact .inr (.inr (.word hspelled))
    · exact .refl _ _

theorem word_alike (V W : TokenSet) (s : List Char) :
    Alike (s.take (nameRest s).used) (word V s).value (word W s).value := by
  rw [word, word, Reading.map_value, Reading.map_value]
  cases (nameRest s).value with
  | true => exact .refl _ _
  | false => exact wordKind_alike V W _

theorem plain_coincide (V W : TokenSet) (mode : Mode) (c : Char) (s : List Char) :
    Coincide s (plain V mode c s) (plain W mode c s) := by
  by_cases hc : isNameStart c
  · rw [plain_nameStart hc, plain_nameStart hc]
    exact ⟨rfl, rfl, word_alike V W s⟩
  · rw [plain_other hc W V]
    exact .refl _ _

theorem lexeme_coincide (hjson : V.contains .jsonSpan = W.contains .jsonSpan) (s : List Char) :
    Coincide s (lexeme cap V state c s) (lexeme cap W state c s) := by
  have hplain := plain_coincide V W state.mode c s
  unfold lexeme
  rw [hjson]
  split
  · simp only []
    split
    · exact .refl _ _
    · exact hplain.seeing _
  · exact hplain

/-! ## Outcomes -/

/-- Two attempts that find a token behind `n` blanks of the text `s`, end at the same place, have
seen the same and leave the same state behind. -/
structure SameToken (n : Nat) (s : List Char) (a b : Reading Outcome) : Prop where
  used : b.used = a.used
  seen : b.seen = a.seen
  value : ∃ j k state, a.value = ⟨some ⟨n, j⟩, state⟩ ∧ b.value = ⟨some ⟨n, k⟩, state⟩
    ∧ Alike ((s.take a.used).drop n) j k

variable {a b : Reading (Except LexError Kind)} {f g : Found}

theorem judge_same (h : Coincide s a b) (hf : (judge cap V state c a).value.found = some f)
    (hg : (judge cap W state c b).value.found = some g) :
    SameToken 0 s (judge cap V state c a) (judge cap W state c b) := by
  obtain ⟨himplied, hstate, hkind⟩ := h.kind.effects cap state c
  rcases judge_cases cap V state c a with ha | ha <;> rw [ha] at hf ⊢
  · cases hf
  rcases judge_cases cap W state c b with hb | hb <;> rw [hb] at hg ⊢
  · cases hg
  refine ⟨h.used, h.seen, _, _, _, rfl, ?_, hkind⟩
  rw [Reading.accept, Reading.map_value, himplied, hstate]

theorem commentKind_alike (V W : TokenSet) (state : State) (s : List Char) {t : List Char}
    (ht : BlockComment t) :
    Alike t (commentKind V state s).token (commentKind W state s).token := by
  cases commentKind V state s <;> cases commentKind W state s
  · exact .refl _ _
  · exact .inr (.inr (.comment ht))
  · exact .inr (.inl (.comment ht))
  · exact .refl _ _

theorem comment_same (hs : startsComment s)
    (hf : (comment V false state s).value.found = some f)
    (hg : (comment W false state s).value.found = some g) :
    SameToken 0 s (comment V false state s) (comment W false state s) := by
  obtain ⟨cs, rfl | rfl⟩ := startsComment_cases hs
  · rw [lineComment_found hf, lineComment_found hg]
    exact ⟨rfl, rfl, _, _, _, rfl, rfl, .refl _ _⟩
  · rw [blockComment_found hf, blockComment_found hg]
    refine ⟨rfl, rfl, _, _, _, rfl, rfl, ?_⟩
    by_cases hclosed : (commentBody cs).value = .closed
    · rw [if_pos hclosed, if_pos hclosed]
      exact commentKind_alike V W state _ (blockComment_text hclosed)
    · rw [if_neg hclosed, if_neg hclosed]
      exact .refl _ _

theorem tokenHere_same (hjson : V.contains .jsonSpan = W.contains .jsonSpan)
    (hf : (tokenHere cap V false state s).value.found = some f)
    (hg : (tokenHere cap W false state s).value.found = some g) :
    SameToken 0 s (tokenHere cap V false state s) (tokenHere cap W false state s) := by
  cases s with
  | nil =>
    rw [tokenHere] at hf hg ⊢
    rw [tokenHere]
    split at hf
    · split at hg
      · rename_i hv hw
        rw [if_pos hv, if_pos hw]
        exact ⟨rfl, rfl, _, _, _, rfl, rfl, .refl _ _⟩
      · cases hg
    · cases hf
  | cons c cs =>
    cases hs : startsComment (c :: cs) with
    | true =>
      rw [tokenHere_comment cap V state hs] at hf ⊢
      rw [tokenHere_comment cap W state hs] at hg ⊢
      exact comment_same hs hf hg
    | false =>
      rw [tokenHere_cons cap V state hs] at hf ⊢
      rw [tokenHere_cons cap W state hs] at hg ⊢
      exact judge_same ((lexeme_coincide hjson _).seeing _) hf hg

theorem behindBlanks_same {n : Nat} {a b : Reading Outcome} (h : SameToken 0 (s.drop n) a b) :
    SameToken n s (behindBlanks n a) (behindBlanks n b) := by
  obtain ⟨hused, hseen, j, k, state, ha, hb, hkind⟩ := h
  have hfa : behindBlanks n a = (a.after n).map fun _ => ⟨some ⟨n, j⟩, state⟩ := by
    simp [behindBlanks, ha, Reading.map, Reading.after]
  have hfb : behindBlanks n b = (b.after n).map fun _ => ⟨some ⟨n, k⟩, state⟩ := by
    simp [behindBlanks, hb, Reading.map, Reading.after]
  rw [hfa, hfb]
  refine ⟨congrArg (n + ·) hused, congrArg (n + ·) hseen, j, k, state, rfl, rfl, ?_⟩
  rw [Reading.map_used, Reading.after_used, List.drop_take, Nat.add_sub_cancel_left]
  exact hkind

theorem found_behindBlanks {n : Nat} {r : Reading Outcome}
    (h : (behindBlanks n r).value.found = some f) : ∃ g, r.value.found = some g := by
  rw [behindBlanks] at h
  cases hr : r.value.found with
  | none => simp [hr] at h
  | some g => exact ⟨g, rfl⟩

theorem token_same (hs : state.comment = none) (hjson : V.contains .jsonSpan = W.contains .jsonSpan)
    (hf : (token cap V false state s).value.found = some f)
    (hg : (token cap W false state s).value.found = some g) :
    SameToken (blanks s) s (token cap V false state s) (token cap W false state s) := by
  rw [token_eq cap V hs] at hf ⊢
  rw [token_eq cap W hs] at hg ⊢
  obtain ⟨f, hf⟩ := found_behindBlanks hf
  obtain ⟨g, hg⟩ := found_behindBlanks hg
  exact behindBlanks_same (tokenHere_same hjson hf hg)

/-! ## Words -/

theorem nameRest_stops {r : List Char} (hr : NameEnds r) :
    (nameRest r).value = false ∧ (nameRest r).used = 0 := by
  cases r with
  | nil => exact ⟨rfl, rfl⟩
  | cons c r =>
    have hc : isNamePart c = false := hr.part c rfl
    rw [nameRest.eq_def]
    simp only [hc, Bool.false_eq_true, ↓reduceIte]
    split
    · rename_i hdot
      subst hdot
      cases r with
      | nil => exact ⟨rfl, rfl⟩
      | cons d ds =>
        simp only [hr.dot d ds rfl, Bool.false_eq_true, ↓reduceIte]
        exact ⟨trivial, trivial⟩
    · exact ⟨rfl, rfl⟩

/-- A name is read up to where it ends. -/
theorem word_ends {w r : List Char} (hw : ∀ c ∈ w, isNamePart c) (hr : NameEnds r) (V : TokenSet) :
    (word V (w ++ r)).value = wordKind V w ∧ (word V (w ++ r)).used = w.length := by
  obtain ⟨hvalue, hused⟩ := nameRest_parts hw r
  obtain ⟨hundotted, hnone⟩ := nameRest_stops hr
  rw [hundotted] at hvalue
  rw [hnone, Nat.add_zero] at hused
  refine ⟨?_, hused⟩
  rw [word, Reading.map_value, hvalue, hused, if_neg Bool.false_ne_true, List.take_left]

theorem keyword_alphabetic (k : Keyword) :
    ∃ c cs, k.spelling.toList = c :: cs ∧ isNameStart c ∧ isAlphabetic c := by
  cases k <;> exact ⟨_, _, rfl, by decide +kernel⟩

theorem isNameStart_plain (hc : isNameStart c) :
    c.isDigit = false ∧ ∀ d, isNameStart d = false → c ≠ d := by
  refine ⟨?_, ?_⟩
  · simp only [isNameStart, Bool.and_eq_true, Bool.not_eq_true'] at hc
    exact hc.1
  · rintro d hd rfl
    rw [hc] at hd
    cases hd

/-- No JSON value starts with a word that is none. -/
theorem jsonValue_bareWord {r : List Char} (room : Nat) (k : Keyword) (hr : NameEnds r)
    (hk : ¬ IsLiteral k.spelling.toList) :
    (jsonValue room (k.spelling.toList ++ r)).value = none := by
  have hname := isName_parts (Spells.keyword_isName k)
  obtain ⟨c, cs, hw, hc, halpha⟩ := keyword_alphabetic k
  rw [hw] at hname hk ⊢
  have hrun : (skipWhile isNamePart (c :: cs ++ r)).used = (c :: cs).length := by
    have hstop : r.takeWhile isNamePart = [] := by
      cases r with
      | nil => rfl
      | cons d r => exact List.takeWhile_cons_of_neg (by simp [hr.part d rfl])
    rw [skipWhile_eq, List.takeWhile_append_of_pos hname, hstop, List.append_nil]
  have hword : ¬ ["true", "false", "null"].contains (String.ofList (c :: cs)) :=
    fun h => hk (literal_sound h)
  obtain ⟨hdigit, hne⟩ := isNameStart_plain hc
  have hbracket : ¬(c = '\x7b' ∨ c = '[') := by simp [hne '\x7b' rfl, hne '[' rfl]
  have hquote : c ≠ '"' := hne '"' rfl
  have hnumber : ¬(c = '-' ∨ c.isDigit) := by simp [hne '-' rfl, hdigit]
  have htake : (c :: (cs ++ r)).take (c :: cs).length = c :: cs := List.take_left
  have hpiece : (piece room .value [] (c :: (cs ++ r))).value = .bareWord := by
    rw [List.cons_append] at hrun
    rw [piece, valuePiece]
    simp only [if_neg hbracket, if_neg hquote, if_neg hnumber, if_pos halpha, hrun, htake, hword,
      Reading.map_value, Bool.false_eq_true, ↓reduceIte]
  rw [jsonValue_eq, followFirst, List.cons_append, hpiece]
  rfl

theorem keyword_parts (k : Keyword) {r : List Char} (hr : NameEnds r) :
    Parts k.spelling.toList r := by
  refine ⟨fun hnumber => ?_, fun _ => hr.part⟩
  obtain ⟨c, cs, hw, hc⟩ := number_head hnumber
  obtain ⟨d, ds, hw', hd, -⟩ := keyword_alphabetic k
  obtain ⟨rfl, -⟩ : c = d ∧ cs = ds := by simpa using hw.symm.trans hw'
  obtain ⟨hdigit, hne⟩ := isNameStart_plain hd
  rcases hc with hc | hc
  · exact absurd hc (hne '-' rfl)
  · rw [hdigit] at hc
    cases hc

/-- An undotted word is read as what the wanted kinds make of it, unless it is a JSON value and one
is wanted. -/
theorem lexeme_word {r : List Char} (cap : Nat) (state : State) (k : Keyword) (hr : NameEnds r)
    (hs : k.spelling.toList = c :: cs)
    (hplain : ¬ (V.contains .jsonSpan ∧ IsLiteral k.spelling.toList)) :
    (lexeme cap V state c (k.spelling.toList ++ r)).value
        = .ok (wordKind V k.spelling.toList)
      ∧ (lexeme cap V state c (k.spelling.toList ++ r)).used = k.spelling.toList.length := by
  have hname := Spells.keyword_isName k
  have hc : isNameStart c := by
    rw [hs, isName, Bool.and_eq_true] at hname
    exact hname.1
  obtain ⟨hvalue, hused⟩ := word_ends (isName_parts hname) hr V
  unfold lexeme
  split
  · rename_i hjson
    rw [Bool.and_eq_true] at hjson
    have hnone := jsonValue_bareWord (cap - state.depth) k hr fun h => hplain ⟨hjson.1, h⟩
    simp only [hnone]
    rw [plain_nameStart hc]
    exact ⟨congrArg Except.ok hvalue, hused⟩
  · rw [plain_nameStart hc]
    exact ⟨congrArg Except.ok hvalue, hused⟩

theorem wordKind_spelled (V : TokenSet) (k : Keyword) : wordKind V k.spelling.toList
    = if V.contains (.keyword k) || !V.contains .identifier then .keyword k else .identifier := by
  rw [wordKind, String.ofList_toList, Spells.ofSpelling?_spelling]

theorem judge_word {a : Reading (Except LexError Kind)} (cap : Nat) (state : State) (c : Char)
    (w : List Char)
    (h : a.value = .ok (wordKind V w)) :
    (judge cap V state c a).value.found
        = (if V.contains (wordKind V w) then some ⟨0, wordKind V w⟩ else none)
      ∧ (V.contains (wordKind V w) → (judge cap V state c a).used = a.used) := by
  have htrack : (track cap state (wordKind V w)).1 = wordKind V w := by
    rw [wordKind]
    split
    · split <;> rfl
    · rfl
  rw [judge, h, kindOf, htrack]
  cases hV : V.contains (wordKind V w)
  · exact ⟨rfl, fun h => Bool.noConfusion h⟩
  · exact ⟨rfl, fun _ => rfl⟩

theorem token_word {r : List Char} (cap : Nat) (k : Keyword) (hcomment : state.comment = none)
    (hs : ahead s = k.spelling.toList ++ r) (hr : NameEnds r)
    (hplain : ¬ (V.contains .jsonSpan ∧ IsLiteral k.spelling.toList)) :
    (token cap V false state s).value.found
        = (if V.contains (wordKind V k.spelling.toList) then
            some ⟨blanks s, wordKind V k.spelling.toList⟩ else none)
      ∧ (V.contains (wordKind V k.spelling.toList) →
        (token cap V false state s).used = blanks s + k.spelling.toList.length) := by
  obtain ⟨c, cs, hw, hc, -⟩ := keyword_alphabetic k
  have hslash : c ≠ '/' := (isNameStart_plain hc).2 '/' rfl
  obtain ⟨hvalue, hused⟩ := lexeme_word cap state k hr hw hplain
  have hhere : tokenHere cap V false state (ahead s)
      = judge cap V state c ((lexeme cap V state c (k.spelling.toList ++ r)).seeing 1) := by
    rw [hs, hw, List.cons_append, tokenHere_cons cap V state (startsComment_of_ne hslash),
      if_neg (by simpa using hslash)]
  rw [← Reading.seeing_value (n := 1)] at hvalue
  obtain ⟨hfound, hend⟩ := judge_word cap state c _ hvalue
  rw [← hhere] at hfound hend
  rw [token_eq cap V hcomment, ← ahead, behindBlanks]
  by_cases hV : V.contains (wordKind V k.spelling.toList)
  · rw [if_pos hV] at hfound ⊢
    simp only [hfound, Reading.map_value, Reading.map_used, Reading.after_used, hend hV,
      Reading.seeing_used, hused]
    exact ⟨trivial, fun _ => trivial⟩
  · rw [if_neg hV] at hfound ⊢
    simp only [hfound, Reading.back_value, Reading.after_value]
    exact ⟨trivial, fun h => absurd h hV⟩

/-- A JSON value that is wanted is found though it is a word. -/
theorem token_literal {r : List Char} (cap : Nat) (k : Keyword) (hcomment : state.comment = none)
    (hs : ahead s = k.spelling.toList ++ r) (hr : NameEnds r) (hV : V.contains .jsonSpan)
    (hk : IsLiteral k.spelling.toList) :
    (token cap V false state s).value.found = some ⟨blanks s, .jsonSpan⟩
      ∧ (token cap V false state s).used = blanks s + k.spelling.toList.length := by
  have hscalar : Value 0 k.spelling.toList := .inr (.inr hk)
  obtain ⟨hvalue, hused⟩ := jsonValue_complete (hscalar.mono (Nat.zero_le (cap - state.depth)))
    (keyword_parts k hr)
  rw [← hs] at hvalue hused
  obtain ⟨htoken, hend⟩ := token_jsonSpan_complete hcomment hV hvalue
  exact ⟨congrArg Outcome.found htoken, hend.trans (congrArg (blanks s + ·) hused)⟩

/-! ## Scans -/

variable {text : String} {pre rest : List Char} {cur : Cursor}

theorem text_between (hc : cur.Frames pre rest []) (htext : text.toList = pre ++ rest) {m n : Nat}
    (hmn : m ≤ n) : Span.text ⟨cur.place.advance (cur.rest.take m),
      cur.place.advance (cur.rest.take n)⟩ text = String.ofList ((rest.take n).drop m) := by
  have hrest : cur.rest = rest := by rw [hc.rest_eq, List.append_nil]
  have htake : rest.take m ++ (rest.take n).drop m = rest.take n := by
    have hfront : (rest.take n).take m = rest.take m := by rw [List.take_take, Nat.min_eq_left hmn]
    rw [← hfront, List.take_append_drop]
  have hbyte (cs : List Char) : (cur.place.advance cs).byte = Text.size (pre ++ cs) := by
    rw [Location.advance_eq, Text.size_append, hc.byte]
  refine Span.text_eq (a := pre ++ rest.take m) (c := rest.drop n) ?_ ?_ ?_
  · rw [List.append_assoc pre, htake, List.append_assoc, List.take_append_drop, htext]
  · rw [hrest, hbyte]
  · rw [hrest, hbyte, List.append_assoc, htake]

/-- A word that is found is the text of its token. -/
theorem text_word {w r : List Char} (hc : cur.Frames pre rest [])
    (htext : text.toList = pre ++ rest) (hw : ahead rest = w ++ r) :
    Span.text ⟨cur.place.advance (cur.rest.take (blanks rest)),
      cur.place.advance (cur.rest.take (blanks rest + w.length))⟩ text = String.ofList w := by
  rw [text_between hc htext (Nat.le_add_right _ _), List.drop_take, Nat.add_sub_cancel_left,
    ← ahead, hw, List.take_left]

/-- What the wanted kinds can do to a scan that no comment is pending for. If two sets of kinds both
or neither have JSON values and a token is found with each, it is the same but for its kind, which
differs only for a keyword and for a doc comment that one of them does not have. An undotted word
is the keyword it is spelled like exactly if that is wanted, unless it is a JSON value and one of
these is wanted. -/
theorem scan_contexts (config : Config) (V W : TokenSet) {state : State} {text : String}
    {c : Cursor}
    (hstate : state.comment = none) (hc : c.Sees text)
    (hjson : V.contains .jsonSpan = W.contains .jsonSpan) :
    (∀ t u, (c.scan config.cap V state).1 = some t → (c.scan config.cap W state).1 = some u →
        u.span = t.span ∧ (c.scan config.cap W state).2 = (c.scan config.cap V state).2
          ∧ Alike (t.text text).toList t.kind u.kind)
      ∧ ∀ k, WordAhead k c.rest →
        (¬ (V.contains .jsonSpan ∧ IsLiteral k.spelling.toList) →
          ((∃ t, (c.scan config.cap V state).1 = some t ∧ t.kind = .keyword k
              ∧ t.text text = k.spelling) ↔ V.contains (.keyword k)))
        ∧ (V.contains .jsonSpan → IsLiteral k.spelling.toList →
          ∃ t, (c.scan config.cap V state).1 = some t ∧ t.kind = .jsonSpan
            ∧ t.text text = k.spelling) := by
  obtain ⟨pre, rest, htext, hc⟩ := hc
  have hV := hc.scan_eq config.cap V state (r := token config.cap V false state rest) rfl
  have hW := hc.scan_eq config.cap W state (r := token config.cap W false state rest) rfl
  refine ⟨fun t u ht hu => ?_, fun k hk => ?_⟩
  · rw [hV] at ht ⊢
    rw [hW] at hu ⊢
    obtain ⟨f, hf, rfl⟩ := Option.map_eq_some_iff.1 ht
    obtain ⟨g, hg, rfl⟩ := Option.map_eq_some_iff.1 hu
    obtain ⟨hused, hseen, j, k, after, ha, hb, hkind⟩ := token_same hstate hjson hf hg
    have hle : blanks rest ≤ (token config.cap V false state rest).used := by
      have hfound := token_found hstate hf
      exact hfound.blanks ▸ hfound.le_used
    rw [ha] at hf
    rw [hb] at hg
    obtain rfl := Option.some.inj hf
    obtain rfl := Option.some.inj hg
    rw [Token.text, text_between hc htext hle, String.toList_ofList, ha, hb, hused, hseen]
    exact ⟨rfl, rfl, hkind⟩
  · obtain ⟨r, hs, hr⟩ := hk
    rw [hc.rest_eq, List.append_nil] at hs
    have hword := text_word hc htext hs
    rw [String.ofList_toList] at hword
    rw [hV]
    refine ⟨fun hplain => ?_, fun hwanted hliteral => ?_⟩
    · obtain ⟨hfound, hused⟩ := token_word config.cap k hstate hs hr hplain
      rw [hfound]
      refine ⟨?_, fun hwanted => ?_⟩
      · rintro ⟨t, ht, hkind, -⟩
        obtain ⟨f, hf, rfl⟩ := Option.map_eq_some_iff.1 ht
        split at hf
        · rename_i hread
          cases hf
          rwa [show wordKind V k.spelling.toList = .keyword k from hkind] at hread
        · cases hf
      · have hread : wordKind V k.spelling.toList = .keyword k := by
          rw [wordKind_spelled, hwanted]
          rfl
        rw [hread] at hused ⊢
        rw [if_pos hwanted, hused hwanted]
        exact ⟨_, rfl, rfl, hword⟩
    · obtain ⟨hfound, hused⟩ := token_literal config.cap k hstate hs hr hwanted hliteral
      rw [hfound, hused]
      exact ⟨_, rfl, rfl, hword⟩

/-- A word at the end of the text that is a keyword among some kinds and a name among others. -/
theorem scan_contexts_map :
    let c := Cursor.start " map"
    let V := TokenSet.ofList [.keyword .map, .number]
    let W := TokenSet.ofList [.identifier, .comment]
    let t : Token := ⟨.keyword .map, ⟨⟨1, ⟨0, 1⟩⟩, ⟨4, ⟨0, 4⟩⟩⟩⟩
    c.Sees " map" ∧ V.contains .jsonSpan = W.contains .jsonSpan ∧ WordAhead .map c.rest
      ∧ (c.scan ({} : Config).cap V {}).1 = some t
      ∧ (c.scan ({} : Config).cap W {}).1 = some { t with kind := .identifier }
      ∧ (c.scan ({} : Config).cap W {}).2 = (c.scan ({} : Config).cap V {}).2
      ∧ Alike (t.text " map").toList (.keyword .map) .identifier
      ∧ ∃ u, (c.scan ({} : Config).cap V {}).1 = some u ∧ u.kind = .keyword .map
        ∧ u.text " map" = Keyword.map.spelling := by
  intro c V W t
  have hc : c.Sees " map" := .start _
  have hjson : V.contains .jsonSpan = W.contains .jsonSpan := by decide
  have hword : WordAhead .map c.rest := ⟨[], by decide, nameEnds_nil⟩
  have hV : (c.scan ({} : Config).cap V {}).1 = some t := by decide
  have hW : (c.scan ({} : Config).cap W {}).1 = some { t with kind := .identifier } := by decide
  have hplain : ¬ (V.contains .jsonSpan ∧ IsLiteral Keyword.map.spelling.toList) := fun h =>
    absurd h.1 (by decide)
  have hscan := scan_contexts {} V W (rfl : ({} : State).comment = none) hc hjson
  obtain ⟨-, hsame, halike⟩ := hscan.1 _ _ hV hW
  exact ⟨hc, hjson, hword, hV, hW, hsame, halike, ((hscan.2 .map hword).1 hplain).2 (by decide)⟩

/-- The keyword is wanted and yet is not what is found: the word is a JSON value. -/
theorem scan_null_value :
    let c := Cursor.start "null"
    let V := TokenSet.ofList [.jsonSpan, .keyword .null]
    c.Sees "null" ∧ WordAhead .null c.rest ∧ V.contains (.keyword .null)
      ∧ (c.scan ({} : Config).cap V {}).1 = some ⟨.jsonSpan, ⟨⟨0, ⟨0, 0⟩⟩, ⟨4, ⟨0, 4⟩⟩⟩⟩
      ∧ ¬ ∃ t, (c.scan ({} : Config).cap V {}).1 = some t ∧ t.kind = .keyword .null := by
  intro c V
  have hfound : (c.scan ({} : Config).cap V {}).1
      = some ⟨.jsonSpan, ⟨⟨0, ⟨0, 0⟩⟩, ⟨4, ⟨0, 4⟩⟩⟩⟩ := by decide
  refine ⟨.start _, ⟨[], by decide, nameEnds_nil⟩, by decide, hfound, ?_⟩
  rintro ⟨t, ht, hkind⟩
  obtain rfl := Option.some.inj (hfound.symm.trans ht)
  cases hkind

end Lexer

end AvroTree
