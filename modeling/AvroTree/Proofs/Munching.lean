import AvroTree.Proofs.Counterparts
import AvroTree.Proofs.JsonGrammar
import AvroTree.Proofs.SchemaTaking

/-!
# How far a token goes

The texts of the tokens of a kind, said without the lexer (`Lexeme`). A plain pass finds only such
texts, and of those that start at the same place it finds the longest (`tokenize_munches`).
-/

namespace AvroTree

open Token (Kind)

namespace Text

/-- Names with dots between them. -/
inductive Dotted : List Char → Prop
  | name {w : List Char} (h : isName w) : Dotted w
  | dot {w s : List Char} (h : isName w) (rest : Dotted s) : Dotted (w ++ '.' :: s)

/-- A name between backticks, which may start with a digit. -/
def Backticked (s : List Char) : Prop :=
  ∃ w, w ≠ [] ∧ (∀ c ∈ w, isNamePart c) ∧ s = '\x60' :: (w ++ ['\x60'])

/-- What stands between the quotes of a string. -/
inductive Items (quote : Char) : List Char → Prop
  | nil : Items quote []
  | plain {c : Char} {cs : List Char} (hq : c ≠ quote) (hb : c ≠ '\\') (hn : c ≠ '\n')
      (rest : Items quote cs) : Items quote (c :: cs)
  | escape {c : Char} {cs : List Char} (hn : c ≠ '\n') (rest : Items quote cs) :
      Items quote ('\\' :: c :: cs)

/-- A string between double or single quotes. -/
def QuotedString (s : List Char) : Prop :=
  ∃ quote items, (quote = '"' ∨ quote = '\'') ∧ Items quote items ∧ s = quote :: (items ++ [quote])

/-- The mark of an annotation. -/
def Note (s : List Char) : Prop :=
  ∃ c cs, isNameStart c ∧ (∀ d ∈ cs, isNotePart d) ∧ s = '@' :: c :: cs

/-- A comment up to the end of its line. -/
def LineComment (s : List Char) : Prop :=
  ∃ body, (∀ c ∈ body, endsLine c = false) ∧ s = '/' :: '/' :: body

/-- A comment up to the first closing mark. -/
def BlockComment (s : List Char) : Prop :=
  ∃ body, ¬ ['*', '/'] <:+: body ∧ s = '/' :: '*' :: (body ++ ['*', '/'])

/-- No name goes on into this text. A dot belongs to a name only in front of another one. -/
structure NameEnds (r : List Char) : Prop where
  part : ∀ c ∈ r.head?, isNamePart c = false
  dot : ∀ d ds, r = '.' :: d :: ds → isNameStart d = false

end Text

open Text

/-- The texts of the tokens of a kind, JSON values apart. Line comments and block comments are one
language. -/
def Lexeme : Kind → List Char → Prop
  | .identifier, s => Dotted s ∨ Backticked s
  | .keyword k, s => s = k.spelling.toList
  | .punct p, s => s = [p.char]
  | .comment, s => LineComment s ∨ BlockComment s
  | .docComment, s => LineComment s ∨ BlockComment s
  | .string, s => QuotedString s
  | .number, s => Number s
  | .atName, s => Note s
  | .jsonSpan, _ => False
  | .eof, _ => False
  | .error _, _ => False

/-- The text `s`, with `r` behind it, is the longest of its kind. A keyword is all of its name. -/
structure Munched (k : Kind) (s r : List Char) : Prop where
  lexeme : Lexeme k s
  longest : ∀ p, p <+: s ++ r → Lexeme k p → p.length ≤ s.length
  whole : ∀ w, k = .keyword w → NameEnds r

namespace Munched

variable {k : Kind} {s : List Char} {n : Nat}

/-- The first `n` characters of a text are the longest lexeme if no lexeme is longer. -/
theorem of_take (hlexeme : Lexeme k (s.take n))
    (hlongest : ∀ p r, s = p ++ r → Lexeme k p → p.length ≤ n)
    (hwhole : ∀ w, k = .keyword w → NameEnds (s.drop n)) : Munched k (s.take n) (s.drop n) := by
  refine ⟨hlexeme, fun p hp hk => ?_, hwhole⟩
  rw [List.take_append_drop] at hp
  obtain ⟨r, rfl⟩ := hp
  rw [List.length_take, List.length_append]
  exact Nat.le_min.2 ⟨hlongest p r rfl hk, Nat.le_add_right _ _⟩

end Munched

/-- The text between two places. -/
theorem Span.text_eq {text : String} {span : Span} {a b c : List Char}
    (h : text.toList = a ++ b ++ c) (hstart : span.start.byte = Text.size a)
    (hstop : span.stop.byte = Text.size (a ++ b)) : span.text text = String.ofList b := by
  rw [Span.text, Text.slice, h, hstart, hstop, Text.size_append, Text.slice?_append]

namespace Lexer

variable {α β : Type} {k : Kind} {c : Char} {p s t u r cs ds power : List Char} {n : Nat}

/-! ## Names -/

theorem nameRest_part (hc : isNamePart c) (cs : List Char) :
    nameRest (c :: cs) = (nameRest cs).after 1 := by
  rw [nameRest.eq_def]
  simp only [hc, ↓reduceIte]

theorem nameRest_parts {w : List Char} (hw : ∀ c ∈ w, isNamePart c) (r : List Char) :
    (nameRest (w ++ r)).value = (nameRest r).value
      ∧ (nameRest (w ++ r)).used = w.length + (nameRest r).used := by
  induction w with
  | nil => exact ⟨rfl, (Nat.zero_add _).symm⟩
  | cons c w ih =>
    obtain ⟨hc, hw⟩ := List.forall_mem_cons.1 hw
    obtain ⟨hvalue, hused⟩ := ih hw
    rw [List.cons_append, nameRest_part hc, Reading.after_used, hused, List.length_cons]
    exact ⟨hvalue, by omega⟩

theorem nameRest_dot {d : Char} (hd : isNameStart d) (ds : List Char) :
    nameRest ('.' :: d :: ds) = ((nameRest ds).after 2).map fun _ => true := by
  rw [nameRest, if_neg (by decide), if_pos rfl]
  simp only [hd, ↓reduceIte]

theorem isName_parts {w : List Char} (h : isName w) : ∀ c ∈ w, isNamePart c := by
  cases w with
  | nil => cases h
  | cons c cs =>
    rw [isName, Bool.and_eq_true, List.all_eq_true] at h
    exact List.forall_mem_cons.2 ⟨isNamePart_of_isNameStart h.1, h.2⟩

theorem isName_snoc {w : List Char} (h : isName w) (hc : isNamePart c) : isName (w ++ [c]) := by
  cases w with
  | nil => cases h
  | cons d ds =>
    rw [isName, Bool.and_eq_true] at h
    simp [isName, h.1, h.2, hc]

theorem dotted_start (h : Dotted s) : ∃ c cs, s = c :: cs ∧ isNameStart c := by
  have hstart {w : List Char} (h : isName w) : ∃ c cs, w = c :: cs ∧ isNameStart c := by
    cases w with
    | nil => cases h
    | cons c cs =>
      rw [isName, Bool.and_eq_true] at h
      exact ⟨c, cs, rfl, h.1⟩
  cases h with
  | name h => exact hstart h
  | dot h =>
    obtain ⟨c, cs, rfl, hc⟩ := hstart h
    exact ⟨c, _, rfl, hc⟩

/-- What is read behind the beginning of a name goes on with it. -/
theorem nameRest_dotted {w : List Char} (hw : isName w) (s : List Char) :
    Dotted (w ++ s.take (nameRest s).used) := by
  fun_induction nameRest s generalizing w with
  | case2 c cs hc ih =>
    rw [Reading.after_used, Nat.add_comm, List.take_succ_cons]
    simpa using ih (isName_snoc hw hc)
  | case4 d ds hd _ ih =>
    rw [Reading.map_used, Reading.after_used, Nat.add_comm, List.take_succ_cons,
      List.take_succ_cons]
    exact .dot hw (ih (w := [d]) (by simpa [isName] using hd))
  | _ =>
    rw [List.take_zero, List.append_nil]
    exact .name hw

/-- No longer dotted name starts where one is read. -/
theorem nameRest_takes (h : Dotted p) (r : List Char) :
    p.length ≤ (nameRest (p ++ r)).used := by
  induction h with
  | name h =>
    rw [(nameRest_parts (isName_parts h) r).2]
    exact Nat.le_add_right _ _
  | @dot w s h hs ih =>
    obtain ⟨d, ds, rfl, hd⟩ := dotted_start hs
    rw [List.cons_append, nameRest_part (isNamePart_of_isNameStart hd), Reading.after_used] at ih
    rw [List.append_assoc, (nameRest_parts (isName_parts h) _).2, List.cons_append,
      List.cons_append, nameRest_dot hd, Reading.map_used, Reading.after_used, List.length_append,
      List.length_cons]
    omega

theorem nameEnds_nil : NameEnds [] :=
  ⟨by simp, by simp⟩

theorem nameEnds_nameRest (s : List Char) : NameEnds (s.drop (nameRest s).used) := by
  fun_induction nameRest s with
  | case1 => exact nameEnds_nil
  | case2 c cs _ ih =>
    rw [Reading.after_used, Nat.add_comm]
    exact ih
  | case3 hc =>
    refine ⟨?_, by rintro _ _ ⟨⟩⟩
    rintro _ ⟨⟩
    simpa using hc
  | case4 d ds _ _ ih =>
    rw [Reading.map_used, Reading.after_used, Nat.add_comm]
    exact ih
  | case5 d ds hd hc =>
    refine ⟨?_, ?_⟩
    · rintro _ ⟨⟩
      simpa using hc
    · rintro _ _ ⟨⟩
      simpa using hd
  | case6 c cs hc hdot =>
    refine ⟨?_, ?_⟩
    · rintro _ ⟨⟩
      simpa using hc
    · rintro _ _ ⟨⟩
      exact absurd rfl hdot

theorem spelling_of_ofSpelling? {w : Keyword}
    (h : Keyword.ofSpelling? (String.ofList s) = some w) : s = w.spelling.toList := by
  have hspelling : w.spelling = String.ofList s := by simpa using List.find?_some h
  rw [hspelling, String.toList_ofList]

theorem wordKind_keyword {V : TokenSet} {w : Keyword} (h : wordKind V s = .keyword w) :
    s = w.spelling.toList := by
  rw [wordKind] at h
  split at h
  · rename_i k hk
    split at h
    · cases h
      exact spelling_of_ofSpelling? hk
    · cases h
  · cases h

theorem not_backticked_of_isNameStart (hc : isNameStart c) (r : List Char)
    (h : c :: cs = p ++ r) : ¬ Backticked p := by
  rintro ⟨w, -, -, rfl⟩
  cases h
  cases hc

theorem word_munched (hc : isNameStart c) (V : TokenSet) :
    Munched (word V (c :: cs)).value ((c :: cs).take (word V (c :: cs)).used)
      ((c :: cs).drop (word V (c :: cs)).used) := by
  have hends := nameEnds_nameRest (c :: cs)
  have hdotted : Dotted ((c :: cs).take (nameRest (c :: cs)).used) := by
    rw [nameRest_part (isNamePart_of_isNameStart hc), Reading.after_used, Nat.add_comm,
      List.take_succ_cons]
    exact nameRest_dotted (w := [c]) (by simpa [isName] using hc) cs
  have hname : Munched .identifier ((c :: cs).take (nameRest (c :: cs)).used)
      ((c :: cs).drop (nameRest (c :: cs)).used) := by
    refine .of_take (.inl hdotted) (fun p r hp hk => ?_) (by rintro _ ⟨⟩)
    have hk := hk.resolve_right (not_backticked_of_isNameStart hc r hp)
    rw [hp]
    exact nameRest_takes hk r
  have hused : (word V (c :: cs)).used = (nameRest (c :: cs)).used := rfl
  rw [hused]
  rcases word_kind V (c :: cs) with hv | ⟨w, hv⟩
  · rw [hv]
    exact hname
  · rw [hv]
    have hword : (c :: cs).take (nameRest (c :: cs)).used = w.spelling.toList := by
      rw [word, Reading.map_value] at hv
      split at hv
      · cases hv
      · exact wordKind_keyword hv
    refine ⟨hword, fun p _ hp => ?_, fun _ _ => hends⟩
    rw [hword, show p = w.spelling.toList from hp]

/-! ## Names between backticks and names of annotations -/

theorem length_le_takeWhile {q : Char → Bool} (hp : ∀ c ∈ p, q c) (r : List Char) :
    p.length ≤ ((p ++ r).takeWhile q).length := by
  rw [List.takeWhile_append_of_pos hp, List.length_append]
  exact Nat.le_add_right _ _

theorem quotedName_complete {w : List Char} (hne : w ≠ []) (hw : ∀ c ∈ w, isNamePart c)
    (r : List Char) : (quotedName ('\x60' :: (w ++ '\x60' :: r))).used = w.length + 2 := by
  have hrun : (skipWhile isNamePart (w ++ '\x60' :: r)).value = w.length := by
    rw [skipWhile_eq, List.takeWhile_append_of_pos hw,
      List.takeWhile_cons_of_neg (by decide), List.append_nil]
  rw [quotedName, List.drop_succ_cons, List.drop_zero, hrun,
    if_pos ⟨List.length_pos_iff.2 hne, by simp⟩]

theorem quotedName_sound (h : (quotedName ('\x60' :: cs)).value = .ok k) :
    ∃ w r, w ≠ [] ∧ (∀ c ∈ w, isNamePart c) ∧ cs = w ++ '\x60' :: r := by
  have hrun : (skipWhile isNamePart cs).value = (cs.takeWhile isNamePart).length := by
    rw [skipWhile_eq]
  rw [quotedName, List.drop_succ_cons, List.drop_zero, hrun] at h
  split at h
  · rename_i hclosed
    obtain ⟨hpos, hclose⟩ := hclosed
    rw [List.getElem?_cons_succ] at hclose
    obtain ⟨hlt, hclose⟩ := List.getElem?_eq_some_iff.1 hclose
    refine ⟨cs.takeWhile isNamePart, cs.drop ((cs.takeWhile isNamePart).length + 1),
      List.length_pos_iff.1 hpos, fun c hc => List.mem_takeWhile_imp hc, ?_⟩
    have hsplit := List.take_append_drop (cs.takeWhile isNamePart).length cs
    rwa [← List.prefix_iff_eq_take.1 (List.takeWhile_prefix _), List.drop_eq_getElem_cons hlt,
      hclose, eq_comm] at hsplit
  · cases h

theorem quotedName_munched (h : (quotedName ('\x60' :: cs)).value = .ok k) :
    Munched k (('\x60' :: cs).take (quotedName ('\x60' :: cs)).used)
      (('\x60' :: cs).drop (quotedName ('\x60' :: cs)).used) := by
  obtain rfl := quotedName_gives _ k h
  obtain ⟨w, r, hne, hw, rfl⟩ := quotedName_sound h
  refine .of_take (.inr ⟨w, hne, hw, ?_⟩) (fun p t hp hk => ?_) (by rintro _ ⟨⟩)
  · rw [quotedName_complete hne hw, List.take_succ_cons, List.take_length_add_append]
    rfl
  · rcases hk with hk | ⟨v, hne', hv, rfl⟩
    · obtain ⟨c, cs, rfl, hc⟩ := dotted_start hk
      rw [← (List.cons.inj hp).1] at hc
      cases hc
    · rw [hp, List.cons_append, List.append_assoc, List.singleton_append,
        quotedName_complete hne' hv]
      simp

theorem atName_eq (hc : isNameStart c) (cs : List Char) :
    atName ('@' :: c :: cs) =
      ((skipWhile isNotePart (c :: cs)).after 1).map fun _ => .ok .atName := by
  rw [atName]
  simp only [List.drop_succ_cons, List.drop_zero, hc, ↓reduceIte]
  rfl

theorem isNotePart_of_isNameStart (hc : isNameStart c) : isNotePart c := by
  simp [isNotePart, isNamePart_of_isNameStart hc]

theorem atName_munched (h : (atName ('@' :: cs)).value = .ok k) :
    Munched k (('@' :: cs).take (atName ('@' :: cs)).used)
      (('@' :: cs).drop (atName ('@' :: cs)).used) := by
  obtain rfl := atName_gives _ k h
  obtain ⟨c, cs, rfl, hc⟩ : ∃ c ds, cs = c :: ds ∧ isNameStart c := by
    rw [atName] at h
    split at h
    · cases h
    · rename_i c ds hcs
      split at h
      · exact ⟨c, ds, hcs, ‹_›⟩
      · cases h
  have hused : (atName ('@' :: c :: cs)).used = (cs.takeWhile isNotePart).length + 2 := by
    rw [atName_eq hc, Reading.map_used, Reading.after_used, skipWhile_eq,
      List.takeWhile_cons_of_pos (isNotePart_of_isNameStart hc), List.length_cons]
    exact Nat.add_comm 1 _
  rw [hused]
  refine .of_take ⟨c, cs.takeWhile isNotePart, hc, fun d hd => List.mem_takeWhile_imp hd, ?_⟩
    (fun p r hp hk => ?_) (by rintro _ ⟨⟩)
  · rw [List.take_succ_cons, List.take_succ_cons,
      ← List.prefix_iff_eq_take.1 (List.takeWhile_prefix _)]
  · obtain ⟨d, ds, -, hds, rfl⟩ := hk
    obtain ⟨rfl, rfl⟩ : c = d ∧ cs = ds ++ r := by simpa using hp
    exact Nat.succ_le_succ (Nat.succ_le_succ (length_le_takeWhile hds r))

/-! ## Numbers -/

/-- The lexer goes at least to the end of `u` when `r` stands behind that. -/
def Takes (p : Attempt α) (u r : List Char) : Prop :=
  u.length ≤ (p (u ++ r)).used

namespace Takes

theorem nil (p : Attempt α) (r : List Char) : Takes p [] r :=
  Nat.zero_le _

theorem first {p : Attempt α} (h : Takes p u r) (f : α → Attempt β) : Takes (p >>= f) u r :=
  Nat.le_trans h (attempt_used p f _)

/-- Behind `v`, which the first lexer takes exactly. -/
theorem behind {p : Attempt α} {f : α → Attempt β} {v : List Char} {a : α}
    (hp : Leaves p (v ++ (u ++ r)) a (u ++ r)) (hf : Takes (f a) u r) :
    Takes (p >>= f) (v ++ u) r := by
  have hv : (p (v ++ (u ++ r))).used = v.length := by
    have hused := hp.used
    have hlength : (v ++ (u ++ r)).length = v.length + (u ++ r).length := List.length_append
    exact Nat.add_right_cancel (hused.trans hlength)
  have hsplit : ((p >>= f : Attempt β) (v ++ (u ++ r))).used
      = v.length + (f a (u ++ r)).used := by
    show (Lexer.bind p (ExceptT.bindCont f) (v ++ (u ++ r))).used = _
    rw [Lexer.bind, hp.value, hp.rest, hv]
    rfl
  rw [Takes, List.append_assoc, hsplit, List.length_append]
  exact Nat.add_le_add_left hf _

end Takes

theorem digitsFrom_digit (hc : c.isDigit) (n : Nat) (cs : List Char) :
    digitsFrom n (c :: cs) = (digitsFrom (n + 1) cs).after 1 := by
  rw [digitsFrom.eq_def]
  simp only [hc, ↓reduceIte]

theorem digitsFrom_underscore (hn : 0 < n) (hc : c.isDigit) (cs : List Char) :
    digitsFrom n ('_' :: c :: cs) = (digitsFrom (n + 1) cs).after 2 := by
  rw [digitsFrom, if_neg (by decide), if_pos ⟨rfl, hn⟩, if_pos hc]

theorem digitsFrom_takes (h : Digits ds) (n : Nat) (r : List Char) :
    ds.length ≤ (digitsFrom n (ds ++ r)).used := by
  induction h generalizing n with
  | one hd =>
    rw [List.cons_append, digitsFrom_digit hd]
    exact Nat.le_add_right _ _
  | cons hd _ ih =>
    rw [List.cons_append, digitsFrom_digit hd, Reading.after_used, List.length_cons, Nat.add_comm]
    exact Nat.add_le_add_left (ih _) _
  | @underscore d ds hd hds ih =>
    obtain ⟨e, es, he, hedigit⟩ := digits_head hds r
    have hrest := ih (n + 1)
    rw [he, digitsFrom_digit hedigit, Reading.after_used] at hrest
    rw [List.cons_append, List.cons_append, he, digitsFrom_digit hd,
      digitsFrom_underscore (n := n + 1) n.zero_lt_succ hedigit, Reading.after_used,
      Reading.after_used]
    simp only [List.length_cons]
    omega

theorem digits_takes (h : Digits ds) (r : List Char) : Takes digits ds r :=
  digitsFrom_takes h 0 r

theorem power_takes (h : Power power) (r : List Char) : Takes (exponent digits) power r := by
  rcases h with rfl | ⟨c, sign, ds, hc, hsign, hds, rfl⟩
  · exact .nil _ r
  · obtain ⟨d, t, ht, hd⟩ := digits_head hds r
    obtain ⟨b, hb⟩ := sign_leaves hsign (s := ds ++ r)
      (by rw [ht]; rintro _ ⟨⟩; exact isSign_of_isDigit hd)
    exact .behind (v := [c]) (.skipIf_true hc _) (.behind hb ((digits_takes hds r).first _))

/-- Digits, or none, with a power behind them, and what comes of the power. -/
theorem run_takes {f : Nat → Attempt β} (hds : ds = [] ∨ Digits ds) (hpower : Power power)
    (hf : ∀ n, (Digits ds → 0 < n) → Takes (f n) power r) :
    Takes (digits >>= f) (ds ++ power) r := by
  cases power with
  | nil =>
    rw [List.append_nil]
    rcases hds with rfl | hds
    · exact .nil _ r
    · exact (digits_takes hds r).first f
  | cons c cs =>
    have hstops : Stops (c :: cs ++ r) := by
      rintro _ ⟨⟩
      exact power_stops hpower c rfl
    rcases hds with rfl | hds
    · exact .behind (digits_none hstops) (hf 0 (by rintro ⟨⟩))
    · obtain ⟨n, hn, hdigits⟩ := digits_leaves hds hstops
      exact .behind hdigits (hf n fun _ => hn)

/-- No longer number starts where one is read. -/
theorem number_takes (h : Number p) (r : List Char) : Takes number p r := by
  rw [number_eq]
  have hend {whole fraction : Nat} {power : List Char} (hpos : 0 < whole + fraction)
      (hpower : Power power) : Takes (numberEnd whole fraction) power r := by
    rw [numberEnd, if_neg hpos.ne']
    exact (power_takes hpower r).first _
  have hdot (t : List Char) : Leaves (liftM (skipIf (· == '.'))) (['.'] ++ t) true t :=
    .skipIf_true (p := (· == '.')) rfl t
  cases h with
  | @whole sign ds power hsign hds hpower =>
    obtain ⟨d, t, ht, hd⟩ := digits_head hds (power ++ r)
    obtain ⟨b, hb⟩ := sign_leaves hsign (s := ds ++ power ++ r)
      (by rw [List.append_assoc, ht]; rintro _ ⟨⟩; exact isSign_of_isDigit hd)
    refine .behind hb (run_takes (.inr hds) hpower fun n hn => ?_)
    cases power with
    | nil => exact .nil _ r
    | cons c cs =>
      have hundotted : ∀ d ∈ (c :: cs ++ r).head?, (d == '.') = false := by
        rintro _ ⟨⟩
        exact power_undotted hpower c rfl
      exact .behind (v := []) (.skipIf_false hundotted) (.behind (v := []) (.pure 0 _)
        (hend (Nat.add_pos_left (hn hds) 0) hpower))
  | @dotted sign ds fraction power hsign hds hfraction hpower =>
    obtain ⟨d, t, ht, hd⟩ := digits_head hds ('.' :: (fraction ++ power) ++ r)
    obtain ⟨b, hb⟩ := sign_leaves hsign (s := ds ++ '.' :: (fraction ++ power) ++ r)
      (by rw [List.append_assoc, ht]; rintro _ ⟨⟩; exact isSign_of_isDigit hd)
    obtain ⟨n, hn, hdigits⟩ := digits_leaves hds (r := '.' :: (fraction ++ power) ++ r)
      (by rintro _ ⟨⟩; exact ⟨rfl, by decide⟩)
    exact .behind hb (.behind hdigits (.behind (hdot _)
      (run_takes hfraction hpower fun m _ => hend (Nat.add_pos_left hn m) hpower)))
  | @fraction sign ds power hsign hds hpower =>
    obtain ⟨b, hb⟩ := sign_leaves hsign (s := '.' :: (ds ++ power) ++ r) (by rintro _ ⟨⟩; rfl)
    have hnone : Leaves digits ([] ++ ('.' :: (ds ++ power) ++ r)) 0 ('.' :: (ds ++ power) ++ r) :=
      digits_none (by rintro _ ⟨⟩; exact ⟨rfl, by decide⟩)
    exact .behind hb (.behind hnone (.behind (hdot _)
      (run_takes (.inr hds) hpower fun m hm => hend (Nat.add_pos_right 0 (hm hds)) hpower)))

/-- What is read of digits when `n` of them have been read: none, or some, perhaps behind an
underscore. -/
theorem digitsFrom_sound {m : Nat} (h : (digitsFrom n s).value = .ok m) :
    m = n ∧ (digitsFrom n s).used = 0
      ∨ n < m ∧ (Digits (s.take (digitsFrom n s).used)
        ∨ 0 < n ∧ ∃ ds, Digits ds ∧ s.take (digitsFrom n s).used = '_' :: ds) := by
  fun_induction digitsFrom n s with
  | case1 => exact .inl ⟨(Except.ok.inj h).symm, rfl⟩
  | case2 n c cs hc ih =>
    rw [Reading.after_used, Nat.add_comm, List.take_succ_cons]
    rcases ih h with ⟨rfl, hused⟩ | ⟨hlt, hds | ⟨-, ds, hds, hused⟩⟩
    · rw [hused, List.take_zero]
      exact .inr ⟨Nat.lt_succ_self n, .inl (.one hc)⟩
    · exact .inr ⟨Nat.lt_of_succ_lt hlt, .inl (.cons hc hds)⟩
    · rw [hused]
      exact .inr ⟨Nat.lt_of_succ_lt hlt, .inl (.underscore hc hds)⟩
  | case4 n c _ hscore d ds hd ih =>
    obtain ⟨rfl, hn⟩ := hscore
    rw [Reading.after_used, Nat.add_comm, List.take_succ_cons, List.take_succ_cons]
    rcases ih h with ⟨rfl, hused⟩ | ⟨hlt, hds | ⟨-, es, hes, hused⟩⟩
    · rw [hused, List.take_zero]
      exact .inr ⟨Nat.lt_succ_self n, .inr ⟨hn, [d], .one hd, rfl⟩⟩
    · exact .inr ⟨Nat.lt_of_succ_lt hlt, .inr ⟨hn, _, .cons hd hds, rfl⟩⟩
    · rw [hused]
      exact .inr ⟨Nat.lt_of_succ_lt hlt, .inr ⟨hn, _, .underscore hd hes, rfl⟩⟩
  | case6 => exact .inl ⟨(Except.ok.inj h).symm, rfl⟩
  | _ => cases h

/-- Digits are read, or nothing is. -/
theorem digits_sound (h : Leaves digits s n t) :
    n = 0 ∧ s = t ∨ n ≠ 0 ∧ ∃ ds, Digits ds ∧ s = ds ++ t := by
  have hsplit := List.take_append_drop (digits s).used s
  rw [h.rest] at hsplit
  rcases digitsFrom_sound (n := 0) h.value with ⟨hn, hused⟩ | ⟨hn, hds | ⟨hlt, -⟩⟩
  · exact .inl ⟨hn, by rw [← hsplit, show (digits s).used = 0 from hused]; rfl⟩
  · exact .inr ⟨hn.ne', _, hds, hsplit.symm⟩
  · exact absurd hlt (Nat.lt_irrefl 0)

theorem digits_used_le (s : List Char) : (digits s).used ≤ s.length :=
  (digitsFrom_blunt 0).used_le s

theorem sign_sound {b : Bool} (h : Leaves (liftM (skipIf isSign)) s b t) :
    ∃ sign, Sign sign ∧ s = sign ++ t := by
  rcases h.of_skipIf with ⟨-, c, hc, rfl⟩ | ⟨-, rfl, -⟩
  · exact ⟨[c], .inr ⟨c, hc, rfl⟩, rfl⟩
  · exact ⟨[], .inl rfl, rfl⟩

theorem power_sound (h : Leaves (exponent digits) s () t) :
    ∃ power, Power power ∧ s = power ++ t := by
  obtain ⟨mark, u, hmark, hrest⟩ := Leaves.of_bind (attempt_skipIf_used _ s) h
  rcases hmark.of_skipIf with ⟨rfl, c, hc, rfl⟩ | ⟨rfl, rfl, -⟩
  · obtain ⟨b, v, hskip, hrest⟩ := Leaves.of_bind (attempt_skipIf_used _ u) hrest
    obtain ⟨n, w, hdigits, hrest⟩ := Leaves.of_bind (digits_used_le v) hrest
    split at hrest
    · exact hrest.of_throw.elim
    · rename_i hn
      obtain rfl := hrest.of_pure
      obtain ⟨sign, hsign, rfl⟩ := sign_sound hskip
      rcases digits_sound hdigits with ⟨h0, -⟩ | ⟨-, ds, hds, rfl⟩
      · exact absurd h0 hn
      · exact ⟨_, .inr ⟨c, sign, ds, hc, hsign, hds, rfl⟩, by simp⟩
  · exact ⟨[], .inl rfl, hrest.of_pure⟩

/-- What is read as a number is one. -/
theorem number_sound (h : Leaves number s .number t) : ∃ v, Number v ∧ s = v ++ t := by
  have hend {whole fraction : Nat} {u : List Char}
      (h : Leaves (numberEnd whole fraction) u .number t) :
      whole + fraction ≠ 0 ∧ ∃ power, Power power ∧ u = power ++ t := by
    unfold numberEnd at h
    split at h
    · obtain ⟨_, _, hthrow, -⟩ := Leaves.of_bind (Nat.zero_le _) h
      exact hthrow.of_throw.elim
    · rename_i hpos
      have hblunt := numeral_blunt (exponent_numeral (.given (digitsFrom_blunt 0)))
      have hused := hblunt.used_le u
      obtain ⟨_, v, hpower, hrest⟩ := Leaves.of_bind hused h
      obtain rfl := hrest.of_pure
      exact ⟨hpos, power_sound hpower⟩
  rw [number_eq] at h
  obtain ⟨b, u, hskip, hunsigned⟩ := Leaves.of_bind (attempt_skipIf_used _ s) h
  obtain ⟨sign, hsign, rfl⟩ := sign_sound hskip
  obtain ⟨whole, v, hwhole, hrest⟩ := Leaves.of_bind (digits_used_le u) hunsigned
  obtain ⟨dot, w, hdot, htail⟩ := Leaves.of_bind (attempt_skipIf_used (· == '.') v) hrest
  rcases hdot.of_skipIf with ⟨rfl, c, hc, rfl⟩ | ⟨rfl, rfl, -⟩
  · obtain rfl : c = '.' := by simpa using hc
    obtain ⟨fraction, x, hfraction, hlast⟩ := Leaves.of_bind (digits_used_le w) htail
    obtain ⟨hpos, power, hpower, rfl⟩ := hend hlast
    rcases digits_sound hwhole with ⟨rfl, rfl⟩ | ⟨-, ds, hds, rfl⟩ <;>
      rcases digits_sound hfraction with ⟨rfl, rfl⟩ | ⟨-, es, hes, rfl⟩
    · exact absurd rfl hpos
    · exact ⟨_, .fraction hsign hes hpower, by simp⟩
    · exact ⟨_, .dotted hsign hds (.inl rfl) hpower, by simp⟩
    · exact ⟨_, .dotted hsign hds (.inr hes) hpower, by simp⟩
  · obtain ⟨fraction, x, hnone, hlast⟩ := Leaves.of_bind (p := pure 0) (Nat.zero_le _) htail
    obtain rfl : 0 = fraction := Except.ok.inj hnone.value
    obtain rfl := hnone.of_pure
    obtain ⟨hpos, power, hpower, rfl⟩ := hend hlast
    rcases digits_sound hwhole with ⟨rfl, -⟩ | ⟨-, ds, hds, rfl⟩
    · exact absurd rfl hpos
    · exact ⟨_, .whole hsign hds hpower, by simp⟩

theorem number_munched (h : (number s).value = .ok k) :
    Munched k (s.take (number s).used) (s.drop (number s).used) := by
  obtain rfl := number_gives s k h
  have hle := number_blunt.used_le s
  have hleaves : Leaves number s .number (s.drop (number s).used) :=
    ⟨h, rfl, by rw [List.length_drop]; omega⟩
  obtain ⟨v, hv, heq⟩ := number_sound hleaves
  have hsplit := List.take_append_drop (number s).used s
  refine .of_take ?_ (fun p r hp hk => ?_) (by rintro _ ⟨⟩)
  · rwa [List.append_cancel_right (hsplit.trans heq)]
  · rw [hp]
    exact number_takes hk r

/-! ## Strings -/

theorem stringRest_sound {quote : Char} (h : (stringRest quote s).value = .ok k) :
    ∃ items r, Items quote items ∧ s = items ++ quote :: r := by
  fun_induction stringRest quote s with
  | case2 cs => exact ⟨[], cs, .nil, rfl⟩
  | case5 d ds hn _ ih =>
    obtain ⟨items, r, hitems, rfl⟩ := ih h
    exact ⟨_, r, .escape hn hitems, rfl⟩
  | case7 c cs hq hb hn ih =>
    obtain ⟨items, r, hitems, rfl⟩ := ih h
    exact ⟨_, r, .plain hq hb hn hitems, rfl⟩
  | _ => cases h

theorem stringRest_complete {quote : Char} {items : List Char} (hq : quote ≠ '\\')
    (h : Items quote items) (r : List Char) :
    (stringRest quote (items ++ quote :: r)).used = items.length + 1 := by
  induction h with
  | nil => rw [List.nil_append, stringRest_close, List.length_nil]
  | plain hc hb hn _ ih =>
    rw [List.cons_append, stringRest_plain hc hb hn, Reading.after_used, ih, List.length_cons,
      Nat.add_comm]
  | escape hn _ ih =>
    rw [List.cons_append, List.cons_append, stringRest_escape hq hn, Reading.after_used, ih]
    simp only [List.length_cons]
    omega

theorem string_munched (hc : c = '"' ∨ c = '\'') (h : (string c (c :: cs)).value = .ok k) :
    Munched k ((c :: cs).take (string c (c :: cs)).used)
      ((c :: cs).drop (string c (c :: cs)).used) := by
  obtain rfl := string_gives c _ k h
  obtain ⟨items, r, hitems, rfl⟩ := stringRest_sound h
  have hused {quote : Char} {items : List Char} (hquote : quote = '"' ∨ quote = '\'')
      (hitems : Items quote items) (r : List Char) :
      (string quote (quote :: (items ++ quote :: r))).used = items.length + 2 := by
    have hslash : quote ≠ '\\' := by rcases hquote with rfl | rfl <;> decide
    rw [string, List.drop_succ_cons, List.drop_zero, Reading.after_used,
      stringRest_complete hslash hitems]
    omega
  refine .of_take ⟨c, items, hc, hitems, ?_⟩ (fun p t hp hk => ?_) (by rintro _ ⟨⟩)
  · rw [hused hc hitems, List.take_succ_cons, List.take_length_add_append]
    rfl
  · obtain ⟨quote, items', hquote, hitems', rfl⟩ := hk
    obtain ⟨rfl, hrest⟩ : c = quote ∧ items ++ c :: r = items' ++ quote :: t := by simpa using hp
    rw [hrest, hused hquote hitems']
    simp

/-! ## Comments -/

theorem commentBody_sound (h : (commentBody s).value = .closed) :
    ∃ body r, ¬ ['*', '/'] <:+: body ∧ s = body ++ '*' :: '/' :: r := by
  fun_induction commentBody s with
  | case3 cs => exact ⟨[], cs, by simp, rfl⟩
  | case4 c cs hstar hclose ih =>
    obtain ⟨body, r, hbody, rfl⟩ := ih h
    refine ⟨c :: body, r, ?_, rfl⟩
    rw [List.infix_cons_iff, not_or]
    refine ⟨?_, hbody⟩
    rintro ⟨t, ht⟩
    obtain ⟨rfl, rfl⟩ : '*' = c ∧ '/' :: t = body := by simpa using ht
    exact hclose _ rfl rfl
  | _ => cases h

theorem commentBody_complete {body : List Char} (h : ¬ ['*', '/'] <:+: body) (r : List Char) :
    (commentBody (body ++ '*' :: '/' :: r)).used = body.length + 2 := by
  induction body with
  | nil => rfl
  | cons c cs ih =>
    rw [List.infix_cons_iff, not_or] at h
    obtain ⟨hfirst, hrest⟩ := h
    have hopen : c = '*' → ∃ d ds, cs ++ '*' :: '/' :: r = d :: ds ∧ d ≠ '/' := by
      rintro rfl
      cases cs with
      | nil => exact ⟨'*', _, rfl, by decide⟩
      | cons d ds =>
        refine ⟨d, _, rfl, ?_⟩
        rintro rfl
        exact hfirst ⟨ds, rfl⟩
    rw [List.cons_append, commentBody_cons hopen, Reading.after_used, ih hrest, List.length_cons]
    omega

theorem startsComment_cases (h : startsComment s) :
    ∃ cs, s = '/' :: '/' :: cs ∨ s = '/' :: '*' :: cs := by
  rcases s with _ | ⟨c, _ | ⟨d, cs⟩⟩
  · simp [startsComment] at h
  · simp [startsComment] at h
  · obtain ⟨rfl, rfl | rfl⟩ : c = '/' ∧ (d = '/' ∨ d = '*') := by simpa [startsComment] using h
    · exact ⟨cs, .inl rfl⟩
    · exact ⟨cs, .inr rfl⟩

theorem lexeme_comment (kind : CommentKind) :
    Lexeme kind.token s ↔ LineComment s ∨ BlockComment s := by
  cases kind <;> rfl

theorem lineComment_munched (cs : List Char) :
    Munched .comment (('/' :: '/' :: cs).take ((cs.takeWhile fun c => !endsLine c).length + 2))
      (('/' :: '/' :: cs).drop ((cs.takeWhile fun c => !endsLine c).length + 2)) := by
  refine .of_take (.inl ⟨cs.takeWhile fun c => !endsLine c, fun c hc => ?_, ?_⟩)
    (fun p r hp hk => ?_) (by rintro _ ⟨⟩)
  · simpa using List.mem_takeWhile_imp hc
  · rw [List.take_succ_cons, List.take_succ_cons,
      ← List.prefix_iff_eq_take.1 (List.takeWhile_prefix _)]
  · rcases hk with ⟨body, hbody, rfl⟩ | ⟨body, -, rfl⟩
    · obtain rfl : cs = body ++ r := by simpa using hp
      have hin : ∀ c ∈ body, !endsLine c := fun c hc => by simpa using hbody c hc
      exact Nat.succ_le_succ (Nat.succ_le_succ (length_le_takeWhile hin r))
    · simp at hp

theorem blockComment_used {body : List Char} (h : ¬ ['*', '/'] <:+: body) (r : List Char) :
    2 + (commentBody (body ++ '*' :: '/' :: r)).used = body.length + 4 := by
  rw [commentBody_complete h]
  omega

theorem blockComment_text (h : (commentBody cs).value = .closed) :
    BlockComment (('/' :: '*' :: cs).take (2 + (commentBody cs).used)) := by
  obtain ⟨body, r, hbody, rfl⟩ := commentBody_sound h
  refine ⟨body, hbody, ?_⟩
  rw [blockComment_used hbody, List.take_succ_cons, List.take_succ_cons,
    List.take_length_add_append]
  rfl

theorem blockComment_munched (kind : CommentKind) (h : (commentBody cs).value = .closed) :
    Munched kind.token (('/' :: '*' :: cs).take (2 + (commentBody cs).used))
      (('/' :: '*' :: cs).drop (2 + (commentBody cs).used)) := by
  refine .of_take ((lexeme_comment kind).2 (.inr (blockComment_text h))) (fun p t hp hk => ?_)
    fun w hw => ?_
  · rcases (lexeme_comment kind).1 hk with ⟨line, -, rfl⟩ | ⟨body, hbody, rfl⟩
    · simp at hp
    · obtain rfl : cs = body ++ '*' :: '/' :: t := by simpa using hp
      rw [blockComment_used hbody]
      simp
  · cases kind <;> cases hw

theorem lineComment_found {V : TokenSet} {state : State} {f : Found}
    (h : (comment V false state ('/' :: '/' :: cs)).value.found = some f) :
    comment V false state ('/' :: '/' :: cs)
      = ((skipWhile (fun c => !endsLine c) cs).after 2).accept state .comment := by
  rw [comment_line V state rfl] at h ⊢
  split at h
  · rename_i hwanted
    rw [if_pos hwanted]
    rfl
  · cases h

/-- A block comment that is found ends with its body. -/
theorem blockComment_found {V : TokenSet} {state : State} {f : Found}
    (h : (comment V false state ('/' :: '*' :: cs)).value.found = some f) :
    comment V false state ('/' :: '*' :: cs)
      = (((commentBody cs).after 2).accept { state with comment := none }
        (if (commentBody cs).value = .closed then (commentKind V state ('/' :: '*' :: cs)).token
          else .error .unterminatedComment)).seeing (openingSeen state ('/' :: '*' :: cs)) := by
  rw [comment_block V state (by simp), finishComment_eq, closeComment] at h ⊢
  rw [show List.drop 2 ('/' :: '*' :: cs) = cs from rfl, Reading.after_value] at h ⊢
  split at h
  · rename_i hwanted
    rw [if_pos hwanted]
    rw [Reading.seeing_value] at h
    split_ifs at h ⊢ with hclosed herror
    · rfl
    · rfl
    · cases h
  · cases h

theorem comment_munched {V : TokenSet} {state : State} {f : Found} (hs : startsComment s)
    (h : (comment V false state s).value.found = some f) (herror : f.kind.isError = false) :
    Munched f.kind (s.take (comment V false state s).used)
      (s.drop (comment V false state s).used) := by
  obtain ⟨cs, rfl | rfl⟩ := startsComment_cases hs
  · have hused : (((skipWhile (fun c => !endsLine c) cs).after 2).accept state Kind.comment).used
        = (cs.takeWhile fun c => !endsLine c).length + 2 := by
      rw [skipWhile_eq]
      exact Nat.add_comm _ _
    have hread := lineComment_found h
    rw [hread] at h ⊢
    cases h
    rw [hused]
    exact lineComment_munched cs
  · have hread := blockComment_found h
    rw [hread] at h ⊢
    cases h
    by_cases hclosed : (commentBody cs).value = .closed
    · rw [if_pos hclosed]
      exact blockComment_munched _ hclosed
    · rw [if_neg hclosed] at herror
      cases herror

/-! ## Tokens -/

/-- A plain token in order is the longest of its kind. -/
theorem plain_munched {V : TokenSet} {mode : Mode}
    (h : (plain V mode c (c :: cs)).value = .ok k) :
    Munched k ((c :: cs).take (plain V mode c (c :: cs)).used)
      ((c :: cs).drop (plain V mode c (c :: cs)).used) := by
  revert h
  refine plain_choice (P := fun r => r.value = .ok k → Munched k ((c :: cs).take r.used)
    ((c :: cs).drop r.used)) V mode c (c :: cs) (fun m hm h => ?_) (fun hc h => string_munched hc h)
    (fun hc h => ?_) (fun hc h => ?_) (fun _ _ h => number_munched h) (fun hc h => ?_)
    fun _ h => by cases h
  · obtain rfl : .punct m = k := Except.ok.inj h
    refine .of_take (congrArg ([·]) (char_of_ofChar? hm)) (fun p r _ hp => ?_) (by rintro _ ⟨⟩)
    rw [show p = [m.char] from hp, List.length_singleton]
  · subst hc
    exact quotedName_munched h
  · subst hc
    exact atName_munched h
  · obtain rfl : (word V (c :: cs)).value = k := Except.ok.inj h
    exact word_munched hc V

theorem tokenHere_munched {cap : Nat} {V : TokenSet} {state : State} {f : Found}
    (hV : V.contains .jsonSpan = false) (h : (tokenHere cap V false state s).value.found = some f)
    (heof : f.kind ≠ .eof) (herror : f.kind.isError = false) :
    Munched f.kind (s.take (tokenHere cap V false state s).used)
      (s.drop (tokenHere cap V false state s).used) := by
  cases s with
  | nil => exact absurd ((tokenHere_found h).2.1.2 rfl) heof
  | cons c cs =>
    cases hs : startsComment (c :: cs) with
    | true =>
      rw [tokenHere_comment cap V state hs] at h ⊢
      exact comment_munched hs h herror
    | false =>
      rw [tokenHere_cons cap V state hs, lexeme_plain hV] at h ⊢
      rcases judge_cases cap V state c _ with hj | hj
      · rw [hj] at h
        cases h
      · rw [hj] at h ⊢
        cases h
        rcases track_kind cap state _ with ht | ht
        · rw [ht] at herror ⊢
          exact plain_munched (Parse.Schema.kindOf_eq_ok herror rfl)
        · rw [ht] at herror
          cases herror

theorem Stand.token?_munched {cap : Nat} {V : TokenSet} {p : Stand} {t : Scanned}
    (hp : p.Sound cap) (hV : V.contains .jsonSpan = false) (h : p.token? cap V = some t)
    (heof : t.token.kind ≠ .eof) (herror : t.token.kind.isError = false) :
    ∃ before lexeme after, p.pre ++ p.rest = before ++ lexeme ++ after
      ∧ t.token.span = ⟨.behind before, .behind (before ++ lexeme)⟩
      ∧ Munched t.token.kind lexeme after := by
  obtain ⟨f, hf, hkind, -, hpre, -⟩ := here_found hp h
  rw [← hkind] at heof herror ⊢
  refine ⟨p.pre ++ p.rest.take (blanks p.rest), (ahead p.rest).take (p.here cap V).used,
    (ahead p.rest).drop (p.here cap V).used, ?_, ?_, tokenHere_munched hV hf heof herror⟩
  · rw [List.append_assoc, List.take_append_drop, List.append_assoc, ahead, List.take_append_drop]
  · rw [← start_eq hp h, ← hpre, ← stop_eq h]

theorem Stream.munched {cap : Nat} {p : Stand} {ts : List Scanned} (h : Stream cap p ts)
    (hp : p.Sound cap) : ∀ t ∈ ts, t.token.kind ≠ .eof → t.token.kind.isError = false →
      ∃ before lexeme after, p.pre ++ p.rest = before ++ lexeme ++ after
        ∧ t.token.span = ⟨.behind before, .behind (before ++ lexeme)⟩
        ∧ Munched t.token.kind lexeme after := by
  have hV : TokenSet.lexical.contains .jsonSpan = false := by
    rw [TokenSet.contains_lexical]
    rfl
  induction h with
  | stop ht hk => exact List.forall_mem_singleton.2 fun heof => absurd hk heof
  | more ht _ _ ih =>
    have hrest := ih (Stand.next_sound hp)
    rw [Stand.next_append] at hrest
    exact List.forall_mem_cons.2 ⟨Stand.token?_munched hp hV ht, hrest⟩

/-- Every token of a plain pass, the end and errors apart, is a text of its kind, and no longer text
of that kind starts at its place. -/
theorem tokenize_munches (config : Config) (mode : Mode) (text : String) {t : Scanned}
    (ht : t ∈ tokenize config mode text) (heof : t.token.kind ≠ .eof)
    (herror : t.token.kind.isError = false) :
    ∃ before lexeme after, text.toList = before ++ lexeme ++ after
      ∧ t.token.span = ⟨.behind before, .behind (before ++ lexeme)⟩
      ∧ t.token.text text = String.ofList lexeme
      ∧ Munched t.token.kind lexeme after := by
  obtain ⟨before, lexeme, after, hparts, hspan, hmunched⟩ :=
    (tokenize_stream config mode text).munched (Stand.start_sound mode _) t ht heof herror
  refine ⟨before, lexeme, after, hparts, hspan, Span.text_eq hparts ?_ ?_, hmunched⟩
  · rw [hspan, Location.behind_byte]
  · rw [hspan, Location.behind_byte]

/-- A fraction belongs to the number in front of it, a second one does not. -/
theorem tokenize_munches_number :
    ∃ t ∈ tokenize {} .idl "1_0.5.7", t.token.kind = .number
      ∧ t.token.text "1_0.5.7" = "1_0.5"
      ∧ ∃ before lexeme after, "1_0.5.7".toList = before ++ lexeme ++ after
        ∧ t.token.span = ⟨.behind before, .behind (before ++ lexeme)⟩
        ∧ t.token.text "1_0.5.7" = String.ofList lexeme
        ∧ Munched t.token.kind lexeme after := by
  have hfirst : (tokenize {} .idl "1_0.5.7").head?.map (fun t => (t.token.kind,
      t.token.text "1_0.5.7")) = some (.number, "1_0.5") := by decide +kernel
  obtain ⟨t, ht, hread⟩ := Option.map_eq_some_iff.1 hfirst
  obtain ⟨hkind, htext⟩ := Prod.mk.inj hread
  have hmem := List.mem_of_head? ht
  exact ⟨t, hmem, hkind, htext, tokenize_munches {} .idl "1_0.5.7" hmem
    (by rw [hkind]; exact Kind.noConfusion) (by rw [hkind]; rfl)⟩

end Lexer

end AvroTree
