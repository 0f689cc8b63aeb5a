import AvroTree.Lexer.Stream
import AvroTree.Proofs.StateBytes
import AvroTree.Proofs.TokenShape

/-!
# Where a lexer stands

Between two tokens a lexer is known by its state, the text behind it and the text in front of it.
This is all that `Lexer.step` depends on (`step_eq`), and a run of it is a `Trail` from one stand
to another.
-/

namespace AvroTree

namespace Cursor

/-- The cursor between two parts of a text that has examined nothing yet. -/
def between (pre rest : List Char) : Cursor where
  place := .behind pre
  rest
  limit := Text.size (pre ++ rest)
  size := Text.size (pre ++ rest)
  lookahead := Text.size pre
  hitLimit := false

theorem start_eq (text : String) : start text = between [] text.toList := by
  rw [start, Text.utf8ByteSize_eq]
  rfl

/-- A cursor that stands between two parts of a text. -/
def Between (pre rest : List Char) (c : Cursor) : Prop :=
  c.beginScan = between pre rest

namespace Between

variable {pre mid rest : List Char} {c : Cursor}

theorem fresh (pre rest : List Char) : Between pre rest (between pre rest) := by
  rw [Between, beginScan, between, Location.behind_byte]

theorem place (h : Between pre rest c) : c.place = .behind pre :=
  congrArg Cursor.place (h : c.beginScan = _)

theorem rest_eq (h : Between pre rest c) : c.rest = rest :=
  congrArg Cursor.rest (h : c.beginScan = _)

theorem size_eq (h : Between pre rest c) : c.size = Text.size (pre ++ rest) :=
  congrArg Cursor.size (h : c.beginScan = _)

theorem byte_eq (h : Between pre rest c) : c.place.byte = Text.size pre := by
  rw [h.place, Location.behind_byte]

theorem moveTo (h : Between pre (mid ++ rest) c) :
    c.moveTo (.behind (pre ++ mid)) = between (pre ++ mid) rest := by
  have hsize := h.size_eq
  rw [← List.append_assoc] at hsize
  have hmin : min (Location.behind (pre ++ mid)).byte (Text.size (pre ++ mid ++ rest))
      = Text.size (pre ++ mid) := by
    rw [Location.behind_byte, Text.size_append (pre ++ mid)]
    exact Nat.min_eq_left (Nat.le_add_right _ _)
  have hplace : (⟨Text.size (pre ++ mid), (Location.behind (pre ++ mid)).point⟩ : Location)
      = .behind (pre ++ mid) := by
    rw [← Location.behind_byte]
  have hdrop : Text.size (pre ++ mid) - Text.size pre = Text.size mid := by
    rw [Text.size_append]
    omega
  simp only [Cursor.moveTo, between, hmin, hplace, h.rest_eq, h.byte_eq, hdrop,
    Text.dropBytes?_append, hsize, Option.getD_some]

end Between

/-- A cursor put at a place of a text stands between the two parts of the text there. -/
theorem startAt_between {text : String} {pre rest : List Char} (h : text.toList = pre ++ rest) :
    (startAt text (.behind pre)).Between pre rest := by
  have hc : (start text).Between [] (pre ++ rest) := by
    rw [start_eq, h]
    exact .fresh _ _
  have hmove := hc.moveTo
  rw [List.nil_append] at hmove
  rw [startAt, hmove]
  exact .fresh _ _

/-! ## How far a lexer has seen -/

theorem reach_pos : ∀ {n : Nat} (s : List Char), 0 < n → 0 < reach s n
  | _ + 1, [], _ => Nat.one_pos
  | _ + 1, c :: _, _ => Nat.lt_add_right _ c.utf8Size_pos

theorem reach_add : ∀ {s : List Char} {m : Nat} (n : Nat), m ≤ s.length →
    reach s (m + n) = Text.size (s.take m) + reach (s.drop m) n
  | s, 0, n, _ => by
    rw [List.take_zero, List.drop_zero, Nat.zero_add, Text.size_nil, Nat.zero_add]
  | c :: s, m + 1, n, h => by
    rw [Nat.succ_add, reach, reach_add n (Nat.le_of_succ_le_succ h), List.take_succ_cons,
      List.drop_succ_cons, Text.size_cons, Nat.add_assoc]

theorem reach_eq_size {s : List Char} {n : Nat} (h : n ≤ s.length) :
    reach s n = Text.size (s.take n) := by
  have hadd := reach_add 0 h
  rwa [Nat.add_zero, reach, Nat.add_zero] at hadd

/-- Who has not seen past `a` cannot tell what stands behind it. -/
theorem length_le_of_reach {a b : List Char} {n : Nat} (h : reach (a ++ b) n ≤ Text.size a) :
    n ≤ a.length := by
  by_contra hn
  obtain ⟨k, rfl⟩ := Nat.exists_eq_add_of_lt (Nat.lt_of_not_le hn)
  rw [Nat.add_assoc, reach_add _ (by rw [List.length_append]; omega), List.take_left,
    List.drop_left] at h
  have hpos : 0 < reach b (k + 1) := reach_pos b (Nat.succ_pos k)
  omega

theorem isBounded_between (pre rest : List Char) : (between pre rest).isBounded = false :=
  decide_eq_false (Nat.lt_irrefl _)

theorem skip_between (n : Nat) (pre rest : List Char) :
    ((between pre rest).skip n).place = .behind (pre ++ rest.take n) :=
  (Location.behind_append pre _).symm

theorem run_between {α : Type} (q : Lexer α) (pre rest : List Char) (h : 0 < (q rest).seen) :
    (between pre rest).run q = ((q rest).value,
      { between (pre ++ rest.take (q rest).used) (rest.drop (q rest).used) with
        lookahead := Text.size pre + reach rest (q rest).seen }) := by
  have hw : (between pre rest).window = rest := by
    rw [window, isBounded_between, if_neg Bool.false_ne_true]
    rfl
  have hsize : Text.size (pre ++ rest.take (q rest).used ++ rest.drop (q rest).used)
      = Text.size (pre ++ rest) := by
    rw [List.append_assoc, List.take_append_drop]
  have hlook : max (Text.size pre) ((Location.behind pre).byte + reach rest (q rest).seen)
      = Text.size pre + reach rest (q rest).seen := by
    rw [Location.behind_byte]
    exact Nat.max_eq_right (Nat.le_add_right _ _)
  rw [run, hw]
  simp only [examine, hw, isBounded_between, Nat.pos_iff_ne_zero.1 h, ↓reduceIte, Bool.false_and,
    Bool.or_false]
  simp only [between, skip, hsize, hlook, Location.behind_append]

end Cursor

namespace Lexer

structure Stand where
  state : State
  /-- The text behind the lexer. -/
  pre : List Char
  /-- The text in front of it. -/
  rest : List Char

namespace Stand

variable (cap : Nat) (valid : TokenSet) (p : Stand)

def reading : Reading Outcome :=
  Lexer.token cap valid false p.state p.rest

/-- The stand behind the next token. -/
def next : Stand where
  state := (p.reading cap valid).value.state
  pre := p.pre ++ p.rest.take (p.reading cap valid).used
  rest := p.rest.drop (p.reading cap valid).used

/-- The token `f` as it was found, with its surroundings. -/
def scanned (f : Found) : Scanned where
  token := ⟨f.kind, .behind (p.pre ++ p.rest.take f.blanks), .behind (p.next cap valid).pre⟩
  valid
  before := p.state.encode
  after := (p.next cap valid).state.encode
  lookahead := Text.size p.pre + Cursor.reach p.rest (p.reading cap valid).seen

/-- The next token. -/
def token? : Option Scanned :=
  (p.reading cap valid).value.found.map (p.scanned cap valid)

/-- The cursor behind the next token. -/
def cursor : Cursor :=
  { Cursor.between (p.next cap valid).pre (p.next cap valid).rest with
    lookahead := Text.size p.pre + Cursor.reach p.rest (p.reading cap valid).seen }

theorem next_append : (p.next cap valid).pre ++ (p.next cap valid).rest = p.pre ++ p.rest := by
  rw [next, List.append_assoc, List.take_append_drop]

theorem cursor_between :
    (p.cursor cap valid).Between (p.next cap valid).pre (p.next cap valid).rest :=
  Cursor.Between.fresh _ _

end Stand

variable {p : Stand} {c : Cursor}

/-- Scanning depends on nothing but the stand. -/
theorem scan_eq (cap : Nat) (valid : TokenSet) (hp : p.state.comment = none)
    (hc : c.Between p.pre p.rest) :
    c.scan cap valid p.state =
      ((p.token? cap valid).map Scanned.token, (p.next cap valid).state, p.cursor cap valid) := by
  have hb : c.isBounded = false := by
    have h := congrArg Cursor.isBounded (hc : c.beginScan = _)
    rwa [Cursor.isBounded_between] at h
  rw [Cursor.scan, hb, (hc : c.beginScan = _)]
  simp only [Cursor.run_between _ _ _ (token_seen cap valid hp p.rest), Cursor.skip_between]
  rw [Stand.token?, Option.map_map]
  rfl

theorem step_eq (cap : Nat) (valid : TokenSet) (hp : p.state.comment = none)
    (hc : c.Between p.pre p.rest) :
    step cap valid p.state c =
      (p.token? cap valid, (p.next cap valid).state, p.cursor cap valid) := by
  rw [step, scan_eq cap valid hp hc]
  simp only [Stand.token?, Option.map_map]
  rfl

/-! ## What one token says -/

variable {cap : Nat} {valid : TokenSet}

namespace Stand

variable {t : Scanned}

/-- A stand between two tokens. -/
def Sound (cap : Nat) (p : Stand) : Prop :=
  p.state.Sound cap

/-- The stand in front of a text. -/
def start (mode : Mode) (text : List Char) : Stand :=
  ⟨{ mode }, [], text⟩

theorem start_sound (mode : Mode) (text : List Char) : (start mode text).Sound cap :=
  ⟨rfl, Nat.zero_le _⟩

theorem next_sound (hp : p.Sound cap) : (p.next cap valid).Sound cap :=
  token_sound hp valid p.rest

theorem exists_found (h : p.token? cap valid = some t) :
    ∃ f, (p.reading cap valid).value.found = some f ∧ t = p.scanned cap valid f := by
  obtain ⟨f, hf, rfl⟩ := Option.map_eq_some_iff.1 h
  exact ⟨f, hf, rfl⟩

theorem scanned_eq (h : p.token? cap valid = some t) :
    ⟨t.token, valid, p.state.encode, (p.next cap valid).state.encode,
      (p.cursor cap valid).lookahead⟩ = t := by
  obtain ⟨f, -, rfl⟩ := exists_found h
  rfl

theorem valid_eq (h : p.token? cap valid = some t) : t.valid = valid := by
  obtain ⟨f, -, rfl⟩ := exists_found h
  rfl

theorem before_eq (h : p.token? cap valid = some t) : t.before = p.state.encode := by
  obtain ⟨f, -, rfl⟩ := exists_found h
  rfl

theorem after_eq (h : p.token? cap valid = some t) :
    t.after = (p.next cap valid).state.encode := by
  obtain ⟨f, -, rfl⟩ := exists_found h
  rfl

theorem stop_eq (h : p.token? cap valid = some t) :
    t.token.span.stop = .behind (p.next cap valid).pre := by
  obtain ⟨f, -, rfl⟩ := exists_found h
  rfl

theorem lookahead_eq (h : p.token? cap valid = some t) :
    t.lookahead = Text.size p.pre + Cursor.reach p.rest (p.reading cap valid).seen := by
  obtain ⟨f, -, rfl⟩ := exists_found h
  rfl

/-- Something has been seen for every token. -/
theorem lt_lookahead (hp : p.Sound cap) (h : p.token? cap valid = some t) :
    Text.size p.pre < t.lookahead := by
  rw [lookahead_eq h]
  exact Nat.lt_add_of_pos_right (Cursor.reach_pos _ (token_seen cap valid hp.comment _))

theorem start_eq (hp : p.Sound cap) (h : p.token? cap valid = some t) :
    t.token.span.start = .behind (p.pre ++ p.rest.take (blanks p.rest)) := by
  obtain ⟨f, hf, rfl⟩ := exists_found h
  rw [← (token_found hp.comment hf).blanks]
  rfl

theorem isExtra_eq (hp : p.Sound cap) (h : p.token? cap valid = some t) :
    t.token.kind.isExtra = leadsComment (ahead p.rest) := by
  obtain ⟨f, hf, rfl⟩ := exists_found h
  exact (token_found hp.comment hf).extra

theorem eof_iff (hp : p.Sound cap) (h : p.token? cap valid = some t) :
    t.token.kind = .eof ↔ ahead p.rest = [] := by
  obtain ⟨f, hf, rfl⟩ := exists_found h
  exact (token_found hp.comment hf).eof

theorem blanks_lt_used (hp : p.Sound cap) (h : p.token? cap valid = some t)
    (ht : t.token.kind ≠ .eof) : blanks p.rest < (p.reading cap valid).used := by
  obtain ⟨f, hf, rfl⟩ := exists_found h
  rw [← (token_found hp.comment hf).blanks]
  exact (token_found hp.comment hf).lt_used ht

theorem lexical_isSome (hp : p.Sound cap) : (p.token? cap .lexical).isSome := by
  rw [token?, Option.isSome_map]
  exact token_lexical cap hp.comment p.rest

/-- Behind a token other than the end less text is left. -/
theorem next_lt (hp : p.Sound cap) (h : p.token? cap valid = some t) (ht : t.token.kind ≠ .eof) :
    (p.next cap valid).rest.length < p.rest.length := by
  have hused := blanks_lt_used hp h ht
  have hrest : p.rest ≠ [] := by
    rintro hr
    exact ht ((eof_iff hp h).2 (by rw [ahead, hr, List.drop_nil]))
  have hpos := List.length_pos_iff.2 hrest
  rw [next, List.length_drop]
  omega

/-- Where no token is found the lexer stays. -/
theorem next_of_none (hp : p.Sound cap) (h : p.token? cap valid = none) :
    p.next cap valid = p := by
  obtain ⟨hstate, hused⟩ := token_none hp (Option.map_eq_none_iff.1 h)
  rw [next, reading, hstate, hused, List.take_zero, List.drop_zero, List.append_nil]

end Stand

/-! ## Runs -/

/-- The tokens from one stand to another, each looked for with its own kinds. -/
inductive Trail (cap : Nat) : Stand → List Scanned → Stand → Prop
  | nil (p : Stand) : Trail cap p [] p
  | cons {p q : Stand} {t : Scanned} {ts : List Scanned} (h : p.token? cap t.valid = some t)
      (rest : Trail cap (p.next cap t.valid) ts q) : Trail cap p (t :: ts) q

namespace Trail

variable {q r : Stand} {t : Scanned} {ts us : List Scanned}

theorem append (h : Trail cap p ts q) (h' : Trail cap q us r) : Trail cap p (ts ++ us) r := by
  induction h with
  | nil => exact h'
  | cons ht _ ih => exact cons ht (ih h')

theorem snoc (h : Trail cap p ts q) (ht : q.token? cap t.valid = some t) :
    Trail cap p (ts ++ [t]) (q.next cap t.valid) :=
  h.append (cons ht (nil _))

theorem split : ∀ {p : Stand} {ts : List Scanned}, Trail cap p (ts ++ us) q →
    ∃ r, Trail cap p ts r ∧ Trail cap r us q
  | p, [], h => ⟨p, nil p, h⟩
  | _, _ :: _, cons ht h =>
    have ⟨r, hr, hu⟩ := split h
    ⟨r, cons ht hr, hu⟩

theorem eq_of_nil (h : Trail cap p [] q) : q = p := by
  cases h
  rfl

theorem text_eq (h : Trail cap p ts q) : q.pre ++ q.rest = p.pre ++ p.rest := by
  induction h with
  | nil => rfl
  | cons _ _ ih => rw [ih, Stand.next_append]

theorem sound (h : Trail cap p ts q) (hp : p.Sound cap) : q.Sound cap := by
  induction h with
  | nil => exact hp
  | cons _ _ ih => exact ih (Stand.next_sound hp)

/-- The last token tells where a run ends. -/
theorem last_eq (h : Trail cap p ts q) (ht : ts.getLast? = some t) :
    t.token.span.stop = .behind q.pre ∧ t.after = q.state.encode := by
  obtain ⟨us, rfl⟩ := List.getLast?_eq_some_iff.1 ht
  obtain ⟨r, -, hr⟩ := split h
  obtain - | ⟨hr, hnil⟩ := hr
  cases hnil
  exact ⟨Stand.stop_eq hr, Stand.after_eq hr⟩

end Trail

end Lexer

end AvroTree
