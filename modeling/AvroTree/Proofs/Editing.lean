import Mathlib.Data.List.TakeWhile
import AvroTree.Proofs.Standing

/-!
# Tokens across an edit

An edit that fits a text keeps a head and a tail and puts one stretch for another between them
(`Edit.exists_parts`). A token for which only the head was examined is found in both texts
(`token?_head`); one in the tail is found in the new text where the edit carries it
(`token?_carry`), and the blanks in front of it do not matter (`token?_ahead`).
-/

namespace AvroTree

open Location (behind)

namespace Edit

/-- The edit that puts `new` for `old` behind `head`. -/
def between (head old new : List Char) : Edit where
  start := .behind head
  oldStop := .behind (head ++ old)
  newStop := .behind (head ++ new)

/-- An edit that fits keeps a head and a tail of the text. -/
theorem exists_parts {text new : String} {start stop : Nat} {replacement : String}
    (h : result? text start stop replacement = some new) :
    ∃ head mid tail, text.toList = head ++ mid ++ tail
      ∧ new.toList = head ++ replacement.toList ++ tail
      ∧ replace text start stop replacement = between head mid replacement.toList := by
  rw [result?] at h
  split at h
  · rename_i hle
    split at h
    · rename_i rest tail hstart hstop
      obtain ⟨head, htext, rfl⟩ := Text.eq_append_of_dropBytes? hstart
      obtain ⟨pre, htext', rfl⟩ := Text.eq_append_of_dropBytes? hstop
      obtain ⟨mid, rfl, -⟩ := Text.prefix_of_size_le (htext.symm.trans htext') hle
      refine ⟨head, mid, tail, htext', ?_, ?_⟩
      · rw [← Option.some.inj h, String.toList_ofList, htext, Text.takeBytes_append]
      · rw [replace, Location.ofOffset_append htext, Location.ofOffset_append htext', between,
          Location.behind_append head replacement.toList]
    · cases h
  · cases h

/-- Whatever stands behind `pre` in the old text is carried behind `pre'`. -/
structure Carries (e : Edit) (pre pre' : List Char) : Prop where
  byte (n : Nat) : e.shiftByte (Text.size pre + n) = Text.size pre' + n
  place (m : List Char) : e.shift (.behind (pre ++ m)) = .behind (pre' ++ m)

namespace Carries

variable {e : Edit} {pre pre' : List Char}

theorem append (h : Carries e pre pre') (m : List Char) : Carries e (pre ++ m) (pre' ++ m) where
  byte n := by
    rw [Text.size_append, Nat.add_assoc, h.byte, Text.size_append, Nat.add_assoc]
  place l := by
    rw [List.append_assoc, h.place, List.append_assoc]

end Carries

theorem shiftByte_between (head old new : List Char) (n : Nat) :
    (between head old new).shiftByte (Text.size (head ++ old) + n)
      = Text.size (head ++ new) + n := by
  rw [shiftByte, between, Location.behind_byte, Location.behind_byte]
  omega

/-- Columns move only in the row that the edit ends in. -/
theorem shiftPoint_between (head old new m : List Char) :
    (between head old new).shiftPoint (Location.behind (head ++ old ++ m)).point
      = (Location.behind (head ++ new ++ m)).point := by
  rw [shiftPoint, between, Location.behind_point, Location.behind_point, Location.behind_point,
    Location.behind_point, Point.advance_append _ (head ++ old),
    Point.advance_append _ (head ++ new)]
  generalize Point.advance {} (head ++ old) = p
  generalize Point.advance {} (head ++ new) = q
  by_cases hm : '\n' ∈ m
  · obtain ⟨rows, column, hrows, hadv⟩ := Point.advance_of_mem hm
    rw [hadv p, hadv q, if_neg (by show p.row + rows ≠ p.row; omega), Point.mk.injEq]
    exact ⟨by show p.row + rows - p.row + q.row = q.row + rows; omega, rfl⟩
  · rw [Point.advance_of_notMem p hm, Point.advance_of_notMem q hm, if_pos rfl, Point.mk.injEq]
    exact ⟨rfl, by show q.column + (p.column + _ - p.column) = _; omega⟩

theorem carries_between (head old new : List Char) :
    Carries (between head old new) (head ++ old) (head ++ new) where
  byte := shiftByte_between head old new
  place m := by
    have hbyte := shiftByte_between head old new (Text.size m)
    rw [← Text.size_append, ← Text.size_append, ← Location.behind_byte, ← Location.behind_byte]
      at hbyte
    rw [shift, hbyte, shiftPoint_between]

end Edit

/-- A replacement asked for, whether or not it fits. -/
structure Change where
  start : Nat
  stop : Nat
  replacement : String

namespace Change

def result? (c : Change) (text : String) : Option String :=
  Edit.result? text c.start c.stop c.replacement

def edit (c : Change) (text : String) : Edit :=
  .replace text c.start c.stop c.replacement

/-- The text behind a change; one that does not fit leaves it as it is. -/
def after (c : Change) (text : String) : String :=
  (c.result? text).getD text

end Change

namespace Lexer

open Text (Agree)

variable {cap : Nat} {valid : TokenSet} {state : State} {pre pre' a b rest : List Char}
  {t : Scanned}

namespace Stand

/-! ## In front of the edit -/

/-- Both texts give the same token and go on alike behind it if only their common part `a` was
examined. -/
theorem token?_head (hs : state.Sound cap)
    (h : (⟨state, pre, a ++ b⟩ : Stand).token? cap valid = some t)
    (ht : t.lookahead ≤ Text.size (pre ++ a)) (c : List Char) :
    (⟨state, pre, a ++ c⟩ : Stand).token? cap valid = some t ∧
      ∃ state' m a', a = m ++ a'
        ∧ (⟨state, pre, a ++ b⟩ : Stand).next cap valid = ⟨state', pre ++ m, a' ++ b⟩
        ∧ (⟨state, pre, a ++ c⟩ : Stand).next cap valid = ⟨state', pre ++ m, a' ++ c⟩ := by
  let r := token cap valid false state (a ++ b)
  have hseen : r.seen ≤ a.length := by
    rw [lookahead_eq h, Text.size_append] at ht
    exact Cursor.length_le_of_reach (Nat.le_of_add_le_add_left ht)
  have hused : r.used ≤ a.length := ((token_local cap valid state).used_le _).trans hseen
  have hagree : Agree r.seen (a ++ b) (a ++ c) := by
    rw [Agree, List.take_append_of_le_length hseen, List.take_append_of_le_length hseen]
  have hsame : token cap valid false state (a ++ c) = r :=
    (token_local cap valid state).same _ _ hagree
  have hnext (x : List Char) (hx : token cap valid false state (a ++ x) = r) :
      (⟨state, pre, a ++ x⟩ : Stand).next cap valid
        = ⟨r.value.state, pre ++ a.take r.used, a.drop r.used ++ x⟩ := by
    rw [next, reading, hx, List.take_append_of_le_length hused,
      List.drop_append_of_le_length hused]
  refine ⟨?_, r.value.state, a.take r.used, a.drop r.used, (List.take_append_drop _ _).symm,
    hnext b rfl, hnext c hsame⟩
  obtain ⟨f, hf, rfl⟩ := exists_found h
  have hblanks : f.blanks ≤ a.length := (token_found hs.comment hf).le_used.trans hused
  have hreach (x : List Char) : Cursor.reach (a ++ x) r.seen = Text.size (a.take r.seen) := by
    rw [Cursor.reach_eq_size (by rw [List.length_append]; omega),
      List.take_append_of_le_length hseen]
  rw [token?, reading, hsame, show r.value.found = some f from hf, Option.map_some]
  simp only [scanned, hnext b rfl, hnext c hsame, List.take_append_of_le_length hblanks, reading,
    hsame]
  rw [hreach c, ← hreach b]

/-! ## Behind the edit -/

variable {e : Edit}

/-- In front of the same rest the same token is found, only its place is carried along. -/
theorem token?_carry (he : e.Carries pre pre')
    (h : (⟨state, pre, rest⟩ : Stand).token? cap valid = some t) :
    (⟨state, pre', rest⟩ : Stand).token? cap valid = some (t.shift e) := by
  obtain ⟨f, hf, rfl⟩ := exists_found h
  have hf' : ((⟨state, pre', rest⟩ : Stand).reading cap valid).value.found = some f := hf
  rw [token?, hf', Option.map_some]
  simp only [scanned, Scanned.shift, next, reading, Edit.shiftSpan, he.place, he.byte]

/-- The same stand behind the blanks in front of it. -/
def skipBlanks (p : Stand) : Stand :=
  ⟨p.state, p.pre ++ p.rest.take (blanks p.rest), ahead p.rest⟩

theorem skipBlanks_append (p : Stand) :
    p.skipBlanks.pre ++ p.skipBlanks.rest = p.pre ++ p.rest := by
  rw [skipBlanks, ahead, List.append_assoc, List.take_append_drop]

theorem size_skipBlanks {p : Stand} (hp : p.Sound cap) (h : p.token? cap valid = some t) :
    Text.size p.skipBlanks.pre = t.token.span.start.byte := by
  rw [start_eq hp h, Location.behind_byte]
  rfl

theorem blanks_ahead (s : List Char) : blanks (ahead s) = 0 := by
  have hdrop : ahead s = s.dropWhile Text.isSpace := by
    have h := s.takeWhile_append_dropWhile (p := Text.isSpace)
    rw [ahead, blanks]
    nth_rewrite 2 [← h]
    rw [List.drop_left]
  rw [blanks, hdrop, List.length_eq_zero_iff, List.takeWhile_eq_nil_iff]
  intro hl
  exact List.dropWhile_get_zero_not _ _ hl

/-- The blanks in front of a token do not matter for it. -/
theorem token?_skipBlanks {p : Stand} (hp : p.Sound cap) (h : p.token? cap valid = some t) :
    p.skipBlanks.token? cap valid = some t
      ∧ p.skipBlanks.next cap valid = p.next cap valid := by
  have hread : p.reading cap valid
      = behindBlanks (blanks p.rest) (tokenHere cap valid false p.state (ahead p.rest)) :=
    token_eq cap valid hp.comment p.rest
  have hskip : p.skipBlanks.reading cap valid
      = behindBlanks 0 (tokenHere cap valid false p.state (ahead p.rest)) := by
    rw [reading, skipBlanks, token_eq cap valid hp.comment, blanks_ahead, List.drop_zero]
  have hlen : blanks p.rest ≤ p.rest.length := (List.takeWhile_prefix _).length_le
  obtain ⟨f, hf, rfl⟩ := exists_found h
  rw [hread] at hf
  generalize hr : tokenHere cap valid false p.state (ahead p.rest) = r at hread hskip hf
  rw [behindBlanks] at hread hskip hf
  cases hg : r.value.found with
  | none =>
    rw [hg] at hf
    simp [hg] at hf
  | some g =>
    rw [hg] at hf hread hskip
    cases hf
    have hnext : p.skipBlanks.next cap valid = p.next cap valid := by
      rw [next, next, hskip, hread]
      simp only [Reading.map_value, Reading.map_used, Reading.after_used, Reading.after_value,
        Nat.zero_add, skipBlanks, ahead, List.drop_drop, List.append_assoc, List.take_add]
    refine ⟨?_, hnext⟩
    rw [token?, hskip, Reading.map_value, Option.map_some, scanned, scanned, hnext, hskip, hread]
    simp only [skipBlanks, List.take_zero, List.append_nil, Reading.map_seen, Reading.after_seen,
      Nat.zero_add, Cursor.reach_add _ hlen, Text.size_append, Nat.add_assoc]
    rfl

end Stand

/-- Two stands equally far behind the edit see the same text. -/
theorem carries_of_size {p q : Stand} {head mid new tail : List Char}
    (hp : p.pre ++ p.rest = head ++ new ++ tail)
    (hq : q.pre ++ q.rest = head ++ mid ++ tail) (hle : Text.size (head ++ new) ≤ Text.size p.pre)
    (hsize : Text.size q.pre
      = Text.size p.pre - Text.size (head ++ new) + Text.size (head ++ mid)) :
    q.rest = p.rest ∧ (Edit.between head mid new).Carries q.pre p.pre := by
  obtain ⟨m, hpm, hpt⟩ := Text.prefix_of_size_le hp.symm hle
  obtain ⟨k, hqk, hqt⟩ := Text.prefix_of_size_le hq.symm (by omega)
  have hmk : Text.size k = Text.size m := by
    rw [hpm, hqk, Text.size_append _ k, Text.size_append _ m] at hsize
    omega
  obtain ⟨rfl, hrest⟩ := Text.append_inj_of_size (hqt.symm.trans hpt) hmk
  refine ⟨hrest, ?_⟩
  rw [hpm, hqk]
  exact (Edit.carries_between head mid new).append k

/-- What was read at a place of the old text is what is read at the place of the new text that
comes from it, unless the edit touched what was examined. -/
theorem token?_across {p r : Stand} {head mid new tail : List Char} (hr : r.Sound cap)
    (hrt : r.pre ++ r.rest = head ++ mid ++ tail) (hpt : p.pre ++ p.rest = head ++ new ++ tail)
    (hstate : r.state = p.state) (ht : r.token? cap valid = some t)
    (ho : (Edit.between head mid new).oldOffset? (Text.size p.pre) = some (Text.size r.pre))
    (hfree : Text.size r.pre ≤ Text.size head → t.lookahead ≤ Text.size head) :
    p.token? cap valid = some
      (if Text.size r.pre ≤ Text.size head then t else t.shift (.between head mid new)) := by
  simp only [Edit.oldOffset?, Edit.between, Location.behind_byte] at ho
  have hold := Text.size_append head mid
  split
  · rename_i hle
    -- a token behind the edit would have been examined past the head
    have hseen := Stand.lt_lookahead hr ht
    have hahead := hfree hle
    have hsize : Text.size p.pre = Text.size r.pre := by
      split_ifs at ho
      · exact Option.some.inj ho
      · have := Option.some.inj ho
        omega
    rw [List.append_assoc] at hrt hpt
    obtain ⟨a, rfl, hra⟩ := Text.prefix_of_size_le hrt hle
    rw [List.append_assoc] at hpt
    obtain ⟨hpre, hpa⟩ := Text.append_inj_of_size hpt hsize
    have hread : (⟨r.state, r.pre, a ++ (mid ++ tail)⟩ : Stand).token? cap valid = some t := by
      rw [← hra]
      exact ht
    have htwin := (Stand.token?_head hr hread hahead (new ++ tail)).1
    rw [hstate, ← hpre, ← hpa] at htwin
    exact htwin
  · rename_i hlt
    split_ifs at ho with hstart hstop
    · have := Option.some.inj ho
      omega
    · obtain ⟨hrest, hcarry⟩ := carries_of_size hpt hrt hstop (Option.some.inj ho).symm
      have hread : (⟨r.state, r.pre, r.rest⟩ : Stand).token? cap valid = some t := ht
      have hmoved := Stand.token?_carry hcarry hread
      rw [hstate, hrest] at hmoved
      exact hmoved

/-- A run that examined only the common part of two texts is one in both. -/
theorem Trail.head {ts : List Scanned} : ∀ {state : State} {pre a : List Char} {q : Stand},
    state.Sound cap → Trail cap ⟨state, pre, a ++ b⟩ ts q →
    (∀ t ∈ ts, t.lookahead ≤ Text.size (pre ++ a)) → ∀ c : List Char,
      ∃ state' m a', a = m ++ a' ∧ q = ⟨state', pre ++ m, a' ++ b⟩
        ∧ Trail cap ⟨state, pre, a ++ c⟩ ts ⟨state', pre ++ m, a' ++ c⟩ := by
  induction ts with
  | nil =>
    rintro state pre a q hs ⟨⟩ - c
    exact ⟨state, [], a, rfl, by rw [List.append_nil], by rw [List.append_nil]; exact .nil _⟩
  | cons t ts ih =>
    rintro state pre a q hs (_ | ⟨ht, hts⟩) hl c
    obtain ⟨ht', state', m, a', ha, hnext, hnext'⟩ :=
      Stand.token?_head hs ht (hl t List.mem_cons_self) c
    have hs' : Stand.Sound cap ⟨state', pre ++ m, a' ++ b⟩ := by
      rw [← hnext]
      exact Stand.next_sound hs
    have hl' (u : Scanned) (hu : u ∈ ts) : u.lookahead ≤ Text.size (pre ++ m ++ a') := by
      rw [List.append_assoc, ← ha]
      exact hl u (List.mem_cons_of_mem _ hu)
    rw [hnext] at hts
    obtain ⟨state'', m', a'', rfl, rfl, htrail⟩ := ih hs' hts hl' c
    refine ⟨state'', m ++ m', a'', by rw [ha, List.append_assoc], by rw [List.append_assoc], ?_⟩
    refine .cons ht' ?_
    rw [hnext', ← List.append_assoc pre]
    exact htrail

end Lexer

end AvroTree
