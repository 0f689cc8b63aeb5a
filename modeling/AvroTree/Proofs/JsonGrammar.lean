import AvroTree.Proofs.Spelling

/-!
# The grammar of JSON values

The texts that are JSON values, said without the lexer: `Value n` holds of those whose brackets nest
at most `n` deep. A comma may stand behind the last member of a list. The strings, numbers and
literals of the grammar are those that the lexers of these take (`jsonString_sound`,
`jsonString_complete` and so on for the others).
-/

namespace AvroTree

namespace JsonGrammar

open Text (isJsonSpace isNamePart isHexDigit)

/-- White space between the tokens of a value. -/
def Space (s : List Char) : Prop :=
  ∀ c ∈ s, isJsonSpace c

/-! ## Values without members -/

/-- What stands between the quotes of a string. -/
inductive Body : List Char → Prop
  | nil : Body []
  | plain {c : Char} {cs : List Char} (hq : c ≠ '"') (hb : c ≠ '\\') (hn : c ≠ '\n') (h : Body cs) :
      Body (c :: cs)
  | escape {e : Char} {cs : List Char} (he : e ∈ ['"', '\\', '/', 'b', 'f', 'n', 'r', 't'])
      (h : Body cs) : Body ('\\' :: e :: cs)
  | unicode {a b c d : Char} {cs : List Char} (ha : isHexDigit a) (hb : isHexDigit b)
      (hc : isHexDigit c) (hd : isHexDigit d) (h : Body cs) :
      Body ('\\' :: 'u' :: a :: b :: c :: d :: cs)

def IsString (v : List Char) : Prop :=
  ∃ raw, Body raw ∧ v = '"' :: (raw ++ ['"'])

def IsDigits (ds : List Char) : Prop :=
  ds ≠ [] ∧ ∀ d ∈ ds, d.isDigit

/-- The digits in front of the dot: a zero alone, or some that do not start with one. -/
def IsWhole (s : List Char) : Prop :=
  s = ['0'] ∨ IsDigits s ∧ s.head? ≠ some '0'

def IsFraction (s : List Char) : Prop :=
  s = [] ∨ ∃ ds, IsDigits ds ∧ s = '.' :: ds

def IsPower (s : List Char) : Prop :=
  s = [] ∨ ∃ mark sign ds, (mark = 'e' ∨ mark = 'E') ∧ (sign = [] ∨ sign = ['-'] ∨ sign = ['+'])
    ∧ IsDigits ds ∧ s = mark :: (sign ++ ds)

def IsNumber (v : List Char) : Prop :=
  ∃ sign whole fraction power, (sign = [] ∨ sign = ['-']) ∧ IsWhole whole ∧ IsFraction fraction
    ∧ IsPower power ∧ v = sign ++ (whole ++ (fraction ++ power))

def IsLiteral (v : List Char) : Prop :=
  v = "true".toList ∨ v = "false".toList ∨ v = "null".toList

def IsScalar (v : List Char) : Prop :=
  IsString v ∨ IsNumber v ∨ IsLiteral v

/-! ## Lists -/

section Lists

variable (Item : List Char → Prop)

/-- One or more members with commas between them. -/
inductive Row : List Char → Prop
  | one {v : List Char} (h : Item v) : Row v
  | more {v a b row : List Char} (h : Item v) (ha : Space a) (hb : Space b) (rest : Row row) :
      Row (v ++ (a ++ ',' :: (b ++ row)))

/-- What stands between two brackets: no member, or a row, and then maybe a comma. -/
def Listing (s : List Char) : Prop :=
  Space s ∨ ∃ a row b, Space a ∧ Row Item row ∧ Space b
    ∧ (s = a ++ (row ++ b) ∨ ∃ c, Space c ∧ s = a ++ (row ++ (b ++ ',' :: c)))

def Enclosed (opening closing : Char) (v : List Char) : Prop :=
  ∃ s, Listing Item s ∧ v = opening :: (s ++ [closing])

end Lists

/-- A key and its value. -/
def Pair (Value : List Char → Prop) (s : List Char) : Prop :=
  ∃ key a b v, IsString key ∧ Space a ∧ Space b ∧ Value v ∧ s = key ++ (a ++ ':' :: (b ++ v))

/-- The JSON values whose brackets nest at most so deep. -/
def Value : Nat → List Char → Prop
  | 0, v => IsScalar v
  | n + 1, v => IsScalar v ∨ Enclosed (Value n) '[' ']' v
    ∨ Enclosed (Pair (Value n)) '\x7b' '\x7d' v

/-- A number does not go on with this text. -/
def EndsNumber (r : List Char) : Prop :=
  ∀ c ∈ r.head?, c.isDigit = false ∧ c ≠ '.' ∧ c ≠ 'e' ∧ c ≠ 'E'

/-- A literal does not go on with this text. -/
def EndsWord (r : List Char) : Prop :=
  ∀ c ∈ r.head?, isNamePart c = false

/-- The text `r` behind a value is not to be taken for more of it. -/
def Parts (v r : List Char) : Prop :=
  (IsNumber v → EndsNumber r) ∧ (IsLiteral v → EndsWord r)

theorem IsDigits.exists_cons {ds : List Char} (h : IsDigits ds) :
    ∃ d es, ds = d :: es ∧ d.isDigit := by
  obtain ⟨d, es, rfl⟩ := List.exists_cons_of_ne_nil h.1
  exact ⟨d, es, rfl, h.2 d List.mem_cons_self⟩

section Imp

variable {P Q : List Char → Prop} (h : ∀ v, P v → Q v) {s : List Char}
include h

theorem Row.imp (hs : Row P s) : Row Q s := by
  induction hs with
  | one hv => exact .one (h _ hv)
  | more hv ha hb _ ih => exact .more (h _ hv) ha hb ih

theorem Enclosed.imp {opening closing : Char} (hs : Enclosed P opening closing s) :
    Enclosed Q opening closing s := by
  obtain ⟨t, ht, rfl⟩ := hs
  refine ⟨t, ht.imp_right ?_, rfl⟩
  rintro ⟨a, row, b, ha, hrow, hb, hlast⟩
  exact ⟨a, row, b, ha, hrow.imp h, hb, hlast⟩

theorem Pair.imp (hs : Pair P s) : Pair Q s := by
  obtain ⟨key, a, b, v, hkey, ha, hb, hv, rfl⟩ := hs
  exact ⟨key, a, b, v, hkey, ha, hb, h v hv, rfl⟩

end Imp

theorem Value.succ : ∀ {n : Nat} {v : List Char}, Value n v → Value (n + 1) v
  | 0, _, h => .inl h
  | _ + 1, _, .inl h => .inl h
  | _ + 1, _, .inr (.inl h) => .inr (.inl (h.imp fun _ => Value.succ))
  | _ + 1, _, .inr (.inr h) => .inr (.inr (h.imp fun _ hpair => hpair.imp fun _ => Value.succ))

/-- A value may also be read where brackets may nest deeper. -/
theorem Value.mono {n m : Nat} {v : List Char} (h : Value n v) (hle : n ≤ m) : Value m v := by
  induction hle with
  | refl => exact h
  | step _ ih => exact ih.succ

theorem Value.scalar {v : List Char} (h : IsScalar v) : ∀ n, Value n v
  | 0 => h
  | _ + 1 => .inl h

end JsonGrammar

namespace Lexer

open JsonGrammar
open Text (isNamePart isHexDigit)

variable {α β : Type} {s t r v : List Char} {a : α} {b : β}

/-! ## Strings -/

theorem isSimpleEscape_iff {e : Char} :
    isSimpleEscape e ↔ e ∈ ['"', '\\', '/', 'b', 'f', 'n', 'r', 't'] := by
  rw [isSimpleEscape, List.contains_iff_mem]

theorem jsonStringRest_sound (h : (jsonStringRest s).value = .ok ()) :
    ∃ raw, Body raw ∧ s = raw ++ '"' :: s.drop (jsonStringRest s).used
      ∧ (jsonStringRest s).used = raw.length + 1 := by
  fun_induction jsonStringRest s with
  | case2 cs => exact ⟨[], .nil, rfl, rfl⟩
  | case6 a b c d cs hhex ih =>
    obtain ⟨raw, hraw, heq, hused⟩ := ih h
    simp only [Bool.and_eq_true] at hhex
    obtain ⟨⟨⟨ha, hb⟩, hc⟩, hd⟩ := hhex
    refine ⟨'\\' :: 'u' :: a :: b :: c :: d :: raw, .unicode ha hb hc hd hraw, ?_, ?_⟩
    · rw [Reading.after_used, Nat.add_comm]
      simpa using heq
    · rw [Reading.after_used, hused, Nat.add_comm]
      rfl
  | case9 e cs hn hu he hsimple ih =>
    obtain ⟨raw, hraw, heq, hused⟩ := ih h
    refine ⟨'\\' :: e :: raw, .escape (isSimpleEscape_iff.1 hsimple) hraw, ?_, ?_⟩
    · rw [Reading.after_used, Nat.add_comm]
      simpa using heq
    · rw [Reading.after_used, hused, Nat.add_comm]
      rfl
  | case11 c cs hq hn halone _ _ _ hescape ih =>
    have hb : c ≠ '\\' := by
      rintro rfl
      cases cs with
      | nil => exact halone rfl rfl
      | cons e ds => exact hescape e ds rfl rfl
    obtain ⟨raw, hraw, heq, hused⟩ := ih h
    refine ⟨c :: raw, .plain hq hb hn hraw, ?_, ?_⟩
    · rw [Reading.after_used, Nat.add_comm]
      simpa using heq
    · rw [Reading.after_used, hused, Nat.add_comm]
      rfl
  | _ => cases h

theorem jsonStringRest_complete {raw : List Char} (h : Body raw) (r : List Char) :
    (jsonStringRest (raw ++ '"' :: r)).value = .ok ()
      ∧ (jsonStringRest (raw ++ '"' :: r)).used = raw.length + 1 := by
  induction h with
  | nil => exact ⟨rfl, rfl⟩
  | plain hq hb hn _ ih =>
    rw [List.cons_append, jsonStringRest_plain hq hn hb, Reading.after_used, ih.2, List.length_cons]
    exact ⟨ih.1, Nat.add_comm _ _⟩
  | @escape e cs he _ ih =>
    have hu : e ≠ 'u' := by
      rintro rfl
      simp at he
    have hn : e ≠ '\n' := by
      rintro rfl
      simp at he
    rw [List.cons_append, List.cons_append, jsonStringRest_escape hu hn,
      if_pos (isSimpleEscape_iff.2 he), Reading.after_used, ih.2]
    exact ⟨ih.1, Nat.add_comm _ _⟩
  | unicode ha hb hc hd _ ih =>
    simp only [List.cons_append]
    rw [jsonStringRest, if_pos (by simp [ha, hb, hc, hd]), Reading.after_used, ih.2]
    exact ⟨ih.1, Nat.add_comm _ _⟩

theorem jsonString_sound (hs : s.head? = some '"') (h : (jsonString s).value = .ok ()) :
    IsString (s.take (jsonString s).used) := by
  obtain ⟨cs, rfl⟩ : ∃ cs, s = '"' :: cs := by
    cases s with
    | nil => cases hs
    | cons c cs => exact ⟨cs, by rw [Option.some.inj hs]⟩
  obtain ⟨raw, hraw, heq, hused⟩ := jsonStringRest_sound (s := cs) h
  refine ⟨raw, hraw, ?_⟩
  have hlen : (jsonString ('"' :: cs)).used = 1 + (jsonStringRest cs).used := rfl
  rw [hlen, hused, heq, Nat.add_comm, List.take_succ_cons, List.take_length_add_append]
  rfl

theorem jsonString_complete (h : IsString v) (r : List Char) :
    (jsonString (v ++ r)).value = .ok () ∧ (jsonString (v ++ r)).used = v.length := by
  obtain ⟨raw, hraw, rfl⟩ := h
  obtain ⟨hvalue, hused⟩ := jsonStringRest_complete hraw r
  have hrest : jsonString ('"' :: (raw ++ ['"']) ++ r)
      = (jsonStringRest (raw ++ '"' :: r)).after 1 := by
    rw [jsonString, List.cons_append, List.append_assoc]
    rfl
  rw [hrest, Reading.after_used, hused]
  exact ⟨hvalue, by simp [Nat.add_comm]⟩

/-! ## Numbers -/

namespace Leaves

/-- What a lexer made of two has found was found by both. -/
theorem of_bind {p : Attempt α} {f : α → Attempt β} (hp : (p s).used ≤ s.length)
    (h : Leaves (p >>= f) s b r) : ∃ a t, Leaves p s a t ∧ Leaves (f a) t b r := by
  have hbind : (p >>= f : Attempt β) s = Lexer.bind p (ExceptT.bindCont f) s := rfl
  obtain ⟨hvalue, hrest, hused⟩ := h
  rw [hbind, Lexer.bind] at hvalue hrest hused
  cases hv : (p s).value with
  | error e =>
    rw [hv] at hvalue
    cases hvalue
  | ok a =>
    rw [hv] at hvalue hrest hused
    have hlen : (s.drop (p s).used).length = s.length - (p s).used := List.length_drop
    refine ⟨a, s.drop (p s).used, ⟨hv, rfl, by omega⟩, hvalue, ?_, ?_⟩
    · rw [List.drop_drop]
      exact hrest
    · have hboth : (p s).used + (f a (s.drop (p s).used)).used + r.length = s.length := hused
      omega

theorem of_skipIf {p : Char → Bool} {b : Bool} (h : Leaves (liftM (skipIf p)) s b t) :
    b = true ∧ (∃ c, p c ∧ s = c :: t) ∨ b = false ∧ s = t ∧ ∀ c ∈ s.head?, p c = false := by
  cases s with
  | nil => exact .inr ⟨(Except.ok.inj h.value).symm, h.rest, nofun⟩
  | cons c cs =>
    obtain ⟨hvalue, hrest, -⟩ := h
    rw [attempt_skipIf] at hvalue hrest
    split at hvalue
    · rename_i hc
      rw [if_pos hc] at hrest
      exact .inl ⟨(Except.ok.inj hvalue).symm, c, hc, congrArg (c :: ·) hrest⟩
    · rename_i hc
      rw [if_neg hc] at hrest
      refine .inr ⟨(Except.ok.inj hvalue).symm, hrest, ?_⟩
      rintro _ ⟨⟩
      simpa using hc

theorem of_pure (h : Leaves (Pure.pure a) s a t) : s = t :=
  h.rest

theorem of_throw {e : LexError} (h : Leaves (throw e : Attempt α) s a t) : False := by
  cases h.value

end Leaves

theorem attempt_skipIf_used (p : Char → Bool) (s : List Char) :
    ((liftM (skipIf p) : Attempt Bool) s).used ≤ s.length := by
  cases s with
  | nil => exact Nat.zero_le _
  | cons c cs =>
    rw [attempt_skipIf]
    split <;> simp

theorem plainDigits_eq (s : List Char) : plainDigits s =
    ⟨.ok (s.takeWhile Char.isDigit).length, (s.takeWhile Char.isDigit).length,
      (s.takeWhile Char.isDigit).length + 1⟩ := by
  show (((⟨.ok (skipWhile Char.isDigit s).value, 0, 0⟩ : Reading (Except LexError Nat)).after
    (skipWhile Char.isDigit s).used).seeing (skipWhile Char.isDigit s).seen) = _
  rw [skipWhile_eq]
  simp [Reading.after, Reading.seeing]

theorem plainDigits_used (s : List Char) : (plainDigits s).used ≤ s.length := by
  rw [plainDigits_eq]
  exact (List.takeWhile_prefix _).length_le

theorem plainDigits_sound {n : Nat} (h : Leaves plainDigits s n t) (hn : n ≠ 0) :
    ∃ ds, IsDigits ds ∧ s = ds ++ t := by
  obtain ⟨hvalue, hrest, -⟩ := h
  rw [plainDigits_eq] at hvalue hrest
  have hlen : (s.takeWhile Char.isDigit).length = n := Except.ok.inj hvalue
  refine ⟨s.takeWhile Char.isDigit, ⟨?_, fun d hd => List.mem_takeWhile_imp hd⟩, ?_⟩
  · rintro hnil
    rw [hnil] at hlen
    exact hn hlen.symm
  · have hdrop : s.drop (s.takeWhile Char.isDigit).length = t := hrest
    rw [← hdrop]
    exact List.prefix_iff_eq_append.1 (List.takeWhile_prefix _) |>.symm

theorem plainDigits_complete {ds : List Char} (hds : IsDigits ds)
    (ht : ∀ c ∈ t.head?, c.isDigit = false) :
    ∃ n, n ≠ 0 ∧ Leaves plainDigits (ds ++ t) n t := by
  have hstop : t.takeWhile Char.isDigit = [] := by
    cases t with
    | nil => rfl
    | cons c t => exact List.takeWhile_cons_of_neg (by simp [ht c rfl])
  have htake : (ds ++ t).takeWhile Char.isDigit = ds := by
    rw [List.takeWhile_append_of_pos hds.2, hstop, List.append_nil]
  refine ⟨ds.length, fun h => hds.1 (List.length_eq_zero_iff.1 h), ?_, ?_, ?_⟩
  · rw [plainDigits_eq, htake]
  · rw [plainDigits_eq, htake]
    exact List.drop_left
  · rw [plainDigits_eq, htake, List.length_append]

theorem isSign_iff {c : Char} : isSign c ↔ c = '-' ∨ c = '+' := by
  rw [isSign, Bool.or_eq_true, beq_iff_eq, beq_iff_eq]

theorem isExponentMark_iff {c : Char} : isExponentMark c ↔ c = 'e' ∨ c = 'E' := by
  rw [isExponentMark, Bool.or_eq_true, beq_iff_eq, beq_iff_eq]

theorem exponent_sound (h : Leaves (exponent plainDigits) s () t) :
    ∃ power, IsPower power ∧ s = power ++ t := by
  obtain ⟨mark, u, hmark, hrest⟩ := Leaves.of_bind (attempt_skipIf_used _ s) h
  rcases hmark.of_skipIf with ⟨rfl, c, hc, rfl⟩ | ⟨rfl, rfl, -⟩
  · obtain ⟨sign, v, hsign, hrest⟩ := Leaves.of_bind (attempt_skipIf_used _ u) hrest
    obtain ⟨n, w, hdigits, hrest⟩ := Leaves.of_bind (plainDigits_used v) hrest
    split at hrest
    · exact hrest.of_throw.elim
    · rename_i hn
      obtain rfl := hrest.of_pure
      obtain ⟨ds, hds, rfl⟩ := plainDigits_sound hdigits hn
      rcases hsign.of_skipIf with ⟨-, b, hb, rfl⟩ | ⟨-, rfl, -⟩
      · exact ⟨c :: ([b] ++ ds), .inr ⟨c, [b], ds, isExponentMark_iff.1 hc,
          .inr ((isSign_iff.1 hb).imp (congrArg ([·])) (congrArg ([·]))), hds, rfl⟩, rfl⟩
      · exact ⟨c :: ([] ++ ds), .inr ⟨c, [], ds, isExponentMark_iff.1 hc, .inl rfl, hds, rfl⟩, rfl⟩
  · exact ⟨[], .inl rfl, hrest.of_pure⟩

theorem exponent_complete {power : List Char} (hpower : IsPower power) (ht : EndsNumber t) :
    Leaves (exponent plainDigits) (power ++ t) () t := by
  rcases hpower with rfl | ⟨mark, sign, ds, hmark, hsign, hds, rfl⟩
  · refine .bind (.skipIf_false fun c hc => ?_) (.pure _ _)
    obtain ⟨-, -, he, hE⟩ := ht c hc
    simp [isExponentMark, he, hE]
  · obtain ⟨n, hn, hdigits⟩ := plainDigits_complete hds fun c hc => (ht c hc).1
    have hrun (b : Bool) : Leaves (do if (← plainDigits) = 0 then throw LexError.invalidNumber)
        (ds ++ t) () t := by
      refine .bind hdigits ?_
      rw [if_neg hn]
      exact .pure _ _
    have hsigned : ∃ b, Leaves (liftM (skipIf isSign)) (sign ++ (ds ++ t)) b (ds ++ t) := by
      obtain ⟨d, es, rfl, hd⟩ := hds.exists_cons
      rcases hsign with rfl | rfl | rfl
      · exact ⟨false, .skipIf_false fun c hc => by cases hc; exact isSign_of_isDigit hd⟩
      · exact ⟨true, .skipIf_true rfl _⟩
      · exact ⟨true, .skipIf_true rfl _⟩
    obtain ⟨b, hb⟩ := hsigned
    rw [List.cons_append, List.append_assoc]
    exact .bind (.skipIf_true (isExponentMark_iff.2 hmark) _) (.bind hb (hrun b))

theorem jsonDecimals_sound (h : Leaves jsonDecimals s () t) :
    ∃ fraction power, IsFraction fraction ∧ IsPower power ∧ s = fraction ++ (power ++ t) := by
  obtain ⟨dot, u, hdot, hrest⟩ := Leaves.of_bind (attempt_skipIf_used _ s) h
  rcases hdot.of_skipIf with ⟨rfl, c, hc, rfl⟩ | ⟨rfl, rfl, -⟩
  · obtain ⟨n, v, hdigits, hrest⟩ := Leaves.of_bind (plainDigits_used u) hrest
    split at hrest
    · obtain ⟨_, _, hthrow, -⟩ := Leaves.of_bind (Nat.zero_le _) hrest
      exact hthrow.of_throw.elim
    · rename_i hn
      obtain ⟨power, hpower, rfl⟩ := exponent_sound hrest
      obtain ⟨ds, hds, rfl⟩ := plainDigits_sound hdigits hn
      obtain rfl : c = '.' := by simpa using hc
      exact ⟨'.' :: ds, power, .inr ⟨ds, hds, rfl⟩, hpower, rfl⟩
  · obtain ⟨power, hpower, rfl⟩ := exponent_sound hrest
    exact ⟨[], power, .inl rfl, hpower, rfl⟩

theorem power_head {power : List Char} (hpower : IsPower power) (ht : EndsNumber t) :
    ∀ c ∈ (power ++ t).head?, c.isDigit = false ∧ c ≠ '.' := by
  rcases hpower with rfl | ⟨mark, sign, ds, hmark, -, -, rfl⟩
  · exact fun c hc => ⟨(ht c hc).1, (ht c hc).2.1⟩
  · rintro c ⟨⟩
    rcases hmark with rfl | rfl <;> exact ⟨rfl, by decide⟩

theorem jsonDecimals_complete {fraction power : List Char} (hfraction : IsFraction fraction)
    (hpower : IsPower power) (ht : EndsNumber t) :
    Leaves jsonDecimals (fraction ++ (power ++ t)) () t := by
  rcases hfraction with rfl | ⟨ds, hds, rfl⟩
  · exact .bind (.skipIf_false fun c hc => by simp [(power_head hpower ht c hc).2])
      (exponent_complete hpower ht)
  · obtain ⟨n, hn, hdigits⟩ := plainDigits_complete hds fun c hc => (power_head hpower ht c hc).1
    refine .bind (.skipIf_true rfl _) (.bind hdigits ?_)
    rw [if_neg hn]
    exact exponent_complete hpower ht

theorem jsonUnsigned_sound (h : Leaves jsonUnsigned s () t) :
    ∃ whole fraction power, IsWhole whole ∧ IsFraction fraction ∧ IsPower power
      ∧ s = whole ++ (fraction ++ (power ++ t)) := by
  obtain ⟨zero, u, hzero, hrest⟩ := Leaves.of_bind (attempt_skipIf_used _ s) h
  rcases hzero.of_skipIf with ⟨rfl, c, hc, rfl⟩ | ⟨rfl, rfl, hhead⟩
  · obtain rfl : c = '0' := by simpa using hc
    obtain ⟨fraction, power, hfraction, hpower, rfl⟩ := jsonDecimals_sound hrest
    exact ⟨['0'], fraction, power, .inl rfl, hfraction, hpower, rfl⟩
  · obtain ⟨n, v, hdigits, hrest⟩ := Leaves.of_bind (plainDigits_used s) hrest
    split at hrest
    · obtain ⟨_, _, hthrow, -⟩ := Leaves.of_bind (Nat.zero_le _) hrest
      exact hthrow.of_throw.elim
    · rename_i hn
      obtain ⟨fraction, power, hfraction, hpower, rfl⟩ := jsonDecimals_sound hrest
      obtain ⟨ds, hds, rfl⟩ := plainDigits_sound hdigits hn
      refine ⟨ds, fraction, power, .inr ⟨hds, fun h0 => ?_⟩, hfraction, hpower, rfl⟩
      obtain ⟨d, es, rfl, -⟩ := hds.exists_cons
      cases h0
      cases hhead '0' rfl

theorem decimals_head {fraction power : List Char} (hfraction : IsFraction fraction)
    (hpower : IsPower power) (ht : EndsNumber t) :
    ∀ c ∈ (fraction ++ (power ++ t)).head?, c.isDigit = false := by
  rcases hfraction with rfl | ⟨ds, -, rfl⟩
  · exact fun c hc => (power_head hpower ht c hc).1
  · rintro c ⟨⟩
    rfl

theorem jsonUnsigned_complete {whole fraction power : List Char} (hwhole : IsWhole whole)
    (hfraction : IsFraction fraction) (hpower : IsPower power) (ht : EndsNumber t) :
    Leaves jsonUnsigned (whole ++ (fraction ++ (power ++ t))) () t := by
  have hrest := jsonDecimals_complete hfraction hpower ht
  rcases hwhole with rfl | ⟨hds, h0⟩
  · exact .bind (.skipIf_true rfl _) hrest
  · obtain ⟨n, hn, hdigits⟩ := plainDigits_complete hds (decimals_head hfraction hpower ht)
    obtain ⟨d, es, rfl, -⟩ := hds.exists_cons
    have hd : d ≠ '0' := fun hd => h0 (by rw [hd]; rfl)
    refine .bind (.skipIf_false ?_) (.bind hdigits ?_)
    · rintro c ⟨⟩
      simpa using hd
    · rw [if_neg hn]
      exact hrest

theorem number_of_leaves (h : Leaves jsonNumber s () t) : ∃ v, IsNumber v ∧ s = v ++ t := by
  obtain ⟨minus, u, hminus, hrest⟩ := Leaves.of_bind (attempt_skipIf_used _ s) h
  have hrest : Leaves jsonUnsigned u () t := hrest
  obtain ⟨whole, fraction, power, hwhole, hfraction, hpower, rfl⟩ := jsonUnsigned_sound hrest
  rcases hminus.of_skipIf with ⟨-, c, hc, rfl⟩ | ⟨-, rfl, -⟩
  · obtain rfl : c = '-' := by simpa using hc
    exact ⟨_, ⟨['-'], whole, fraction, power, .inr rfl, hwhole, hfraction, hpower, rfl⟩, by simp⟩
  · exact ⟨_, ⟨[], whole, fraction, power, .inl rfl, hwhole, hfraction, hpower, rfl⟩, by simp⟩

theorem jsonNumber_sound (h : (jsonNumber s).value = .ok ()) :
    IsNumber (s.take (jsonNumber s).used) := by
  have hused := jsonNumber_blunt.used_le s
  have hleaves : Leaves jsonNumber s () (s.drop (jsonNumber s).used) :=
    ⟨h, rfl, by rw [List.length_drop]; omega⟩
  obtain ⟨v, hv, heq⟩ := number_of_leaves hleaves
  have hsplit := List.take_append_drop (jsonNumber s).used s
  rwa [List.append_cancel_right (hsplit.trans heq)]

theorem whole_head {whole : List Char} (h : IsWhole whole) :
    ∃ d es, whole = d :: es ∧ d.isDigit := by
  rcases h with rfl | ⟨h, -⟩
  · exact ⟨'0', [], rfl, rfl⟩
  · exact h.exists_cons

theorem leaves_of_number (hv : IsNumber v) (ht : EndsNumber t) :
    Leaves jsonNumber (v ++ t) () t := by
  obtain ⟨sign, whole, fraction, power, hsign, hwhole, hfraction, hpower, rfl⟩ := hv
  have hrest : Leaves jsonUnsigned (whole ++ (fraction ++ (power ++ t))) () t :=
    jsonUnsigned_complete hwhole hfraction hpower ht
  simp only [List.append_assoc]
  rcases hsign with rfl | rfl
  · refine .bind (.skipIf_false ?_) hrest
    obtain ⟨d, es, rfl, hd⟩ := whole_head hwhole
    rintro c ⟨⟩
    rw [beq_eq_false_iff_ne]
    rintro rfl
    cases hd
  · exact .bind (.skipIf_true rfl _) hrest

theorem jsonNumber_complete (hv : IsNumber v) (hr : EndsNumber r) :
    (jsonNumber (v ++ r)).value = .ok () ∧ (jsonNumber (v ++ r)).used = v.length := by
  obtain ⟨hvalue, -, hused⟩ := leaves_of_number hv hr
  rw [List.length_append] at hused
  exact ⟨hvalue, Nat.add_right_cancel hused⟩

/-- What a number starts with. -/
theorem number_head (h : IsNumber v) : ∃ c cs, v = c :: cs ∧ (c = '-' ∨ c.isDigit) := by
  obtain ⟨sign, whole, fraction, power, hsign, hwhole, -, -, rfl⟩ := h
  rcases hsign with rfl | rfl
  · obtain ⟨d, es, rfl, hd⟩ := whole_head hwhole
    exact ⟨d, _, rfl, .inr hd⟩
  · exact ⟨'-', _, rfl, .inl rfl⟩

/-! ## Literals -/

theorem literal_sound (h : ["true", "false", "null"].contains (String.ofList v)) :
    IsLiteral v := by
  simp only [List.contains_cons, List.contains_nil, Bool.or_false, Bool.or_eq_true,
    beq_iff_eq] at h
  have hlist {w : String} (hw : String.ofList v = w) : v = w.toList := by
    rw [← hw, String.toList_ofList]
  exact h.imp hlist (·.imp hlist hlist)

/-- A literal is a whole word. -/
theorem literal_complete (hv : IsLiteral v) (hr : EndsWord r) :
    (skipWhile isNamePart (v ++ r)).used = v.length
      ∧ ["true", "false", "null"].contains (String.ofList v) := by
  have hstop : r.takeWhile isNamePart = [] := by
    cases r with
    | nil => rfl
    | cons c r => exact List.takeWhile_cons_of_neg (by simp [hr c rfl])
  have hall : ∀ c ∈ v, isNamePart c := by
    rw [← List.all_eq_true]
    rcases hv with rfl | rfl | rfl <;> rfl
  refine ⟨?_, ?_⟩
  · rw [skipWhile_eq, List.takeWhile_append_of_pos hall, hstop, List.append_nil]
  · rcases hv with rfl | rfl | rfl <;> simp

/-- What a literal starts with. -/
theorem literal_head (h : IsLiteral v) :
    ∃ c cs, v = c :: cs ∧ c ∈ ['t', 'f', 'n'] := by
  rcases h with rfl | rfl | rfl
  · exact ⟨'t', ['r', 'u', 'e'], rfl, by decide⟩
  · exact ⟨'f', ['a', 'l', 's', 'e'], rfl, by decide⟩
  · exact ⟨'n', ['u', 'l', 'l'], rfl, by decide⟩

end Lexer

end AvroTree
