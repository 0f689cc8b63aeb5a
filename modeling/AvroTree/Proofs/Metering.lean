import AvroTree.Proofs.Advancing

/-!
# Running with a meter

A parser is also run with a meter, which allows every loop some number of rounds and watches that a
round moves the cursor (`Outline.within`). The run is broken off where a loop needs more rounds, or
goes on without having moved. Where more rounds are allowed than the text has bytes, no run is
broken off, and it comes to what the parser comes to (`Outline.within_eq`).
-/

namespace AvroTree

namespace Parse

open AvroTree.Parse.Parser
open Session (Sits Stands)

/-! ## The next token -/

namespace Session

/-- Finds the next token that is no comment, in at most `n` rounds that each take a comment. -/
def fetchWithin (valid : TokenSet) : Nat → Session → Option (Token × Session)
  | 0, _ => none
  | n + 1, s =>
    if (s.scan valid).scanned.token.kind.isExtra then
      let taken := s.takeComment valid
      if s.cursor.place.byte < taken.cursor.place.byte then fetchWithin valid n taken else none
    else some ((s.scan valid).scanned.token, s.look valid)

def peekWithin (n : Nat) (s : Session) (valid : TokenSet) : Option (Token × Session) :=
  let wanted := valid ∪ .ambient
  match s.lookahead with
  | some la => if la.valid = wanted then some (la.scanned.token, s) else fetchWithin wanted n s
  | none => fetchWithin wanted n s

def bumpWithin (n : Nat) (s : Session) : Option (Token × Session) :=
  match s.lookahead with
  | some la => some (la.scanned.token, s.commit la)
  | none => do
    let (token, s) ← s.peekWithin n .lexical
    match s.lookahead with
    | some la => return (token, s.commit la)
    | none => return (token, s)

variable {cap n : Nat} {text : List Char} {s : Session} {p : Lexer.Stand}

theorem fetchWithin_eq (valid : TokenSet) : ∀ {n m : Nat} {s : Session} {p : Lexer.Stand},
    s.Stands cap text p → p.rest.length < n → p.rest.length ≤ m →
      fetchWithin valid n s = some (fetch valid m s)
  | 0, _, _, _, _, hn, _ => absurd hn (Nat.not_lt_zero _)
  | n + 1, m, s, p, hp, hn, hm => by
    obtain ⟨hla, -⟩ := scan_reads hp valid
    rw [fetchWithin]
    cases hk : (s.scan valid).scanned.token.kind.isExtra with
    | false =>
      rw [fetch_of_not hk]
      rfl
    | true =>
      have hne := not_eof_of_isExtra hk
      have hlt := Lexer.Stand.next_lt hp.sound hla.token hne
      have hmoved : s.cursor.place.byte < (s.takeComment valid).cursor.place.byte :=
        commit_lt hp hla hne
      cases m with
      | zero => omega
      | succ m =>
        rw [fetch_succ hk, if_pos rfl, if_pos hmoved]
        exact fetchWithin_eq valid ((hp.commit hla).withExtras _) (by omega) (by omega)

theorem Stands.length_le (hp : s.Stands cap text p) : p.rest.length ≤ Text.size text := by
  rw [← hp.append, Text.size_append]
  have hlen := Text.length_le_size p.rest
  omega

theorem Sits.remaining_le (hs : s.Sits cap text) : s.remaining ≤ Text.size text := by
  obtain ⟨p, hp⟩ := hs.stands
  unfold remaining
  rw [hp.cursor.size_eq, hp.append]
  exact Nat.sub_le _ _

theorem peekWithin_eq (hs : s.Sits cap text) (hn : Text.size text < n) (valid : TokenSet) :
    s.peekWithin n valid = some (s.peek valid) := by
  obtain ⟨p, hp⟩ := hs.stands
  have hfetch : fetchWithin (valid ∪ .ambient) n s
      = some (fetch (valid ∪ .ambient) s.remaining s) :=
    fetchWithin_eq _ hp (hp.length_le.trans_lt hn) hp.length_le_remaining
  unfold peekWithin peek
  simp only [hfetch]
  cases s.lookahead with
  | some la => exact (apply_ite some _ _ _).symm
  | none => rfl

theorem bumpWithin_eq (hs : s.Sits cap text) (hn : Text.size text < n) :
    s.bumpWithin n = some s.bump := by
  unfold bumpWithin bump
  rw [peekWithin_eq hs hn]
  cases s.lookahead with
  | some la => rfl
  | none =>
    simp only [Option.bind_eq_bind, Option.bind_some]
    cases (s.peek .lexical).2.lookahead <;> rfl

end Session

/-! ## Metered parsers -/

/-- A parser that may be broken off. -/
abbrev Metered (α : Type) := StateT Session (ExceptT Diagnostic Option) α

namespace Metered

variable {α β : Type}

def breakOff : Metered α :=
  fun _ => none

/-- What a parser without loops comes to. -/
def lift (p : Parser α) : Metered α :=
  fun s => some (p s)

def peek (n : Nat) (valid : TokenSet) : Metered Token := do
  let token ← fun s => (s.peekWithin n valid).map .ok
  if token.kind = .error .depthExceeded then lift (tooDeep token.span.start)
  return token

def leaf (n : Nat) (kind : NodeKind) : Metered Node := do
  let token ← fun s => (s.bumpWithin n).map .ok
  return .leaf kind token

/-- What comes behind a round of a loop that started at byte `before`: the loop ends or, when the
cursor has moved, goes on. -/
def goOn (before : Nat) (loop : α → Metered α) : Bool × α → Metered α
  | (true, a) => do if before < (← get).cursor.place.byte then loop a else breakOff
  | (false, a) => pure a

/-- Repeats a step in at most `n` rounds, each of which ends the loop or moves the cursor. -/
def repeated (step : α → Metered (Bool × α)) : Nat → α → Metered α
  | 0, _ => breakOff
  | n + 1, a => do
    let before := (← get).cursor.place.byte
    goOn before (repeated step n) (← step a)

variable {cap n : Nat} {text : List Char} {s : Session}

theorem peek_eq (hs : s.Sits cap text) (hn : Text.size text < n) (valid : TokenSet) :
    peek n valid s = some (Parser.peek valid s) := by
  show ((s.peekWithin n valid).map Except.ok).bind _ = _
  rw [Session.peekWithin_eq hs hn, peek_run]
  generalize s.peek valid = r
  show (if r.1.kind = .error .depthExceeded then _ else _ : Metered Token) r.2 = _
  split <;> rfl

theorem leaf_eq (hs : s.Sits cap text) (hn : Text.size text < n) (kind : NodeKind) :
    leaf n kind s = some (Parser.leaf kind s) := by
  show ((s.bumpWithin n).map Except.ok).bind _ = _
  rw [Session.bumpWithin_eq hs hn]
  rfl

theorem bind_eq {q : Metered α} {f : α → Metered β} {p : Parser α} {g : α → Parser β}
    (hq : q s = some (p s)) (hf : ∀ a s', p s = .ok (a, s') → f a s' = some (g a s')) :
    (q >>= f) s = some ((p >>= g) s) := by
  show ExceptT.bind (q s) (fun r => f r.1 r.2) = some ((p s).bind fun r => g r.1 r.2)
  rw [hq]
  cases hp : p s with
  | error d => rfl
  | ok r => exact hf r.1 r.2 hp

/-- Neither loop ends for lack of rounds. -/
theorem repeated_eq {step : α → Metered (Bool × α)} {step' : α → Parser (Bool × α)}
    (hsteers : ∀ a, Steers (step' a)) (hadvances : Advances step')
    (h : ∀ a s, s.Sits cap text → step a s = some (step' a s)) :
    ∀ {n m : Nat} (a : α) {s : Session}, s.Sits cap text → s.remaining < n → s.remaining < m →
      repeated step n a s = some (iterate step' m a s)
  | 0, _, _, _, _, hn, _ => absurd hn (Nat.not_lt_zero _)
  | _, 0, _, _, _, _, hm => absurd hm (Nat.not_lt_zero _)
  | n + 1, m + 1, a, s, hs, hn, hm => by
    refine bind_eq (q := step a) (f := goOn s.cursor.place.byte (repeated step n)) (h a s hs) ?_
    rintro ⟨go, b⟩ s' hr
    cases go with
    | false => rfl
    | true =>
      have hlt := hadvances a hs trivial hr
      have hs' := (hsteers a _ _ _ hr).sits hs
      have hless := hs.remaining_lt hs' hlt
      show (if s.cursor.place.byte < s'.cursor.place.byte then repeated step n b else breakOff) s'
        = some (iterate step' m b s')
      rw [if_pos hlt]
      exact repeated_eq hsteers hadvances h b hs' (by omega) (by omega)

end Metered

/-- How a parser is put together. A loop comes with the proof that its rounds move the cursor. -/
inductive Outline : {α : Type} → Parser α → Type 1
  | pure {α : Type} (a : α) : Outline (pure a)
  | bind {α β : Type} {p : Parser α} {f : α → Parser β} (first : Outline p)
      (next : ∀ a, Outline (f a)) : Outline (p >>= f)
  | ask {α γ : Type} (g : Session → γ) {k : γ → Parser α} (next : ∀ c, Outline (k c)) :
      Outline (do k (g (← get)))
  | fail {α : Type} (d : Diagnostic) : Outline (throw d : Parser α)
  | peek (valid : TokenSet) : Outline (peek valid)
  | flush : Outline flush
  | leaf (kind : NodeKind) : Outline (leaf kind)
  | complain (d : Diagnostic) : Outline (complain d)
  | loop {α : Type} {step : α → Parser (Bool × α)} (round : ∀ a, Outline (step a))
      (advances : Advances step) (start : α) : Outline (loop step start)

namespace Outline

variable {α : Type} {p : Parser α}

/-- Runs a parser, allowing `n` rounds to every loop. -/
def within (n : Nat) : {α : Type} → {p : Parser α} → Outline p → Metered α
  | _, _, .pure a => Pure.pure a
  | _, _, .bind first next => do (next (← first.within n)).within n
  | _, _, .ask g next => do (next (g (← get))).within n
  | _, _, .fail d => throw d
  | _, _, .peek valid => Metered.peek n valid
  | _, _, .flush => modifyGet Session.takeExtras
  | _, _, .leaf kind => Metered.leaf n kind
  | _, _, .complain d => modify fun s => { s with syntactic := s.syntactic.push d }
  | _, _, .loop round _ start => Metered.repeated (fun a => (round a).within n) n start

theorem steers (o : Outline p) : Steers p := by
  induction o with
  | pure a => exact .pure a
  | bind _ _ hp hf => exact hp.bind hf
  | ask g _ hk => exact fun s a s' hr => hk (g s) s a s' hr
  | fail d => exact fun _ _ _ hr => nomatch hr
  | peek valid => exact (Built.peek valid).steers
  | flush => exact Built.flush.steers
  | leaf kind => exact (Built.leaf kind).steers
  | complain d => exact (Built.complain d).steers
  | loop _ _ start hround => exact (loop_built (fun a => .given (hround a)) start).steers

/-- A run with more rounds than bytes to every loop is not broken off. -/
theorem within_eq {cap n : Nat} {text : List Char} (hn : Text.size text < n) (o : Outline p) :
    ∀ s : Session, s.Sits cap text → o.within n s = some (p s) := by
  induction o with
  | pure a => exact fun _ _ => rfl
  | bind first _ hp hf =>
    exact fun s hs => Metered.bind_eq (hp s hs) fun a s' hr =>
      hf a s' ((first.steers _ _ _ hr).sits hs)
  | ask g _ hk => exact fun s hs => hk (g s) s hs
  | fail d => exact fun _ _ => rfl
  | peek valid => exact fun s hs => Metered.peek_eq hs hn valid
  | flush => exact fun _ _ => rfl
  | leaf kind => exact fun s hs => Metered.leaf_eq hs hn kind
  | complain d => exact fun _ _ => rfl
  | loop round advances start hround =>
    intro s hs
    have hle := hs.remaining_le
    exact Metered.repeated_eq (fun a => (round a).steers) advances hround start hs (by omega)
      (Nat.lt_succ_self _)

end Outline

end Parse

end AvroTree
