import AvroTree.Lexer.Stream

/-!
# Token streams after an edit

Tokens whose lookahead ended in front of the edit are kept. The lexer goes on behind the last of
them until it stands at the start of an old token behind the edit in the same state; from there on
the old tokens only move.
-/

namespace AvroTree

namespace Lexer

/-- A stream brought up to date, with the number of tokens kept and of tokens read. -/
structure Relexed where
  tokens : List Scanned
  reused : Nat
  rescanned : Nat
deriving DecidableEq, Repr

/-- The old tokens from the one on that the new token `t` stands for, `rest` holding those that
have not been passed yet. -/
def resume? (e : Edit) (t : Scanned) (rest : List Scanned) : Option (List Scanned) :=
  if e.newStop.byte ≤ t.token.span.start.byte then
    let start := t.token.span.start.byte - e.newStop.byte + e.oldStop.byte
    match rest.dropWhile fun u => u.token.span.start.byte < start with
    | [] => none
    | u :: later =>
      if u.token.span.start.byte = start ∧ u.before = t.before ∧ u.valid = t.valid then
        some (u :: later)
      else none
  else none

/-- Reads tokens until the old stream `old` can be taken up again, at most `n`. -/
def rescan (cap : Nat) (e : Edit) (old : List Scanned) : Nat → State → Cursor → Relexed
  | 0, _, _ => ⟨[], 0, 0⟩
  | n + 1, state, c =>
    match step cap .lexical state c with
    | (none, _, _) => ⟨[], 0, 0⟩
    | (some t, state', c') =>
      match resume? e t old with
      | some later => ⟨later.map (·.shift e), later.length, 1⟩
      | none =>
        if t.token.kind = .eof then ⟨[t], 0, 1⟩
        else
          let r := rescan cap e old n state' c'
          ⟨t :: r.tokens, r.reused, r.rescanned + 1⟩

/-- Whether an old token cannot have been touched by an edit behind it. -/
def untouched (e : Edit) (t : Scanned) : Bool :=
  t.lookahead ≤ e.start.byte && t.token.kind != .eof

/-- The tokens of the text that `e` has made of the text of `old`. -/
def relex (config : Config) (old : List Scanned) (e : Edit) (text : String) :
    Except StateError Relexed := do
  let kept := old.takeWhile (untouched e)
  let state ← match kept.getLast? with
    | some t => State.load config.cap t.after
    | none => pure {}
  let c := match kept.getLast? with
    | some t => Cursor.startAt text t.token.span.stop
    | none => Cursor.start text
  let r := rescan config.cap e (old.drop kept.length) (tokenBound c) state c
  return ⟨kept ++ r.tokens, kept.length + r.reused, r.rescanned⟩

end Lexer

end AvroTree
