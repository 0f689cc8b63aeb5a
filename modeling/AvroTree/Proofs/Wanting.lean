import AvroTree.Proofs.Derivations
import AvroTree.Proofs.Sessions

/-!
# Tokens and what is wanted

The kinds that are wanted decide only whether a word is a keyword and whether a JSON value is read
as a whole. So a token that is found among many kinds is found again among fewer, if it is still one
of them (`token?_narrow`).
-/

namespace AvroTree

open Token (Kind)

namespace Lexer

variable {cap : Nat} {V W : TokenSet} {state : State} {mode : Mode} {c : Char} {s : List Char}
  {k : Kind}

/-- Every keyword that is wanted now was wanted before. -/
def KeepsWords (V W : TokenSet) : Prop :=
  ∀ w, W.contains (.keyword w) → V.contains (.keyword w)

theorem wordKind_narrow {cs : List Char} (hV : KeepsWords V W) (h : W.contains (wordKind V cs)) :
    wordKind W cs = wordKind V cs := by
  unfold wordKind at h ⊢
  cases hw : Keyword.ofSpelling? (String.ofList cs) with
  | none => rfl
  | some w =>
    simp only [hw] at h ⊢
    split at h
    · rename_i hv
      rw [if_pos hv, if_pos (by simp [h])]
    · rename_i hv
      have hw : W.contains (.keyword w) = false := by
        by_contra hc
        exact hv (by simp [hV w (by simpa using hc)])
      rw [if_neg hv, if_neg (by simp [hw, h])]

theorem word_narrow (hV : KeepsWords V W) (h : W.contains (word V s).value) :
    word W s = word V s := by
  unfold word at h ⊢
  simp only [Reading.map_value] at h
  simp only [Reading.map, Reading.mk.injEq, and_true]
  split
  · rfl
  · rename_i hd
    rw [if_neg hd] at h
    exact wordKind_narrow hV h

theorem plain_narrow (hV : KeepsWords V W) (h : (plain V mode c s).value = .ok k)
    (hk : W.contains k) : plain W mode c s = plain V mode c s := by
  by_cases hc : Text.isNameStart c
  · rw [plain_nameStart hc, Reading.map_value, Except.ok.injEq] at h
    rw [plain_nameStart hc, plain_nameStart hc, word_narrow hV (h ▸ hk)]
  · rw [plain_other hc W V]

/-- What is read where a character starts a token of a wanted kind, errors and JSON values apart. -/
theorem lexeme_narrow (hV : KeepsWords V W) (hW : W.contains .jsonSpan = false)
    (h : (lexeme cap V state c s).value = .ok k) (hk : W.contains k) :
    (lexeme cap W state c s).value = .ok k
      ∧ (lexeme cap W state c s).used = (lexeme cap V state c s).used := by
  have hplain : lexeme cap W state c s = plain W state.mode c s := by
    rw [lexeme, hW, Bool.false_and, if_neg Bool.false_ne_true]
  rw [hplain]
  unfold lexeme at h ⊢
  split at h
  · rename_i hjson
    rw [if_pos hjson]
    simp only [] at h ⊢
    split at h
    · rename_i result hr
      rw [Reading.map_value] at h
      obtain rfl : k = .jsonSpan := jsonValue_gives (hr.trans (congrArg some h))
      rw [hW] at hk
      cases hk
    · rename_i hr
      rw [Reading.seeing_value] at h
      rw [Reading.seeing_used, plain_narrow hV h hk]
      exact ⟨h, rfl⟩
  · rename_i hjson
    rw [if_neg hjson, plain_narrow hV h hk]
    exact ⟨h, rfl⟩

/-- A comment is never found as anything else but an error. -/
theorem comment_kind {valid : TokenSet} {f : Found}
    (h : (comment valid false state s).value.found = some f) : f.kind.isExtra ∨ f.kind.isError := by
  by_cases hl : s[1]? = some '/'
  · rw [comment_line valid state hl] at h
    split at h
    · cases h
      exact .inl rfl
    · cases h
  · rw [comment_block valid state hl] at h
    split at h
    · rw [Reading.seeing_value, finishComment_eq, closeComment] at h
      split_ifs at h
      · cases h
        exact .inl (CommentKind.token_isExtra _)
      · cases h
        exact .inr rfl
      · cases h
    · cases h

namespace Stand

variable {p q : Stand} {t : Scanned} {cs : List Char}

/-- The stand behind a token of kind `k` that starts with `c` and ends after `n` characters. -/
def past (cap : Nat) (p : Stand) (k : Kind) (c : Char) (n : Nat) : Stand where
  state := { (track cap p.state k).2 with mode := impliedMode p.state k c }
  pre := p.pre ++ p.rest.take (blanks p.rest + n)
  rest := p.rest.drop (blanks p.rest + n)

/-- A wanted token is found where its lexer reads it. -/
theorem token?_of_lexeme (hp : p.Sound cap) (hc : ahead p.rest = c :: cs)
    (hs : startsComment (c :: cs) = false) (hk : V.contains k)
    (hread : (lexeme cap V p.state c (c :: cs)).value = .ok k)
    (htrack : V.contains (track cap p.state k).1) :
    ∃ t, p.token? cap V = some t ∧ t.token.kind = (track cap p.state k).1
      ∧ p.next cap V = p.past cap k c (lexeme cap V p.state c (c :: cs)).used
      ∧ (p.reading cap V).used = blanks p.rest + (lexeme cap V p.state c (c :: cs)).used := by
  have hreading : p.reading cap V = ⟨⟨some ⟨blanks p.rest, (track cap p.state k).1⟩,
      { (track cap p.state k).2 with mode := impliedMode p.state k c }⟩,
      blanks p.rest + (lexeme cap V p.state c (c :: cs)).used, (p.reading cap V).seen⟩ := by
    rw [reading, token_eq cap V hp.comment, show p.rest.drop (blanks p.rest) = c :: cs from hc,
      tokenHere_cons cap V p.state hs, judge]
    simp [hread, kindOf, hk, htrack, behindBlanks, Reading.accept, Reading.map, Reading.after]
  refine ⟨_, by rw [token?, hreading]; rfl, rfl, ?_, by rw [hreading]⟩
  rw [next, hreading]
  rfl

/-- A token in order, neither comment nor end, is what its lexer has read. -/
theorem lexeme_of_token? (hp : p.Sound cap) (h : p.token? cap V = some t)
    (hproper : t.token.kind.isProper) (herror : t.token.kind.isError = false) :
    ∃ c cs, ahead p.rest = c :: cs ∧ startsComment (c :: cs) = false
      ∧ (lexeme cap V p.state c (c :: cs)).value = .ok t.token.kind
      ∧ (track cap p.state t.token.kind).1 = t.token.kind ∧ V.contains t.token.kind := by
  obtain ⟨f, hf, rfl⟩ := exists_found h
  change f.kind.isProper at hproper
  change f.kind.isError = false at herror
  have heof : f.kind ≠ .eof ∧ f.kind.isExtra = false := by
    simpa [Kind.isProper, and_comm] using hproper
  cases hahead : ahead p.rest with
  | nil => exact absurd ((eof_iff hp h).2 hahead) heof.1
  | cons c cs =>
    rw [reading, token_eq cap V hp.comment, show p.rest.drop (blanks p.rest) = c :: cs from hahead,
      behindBlanks] at hf
    cases hhere : (tokenHere cap V false p.state (c :: cs)).value.found with
    | none => simp [hhere] at hf
    | some g =>
      simp only [hhere, Reading.map_value, Option.some.injEq] at hf
      subst hf
      refine ⟨c, cs, rfl, ?_⟩
      cases hs : startsComment (c :: cs) with
      | true =>
        rw [tokenHere_comment cap V p.state hs] at hhere
        rcases comment_kind hhere with hk | hk
        · exact absurd hk (by simp [heof.2])
        · exact absurd hk (by simp [herror])
      | false =>
        rw [tokenHere_cons cap V p.state hs] at hhere
        generalize (if c == '/' then 2 else 1) = n at hhere
        rw [judge] at hhere
        split at hhere
        · cases hhere
        rename_i hvalid
        cases hhere
        rw [Reading.seeing_value] at hvalid herror
        have htrack :=
          (track_kind cap p.state (kindOf (lexeme cap V p.state c (c :: cs)).value)).resolve_right
          fun he => by simp [he, Kind.isError] at herror
        cases hv : (lexeme cap V p.state c (c :: cs)).value with
        | error e =>
          rw [hv, kindOf] at htrack
          simp [hv, kindOf, htrack, Kind.isError] at herror
        | ok k =>
          simp only [hv, kindOf] at htrack hvalid
          simp only [scanned, Reading.seeing_value, hv, kindOf, htrack, true_and]
          simpa [htrack] using hvalid

/-- How far such a token goes. -/
theorem past_of_token? (hp : p.Sound cap) (h : p.token? cap V = some t)
    (hproper : t.token.kind.isProper) (herror : t.token.kind.isError = false) :
    ∃ c cs, ahead p.rest = c :: cs
      ∧ (lexeme cap V p.state c (c :: cs)).value = .ok t.token.kind
      ∧ (track cap p.state t.token.kind).1 = t.token.kind
      ∧ p.next cap V = p.past cap t.token.kind c (lexeme cap V p.state c (c :: cs)).used
      ∧ (p.reading cap V).used = blanks p.rest + (lexeme cap V p.state c (c :: cs)).used := by
  obtain ⟨c, cs, hc, hs, hread, htrack, hk⟩ := lexeme_of_token? hp h hproper herror
  obtain ⟨-, -, -, hnext, hused⟩ := token?_of_lexeme hp hc hs hk hread (by rwa [htrack])
  exact ⟨c, cs, hc, hread, htrack, hnext, hused⟩

theorem token?_narrow (hp : p.Sound cap) (h : p.token? cap V = some t) (hV : KeepsWords V W)
    (hW : W.contains .jsonSpan = false) (hk : W.contains t.token.kind)
    (hproper : t.token.kind.isProper) (herror : t.token.kind.isError = false) :
    ∃ u, p.token? cap W = some u ∧ u.token.kind = t.token.kind := by
  obtain ⟨c, cs, hc, hs, hread, htrack, -⟩ := lexeme_of_token? hp h hproper herror
  obtain ⟨hread', -⟩ := lexeme_narrow hV hW hread hk
  obtain ⟨u, hu, hkind, -⟩ := token?_of_lexeme hp hc hs hk hread' (by rwa [htrack])
  exact ⟨u, hu, hkind.trans htrack⟩

end Stand

end Lexer

end AvroTree
