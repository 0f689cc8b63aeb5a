import AvroTree.Proofs.Standing

/-!
# Blanks and comments

What may stand between two tokens: blanks and comments, a comment being closed or running to the
end of its line. A lexer passes over a comment as it passes over a blank, and nothing else of what
it knows changes (`Stand.gap_of_extra`).
-/

namespace AvroTree

namespace Text

/-- The text behind the next closing mark of a block comment. -/
def afterComment? : List Char → Option (List Char)
  | '*' :: '/' :: cs => some cs
  | _ :: cs => afterComment? cs
  | [] => none

/-- The text behind the blank or the comment at its front. A line comment leaves the end of its
line. -/
def pass? : List Char → Option (List Char)
  | '/' :: '/' :: cs => some (cs.dropWhile fun c => !endsLine c)
  | '/' :: '*' :: cs => afterComment? cs
  | c :: cs => if isSpace c then some cs else none
  | [] => none

/-- Nothing but blanks and comments stands in front of the end `r` of a text. -/
inductive Gap : List Char → List Char → Prop
  | refl (s : List Char) : Gap s s
  | pass {s t r : List Char} (h : pass? s = some t) (rest : Gap t r) : Gap s r

theorem afterComment?_suffix {s r : List Char} (h : afterComment? s = some r) : r <:+ s := by
  fun_induction afterComment? s with
  | case1 cs =>
    cases h
    exact ⟨['*', '/'], rfl⟩
  | case2 c cs _ ih => exact (ih h).trans (List.suffix_cons c cs)
  | case3 => cases h

theorem pass?_suffix {s r : List Char} (h : pass? s = some r) : r <:+ s ∧ r.length < s.length := by
  have behind {a b : Char} {cs : List Char} (h : r <:+ cs) :
      r <:+ a :: b :: cs ∧ r.length < (a :: b :: cs).length := by
    refine ⟨h.trans ⟨[a, b], rfl⟩, ?_⟩
    have := h.length_le
    simp only [List.length_cons]
    omega
  fun_cases pass? s with
  | case1 cs =>
    cases h
    exact behind (List.dropWhile_suffix _)
  | case2 cs => exact behind (afterComment?_suffix h)
  | case3 c cs _ _ hc =>
    simp only [pass?, hc, ↓reduceIte, Option.some.injEq] at h
    subst h
    exact ⟨List.suffix_cons c _, Nat.lt_succ_self _⟩
  | case4 c cs _ _ hc =>
    simp only [pass?, hc, Bool.false_eq_true, ↓reduceIte] at h
    cases h
  | case5 => cases h

theorem pass?_blank {c : Char} (hc : isSpace c) (cs : List Char) : pass? (c :: cs) = some cs := by
  have hslash : c ≠ '/' := by
    rintro rfl
    revert hc
    decide
  rw [pass?.eq_def]
  split <;> simp_all

namespace Gap

variable {s t r u : List Char}

theorem trans (h : Gap s t) (h' : Gap t r) : Gap s r := by
  induction h with
  | refl => exact h'
  | pass h _ ih => exact pass h (ih h')

theorem suffix (h : Gap s r) : r <:+ s := by
  induction h with
  | refl => exact List.suffix_rfl
  | pass h _ ih => exact ih.trans (pass?_suffix h).1

/-- Whatever stops on the way reaches the end of a gap. -/
theorem meet (h : Gap s r) (hu : Gap s u) (hend : pass? u = none) : Gap r u := by
  induction h with
  | refl => exact hu
  | @pass s t r h _ ih =>
    refine ih ?_
    cases hu with
    | refl =>
      rw [h] at hend
      cases hend
    | pass h' rest =>
      rw [h] at h'
      cases h'
      exact rest

theorem eq_of_end (h : Gap s r) (hend : pass? s = none) : s = r := by
  cases h with
  | refl => rfl
  | pass h _ =>
    rw [hend] at h
    cases h

theorem blank {c : Char} (hc : isSpace c) (h : Gap s r) : Gap (c :: s) r :=
  .pass (pass?_blank hc s) h

end Gap

end Text

namespace Lexer

open Text (Gap pass? afterComment?)

theorem ahead_cons (c : Char) (cs : List Char) :
    ahead (c :: cs) = if Text.isSpace c then ahead cs else c :: cs := by
  unfold ahead blanks
  split <;> rename_i hc <;> simp [hc]

theorem gap_ahead (s : List Char) : Gap s (ahead s) := by
  induction s with
  | nil => exact .refl _
  | cons c cs ih =>
    rw [ahead_cons]
    split
    · exact ih.blank ‹_›
    · exact .refl _

theorem ahead_of_pass?_eq_none {u : List Char} (h : pass? u = none) : ahead u = u := by
  cases u with
  | nil => rfl
  | cons c cs =>
    rw [ahead_cons, if_neg]
    intro hc
    rw [Text.pass?_blank hc] at h
    cases h

theorem afterComment?_of_closed {s : List Char} (h : (commentBody s).value = .closed) :
    afterComment? s = some (s.drop (commentBody s).used) := by
  fun_induction commentBody s with
  | case3 cs => rfl
  | case4 c cs hstar hclose ih =>
    rw [afterComment?, ih h, Reading.after_used, Nat.add_comm, List.drop_succ_cons]
    rintro ds rfl rfl
    exact hclose ds rfl rfl
  | _ => cases h

theorem afterComment?_of_open {s : List Char} (h : (commentBody s).value ≠ .closed) :
    afterComment? s = none := by
  fun_induction commentBody s with
  | case1 => rfl
  | case2 => rfl
  | case3 => exact absurd rfl h
  | case4 c cs hstar hclose ih =>
    rw [afterComment?, ih h]
    rintro ds rfl rfl
    exact hclose ds rfl rfl

theorem pass?_of_leadsComment {u : List Char} (hspace : ∀ c ∈ u.head?, Text.isSpace c = false)
    (h : leadsComment u = false) : pass? u = none := by
  fun_cases pass? u with
  | case1 cs => simp [leadsComment, startsComment] at h
  | case2 cs =>
    refine afterComment?_of_open fun hclosed => ?_
    simp [leadsComment, startsComment, hclosed] at h
  | case3 c cs _ _ hc => simp [hspace c rfl] at hc
  | case4 => rfl
  | case5 => rfl

theorem ahead_head (s : List Char) : ∀ c ∈ (ahead s).head?, Text.isSpace c = false := by
  induction s with
  | nil => exact fun c hc => nomatch hc
  | cons c cs ih =>
    rw [ahead_cons]
    split
    · exact ih
    · rintro _ ⟨⟩
      exact Bool.eq_false_iff.2 ‹_›

/-- A comment that the lexer takes is one that can be passed over. -/
theorem pass?_of_comment {valid : TokenSet} {state : State} {s : List Char} {f : Found}
    (hs : startsComment s) (h : (comment valid false state s).value.found = some f)
    (hf : f.kind.isExtra) :
    pass? s = some (s.drop (comment valid false state s).used) := by
  rcases s with _ | ⟨c, _ | ⟨d, cs⟩⟩
  · cases hs
  · simp [startsComment] at hs
  obtain ⟨rfl, hd⟩ : c = '/' ∧ (d = '/' ∨ d = '*') := by simpa [startsComment] using hs
  by_cases hl : d = '/'
  · subst hl
    rw [comment_line valid state rfl] at h ⊢
    split at h
    · rename_i hv
      have hrest (p : Char → Bool) : cs.drop (cs.takeWhile p).length = cs.dropWhile p :=
        calc cs.drop (cs.takeWhile p).length
          _ = (cs.takeWhile p ++ cs.dropWhile p).drop (cs.takeWhile p).length := by
            rw [List.takeWhile_append_dropWhile]
          _ = cs.dropWhile p := List.drop_left
      rw [if_pos hv, pass?, ← hrest]
      simp [Reading.accept, skipWhile_eq, Nat.add_comm 2]
    · cases h
  · obtain rfl := hd.resolve_left hl
    have hextra := (comment_found h).2.2
    rw [hf] at hextra
    have hclosed : (commentBody cs).value = .closed := by simpa using hextra.symm
    rw [comment_block valid state (by simp)] at h ⊢
    split at h
    · rename_i hv
      rw [if_pos hv, Reading.seeing_used, finishComment_eq, closeComment,
        if_pos (by simpa using hclosed), pass?, afterComment?_of_closed hclosed]
      simp [Reading.accept, Nat.add_comm 2]
    · cases h

namespace Stand

variable {cap : Nat} {valid : TokenSet} {p : Stand} {t : Scanned}

/-- Taking a comment is passing over it. -/
theorem pass?_of_extra (hp : p.Sound cap) (h : p.token? cap valid = some t)
    (ht : t.token.kind.isExtra) :
    pass? (ahead p.rest) = some (p.next cap valid).rest
      ∧ (p.next cap valid).state = p.state := by
  obtain ⟨f, hf, rfl⟩ := exists_found h
  have hleads : leadsComment (ahead p.rest) := by
    rw [← isExtra_eq hp h]
    exact ht
  have hstarts : startsComment (ahead p.rest) := by
    rw [leadsComment, Bool.and_eq_true] at hleads
    exact hleads.1
  have hreading : p.reading cap valid
      = behindBlanks (blanks p.rest) (comment valid false p.state (ahead p.rest)) := by
    rw [reading, token_eq cap valid hp.comment]
    exact congrArg _ (tokenHere_comment cap valid p.state hstarts)
  rw [hreading, behindBlanks] at hf
  cases hg : (comment valid false p.state (ahead p.rest)).value.found with
  | none => simp [hg] at hf
  | some g =>
    simp only [hg, Reading.map_value, Option.some.injEq] at hf
    subst hf
    have hpass := pass?_of_comment hstarts hg ht
    rw [ahead, List.drop_drop] at hpass
    simp only [next, hreading, behindBlanks, hg]
    exact ⟨hpass, comment_state hp valid _⟩

theorem gap_of_extra (hp : p.Sound cap) (h : p.token? cap valid = some t)
    (ht : t.token.kind.isExtra) :
    Gap p.rest (p.next cap valid).rest ∧ (p.next cap valid).state = p.state :=
  (pass?_of_extra hp h ht).imp_left fun hpass =>
    (gap_ahead p.rest).trans (.pass hpass (.refl _))

end Stand

end Lexer

end AvroTree
