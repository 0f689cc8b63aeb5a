import AvroTree.Proofs.Constructs
import AvroTree.Proofs.Reparsing

/-!
# Nothing is lost in a tree

The leaves of a tree that stand for tokens are the tokens of the parse in order, comments included,
and what stands outside of them in the text is white space.
-/

namespace AvroTree

open Text (size)

/-! ## Between the tokens -/

namespace Lexer

/-- The blanks in front of a text are white space. -/
theorem isSpace_of_lt_blanks {s mid post : List Char} {c : Char} (h : s = mid ++ c :: post)
    (hlt : size mid < size (s.take (blanks s))) : Text.isSpace c := by
  have hblanks : s.take (blanks s) = s.takeWhile Text.isSpace := by
    have hprefix := List.prefix_iff_eq_take.1 (s.takeWhile_prefix Text.isSpace)
    exact hprefix.symm
  have hsplit : mid ++ c :: post = s.takeWhile Text.isSpace ++ s.dropWhile Text.isSpace := by
    rw [List.takeWhile_append_dropWhile, h]
  rw [hblanks] at hlt
  obtain ⟨m, hm, hc⟩ := Text.prefix_of_size_le hsplit hlt.le
  cases m with
  | nil =>
    rw [hm, List.append_nil] at hlt
    exact absurd hlt (Nat.lt_irrefl _)
  | cons d m =>
    obtain ⟨rfl, -⟩ := List.cons.inj hc
    refine List.mem_takeWhile_imp (p := Text.isSpace) (l := s) ?_
    rw [hm]
    simp

namespace Trail

variable {cap : Nat} {p q : Stand} {ts : List Scanned}

theorem size_le (h : Trail cap p ts q) : size p.pre ≤ size q.pre := by
  induction h with
  | nil => exact le_rfl
  | cons ht _ ih =>
    refine le_trans ?_ ih
    rw [Stand.next, Text.size_append]
    exact Nat.le_add_right _ _

theorem le_start (h : Trail cap p ts q) (hp : p.Sound cap) :
    ∀ t ∈ ts, size p.pre ≤ t.token.span.start.byte := by
  induction h with
  | nil => exact fun _ h => nomatch h
  | @cons p q t ts ht hrest ih =>
    intro u hu
    rcases List.mem_cons.1 hu with rfl | hu
    · exact Stand.le_start hp ht
    · refine le_trans ?_ (ih (Stand.next_sound hp) u hu)
      exact (cons ht (.nil _)).size_le

/-- Each token stops in front of the next. -/
theorem pairwise (h : Trail cap p ts q) (hp : p.Sound cap) :
    ts.Pairwise fun t u => t.token.span.stop.byte ≤ u.token.span.start.byte := by
  induction h with
  | nil => exact .nil
  | @cons p q t ts ht hrest ih =>
    have hnext : (p.next cap t.valid).Sound cap := Stand.next_sound hp
    refine .cons (fun u hu => ?_) (ih hnext)
    rw [Stand.stop_eq ht, Location.behind_byte]
    exact hrest.le_start hnext u hu

/-- What a run has passed without taking it into a token is white space. -/
theorem isSpace (h : Trail cap p ts q) (hp : p.Sound cap) {pre post : List Char} {c : Char}
    (hsplit : p.pre ++ p.rest = pre ++ c :: post) (hle : size p.pre ≤ size pre)
    (hlt : size pre < size q.pre)
    (hout : ∀ t ∈ ts, ¬(t.token.span.start.byte ≤ size pre ∧ size pre < t.token.span.stop.byte)) :
    Text.isSpace c := by
  induction h with
  | nil => omega
  | @cons p q t ts ht hrest ih =>
    have hstop : t.token.span.stop.byte = size (p.next cap t.valid).pre := by
      rw [Stand.stop_eq ht, Location.behind_byte]
    have hstart : t.token.span.start.byte = size p.pre + size (p.rest.take (blanks p.rest)) := by
      rw [Stand.start_eq hp ht, Location.behind_byte, Text.size_append]
    have hself := hout t List.mem_cons_self
    by_cases hbyte : size pre < size (p.next cap t.valid).pre
    · -- The character stands in front of the token: it is one of the blanks there.
      obtain ⟨mid, rfl, hmid⟩ := Text.prefix_of_size_le hsplit hle
      rw [Text.size_append] at hself hbyte
      exact isSpace_of_lt_blanks hmid (by omega)
    · refine ih (Stand.next_sound hp) ?_ (Nat.le_of_not_lt hbyte) hlt
        fun u hu => hout u (List.mem_cons_of_mem t hu)
      rw [Stand.next_append]
      exact hsplit

end Trail

end Lexer

namespace Parse

open Session (Grew)

theorem start_ordered (text : String) (maxDepth : Nat) (mode : Mode) :
    (Session.start text maxDepth mode none).Ordered (Lexer.Config.ofDepth maxDepth).cap
      text.toList where
  stands := ⟨_, start_stands fun _ h => nomatch h⟩
  plain := fun h => absurd rfl h
  frontier := .origin
  extras := Nat.zero_le _
  lexical := fun _ h => nomatch h
  syntactic := fun _ h => nomatch h

theorem rootOf_made {cap : Nat} {text : List Char} {mode : Mode} {s s' : Session} {n : Node}
    (hs : s.Ordered cap text) (hr : rootOf mode s = .ok (n, s')) :
    Grew cap text s [n] s' ∧ s'.AtEnd ∧ s'.extras = #[] := by
  unfold rootOf at hr
  split at hr
  · exact Schema.file_made hs hr
  · exact Idl.program_made hs hr

/-- The tree of a text is what has been made from its start to its end. -/
theorem parse_made {config : Config} {text : String} {tree : Tree}
    (h : parse config text = .ok tree) : ∃ mode s, tree = treeOf mode (tree.root, s)
      ∧ Grew (Lexer.Config.ofDepth config.maxDepth).cap text.toList
        (.start text config.maxDepth mode none) [tree.root] s
      ∧ s.AtEnd ∧ s.extras = #[] := by
  obtain ⟨s, hs, htree⟩ := parse_ok h
  exact ⟨_, s, htree, rootOf_made (start_ordered _ _ _) hs⟩

/-- A session that has come to the end has passed all of the text. -/
theorem isSpace_of_atEnd {cap : Nat} {text pre post : List Char} {c : Char} {s : Session}
    (hs : s.Ordered cap text) (hend : s.AtEnd) (htext : text = pre ++ c :: post)
    (hout : ∀ t ∈ s.log.toList,
      ¬(t.token.span.start.byte ≤ size pre ∧ size pre < t.token.span.stop.byte)) :
    Text.isSpace c := by
  obtain ⟨p, hp⟩ := hs.stands
  obtain ⟨mode, hlog⟩ := hp.log
  by_cases hlt : size pre < size p.pre
  · exact hlog.isSpace (Lexer.Stand.start_sound mode text) htext (Nat.zero_le _) hlt hout
  · -- Behind the last token there are only blanks.
    unfold Session.AtEnd at hend
    rw [hp.cursor.rest_eq, Lexer.ahead, List.drop_eq_nil_iff] at hend
    obtain ⟨mid, hpre, hrest⟩ :=
      Text.prefix_of_size_le (hp.append.trans htext) (Nat.le_of_not_lt hlt)
    refine Lexer.isSpace_of_lt_blanks hrest ?_
    have hc := c.utf8Size_pos
    rw [List.take_of_length_le hend, hrest, Text.size_append, Text.size_cons]
    omega

/-- A comment, a word too many, a string that is not closed and a brace that is missing. -/
theorem parse_unclosed : ∃ tree, parse {} "// é\nenum E \x7b A ; \"open" = .ok tree
    ∧ tree.tokens.map (·.token.kind) = [.comment, .keyword .enum, .identifier, .punct .lBrace,
      .identifier, .punct .semicolon, .error .unterminatedString]
    ∧ tree.root.descendants.length = 12 ∧ tree.diagnostics.length = 3 := by
  obtain ⟨r, h, hread⟩ := @parse_of_program "// é\nenum E \x7b A ; \"open"
    (fun r => decide (r.2.log.toList.map (·.token.kind) = [.comment, .keyword .enum, .identifier,
        .punct .lBrace, .identifier, .punct .semicolon, .error .unterminatedString]
      ∧ r.1.descendants.length = 12 ∧ r.2.lexical.size + r.2.syntactic.size = 3))
    (by decide) (by decide +kernel) (by
      unfold Idl.program Idl.programStep Idl.declaration Idl.declarationWith
      simp only [First.declaration_eq]
      decide +kernel)
  obtain ⟨hkinds, hnodes, hfaults⟩ := of_decide_eq_true hread
  exact ⟨_, h, hkinds, hnodes, (length_diagnostics _ _).trans hfaults⟩

end Parse

/-- The childless nodes of a tree that are not missing and not empty are, from left to right, the
tokens of the parse: they stand at the same places, and those for comments are marked as extra. The
tokens do not overlap, and every character outside of them is white space. -/
theorem parse_lossless {config : Parse.Config} {text : String} {tree : Tree}
    (h : parse config text = .ok tree) :
    (tree.root.descendants.filter Node.isToken).map (fun n => (n.span, n.isExtra))
        = tree.tokens.map (fun t => (t.token.span, t.token.kind.isExtra))
      ∧ tree.tokens.Pairwise (fun t u => t.token.span.stop.byte ≤ u.token.span.start.byte)
      ∧ ∀ pre c post, text.toList = pre ++ c :: post →
        (∀ t ∈ tree.tokens,
          ¬(t.token.span.start.byte ≤ size pre ∧ size pre < t.token.span.stop.byte)) →
        Text.isSpace c := by
  obtain ⟨mode, s, htree, hgrew, hend, hextras⟩ := Parse.parse_made h
  have htokens : tree.tokens = s.log.toList := by
    rw [htree]
    rfl
  refine ⟨?_, ?_, ?_⟩
  · obtain ⟨new, hlog, hmarks⟩ := hgrew.log
    have hnew : tree.tokens = new := htokens.trans hlog
    have hroot : Node.marks [tree.root] = new.map Scanned.mark := by
      rw [hextras] at hmarks
      simpa [Parse.Session.start] using hmarks
    rw [Node.marks, Node.forest_singleton, ← Node.descendants_eq] at hroot
    rw [hnew]
    exact hroot
  · obtain ⟨p, hp⟩ := hgrew.ordered.stands
    obtain ⟨mode, hlog⟩ := hp.log
    rw [htokens]
    exact hlog.pairwise (Lexer.Stand.start_sound mode text.toList)
  · intro pre c post htext hout
    rw [htokens] at hout
    exact Parse.isSpace_of_atEnd hgrew.ordered hend htext hout

theorem parse_lossless_unclosed :
    let text := "// é\nenum E \x7b A ; \"open"
    ∃ tree, parse {} text = .ok tree
      ∧ tree.tokens.map (·.token.kind) = [.comment, .keyword .enum, .identifier, .punct .lBrace,
        .identifier, .punct .semicolon, .error .unterminatedString]
      ∧ (tree.root.descendants.filter Node.isToken).map (fun n => (n.span, n.isExtra))
        = tree.tokens.map (fun t => (t.token.span, t.token.kind.isExtra))
      ∧ tree.tokens.Pairwise (fun t u => t.token.span.stop.byte ≤ u.token.span.start.byte)
      ∧ ∀ pre c post, text.toList = pre ++ c :: post →
        (∀ t ∈ tree.tokens,
          ¬(t.token.span.start.byte ≤ size pre ∧ size pre < t.token.span.stop.byte)) →
        Text.isSpace c := by
  obtain ⟨tree, h, hkinds, -, -⟩ := Parse.parse_unclosed
  exact ⟨tree, h, hkinds, parse_lossless h⟩

end AvroTree
