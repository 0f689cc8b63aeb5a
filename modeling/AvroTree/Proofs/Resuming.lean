import AvroTree.Proofs.Relexing

/-!
# Going on from any token

The bytes that a token keeps of the lexer are all that is needed to go on from it. A lexer that
loads the state in front of a token reads this token and all later ones, and one that loads the
state behind it reads the later ones (`tokenizeFrom_boundary`).
-/

namespace AvroTree

namespace Lexer

namespace Stream

variable {cap : Nat} {p : Stand} {t : Scanned} {ts : List Scanned}

theorem head (h : Stream cap p (t :: ts)) : p.token? cap .lexical = some t := by
  cases h with
  | stop ht _ => exact ht
  | more ht _ _ => exact ht

theorem tail (h : Stream cap p (t :: ts)) (hk : t.token.kind ≠ .eof) :
    Stream cap (p.next cap .lexical) ts := by
  cases h with
  | stop _ heof => exact absurd heof hk
  | more _ _ hrest => exact hrest

end Stream

variable {config : Config} {mode : Mode} {text : String} {p : Stand} {t : Scanned}
  {before later ts : List Scanned}

/-- A lexer put where another one stands gives the stream from there on. -/
theorem tokenizeFrom_stream (hp : p.Sound config.cap) (htext : text.toList = p.pre ++ p.rest)
    (h : Stream config.cap p ts) :
    tokenizeFrom config p.state.encode (.startAt text (.behind p.pre)) = .ok ts := by
  have hload : State.load config.cap p.state.encode = .ok p.state :=
    State.load_encode hp.depth (Nat.min_le_right _ _)
  have hc := Cursor.startAt_between htext
  have hscan : scanRest config.cap p.state (.startAt text (.behind p.pre)) = ts :=
    (scanMany_stream hp hc (lt_tokenBound hc)).unique h
  rw [tokenizeFrom, hload]
  exact congrArg Except.ok hscan

/-- The tokens in front of one of a text lead to a stand from which the others are read. -/
theorem tokenize_split (h : tokenize config mode text = before ++ t :: later) :
    ∃ p : Stand, p.Sound config.cap ∧ text.toList = p.pre ++ p.rest
      ∧ Stream config.cap p (t :: later) := by
  have hall := tokenize_stream config mode text
  rw [h] at hall
  obtain ⟨p, htrail, hrest⟩ := hall.split (List.cons_ne_nil _ _)
  exact ⟨p, htrail.sound (Stand.start_sound mode _), htrail.text_eq.symm, hrest⟩

/-- In front of a token the lexer finds that token and the later ones. -/
theorem tokenizeFrom_start (h : tokenize config mode text = before ++ t :: later) :
    tokenizeFrom config t.before (.startAt text t.token.span.start) = .ok (t :: later) := by
  obtain ⟨p, hp, htext, hstream⟩ := tokenize_split h
  have hskip : Stream config.cap p.skipBlanks (t :: later) := (Stream.skipBlanks hp).2 hstream
  have hstart : t.token.span.start = .behind p.skipBlanks.pre := Stand.start_eq hp hstream.head
  have hsound : p.skipBlanks.Sound config.cap := hp
  rw [Stand.before_eq hskip.head, hstart]
  exact tokenizeFrom_stream hsound (htext.trans p.skipBlanks_append.symm) hskip

/-- Behind a token the lexer finds the later ones. -/
theorem tokenizeFrom_stop (h : tokenize config mode text = before ++ t :: later)
    (hk : t.token.kind ≠ .eof) :
    tokenizeFrom config t.after (.startAt text t.token.span.stop) = .ok later := by
  obtain ⟨p, hp, htext, hstream⟩ := tokenize_split h
  rw [Stand.after_eq hstream.head, Stand.stop_eq hstream.head]
  exact tokenizeFrom_stream (Stand.next_sound hp) (htext.trans (p.next_append _ _).symm)
    (hstream.tail hk)

theorem tokenizeFrom_boundary (config : Config) (mode : Mode) (text : String) (i : Nat)
    (t : Scanned) (hi : (tokenize config mode text)[i]? = some t) :
    tokenizeFrom config t.before (.startAt text t.token.span.start)
        = .ok ((tokenize config mode text).drop i)
      ∧ (t.token.kind ≠ .eof →
        tokenizeFrom config t.after (.startAt text t.token.span.stop)
          = .ok ((tokenize config mode text).drop (i + 1))) := by
  obtain ⟨hlt, ht⟩ := List.getElem?_eq_some_iff.1 hi
  have hdrop : (tokenize config mode text).drop i = t :: (tokenize config mode text).drop (i + 1) :=
    ht ▸ List.drop_eq_getElem_cons hlt
  have hsplit : tokenize config mode text
      = (tokenize config mode text).take i ++ t :: (tokenize config mode text).drop (i + 1) :=
    hdrop ▸ (List.take_append_drop i _).symm
  exact ⟨hdrop ▸ tokenizeFrom_start hsplit, tokenizeFrom_stop hsplit⟩

/-- Behind the second token of this text a bracket is open. -/
theorem tokenizeFrom_boundary_open : ∃ t, (tokenize {} .unknown "é( ) x")[1]? = some t
    ∧ tokenizeFrom {} t.before (.startAt "é( ) x" t.token.span.start)
      = .ok ((tokenize {} .unknown "é( ) x").drop 1)
    ∧ tokenizeFrom {} t.after (.startAt "é( ) x" t.token.span.stop)
      = .ok ((tokenize {} .unknown "é( ) x").drop 2) := by
  have hkind : (tokenize {} .unknown "é( ) x")[1]?.map (·.token.kind) = some (.punct .lParen) := by
    decide +kernel
  obtain ⟨t, ht, hk⟩ := Option.map_eq_some_iff.1 hkind
  obtain ⟨hstart, hstop⟩ := tokenizeFrom_boundary {} .unknown "é( ) x" 1 t ht
  exact ⟨t, ht, hstart, hstop (by rw [hk]; decide)⟩

end Lexer

end AvroTree
