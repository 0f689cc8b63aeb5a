import AvroTree.Proofs.NodeLayout
import AvroTree.Proofs.Sessions

/-!
# How a tree grows

While a text is read, the nodes that have been made stand in front of the frontier of the session,
the comments that wait for their place stand between the frontier and the cursor, and both together
show the tokens that have been taken (`Session.Grew`). Each way to move a session is looked at
here: finding the next token, taking it, handing over comments, complaining.
-/

namespace AvroTree

open Lexer (Stand)
open Location (Within)
open Node (Laid marks)
open Text (size)

/-- What the log tells of a token: where it stands, and whether it is a comment. -/
def Scanned.mark (t : Scanned) : Span × Bool :=
  (t.token.span, t.token.kind.isExtra)

/-- A complaint about a place of the text. -/
def Diagnostic.PointsInto (text : List Char) (d : Diagnostic) : Prop :=
  ∃ category message l, Within text l ∧ d = .located category message l

/-! ## Where a token stands -/

namespace Lexer.Stand

variable {cap : Nat} {valid : TokenSet} {p : Stand} {t : Scanned}

theorem within_start (hp : p.Sound cap) (h : p.token? cap valid = some t) :
    Within (p.pre ++ p.rest) t.token.span.start := by
  rw [start_eq hp h]
  refine ⟨_, p.rest.drop (blanks p.rest), ?_, rfl⟩
  rw [List.append_assoc, List.take_append_drop]

theorem within_stop (h : p.token? cap valid = some t) :
    Within (p.pre ++ p.rest) t.token.span.stop := by
  rw [stop_eq h]
  exact .behind (next_append cap valid p).symm

theorem le_start (hp : p.Sound cap) (h : p.token? cap valid = some t) :
    size p.pre ≤ t.token.span.start.byte := by
  rw [start_eq hp h, Location.behind_byte, Text.size_append]
  omega

theorem start_lt_stop (hp : p.Sound cap) (h : p.token? cap valid = some t)
    (ht : t.token.kind ≠ .eof) : t.token.span.start.byte < t.token.span.stop.byte := by
  have hused := blanks_lt_used hp h ht
  have hahead : p.rest.drop (blanks p.rest) ≠ [] := fun hnil => ht ((eof_iff hp h).2 hnil)
  obtain ⟨n, hn⟩ := Nat.exists_eq_add_of_lt hused
  rw [start_eq hp h, stop_eq h, next, Location.behind_byte, Location.behind_byte, Text.size_append,
    Text.size_append, hn, Nat.add_assoc, List.take_add, Text.size_append]
  have hpos : 0 < size (List.take (n + 1) (List.drop (blanks p.rest) p.rest)) := by
    rw [Nat.pos_iff_ne_zero, Ne, Text.size_eq_zero, List.take_eq_nil_iff]
    simp [hahead]
  omega

end Lexer.Stand

namespace Parse

namespace Session

/-! ## Sessions in order -/

/-- No comment stands next. -/
def Plain (s : Session) : Prop :=
  Lexer.leadsComment (Lexer.ahead s.cursor.rest) = false

/-- Nothing but blanks is left. -/
def AtEnd (s : Session) : Prop :=
  Lexer.ahead s.cursor.rest = []

/-- A token that is no comment stands next. -/
def Faced (s : Session) : Prop :=
  s.Plain ∧ ¬s.AtEnd

/-- A token that is no comment stands next, and all comments have their place. -/
def Ready (s : Session) : Prop :=
  s.Faced ∧ s.extras = #[]

/-- The frontier is a place of the text, the comments that wait stand between it and the cursor,
and every complaint is about a place of the text. -/
structure Ordered (cap : Nat) (text : List Char) (s : Session) : Prop where
  stands : ∃ p, s.Stands cap text p
  plain : s.lookahead ≠ none → s.Plain
  frontier : Within text s.frontier
  extras : Laid text s.frontier.byte s.extras.toList s.cursor.place.byte
  lexical : ∀ d ∈ s.lexical.toList, d.PointsInto text
  syntactic : ∀ d ∈ s.syntactic.toList, d.PointsInto text

/-- From `s` to `s'` the nodes `ns` have been made. With the comments that wait in the end they show
the comments that waited in the beginning and the tokens taken since. -/
structure Grew (cap : Nat) (text : List Char) (s : Session) (ns : List Node) (s' : Session) :
    Prop where
  ordered : s'.Ordered cap text
  laid : Laid text s.frontier.byte ns s'.frontier.byte
  log : ∃ new, s'.log.toList = s.log.toList ++ new
    ∧ marks ns ++ marks s'.extras.toList = marks s.extras.toList ++ new.map Scanned.mark
  le : s.cursor.place.byte ≤ s'.cursor.place.byte

section

variable {cap : Nat} {text : List Char} {s t u : Session} {ns ms : List Node} {n : Node}

namespace Grew

theorem refl (h : s.Ordered cap text) : Grew cap text s [] s :=
  ⟨h, le_rfl, ⟨[], by simp, by simp⟩, le_rfl⟩

theorem trans (h : Grew cap text s ns t) (h' : Grew cap text t ms u) :
    Grew cap text s (ns ++ ms) u := by
  obtain ⟨new, hlog, hmarks⟩ := h.log
  obtain ⟨new', hlog', hmarks'⟩ := h'.log
  refine ⟨h'.ordered, h.laid.append h'.laid, ⟨new ++ new', ?_, ?_⟩, h.le.trans h'.le⟩
  · rw [hlog', hlog, List.append_assoc]
  · rw [Node.marks_append, List.append_assoc, hmarks', ← List.append_assoc, hmarks, List.map_append,
      List.append_assoc]

/-- What makes no nodes adds none. -/
theorem idle (h : Grew cap text s ns t) (h' : Grew cap text t [] u) : Grew cap text s ns u := by
  have htrans := h.trans h'
  rwa [List.append_nil] at htrans

/-- Other nodes that show the same tokens and are laid as well. -/
theorem exchange (h : Grew cap text s ns t) (hmarks : marks ms = marks ns)
    (hlaid : Laid text s.frontier.byte ms t.frontier.byte) : Grew cap text s ms t := by
  obtain ⟨new, hlog, hnew⟩ := h.log
  exact ⟨h.ordered, hlaid, ⟨new, hlog, hmarks ▸ hnew⟩, h.le⟩

theorem wrap (h : Grew cap text s ns t) (kind : NodeKind) :
    Grew cap text s [.branch kind ns t.frontier] t :=
  h.exchange (Node.marks_wrap _ _ _) (h.laid.wrap kind h.ordered.frontier)

theorem label (h : Grew cap text s [n] t) (field : Option String) :
    Grew cap text s [n.label field] t :=
  h.exchange (Node.marks_label _ _) (h.laid.label field)

/-- Wrapping one of the nodes. -/
theorem wrapOne (h : Grew cap text s (ns ++ n :: ms) t) (kind : NodeKind) (place : Location) :
    Grew cap text s (ns ++ .branch kind [n] place :: ms) t := by
  refine h.exchange ?_ ?_
  · rw [List.append_cons, List.append_cons ns n ms]
    simp only [Node.marks_append, Node.marks_wrap]
  · obtain ⟨a, hns, hn⟩ := Node.Laid.append_iff.1 h.laid
    have hone : Laid text a ([n] ++ ms) t.frontier.byte := hn
    obtain ⟨b, hn, hms⟩ := Node.Laid.append_iff.1 hone
    exact hns.append ((hn.wrap_cons kind place).append hms)

theorem good (h : Grew cap text s ns t) (hn : n ∈ ns) : n.Good text :=
  h.laid.good n hn

end Grew

theorem Faced.of_cursor (h : s.Faced) (ht : t.cursor = s.cursor) : t.Faced := by
  unfold Faced Plain AtEnd
  rw [ht]
  exact h

/-- Where the cursor has not moved the same text is left. -/
theorem Faced.of_byte (h : s.Faced) (hs : s.Ordered cap text) (ht : t.Ordered cap text)
    (hbyte : t.cursor.place.byte = s.cursor.place.byte) : t.Faced := by
  obtain ⟨p, hp⟩ := hs.stands
  obtain ⟨q, hq⟩ := ht.stands
  rw [hp.cursor.byte_eq, hq.cursor.byte_eq] at hbyte
  have hrest := (Text.append_inj_of_size (hq.append.trans hp.append.symm) hbyte).2
  unfold Faced Plain AtEnd
  rw [hq.cursor.rest_eq, hrest, ← hp.cursor.rest_eq]
  exact h

/-- Behind a taken token less is left. -/
theorem Ordered.remaining_lt (hs : s.Ordered cap text) (ht : t.Ordered cap text)
    (hbyte : s.cursor.place.byte < t.cursor.place.byte) : t.remaining < s.remaining := by
  obtain ⟨p, hp⟩ := hs.stands
  obtain ⟨q, hq⟩ := ht.stands
  have hle : t.cursor.place.byte ≤ size text := by
    rw [hq.cursor.byte_eq, ← hq.append, Text.size_append]
    omega
  unfold remaining
  rw [hp.cursor.size_eq, hq.cursor.size_eq, hp.append, hq.append]
  omega

/-! ## Finding the next token -/

/-- A token that has been found next. -/
structure Shows (text : List Char) (s : Session) (t : Token) : Prop where
  start : Within text t.span.start
  plain : s.Plain
  eof : t.kind = .eof ↔ s.AtEnd

theorem Shows.faced {t : Token} (h : s.Shows text t) (ht : t.kind ≠ .eof) : s.Faced :=
  ⟨h.plain, fun hend => ht (h.eof.2 hend)⟩

theorem Shows.faced_of_contains {t : Token} {first : TokenSet} (h : s.Shows text t)
    (hfirst : first.contains .eof = false) (ht : first.contains t.kind) : s.Faced := by
  refine h.faced fun he => ?_
  rw [he, hfirst] at ht
  cases ht

variable {p : Stand} {la : Lookahead} {valid : TokenSet}

theorem Stands.isExtra_eq (h : s.Stands cap text p) (hla : la.Reads cap p) :
    la.scanned.token.kind.isExtra = Lexer.leadsComment (Lexer.ahead s.cursor.rest) := by
  rw [Stand.isExtra_eq h.sound hla.token, h.cursor.rest_eq]

theorem Stands.eof_iff (h : s.Stands cap text p) (hla : la.Reads cap p) :
    la.scanned.token.kind = .eof ↔ s.AtEnd := by
  unfold AtEnd
  rw [Stand.eof_iff h.sound hla.token, h.cursor.rest_eq]

theorem Stands.shows (h : s.Stands cap text p) (hla : la.Reads cap p) (hs : s.Plain) :
    s.Shows text la.scanned.token :=
  ⟨h.append ▸ Stand.within_start h.sound hla.token, hs, h.eof_iff hla⟩

theorem Ordered.lexical_commit (h : s.Ordered cap text) (hp : s.Stands cap text p)
    (hla : la.Reads cap p) : ∀ d ∈ (s.commit la).lexical.toList, d.PointsInto text := by
  have hstart := Stand.within_start hp.sound hla.token
  have hstop := Stand.within_stop hla.token
  rw [hp.append] at hstart hstop
  intro d hd
  unfold commit at hd
  simp only [] at hd
  split at hd
  · rename_i complaint hc
    rw [Array.toList_push, List.mem_append, List.mem_singleton] at hd
    rcases hd with hd | rfl
    · exact h.lexical d hd
    · unfold lexicalComplaint? at hc
      split at hc
      · cases hc
        refine ⟨_, _, _, ?_, rfl⟩
        split
        · exact hstop
        · exact hstart
      · cases hc
  · exact h.lexical d hd

/-- Taking a token moves the cursor behind it. -/
theorem Stands.commit_byte (hla : la.Reads cap p) :
    (s.commit la).cursor.place.byte = la.scanned.token.span.stop.byte := by
  rw [Stand.stop_eq hla.token, Location.behind_byte]
  exact hla.cursor.byte_eq

/-- A comment is taken and waits for its place. -/
theorem takeComment_grew (h : s.Ordered cap text) (hp : s.Stands cap text p)
    (hk : (s.scan valid).scanned.token.kind.isExtra) :
    Grew cap text s [] (s.takeComment valid)
      ∧ (s.takeComment valid).Stands cap text (p.next cap (s.scan valid).scanned.valid) := by
  obtain ⟨hla, -⟩ := scan_reads hp valid
  have hstands := (hp.commit hla).withExtras (s.takeComment valid).extras
  have hne : (s.scan valid).scanned.token.kind ≠ .eof := by
    intro he
    rw [he] at hk
    cases hk
  have hstart := Stand.le_start hp.sound hla.token
  have hlt := Stand.start_lt_stop hp.sound hla.token hne
  have hbyte : (s.takeComment valid).cursor.place.byte = _ := Stands.commit_byte (s := s) hla
  have hcursor := hp.cursor.byte_eq
  have hfrontier : (s.takeComment valid).frontier = s.frontier := by
    show (if (s.scan valid).scanned.token.kind.isExtra then _ else _) = _
    rw [if_pos hk]
  have hextras : (s.takeComment valid).extras.toList = s.extras.toList
      ++ [.leaf (.ofToken (s.scan valid).scanned.token.kind) (s.scan valid).scanned.token] :=
    Array.toList_push
  have hgood := Node.Good.leaf (.ofToken (s.scan valid).scanned.token.kind)
    (Stand.within_start hp.sound hla.token) (Stand.within_stop hla.token) hlt.le
  rw [hp.append] at hgood
  refine ⟨⟨⟨⟨_, hstands⟩, fun hn => absurd rfl hn, ?_, ?_, ?_, h.syntactic⟩, ?_, ?_, ?_⟩, hstands⟩
  · rw [hfrontier]
    exact h.frontier
  · rw [hfrontier, hextras, hbyte]
    exact h.extras.append ⟨by rw [hcursor]; exact hstart, hgood, le_rfl⟩
  · exact h.lexical_commit hp hla
  · rw [hfrontier]
    exact le_rfl
  · refine ⟨[(s.scan valid).scanned], Array.toList_push, ?_⟩
    rw [hextras, Node.marks_append, Node.marks_leaf _ hlt]
    rfl
  · rw [hbyte]
    omega

theorem look_grew (h : s.Ordered cap text) (hp : s.Stands cap text p) (hs : s.Plain) :
    Grew cap text s [] (s.look valid) :=
  ⟨⟨⟨p, hp.look valid⟩, fun _ => hs, h.frontier, h.extras, h.lexical, h.syntactic⟩, le_rfl,
    ⟨[], by simp [look], by simp [look]⟩, le_rfl⟩

/-- Comments are taken until another token comes next; there are fewer of them than characters
are left. -/
theorem fetch_grew (valid : TokenSet) : ∀ (n : Nat) {s : Session} {p : Stand},
    s.Ordered cap text → s.Stands cap text p → p.rest.length ≤ n →
      Grew cap text s [] (fetch valid n s).2
        ∧ (fetch valid n s).2.Shows text (fetch valid n s).1
  | n, s, p, h, hp, hn => by
    obtain ⟨hla, -⟩ := scan_reads hp valid
    have hextra := hp.isExtra_eq hla
    cases hk : (s.scan valid).scanned.token.kind.isExtra with
    | false =>
      have hs : s.Plain := by
        unfold Plain
        rw [← hextra, hk]
      rw [fetch_of_not hk]
      exact ⟨look_grew h hp hs, (hp.look valid).shows hla hs⟩
    | true =>
      have hne : (s.scan valid).scanned.token.kind ≠ .eof := by
        intro he
        rw [he] at hk
        cases hk
      have hlt := Stand.next_lt hp.sound hla.token hne
      cases n with
      | zero => omega
      | succ n =>
        rw [fetch_succ hk]
        obtain ⟨hgrew, hp'⟩ := takeComment_grew h hp hk
        obtain ⟨hrest, hshows⟩ := fetch_grew valid n hgrew.ordered hp' (by omega)
        exact ⟨hgrew.trans hrest, hshows⟩

theorem Stands.length_le_remaining (hp : s.Stands cap text p) : p.rest.length ≤ s.remaining := by
  have hlen := Text.length_le_size p.rest
  unfold remaining
  rw [hp.cursor.size_eq, hp.cursor.byte_eq, Text.size_append]
  omega

theorem peek_grew (h : s.Ordered cap text) (valid : TokenSet) :
    Grew cap text s [] (s.peek valid).2 ∧ (s.peek valid).2.Shows text (s.peek valid).1 := by
  obtain ⟨p, hp⟩ := h.stands
  have hfetch := fetch_grew (valid ∪ .ambient) s.remaining h hp hp.length_le_remaining
  unfold peek
  simp only []
  split
  · rename_i la hla
    split
    · exact ⟨.refl h, hp.shows (hp.lookahead la hla) (h.plain (by simp [hla]))⟩
    · exact hfetch
  · exact hfetch

/-- Where no comment stands next, finding the next token leaves the session where it is. -/
theorem peek_keeps (h : s.Ordered cap text) (hs : s.Plain) (valid : TokenSet) :
    (s.peek valid).2.cursor = s.cursor ∧ (s.peek valid).2.extras = s.extras := by
  obtain ⟨p, hp⟩ := h.stands
  have hk : (s.scan (valid ∪ .ambient)).scanned.token.kind.isExtra = false := by
    rw [hp.isExtra_eq (scan_reads hp _).1]
    exact hs
  unfold peek
  simp only [fetch_of_not hk]
  split
  · split <;> exact ⟨rfl, rfl⟩
  · exact ⟨rfl, rfl⟩

/-! ## Taking tokens, handing over comments, complaining -/

theorem commit_grew (h : s.Ordered cap text) (hs : s.Ready) (hla : s.lookahead = some la)
    (kind : NodeKind) :
    Grew cap text s [.leaf kind la.scanned.token] (s.commit la)
      ∧ s.cursor.place.byte < (s.commit la).cursor.place.byte
      ∧ (s.commit la).extras = #[] := by
  obtain ⟨p, hp⟩ := h.stands
  have hr := hp.lookahead la hla
  have hk : la.scanned.token.kind.isExtra = false := by
    rw [hp.isExtra_eq hr]
    exact hs.1.1
  have hne : la.scanned.token.kind ≠ .eof := fun he => hs.1.2 ((hp.eof_iff hr).1 he)
  have hstart := Stand.le_start hp.sound hr.token
  have hlt := Stand.start_lt_stop hp.sound hr.token hne
  have hbyte : (s.commit la).cursor.place.byte = _ := Stands.commit_byte hr
  have hcursor := hp.cursor.byte_eq
  have hfrontier : (s.commit la).frontier = la.scanned.token.span.stop := by
    show (if la.scanned.token.kind.isExtra then _ else _) = _
    rw [hk]
    rfl
  have hextras : (s.commit la).extras = #[] := hs.2
  have hwithin := Stand.within_stop hr.token
  have hgood := Node.Good.leaf kind (Stand.within_start hp.sound hr.token) hwithin hlt.le
  rw [hp.append] at hgood hwithin
  have hle := h.extras.le
  refine ⟨⟨⟨⟨_, hp.commit hr⟩, fun hn => absurd rfl hn, ?_, ?_, ?_, h.syntactic⟩, ?_, ?_, ?_⟩, ?_,
    hextras⟩
  · rw [hfrontier]
    exact hwithin
  · rw [hfrontier, hextras, hbyte]
    exact le_refl _
  · exact h.lexical_commit hp hr
  · rw [hfrontier]
    refine ⟨?_, hgood, le_rfl⟩
    show s.frontier.byte ≤ la.scanned.token.span.start.byte
    omega
  · refine ⟨[la.scanned], Array.toList_push, ?_⟩
    rw [hextras, hs.2, Node.marks_leaf _ hlt]
    rfl
  · omega
  · omega

theorem bump_grew (h : s.Ordered cap text) (hs : s.Ready) (kind : NodeKind) :
    Grew cap text s [.leaf kind s.bump.1] s.bump.2
      ∧ s.cursor.place.byte < s.bump.2.cursor.place.byte ∧ s.bump.2.extras = #[] := by
  unfold bump
  split
  · rename_i la hla
    exact commit_grew h hs hla kind
  · rename_i hla
    obtain ⟨p, hp⟩ := h.stands
    have hk : (s.scan (.lexical ∪ .ambient)).scanned.token.kind.isExtra = false := by
      rw [hp.isExtra_eq (scan_reads hp _).1]
      exact hs.1.1
    have hpeek : s.peek .lexical = ((s.scan (.lexical ∪ .ambient)).scanned.token,
        s.look (.lexical ∪ .ambient)) := by
      unfold peek
      rw [hla]
      exact fetch_of_not hk
    rw [hpeek]
    obtain ⟨hgrew, hlt, hextras⟩ := commit_grew (look_grew h hp hs.1.1).ordered hs rfl kind
    exact ⟨(look_grew h hp hs.1.1).trans hgrew, hlt, hextras⟩

theorem takeExtras_grew (h : s.Ordered cap text) :
    Grew cap text s s.takeExtras.1 s.takeExtras.2 := by
  obtain ⟨p, hp⟩ := h.stands
  have hstands : s.takeExtras.2.Stands cap text p :=
    ⟨hp.cap_eq, hp.state, hp.sound, hp.append, hp.cursor, hp.log, hp.lookahead, hp.previous⟩
  -- The frontier moves to the end of the last comment, or stays if there is none.
  have hmoved : Within text s.takeExtras.2.frontier
      ∧ Laid text s.frontier.byte s.extras.toList s.takeExtras.2.frontier.byte
      ∧ s.takeExtras.2.frontier.byte ≤ s.cursor.place.byte := by
    have hextras := h.extras
    unfold takeExtras
    simp only [← Array.getLast?_toList]
    cases hlast : s.extras.toList.getLast? with
    | none =>
      rw [List.getLast?_eq_none_iff.1 hlast] at hextras ⊢
      exact ⟨h.frontier, le_refl s.frontier.byte, hextras⟩
    | some last =>
      have hgood := hextras.good last (List.mem_of_getLast? hlast)
      refine ⟨hgood.placed.stop, hextras.upto_last hlast, ?_⟩
      obtain ⟨front, hfront⟩ := List.getLast?_eq_some_iff.1 hlast
      rw [hfront] at hextras
      obtain ⟨a, -, -, -, hle⟩ := Node.Laid.append_iff.1 hextras
      exact hle
  obtain ⟨hwithin, hlaid, hle⟩ := hmoved
  exact ⟨⟨⟨p, hstands⟩, h.plain, hwithin, hle, h.lexical, h.syntactic⟩, hlaid,
    ⟨[], by simp [takeExtras], by simp [takeExtras]⟩, le_rfl⟩

theorem complain_grew (h : s.Ordered cap text) {d : Diagnostic} (hd : d.PointsInto text) :
    Grew cap text s [] { s with syntactic := s.syntactic.push d } := by
  obtain ⟨p, hp⟩ := h.stands
  refine ⟨⟨⟨p, ?_⟩, h.plain, h.frontier, h.extras, h.lexical, ?_⟩, le_rfl,
    ⟨[], by simp, by simp⟩, le_rfl⟩
  · exact ⟨hp.cap_eq, hp.state, hp.sound, hp.append, hp.cursor, hp.log, hp.lookahead, hp.previous⟩
  · intro e he
    rw [Array.toList_push, List.mem_append, List.mem_singleton] at he
    rcases he with he | rfl
    · exact h.syntactic e he
    · exact hd

end

end Session

end Parse

end AvroTree
