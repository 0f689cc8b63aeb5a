import AvroTree.Parse.Schema
import AvroTree.Proofs.Deriving
import AvroTree.Proofs.Starts

/-!
# What schemas take

A schema takes, as long as nothing is wrong, tokens of a language that its levels mirror
(`tokenLevel`): which values a member may have depends on the text of its key, and a value that is
kept whole starts with none of the characters that would have made it something else. In particular
they are tokens that the rule `schema` derives (`schema_derived`).
-/

namespace AvroTree

open Token (Kind)
open Grammar (avro Derives)

namespace Text

theorem slice?_append (a b c : List Char) :
    slice? (a ++ b ++ c) (size a) (size a + size b) = some b := by
  rw [slice?, if_pos (Nat.le_add_right _ _), List.append_assoc, dropBytes?_append,
    Nat.add_sub_cancel_left]
  simp only [dropBytes?_append, takeBytes_append, Option.map_some]

end Text

namespace Lexer

section Strings

variable {quote c d : Char} {cs : List Char}

theorem stringRest_close : stringRest quote (quote :: cs) = ⟨.ok .string, 1, 1⟩ := by
  rw [stringRest.eq_def]
  simp only [↓reduceIte]

theorem stringRest_plain (hq : c ≠ quote) (hb : c ≠ '\\') (hn : c ≠ '\n') :
    stringRest quote (c :: cs) = (stringRest quote cs).after 1 := by
  rw [stringRest.eq_def]
  simp only [if_neg hq, if_neg hb, if_neg hn]

theorem stringRest_escape (hq : quote ≠ '\\') (hn : d ≠ '\n') :
    stringRest quote ('\\' :: d :: cs) = (stringRest quote cs).after 2 := by
  rw [stringRest, if_neg hq.symm, if_pos rfl]
  simp only [if_neg hn]

theorem stringRest_hex (h : Text.isHexDigit c) :
    stringRest '"' (c :: cs) = (stringRest '"' cs).after 1 := by
  refine stringRest_plain ?_ ?_ ?_ <;> (rintro rfl; revert h; decide)

/-- A string that JSON accepts is a string, and no longer or shorter than that. -/
theorem stringRest_of_json {s : List Char} (h : (jsonStringRest s).value = .ok ()) :
    (stringRest '"' s).value = .ok .string
      ∧ (stringRest '"' s).used = (jsonStringRest s).used := by
  fun_induction jsonStringRest s with
  | case2 =>
    rw [stringRest_close]
    exact ⟨rfl, rfl⟩
  | case6 a b c d cs hex ih =>
    obtain ⟨hvalue, hused⟩ := ih h
    simp only [Bool.and_eq_true] at hex
    rw [stringRest_escape (by decide) (by decide), stringRest_hex hex.1.1.1,
      stringRest_hex hex.1.1.2,
      stringRest_hex hex.1.2, stringRest_hex hex.2]
    refine ⟨hvalue, ?_⟩
    simp only [Reading.after_used, hused]
    omega
  | case9 e cs _ _ _ hs ih =>
    obtain ⟨hvalue, hused⟩ := ih h
    rw [stringRest_escape (by decide)]
    · exact ⟨hvalue, congrArg (2 + ·) hused⟩
    · rintro rfl
      revert hs
      decide
  | case11 c cs hq hn hlast _ _ _ hescape ih =>
    obtain ⟨hvalue, hused⟩ := ih h
    rw [stringRest_plain hq _ hn]
    · exact ⟨hvalue, congrArg (1 + ·) hused⟩
    · rintro rfl
      rcases cs with _ | ⟨d, ds⟩
      · exact hlast rfl rfl
      · exact hescape d ds rfl rfl
  | _ => cases h

end Strings

/-- A whole JSON value in quotes is a string. -/
theorem stringRest_of_jsonValue {room : Nat} {s : List Char}
    (h : (jsonValue room ('"' :: s)).value = some (.ok .jsonSpan)) :
    (stringRest '"' s).value = .ok .string
      ∧ 1 + (stringRest '"' s).used = (jsonValue room ('"' :: s)).used := by
  have hpiece : piece room .value [] ('"' :: s)
      = ((jsonStringRest s).after 1).map (.ofAttempt (.complete [])) := by
    simp [piece, valuePiece, jsonString]
  rw [jsonValue_eq, hpiece, followFirst, Reading.map_value, Reading.after_value] at h ⊢
  cases hv : (jsonStringRest s).value with
  | ok u =>
    obtain ⟨hvalue, hused⟩ := stringRest_of_json hv
    exact ⟨hvalue, congrArg (1 + ·) hused⟩
  | error e =>
    rw [hv] at h
    cases h

/-- A JSON value that is found whole is one that the lexer of such values accepts. -/
theorem jsonValue_of_lexeme {cap : Nat} {V : TokenSet} {state : State} {c : Char} {s : List Char}
    (h : (lexeme cap V state c s).value = .ok .jsonSpan) :
    (jsonValue (cap - state.depth) s).value = some (.ok .jsonSpan)
      ∧ (lexeme cap V state c s).used = (jsonValue (cap - state.depth) s).used := by
  have hplain : (plain V state.mode c s).value ≠ .ok .jsonSpan := by
    intro hv
    have := (plain_kind V state.mode c s).2
    rw [hv] at this
    exact this rfl
  unfold lexeme at h ⊢
  split at h
  · rename_i hjson
    rw [if_pos hjson]
    simp only [] at h ⊢
    split at h
    · rename_i result hr
      rw [Reading.map_value] at h
      simp only [hr, h, Reading.map_used, and_self]
    · exact absurd h hplain
  · exact absurd h hplain

/-- Anything else that is found is what a plain lexer reads. -/
theorem plain_of_lexeme {cap : Nat} {V : TokenSet} {state : State} {c : Char} {s : List Char}
    {k : Kind} (hk : k ≠ .jsonSpan) (h : (lexeme cap V state c s).value = .ok k) :
    (plain V state.mode c s).value = .ok k
      ∧ (lexeme cap V state c s).used = (plain V state.mode c s).used := by
  unfold lexeme at h ⊢
  split at h
  · rename_i hjson
    rw [if_pos hjson]
    simp only [] at h ⊢
    split at h
    · rename_i result hr
      rw [Reading.map_value] at h
      exact absurd (jsonValue_gives (hr.trans (congrArg some h))) hk
    · rename_i hr
      exact ⟨h, by simp only [Reading.seeing_used]⟩
  · rename_i hjson
    rw [if_neg hjson]
    exact ⟨h, rfl⟩

end Lexer

namespace Parse

open AvroTree.Parse.Parser
open Session (Faces Anywhere Sits)

/-- The text of a token. -/
def spelled (text : List Char) (t : Token) : List Char :=
  (Text.slice? text t.span.start.byte t.span.stop.byte).getD []

/-- The text from the start of a token on. -/
def onward (text : List Char) (t : Token) : List Char :=
  (Text.dropBytes? text t.span.start.byte).getD []

variable {cap : Nat} {text : List Char} {s s' : Session} {p : Lexer.Stand} {la : Lookahead}
  {wanted : TokenSet} {t : Token}

theorem onward_eq {V : TokenSet} {u : Scanned} (hp : p.Sound cap) (htext : p.pre ++ p.rest = text)
    (h : p.token? cap V = some u) : onward text u.token = Lexer.ahead p.rest := by
  have hrest := List.take_append_drop (Lexer.blanks p.rest) p.rest
  rw [onward, Lexer.Stand.start_eq hp h, Location.behind_byte, ← htext]
  nth_rewrite 1 [← hrest]
  rw [← List.append_assoc, Text.dropBytes?_append]
  rfl

/-- A text in three parts: up to the next token, the token, and what is behind it. -/
theorem slices_eq {V : TokenSet} {u : Scanned} (hp : p.Sound cap) (h : p.token? cap V = some u)
    (pre : List Char) :
    Text.slice? (pre ++ p.rest) (Text.size (pre ++ p.rest.take (Lexer.blanks p.rest)))
        (Text.size (pre ++ p.rest.take (p.reading cap V).used))
      = some ((Lexer.ahead p.rest).take ((p.reading cap V).used - Lexer.blanks p.rest)) := by
  have hle : Lexer.blanks p.rest ≤ (p.reading cap V).used := by
    obtain ⟨f, hfound, -⟩ := Lexer.Stand.exists_found h
    rw [← (Lexer.token_found hp.comment hfound).blanks]
    exact (Lexer.token_found hp.comment hfound).le_used
  obtain ⟨n, hn⟩ := Nat.exists_eq_add_of_le hle
  have hslice := Text.slice?_append (pre ++ p.rest.take (Lexer.blanks p.rest))
    ((Lexer.ahead p.rest).take n) (p.rest.drop (Lexer.blanks p.rest + n))
  rw [Lexer.ahead, List.append_assoc pre, ← List.take_add, List.append_assoc pre,
    List.take_append_drop, ← Text.size_append, List.append_assoc pre, ← List.take_add] at hslice
  rw [hn, Nat.add_sub_cancel_left]
  exact hslice

theorem spelled_eq {V : TokenSet} {u : Scanned} (hp : p.Sound cap) (htext : p.pre ++ p.rest = text)
    (h : p.token? cap V = some u) :
    spelled text u.token
      = (Lexer.ahead p.rest).take ((p.reading cap V).used - Lexer.blanks p.rest) := by
  have hslices := slices_eq hp h p.pre
  rw [htext] at hslices
  rw [spelled, Lexer.Stand.start_eq hp h, Lexer.Stand.stop_eq h, Location.behind_byte,
    Location.behind_byte, Lexer.Stand.next, hslices, Option.getD_some]

namespace Session

theorem textAhead_eq (hp : s.Stands cap text p) (hla : s.lookahead = some la) :
    s.textAhead = spelled text la.scanned.token := by
  have hr := hp.lookahead la hla
  rw [spelled_eq hp.sound hp.append hr.token]
  have hslices := slices_eq hp.sound hr.token []
  simp only [List.nil_append] at hslices
  simp only [textAhead, hla, Lexer.Stand.start_eq hp.sound hr.token, Lexer.Stand.stop_eq hr.token,
    Location.behind_byte, hp.cursor.byte_eq, hp.cursor.rest_eq, Lexer.Stand.next,
    Text.size_append, Nat.add_sub_cancel_left, hslices, Option.getD_some]

end Session

namespace Parser

variable {α β : Type} {C : Session → Prop} {sync : TokenSet}

theorem peek_deep {wanted : TokenSet} (hr : peek wanted s = .ok (t, s')) :
    t.kind ≠ .error .depthExceeded := by
  rw [peek_run] at hr
  split at hr
  · obtain ⟨_, _, hr, -⟩ := bind_ok hr
    exact (tooDeep_ok hr).elim
  · rename_i h
    obtain ⟨rfl, -⟩ := pure_ok hr
    exact h

/-- As long as nothing is wrong a token that is asked for is found where another has been looked
at. -/
theorem recoverTo_stays {first : TokenSet} {skipped : List Node} (hs : s.Sits cap text)
    (hf : s.Faces wanted t) (hp : s.Stands cap text p)
    (hr : recoverTo sync first s = .ok ((true, skipped), s')) (hfaults : s'.faults = s.faults) :
    ∃ V la, s'.lookahead = some la ∧ la.valid = V ∪ .ambient
      ∧ first.contains la.scanned.token.kind ∧ la.Reads cap p ∧ s'.Sits cap text := by
  have hplain : s.Plain := by
    obtain ⟨la, hla, -⟩ := hf
    exact hs.plain (by simp [hla])
  unfold recoverTo at hr
  obtain ⟨u, s₁, hpeek, hr⟩ := bind_ok hr
  obtain ⟨rfl, rfl⟩ := peek_ok hpeek
  obtain ⟨htook, hfaces⟩ := Session.peek_took hs (first ∪ recoverSet sync first)
  split at hr
  · rename_i hk
    obtain ⟨-, rfl⟩ := pure_ok hr
    obtain ⟨la, hla, hv, htoken, hreads, -⟩ :=
      Session.peek_stays hp hplain (first ∪ recoverSet sync first)
    exact ⟨_, la, hla, hv, htoken ▸ hk, hreads, htook.sits⟩
  split at hr
  · obtain ⟨h, -⟩ := pure_ok hr
    cases h
  rename_i hstop
  obtain ⟨ns, s₂, hskip, hr⟩ := bind_ok hr
  obtain ⟨u', s₃, hpeek', hr⟩ := bind_ok hr
  obtain ⟨-, rfl⟩ := pure_ok hr
  obtain ⟨us, hus, hclean⟩ := skip_run htook.sits hskip
  obtain ⟨-, vs, hvs, -⟩ := peek_takes (C := Anywhere) _ _ _ _ hus.sits trivial hpeek'
  have h₁ := htook.faults
  have h₂ := hus.faults
  have h₃ := hvs.faults
  exact absurd (.inl ((hclean (by omega)).2 _ hfaces)) hstop

/-- As long as nothing is wrong what is taken is what a lexer reads where it has been looked
before. -/
theorem expect_stays {want : Kind} {field : Option String} {L : List Token → Prop}
    (hwant : want.isMeant)
    (h : ∀ (p : Lexer.Stand) (la : Lookahead), p.Sound cap → la.Reads cap p →
      la.scanned.token.kind = want → Lexer.ahead p.rest = onward text t →
      onward text la.scanned.token = onward text t → L [la.scanned.token]) :
    Spends cap text (Faces wanted t) (expect sync want field) L := by
  obtain ⟨hne, herror⟩ := Kind.isMeant_iff.1 hwant
  intro s ns s' hs hf hr
  unfold expect expect? expectAs? at hr
  obtain ⟨⟨b, ms⟩, s₁, htaken, hr⟩ := bind_ok hr
  obtain ⟨-, rfl⟩ := pure_ok hr
  obtain ⟨⟨found, skipped⟩, s₂, hrecover, hr⟩ := bind_ok htaken
  obtain ⟨-, us, hus, hnil⟩ := recoverTo_takes (C := Anywhere) sync _ _ _ _ hs trivial hrecover
  cases found with
  | false =>
    have hvain : Spends cap text Anywhere (do
        return (false, skipped ++ [(← missing (.ofToken want) want.describe).label field]))
        fun _ => False := missing_vain fun n => (pure_spends _).anything
    obtain ⟨-, vs, hvs, hl⟩ := hvain _ _ _ hus.sits trivial hr
    have h₁ := hus.faults
    have h₂ := hvs.faults
    exact ⟨trivial, us ++ vs, hus.trans hvs, fun hfaults => (hl (by omega)).elim⟩
  | true =>
    obtain ⟨p, hp⟩ := hs.stands
    obtain ⟨extras, s₃, hflush, hr⟩ := bind_ok hr
    obtain ⟨n, s₄, hleaf, hr⟩ := bind_ok hr
    obtain ⟨-, rfl⟩ := pure_ok hr
    have hoffers := (recoverTo_takes (C := Anywhere) sync _ _ _ _ hs trivial hrecover).1 rfl
    obtain ⟨V, u, hsub, hfaces, hu⟩ := hoffers
    obtain rfl := TokenSet.eq_of_contains_single herror hu
    obtain ⟨hfaces', vs, hvs, hvs'⟩ := flush_faces _ _ _ hus.sits hfaces hflush
    obtain ⟨htook, hl⟩ := leaf_run hvs.sits hfaces' hne hleaf
    have h₁ := hus.faults
    have h₂ := hvs.faults
    have h₃ := htook.faults
    refine ⟨trivial, us ++ (vs ++ [u]), hus.trans (hvs.trans htook), fun hfaults => ?_⟩
    obtain ⟨V', la, hla, -, -, hreads, -⟩ := recoverTo_stays hs hf hp hrecover (by omega)
    obtain ⟨la', hla', -, rfl⟩ := hfaces
    obtain rfl : la' = la := by
      rw [hla'] at hla
      exact Option.some.inj hla
    obtain ⟨la₀, hla₀, -, rfl⟩ := hf
    have honward := onward_eq hp.sound hp.append (hp.lookahead la₀ hla₀).token
    rw [hnil (by omega), hvs' (by omega)]
    exact h p la' hp.sound hreads rfl honward.symm
      ((onward_eq hp.sound hp.append hreads.token).trans honward.symm)

/-- Where a wanted token starts it is found, unless it nests too deep. -/
theorem kind_of_plain {V : TokenSet} {c : Char} {cs : List Char} {k : Kind} (hp : p.Sound cap)
    (hla : la.Reads cap p) (hv : la.valid = V ∪ .ambient) (hjson : V.contains .jsonSpan = false)
    (hc : Lexer.ahead p.rest = c :: cs) (hslash : c ≠ '/')
    (hread : (Lexer.plain (V ∪ .ambient) p.state.mode c (c :: cs)).value = .ok k)
    (hk : V.contains k) :
    la.scanned.token.kind = k ∨ la.scanned.token.kind = .error .depthExceeded := by
  have hstart : Lexer.startsComment (c :: cs) = false := by
    simp [Lexer.startsComment_cons, hslash]
  have hlexeme : (Lexer.lexeme cap (V ∪ .ambient) p.state c (c :: cs)).value = .ok k := by
    rw [Lexer.lexeme, if_neg]
    · exact hread
    · rw [TokenSet.contains_union, hjson,
        show TokenSet.ambient.contains .jsonSpan = false by decide]
      simp
  have htrack := Lexer.track_kind cap p.state k
  obtain ⟨t, ht, hkind, -⟩ := Lexer.Stand.token?_of_lexeme hp hc hstart (V := V ∪ .ambient)
    (by simp [hk]) hlexeme (by
      rcases htrack with h | h
      · simp [h, hk]
      · rw [h, TokenSet.contains_union,
          show TokenSet.ambient.contains (.error .depthExceeded) = true by decide, Bool.or_true])
  have hscanned : la.scanned = t := by
    rcases hla.choice with h | ⟨h, -⟩
    · have := hla.token
      rw [h, hv, ht] at this
      exact (Option.some.inj this).symm
    · rw [hv, ht] at h
      cases h
  rw [hscanned, hkind]
  exact htrack

end Parser

namespace Schema

/-! ## The language of schemas -/

/-- What may stand at a level: schemas, and objects. -/
structure TokenLevel where
  value : List Token → Prop
  object : List Token → Prop

/-- A list in brackets. -/
def Enclosed (opening closing : Punct) (L : List Token → Prop) (ts : List Token) : Prop :=
  ∃ t us, ts = t :: us ∧ t.kind = .punct opening ∧ Listed closing true L us

/-- A value kept whole that starts with none of the characters `barred`. -/
def Whole (text barred : List Char) (ts : List Token) : Prop :=
  ∃ t, ts = [t] ∧ t.kind = .jsonSpan ∧ ∀ c ∈ (onward text t).head?, c ∉ barred

section Language

variable (text : List Char) (inner : Option TokenLevel)

def ValueTokens (ts : List Token) : Prop :=
  One .string ts
    ∨ ∃ l, inner = some l ∧ (l.object ts ∨ Enclosed .lBracket .rBracket l.value ts)

/-- A list of what `element` says, or a value that is none. -/
def ListTokens (element : TokenLevel → List Token → Prop) (ts : List Token) : Prop :=
  (∃ l, inner = some l ∧ Enclosed .lBracket .rBracket (element l) ts) ∨ Whole text ['['] ts

def MemberTokens (key : String) (ts : List Token) : Prop :=
  match key with
  | "type" | "items" | "values" => ValueTokens inner ts ∨ Whole text ['\x7b', '[', '"'] ts
  | "fields" => ListTokens text inner (·.object) ts
  | "symbols" => ListTokens text inner (fun _ => One .string) ts
  | "types" => ListTokens text inner (·.value) ts
  | _ => Whole text [] ts

def PairTokens (ts : List Token) : Prop :=
  ∃ key colon us, ts = key :: colon :: us ∧ key.kind = .string ∧ colon.kind = .punct .colon
    ∧ MemberTokens text inner (unquoted text key.span) us

def ObjectTokens (ts : List Token) : Prop :=
  Enclosed .lBrace .rBrace (PairTokens text inner) ts

end Language

/-- The tokens that may nest as deep as the readers of a level go. -/
def tokenLevel (text : List Char) : Nat → TokenLevel
  | 0 => ⟨ValueTokens none, ObjectTokens text none⟩
  | n + 1 => ⟨ValueTokens (some (tokenLevel text n)), ObjectTokens text (some (tokenLevel text n))⟩

/-! ## Its readers -/

variable {C : Session → Prop} {sync : TokenSet} {α : Type}

/-- The readers of a level take what the level may hold. -/
structure Level.Takes (cap : Nat) (text : List Char) (l : Level) (t : TokenLevel) : Prop where
  value : ∀ sync, Spends cap text (Offers First.schemaValue) (l.value sync) t.value
  object : ∀ kind sync, Spends cap text (Next (.punct .lBrace)) (l.object kind sync) t.object
  value_ne : ∀ ts, t.value ts → ts ≠ []
  object_ne : ∀ ts, t.object ts → ts ≠ []

theorem deeper_spends {inner : Option Level} {k : Level → Parser α} {L : List Token → Prop}
    (h : ∀ l, inner = some l → Spends cap text C (k l) L) :
    Spends cap text C (deeper inner k) L := by
  unfold deeper
  cases inner with
  | some l => exact h l rfl
  | none =>
    intro s a s' _ _ hr
    obtain ⟨_, _, _, hr⟩ := bind_ok hr
    exact (tooDeep_ok hr).elim

theorem brackets_spends {kind : NodeKind} {first : TokenSet}
    {element : TokenSet → Parser (List Node)}
    {L : List Token → Prop} (h : ∀ sync, Spends cap text (Offers first) (element sync) L)
    (hne : ∀ ts, L ts → ts ≠ []) :
    Spends cap text (Next (.punct .lBracket)) (brackets kind first element sync)
      (Enclosed .lBracket .rBracket L) := by
  unfold brackets
  refine (bump_one (by decide)).bind (M := fun _ _ => Listed .rBracket true L)
    (fun opening => (list_spends h hne).before fun _ => branch_takes _ _) ?_
  rintro _ _ _ us ⟨t, rfl, ht⟩ hus
  exact ⟨t, us, rfl, ht, hus⟩

theorem Enclosed.ne_nil {opening closing : Punct} {L : List Token → Prop} {ts : List Token}
    (h : Enclosed opening closing L ts) : ts ≠ [] := by
  obtain ⟨t, us, rfl, -⟩ := h
  simp

theorem One.ne_nil {k : Kind} {ts : List Token} (h : One k ts) : ts ≠ [] := by
  obtain ⟨t, rfl, -⟩ := h
  simp

theorem next_of_offers {k : Kind} (hk : k.isError = false) (h : Offers (.single k) s) :
    Next k s := by
  obtain ⟨V, t, -, hf, ht⟩ := h
  exact ⟨V, t, hf, TokenSet.eq_of_contains_single hk ht⟩

theorem unquotedAhead_takes :
    Takes cap text (Faces wanted t) unquotedAhead
      (fun name s => s.Faces wanted t ∧ name = unquoted text t.span) Nothing := by
  intro s name s' hs hf hr
  unfold unquotedAhead at hr
  obtain ⟨u, s₁, hget, hr⟩ := bind_ok hr
  obtain ⟨rfl, rfl⟩ := get_ok hget
  obtain ⟨rfl, rfl⟩ := pure_ok hr
  obtain ⟨p, hp⟩ := hs.stands
  obtain ⟨la, hla, hv, rfl⟩ := hf
  rw [Session.textAhead_eq hp hla]
  exact ⟨⟨⟨la, hla, hv, rfl⟩, rfl⟩, [], .refl hs, fun _ => rfl⟩

/-- The next token when these kinds are wanted; one that nests too deep ends the parse. -/
theorem peek_takes_shallow {V : TokenSet} :
    Takes cap text C (peek V)
      (fun t s => s.Faces V t ∧ t.kind ≠ .error .depthExceeded) Nothing := by
  intro s t s' hs hc hr
  obtain ⟨hf, hl⟩ := peek_takes V s t s' hs hc hr
  exact ⟨⟨hf, peek_deep hr⟩, hl⟩

/-- What a wanted token starts with does not stand next when another has been found. -/
theorem barred_of_faces {V : TokenSet} {c : Char} {cs : List Char} {k : Kind} (hs : s.Sits cap text)
    (hf : s.Faces V t ∧ t.kind ≠ .error .depthExceeded) (hV : V.contains .jsonSpan = false)
    (hk : V.contains k) (ht : t.kind ≠ k) (hslash : c ≠ '/')
    (hread : ∀ W mode, (Lexer.plain W mode c (c :: cs)).value = .ok k) :
    onward text t ≠ c :: cs := by
  intro hc
  obtain ⟨p, hp⟩ := hs.stands
  obtain ⟨⟨la, hla, hv, rfl⟩, hdeep⟩ := hf
  have hr := hp.lookahead la hla
  rw [onward_eq hp.sound hp.append hr.token] at hc
  rcases kind_of_plain hp.sound hr hv hV hc hslash (hread _ _) hk with h | h
  · exact ht h
  · exact hdeep h

section Readers

variable {inner : Option Level} {within : Option TokenLevel}
  (hinner : ∀ l, inner = some l → ∃ t, within = some t ∧ l.Takes cap text t)

include hinner

theorem value_spends :
    Spends cap text (Offers First.schemaValue) (value inner sync) (ValueTokens within) := by
  unfold value
  have horderly : Orderly First.schemaValue := First.schemaValue_eq ▸ Orderly.ofList (by decide)
  refine (peek_offers horderly).after fun t => Takes.given fun ht => ?_
  have hnext {k : Kind} (hk : t.kind = k) (s : Session) (h : s.Faces First.schemaValue t) :
      Next k s :=
    ⟨_, t, h, hk⟩
  split
  · rename_i hk
    refine deeper_spends fun l hl => ?_
    obtain ⟨u, hu, h⟩ := hinner l hl
    exact (h.object none sync).imp (hnext hk) (fun _ _ h => h) fun _ _ h => .inr ⟨u, hu, .inl h⟩
  · rename_i hk
    refine deeper_spends fun l hl => ?_
    obtain ⟨u, hu, h⟩ := hinner l hl
    exact (brackets_spends
      (fun sync => (h.value sync).before fun _ => pure_spends _) h.value_ne).imp
      (hnext hk) (fun _ _ h => h) fun _ _ h => .inr ⟨u, hu, .inr h⟩
  · rename_i h₁ h₂
    have hk : t.kind = .string := by
      rw [First.schemaValue_eq] at ht
      have hmem : t.kind ∈ Grammar.schemaKinds := TokenSet.mem_of_contains (by decide) ht
      simp only [Grammar.schemaKinds, List.mem_cons, List.not_mem_nil, or_false] at hmem
      rcases hmem with h | h | h
      · exact h
      · exact (h₁ h).elim
      · exact (h₂ h).elim
    refine unquotedAhead_takes.after fun name => Takes.imp (leaf_takes _ (by simp [hk]))
      (fun _ h => h.1) (fun _ _ h => h) ?_
    rintro _ _ ⟨rfl, -⟩
    exact .inl ⟨t, rfl, hk⟩

omit hinner in
/-- A value kept whole, in front of which a token has been looked at that makes it no other. -/
theorem wholeMember_spends {barred : List Char}
    (h : ∀ c cs room, onward text t = c :: cs → c ∈ barred →
      (Lexer.jsonValue room (c :: cs)).value ≠ some (.ok .jsonSpan)) :
    Spends cap text (Faces wanted t) (wholeMember sync) (Whole text barred) := by
  refine expect_stays rfl fun p la hp hla hk hahead honward => ⟨_, rfl, hk, fun c hc hbarred => ?_⟩
  rw [honward] at hc
  obtain ⟨cs, hcs⟩ : ∃ cs, onward text t = c :: cs := by
    cases ho : onward text t with
    | nil =>
      rw [ho] at hc
      cases hc
    | cons d ds =>
      rw [ho] at hc
      exact ⟨ds, by rw [Option.some.inj hc]⟩
  obtain ⟨d, ds, hd, -, hread, -⟩ := Lexer.Stand.lexeme_of_token? hp hla.token
    (by rw [hk]; rfl) (by rw [hk]; rfl)
  rw [hahead, hcs] at hd
  cases hd
  rw [hk] at hread
  exact h c cs _ hcs hbarred (Lexer.jsonValue_of_lexeme hread).1

theorem schemaMember_spends :
    Spends cap text C (schemaMember inner sync)
      fun ts => ValueTokens within ts ∨ Whole text ['\x7b', '[', '"'] ts := by
  unfold schemaMember
  refine peek_takes_shallow.after fun t => ?_
  split
  · rename_i ht
    refine (flush_takes (C := Offers First.schemaValue) fun _ h => h).imp
      (fun s h => ⟨_, t, fun _ h => h, h.1, ht⟩) (fun _ _ h => h) (fun _ _ h => h) |>.after
        fun extras => ?_
    exact (value_spends hinner).ret (fun _ _ h => h) fun _ _ h => .inl h
  · rename_i ht
    have hne {k : Kind} (hk : First.schemaValue.contains k) : t.kind ≠ k := fun h => ht (h ▸ hk)
    have hV : First.schemaValue.contains .jsonSpan = false := by
      rw [First.schemaValue_eq]
      decide
    have hbrace : First.schemaValue.contains (.punct .lBrace) := by
      rw [First.schemaValue_eq]
      decide
    have hbracket : First.schemaValue.contains (.punct .lBracket) := by
      rw [First.schemaValue_eq]
      decide
    have hstring : First.schemaValue.contains .string := by
      rw [First.schemaValue_eq]
      decide
    refine Takes.knowing (P := ∀ cs, onward text t ≠ '\x7b' :: cs ∧ onward text t ≠ '[' :: cs
      ∧ ((Lexer.stringRest '"' cs).value = .ok .string → onward text t ≠ '"' :: cs))
      (fun s hs hf cs => ⟨?_, ?_, fun hcs => ?_⟩) fun hP => ?_
    · exact barred_of_faces hs hf hV hbrace (hne hbrace) (by decide) fun _ _ => rfl
    · exact barred_of_faces hs hf hV hbracket (hne hbracket) (by decide) fun _ _ => rfl
    · exact barred_of_faces hs hf hV hstring (hne hstring) (by decide) fun _ _ => hcs
    · refine (wholeMember_spends ?_).imp (fun _ h => h.1) (fun _ _ h => h) fun _ _ h => .inr h
      intro c cs room hc hbarred hvalue
      simp only [List.mem_cons, List.not_mem_nil, or_false] at hbarred
      obtain ⟨h₁, h₂, h₃⟩ := hP cs
      rcases hbarred with rfl | rfl | rfl
      · exact h₁ hc
      · exact h₂ hc
      · exact h₃ (Lexer.stringRest_of_jsonValue hvalue).1 hc

theorem listMember_spends {kind : NodeKind} {first : TokenSet}
    {element : Level → TokenSet → Parser (List Node)} {L : TokenLevel → List Token → Prop}
    (h : ∀ (l : Level) (u : TokenLevel), l.Takes cap text u →
      (∀ sync, Spends cap text (Offers first) (element l sync) (L u)) ∧ ∀ ts, L u ts → ts ≠ []) :
    Spends cap text C (listMember inner kind first element sync) (ListTokens text within L) := by
  unfold listMember nextIs
  simp only [bind_assoc, pure_bind]
  refine peek_takes_shallow.after fun t => ?_
  split
  · rename_i ht
    have hnext : Takes cap text (fun s => s.Faces (.single (.punct .lBracket)) t
        ∧ t.kind ≠ .error .depthExceeded) flush (fun _ => Next (.punct .lBracket)) Nothing :=
      (flush_takes (C := Next _) fun _ h => h).imp (fun s h => ⟨_, t, h.1, by simpa using ht⟩)
        (fun _ _ h => h) fun _ _ h => h
    refine hnext.after fun extras => Takes.ret (deeper_spends (L := ListTokens text within L)
      fun l hl => ?_) (fun _ _ h => h) fun _ _ h => h
    obtain ⟨u, hu, hl⟩ := hinner l hl
    exact (brackets_spends (h l u hl).1 (h l u hl).2).imp (fun _ h => h) (fun _ _ h => h)
      fun _ _ h => .inl ⟨u, hu, h⟩
  · rename_i ht
    refine Takes.knowing (P := ∀ cs, onward text t ≠ '[' :: cs) (fun s hs hf cs => ?_) fun hP => ?_
    · exact barred_of_faces hs hf (by decide) (k := .punct .lBracket) (by decide)
        (by simpa using ht)
        (by decide) fun _ _ => rfl
    · refine (wholeMember_spends ?_).imp (fun _ h => h.1) (fun _ _ h => h) fun _ _ h => .inr h
      intro c cs room hc hbarred
      obtain rfl := List.mem_singleton.1 hbarred
      exact (hP cs hc).elim

theorem member_spends {key : String} :
    Spends cap text C (member inner key sync) (MemberTokens text within key) := by
  unfold member
  split
  · exact schemaMember_spends hinner
  · exact schemaMember_spends hinner
  · exact schemaMember_spends hinner
  · refine listMember_spends hinner fun l u hl => ⟨fun sync => ?_, hl.object_ne⟩
    exact ((hl.object _ sync).from_ fun s => next_of_offers rfl).before fun _ => pure_spends _
  · refine listMember_spends hinner fun l u hl => ⟨fun sync => ?_, fun _ => One.ne_nil⟩
    exact (bump_one (by decide)).from_ fun s => next_of_offers rfl
  · exact listMember_spends hinner fun l u hl =>
      ⟨fun sync => (hl.value sync).before fun _ => pure_spends _, hl.value_ne⟩
  · refine (expect_spends sync _ rfl).imp (fun _ h => h) (fun _ _ h => h) ?_
    rintro _ _ ⟨t, rfl, ht⟩
    unfold MemberTokens
    split
    all_goals first | contradiction | exact ⟨t, rfl, ht, fun _ _ => List.not_mem_nil⟩

theorem pair_spends :
    Spends cap text (Offers (.single .string)) (pair inner sync) (PairTokens text within) := by
  refine Offers.takes fun wanted t _ ht => ?_
  have hk : t.kind = .string := TokenSet.eq_of_contains_single rfl ht
  unfold pair
  refine flush_faces.after fun extras => unquotedAhead_takes.after fun name =>
    Takes.given fun hname => ?_
  subst hname
  refine (leaf_takes _ (by simp [hk])).bind
    (M := fun _ _ us => ∃ colon vs, us = colon :: vs ∧ colon.kind = .punct .colon
      ∧ MemberTokens text within (unquoted text t.span) vs)
    (fun key => ?_) ?_
  · refine (expect_spends sync _ rfl).bind
      (M := fun _ _ => MemberTokens text within (unquoted text t.span))
      (fun colon => (member_spends hinner).before fun _ => (branch_takes _ _).after fun _ =>
        (pure_spends _)) ?_
    rintro _ _ _ us ⟨colon, rfl, hcolon⟩ hus
    exact ⟨colon, us, rfl, hcolon, hus⟩
  · rintro _ _ _ _ ⟨rfl, -⟩ ⟨colon, vs, rfl, hcolon, hvs⟩
    exact ⟨t, colon, vs, rfl, hk, hcolon, hvs⟩

theorem object_spends {kind : Option NodeKind} :
    Spends cap text (Next (.punct .lBrace)) (object inner kind sync)
      (ObjectTokens text within) := by
  unfold object
  refine (bump_one (by decide)).bind (M := fun _ _ => Listed .rBrace true (PairTokens text within))
    (fun opening => ?_) ?_
  · refine Takes.before
      (list_spends (fun sync => (pair_spends hinner).before fun _ => pure_spends _) ?_)
      fun members => get_takes.after fun _ => (branch_takes _ _).imp (fun _ h => h)
        (fun _ _ _ => trivial) fun _ _ h => h
    rintro _ ⟨key, colon, us, rfl, -⟩
    simp
  · rintro _ _ _ us ⟨t, rfl, ht⟩ hus
    exact ⟨t, us, rfl, ht, hus⟩

end Readers

theorem ValueTokens.ne_nil {within : Option TokenLevel}
    (h : ∀ l, within = some l → ∀ ts, l.object ts → ts ≠ []) {ts : List Token}
    (hts : ValueTokens within ts) : ts ≠ [] := by
  rcases hts with hts | ⟨l, hl, hts | hts⟩
  · exact One.ne_nil hts
  · exact h l hl ts hts
  · exact hts.ne_nil

theorem level_takes : ∀ n, (level n).Takes cap text (tokenLevel text n)
  | 0 => by
    refine ⟨fun _ => value_spends ?_, fun _ _ => object_spends ?_,
      fun _ => ValueTokens.ne_nil ?_, fun _ => Enclosed.ne_nil⟩
    all_goals simp
  | n + 1 => by
    have hinner : ∀ l, some (level n) = some l →
        ∃ t, some (tokenLevel text n) = some t ∧ l.Takes cap text t := by
      rintro _ ⟨⟩
      exact ⟨_, rfl, level_takes n⟩
    refine ⟨fun _ => value_spends hinner, fun _ _ => object_spends hinner,
      fun _ => ValueTokens.ne_nil ?_, fun _ => Enclosed.ne_nil⟩
    rintro _ ⟨⟩
    exact (level_takes n).object_ne

theorem trailing_spends : Spends cap text C trailing (· = []) := by
  unfold trailing
  refine gather_takes (fun _ ts => ts = []) (fun _ ts => ts = []) [] (fun nodes =>
    (peek_takes _).after fun t => ?_) rfl
  split
  · exact (pure_any _).imp (fun _ h => h) (fun _ _ h => h) fun _ _ h => by simp [h.1, h.2]
  · rename_i ht
    exact Takes.vain ((skip_vain ht).ret (fun _ _ _ => trivial) fun _ _ h => h)

theorem file_spends :
    Spends cap text C file fun ts => ∃ n, (tokenLevel text n).value ts := by
  have hrest (ns : List Node) : Spends cap text Anywhere (do
      let rest ← trailing
      let extras ← flush
      branch .schema (ns ++ rest ++ extras)) (· = []) :=
    trailing_spends.before fun rest => (flush_takes fun _ h => h).after fun extras =>
      branch_takes _ _
  unfold file
  refine (recoverTo_takes _ _).after ?_
  rintro ⟨found, skipped⟩
  cases found with
  | false => exact missing_vain fun n => (hrest _).anything
  | true =>
    have hflush : Takes cap text (fun s => True → Offers First.schemaValue s) flush
        (fun _ => Offers First.schemaValue) Nothing :=
      (flush_takes (C := Offers First.schemaValue) fun _ h => h).imp (fun _ h => h trivial)
        (fun _ _ h => h) fun _ _ h => h
    simp only [pure_bind, ↓reduceIte]
    refine hflush.after fun extras => get_takes.after fun s => ?_
    have hlevel : (level s.maxDepth).Takes cap text (tokenLevel text s.maxDepth) :=
      level_takes s.maxDepth
    have hvalue := (hlevel.value (.single .eof)).imp
      (fun u (h : s = u ∧ Offers First.schemaValue u) => h.2) (fun _ _ h => h)
      fun _ ts h => (⟨s.maxDepth, h⟩ : ∃ n, (tokenLevel text n).value ts)
    exact hvalue.before fun value => hrest _

/-! ## What they derive -/

theorem Enclosed.derived {opening closing : Punct} {r : Rule} {L : List Token → Prop}
    {ts : List Token}
    (h : Enclosed opening closing L ts) (hL : ∀ us, L us → Derived r us) :
    Derived (.seq [.mark opening, .commasTrailing r, .mark closing]) ts := by
  obtain ⟨t, us, rfl, ht, hus⟩ := h
  have hopening : Derived (.mark opening) [t] := .one ⟨t, rfl, ht⟩
  exact hopening.seq (hus.imp hL).derived

/-- What a level may hold is what its rules derive. -/
structure TokenLevel.Follows (l : TokenLevel) : Prop where
  value : ∀ ts, l.value ts → Derived (.symbol "_schema_value") ts
  object : ∀ ts, l.object ts → Derived (.symbol "_json_object") ts

section Derived

variable {inner : Option TokenLevel} (hinner : ∀ l, inner = some l → l.Follows) {ts : List Token}

theorem string_derived (h : One .string ts) : Derived (.symbol "string") ts :=
  .symbol (by repeat constructor) (.one h)

theorem schemaValue_of_object (h : Derived (.symbol "_json_object") ts) :
    Derived (.symbol "_schema_value") ts :=
  .oneOf (r := .renamed (.symbol "_json_object") "json_object") (by repeat constructor)
    (by repeat constructor) (.renamed h)

include hinner

theorem ValueTokens.derived (h : ValueTokens inner ts) : Derived (.symbol "_schema_value") ts := by
  rcases h with h | ⟨l, hl, h | h⟩
  · exact .oneOf (r := .renamed (.symbol "string") "primitive_type") (by repeat constructor)
      (by repeat constructor) (.renamed (string_derived h))
  · exact schemaValue_of_object ((hinner l hl).object ts h)
  · have harray : Derived (.symbol "_json_array") ts :=
      .symbol (by repeat constructor) (h.derived (hinner l hl).value)
    exact .oneOf (r := .renamed (.symbol "_json_array") "union_type") (by repeat constructor)
      (by repeat constructor) (.renamed harray)

omit hinner in
theorem Whole.derived {text barred : List Char} (h : Whole text barred ts) :
    Derived (.symbol "_json_member_value") ts := by
  obtain ⟨t, rfl, ht, -⟩ := h
  exact .oneOf (r := .symbol "json_value") (by repeat constructor) (by repeat constructor)
    (.symbol (by repeat constructor) (.one ⟨t, rfl, ht⟩))

theorem MemberTokens.derived {text : List Char} {key : String}
    (h : MemberTokens text inner key ts) :
    Derived (.symbol "_json_member_value") ts := by
  have hvalue (h : ValueTokens inner ts ∨ Whole text ['\x7b', '[', '"'] ts) :
      Derived (.symbol "_json_member_value") ts := by
    rcases h with h | h
    · exact .oneOf (r := .symbol "_schema_value") (by repeat constructor) (by repeat constructor)
        (h.derived hinner)
    · exact h.derived
  unfold MemberTokens at h
  split at h
  · exact hvalue h
  · exact hvalue h
  · exact hvalue h
  · rcases h with ⟨l, hl, h⟩ | h
    · refine .oneOf (r := .symbol "field_list") (by repeat constructor) (by repeat constructor)
        (.symbol (by repeat constructor) (h.derived fun us hus => ?_))
      exact .renamed ((hinner l hl).object us hus)
    · exact h.derived
  · rcases h with ⟨l, hl, h⟩ | h
    · refine .oneOf (r := .symbol "symbol_list") (by repeat constructor) (by repeat constructor)
        (.symbol (by repeat constructor) (h.derived fun us hus => ?_))
      exact .renamed (string_derived hus)
    · exact h.derived
  · rcases h with ⟨l, hl, h⟩ | h
    · exact .oneOf (r := .symbol "type_list") (by repeat constructor) (by repeat constructor)
        (.symbol (by repeat constructor) (h.derived (hinner l hl).value))
    · exact h.derived
  · exact h.derived

theorem ObjectTokens.derived {text : List Char} (h : ObjectTokens text inner ts) :
    Derived (.symbol "_json_object") ts := by
  refine .symbol (by repeat constructor) (Enclosed.derived h fun us hus => ?_)
  obtain ⟨key, colon, vs, rfl, hkey, hcolon, hvs⟩ := hus
  have hstring : Derived (.field "key" (.symbol "string")) [key] :=
    .field (string_derived ⟨key, rfl, hkey⟩)
  have hmark : Derived (.mark .colon) [colon] := .one ⟨colon, rfl, hcolon⟩
  have hmember : Derived (.field "value" (.symbol "_json_member_value")) vs :=
    .field (hvs.derived hinner)
  exact .symbol (by repeat constructor) (hstring.seq (hmark.seq hmember.last))

end Derived

theorem tokenLevel_follows (text : List Char) : ∀ n, (tokenLevel text n).Follows
  | 0 => ⟨fun _ h => h.derived (by simp), fun _ h => h.derived (by simp)⟩
  | n + 1 => by
    have hinner : ∀ l, some (tokenLevel text n) = some l → l.Follows := by
      rintro _ ⟨⟩
      exact tokenLevel_follows text n
    exact ⟨fun _ h => h.derived hinner, fun _ h => h.derived hinner⟩

theorem schema_derived {text : List Char} {n : Nat} {ts : List Token}
    (h : (tokenLevel text n).value ts) :
    Derived (.symbol "schema") ts :=
  .symbol (by repeat constructor) ((tokenLevel_follows text n).value ts h)

end Schema

end Parse

end AvroTree
