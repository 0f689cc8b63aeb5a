import AvroTree.Proofs.Taking

/-!
# Parsers that follow rules

A parser that takes what a rule of Avro derives (`Derived`) is put together as the rule is: a
sequence of parsers for a sequence, a branch for a choice, a loop for a repetition.
-/

namespace AvroTree

open Token (Kind)
open Grammar (avro Derives)

namespace Grammar

variable {g : Grammar} {r : Rule} {ks ls : List Kind}

theorem Derives.manyAppend (h : g.Derives (.many r) ks) (h' : g.Derives (.many r) ls) :
    g.Derives (.many r) (ks ++ ls) := by
  generalize hm : Rule.many r = m at h
  induction h with
  | manyNil =>
    cases hm
    exact h'
  | manyCons hk _ _ ih =>
    cases hm
    rw [List.append_assoc]
    exact .manyCons hk (ih rfl)
  | _ => cases hm

theorem Derives.manyOne (h : g.Derives r ks) : g.Derives (.many r) ks := by
  have := Derives.manyCons h .manyNil
  rwa [List.append_nil] at this

theorem Derives.seqAppend {rs qs : List Rule} (h : g.Derives (.seq (rs ++ qs)) ks) :
    ∃ ls ms, ks = ls ++ ms ∧ g.Derives (.seq rs) ls ∧ g.Derives (.seq qs) ms := by
  induction rs generalizing ks with
  | nil => exact ⟨[], ks, rfl, .seqNil, h⟩
  | cons r rs ih =>
    cases h with
    | seqCons hr hs =>
      obtain ⟨ls, ms, rfl, hls, hms⟩ := ih hs
      exact ⟨_, ms, (List.append_assoc _ _ _).symm, .seqCons hr hls, hms⟩

theorem Derives.only (h : g.Derives (.seq [r]) ks) : g.Derives r ks := by
  cases h with
  | seqCons hr hs =>
    cases hs
    rwa [List.append_nil]

theorem avro_rule {name : String} (hr : (name, r) ∈ avro.rules) (h : avro.Derives r ks) :
    avro.Derives (.symbol name) ks :=
  .symbol (mem_bodies.2 hr) h

/-- Annotations in front of a type are part of it. -/
theorem avro_annotated (h : avro.Derives (.many (.symbol "annotation")) ks)
    (hl : avro.Derives (.symbol "_unannotated_type") ls) :
    avro.Derives (.symbol "_type") (ks ++ ls) := by
  generalize hm : Rule.many (.symbol "annotation") = m at h
  induction h with
  | manyNil =>
    exact avro_rule (by repeat constructor) (.choice (by repeat constructor) hl)
  | @manyCons _ ks' ls' hk _ _ ih =>
    cases hm
    have hs : avro.Derives (.seq [.symbol "annotation", .symbol "_type"])
        (ks' ++ ((ls' ++ ls) ++ [])) :=
      .seqCons hk (.seqCons (ih rfl) .seqNil)
    rw [List.append_nil, ← List.append_assoc] at hs
    exact avro_rule (by repeat constructor) (.choice (r := .symbol "_annotated_type")
      (by repeat constructor) (avro_rule (by repeat constructor) hs))
  | _ => cases hm

end Grammar

namespace Parse

open AvroTree.Parse.Parser
open Session (Faces Anywhere)

/-! ## Tokens that a rule derives -/

/-- The kinds of these tokens are what a rule of Avro derives. -/
def Derived (r : Rule) (ts : List Token) : Prop :=
  avro.Derives r (ts.map (·.kind))

namespace Derived

variable {name : String} {k : Kind} {r : Rule} {rs : List Rule} {ts us : List Token}

theorem one (h : One k ts) : Derived (.token k) ts := by
  obtain ⟨t, rfl, rfl⟩ := h
  exact .token _

theorem symbol (hr : (name, r) ∈ avro.rules) (h : Derived r ts) : Derived (.symbol name) ts :=
  Grammar.avro_rule hr h

theorem seq (h : Derived r ts) (hs : Derived (.seq rs) us) :
    Derived (.seq (r :: rs)) (ts ++ us) := by
  have := Derives.seqCons h hs
  rwa [← List.map_append] at this

theorem nil : Derived (.seq []) [] :=
  .seqNil

/-- The last member of a sequence. -/
theorem last (h : Derived r ts) : Derived (.seq [r]) ts := by
  have := h.seq nil
  rwa [List.append_nil] at this

theorem manyAppend (h : Derived (.many r) ts) (h' : Derived r us) :
    Derived (.many r) (ts ++ us) := by
  unfold Derived
  rw [List.map_append]
  exact Grammar.Derives.manyAppend h (.manyOne h')

theorem annotated (h : Derived (.many (.symbol "annotation")) ts)
    (hu : Derived (.symbol "_unannotated_type") us) : Derived (.symbol "_type") (ts ++ us) := by
  rw [Derived, List.map_append]
  exact Grammar.avro_annotated h hu

theorem choice (hr : r ∈ rs) (h : Derived r ts) : Derived (.choice rs) ts :=
  Derives.choice hr h

/-- One of the forms of a construct. -/
theorem oneOf (hname : (name, .choice rs) ∈ avro.rules) (hr : r ∈ rs) (h : Derived r ts) :
    Derived (.symbol name) ts :=
  symbol hname (h.choice hr)

theorem ne_nil {firsts : List Kind} (hname : (name, firsts) ∈ Grammar.constructs)
    (h : Derived (.symbol name) ts) : ts ≠ [] := by
  rintro rfl
  exact Grammar.ne_nil_of_derives hname h rfl

end Derived

variable {α β : Type} {cap : Nat} {text : List Char} {C : Session → Prop} {p : Parser α}
  {f : α → Parser β} {r : Rule} {rs : List Rule} {k : Kind}

namespace Parser

/-- The next token has been found to be of this kind. -/
def Next (k : Kind) (s : Session) : Prop :=
  ∃ wanted t, s.Faces wanted t ∧ t.kind = k

theorem Next.takes {D : α → Session → Prop} {L : α → List Token → Prop}
    (h : ∀ wanted t, t.kind = k → Takes cap text (Faces wanted t) p D L) :
    Takes cap text (Next k) p D L := by
  rintro s a s' hs ⟨wanted, t, hf, ht⟩ hr
  exact h wanted t ht s a s' hs hf hr

namespace Spends

theorem symbol {name : String} (hr : (name, r) ∈ avro.rules)
    (h : Spends cap text C p (Derived r)) : Spends cap text C p (Derived (.symbol name)) :=
  h.imp (fun _ h => h) (fun _ _ h => h) fun _ _ h => h.symbol hr

theorem seq (h : Spends cap text C p (Derived r))
    (hf : ∀ a, Spends cap text Anywhere (f a) (Derived (.seq rs))) :
    Spends cap text C (p >>= f) (Derived (.seq (r :: rs))) :=
  Takes.bind (h.imp (fun _ h => h) (fun _ _ _ => trivial) fun _ _ h => h) hf
    fun _ _ _ _ h hs => h.seq hs

theorem choice (hr : r ∈ rs) (h : Spends cap text C p (Derived r)) :
    Spends cap text C p (Derived (.choice rs)) :=
  h.imp (fun _ h => h) (fun _ _ h => h) fun _ _ h => h.choice hr

theorem from_ {C' : Session → Prop} {L : List Token → Prop} (h : Spends cap text C p L)
    (hC : ∀ s, C' s → C s) : Spends cap text C' p L :=
  h.imp hC (fun _ _ h => h) fun _ _ h => h

theorem field {name : String} (h : Spends cap text C p (Derived r)) :
    Spends cap text C p (Derived (.field name r)) :=
  h.imp (fun _ h => h) (fun _ _ h => h) fun _ _ h => .field h

theorem present (h : Spends cap text C p (Derived r)) :
    Spends cap text C p (Derived (.optional r)) :=
  h.imp (fun _ h => h) (fun _ _ h => h) fun _ _ h => .present h

theorem group {inner : List Rule} (h : Spends cap text C p (Derived (.seq (inner ++ rs)))) :
    Spends cap text C p (Derived (.seq (.seq inner :: rs))) := by
  refine h.imp (fun _ h => h) (fun _ _ h => h) fun _ ts hts => ?_
  obtain ⟨ls, ms, heq, hls, hms⟩ := Derives.seqAppend hts
  rw [Derived, heq]
  exact .seqCons hls hms

theorem absent (h : Spends cap text C p (Derived (.seq rs))) :
    Spends cap text C p (Derived (.seq (.optional r :: rs))) :=
  h.imp (fun _ h => h) (fun _ _ h => h) fun _ _ h => .seqCons .absent h

end Spends

theorem bump_one {kind : NodeKind} {field : Option String} (hk : k ≠ .eof) :
    Spends cap text (Next k) (bump kind field) (One k) := by
  refine Next.takes fun wanted t ht => (bump_takes kind field (ht ▸ hk)).imp (fun _ h => h)
    (fun _ _ _ => trivial) ?_
  rintro _ _ ⟨rfl, -⟩
  exact ⟨t, rfl, ht⟩

theorem bump_derived {kind : NodeKind} {field : Option String} (h : avro.Derives r [k])
    (hk : k ≠ .eof) : Spends cap text (Next k) (bump kind field) (Derived r) := by
  refine Next.takes fun wanted t ht => (bump_takes kind field (ht ▸ hk)).imp (fun _ h => h)
    (fun _ _ _ => trivial) ?_
  rintro _ _ ⟨rfl, -⟩
  rw [Derived, List.map_singleton, ht]
  exact h

theorem leaf_derived {kind : NodeKind} (h : avro.Derives r [k]) (hk : k ≠ .eof) :
    Spends cap text (Next k) (leaf kind) (Derived r) := by
  refine Next.takes fun wanted t ht => (leaf_takes kind (ht ▸ hk)).imp (fun _ h => h)
    (fun _ _ _ => trivial) ?_
  rintro _ _ ⟨rfl, -⟩
  rw [Derived, List.map_singleton, ht]
  exact h

theorem expect_derived {sync : TokenSet} {field : Option String} (h : avro.Derives r [k])
    (hk : k.isMeant) :
    Spends cap text C (expect sync k field) (Derived r) := by
  refine (expect_spends sync field hk).imp (fun _ h => h) (fun _ _ h => h) ?_
  rintro _ _ ⟨t, rfl, rfl⟩
  exact h

/-- Nothing is said about what is taken. -/
theorem Spends.anything {L : List Token → Prop} (h : Spends cap text C p L) :
    Spends cap text C p fun _ => True :=
  h.imp (fun _ h => h) (fun _ _ h => h) fun _ _ _ => trivial

theorem Spends.only (h : Spends cap text C p (Derived (.seq [r]))) :
    Spends cap text C p (Derived r) :=
  h.imp (fun _ h => h) (fun _ _ h => h) fun _ _ h => Derives.only h

theorem pure_derived {a : α} : Spends cap text C (pure a) (Derived (.seq [])) := by
  refine (pure_spends a).imp (fun _ h => h) (fun _ _ h => h) ?_
  rintro _ _ rfl
  exact .nil

theorem branch_derived {kind : NodeKind} {ns : List Node} :
    Spends cap text C (branch kind ns) (Derived (.seq [])) := by
  refine (branch_takes kind ns).imp (fun _ h => h) (fun _ _ _ => trivial) ?_
  rintro _ _ rfl
  exact .nil

theorem derives_leaf {name : String} (hr : (name, .token k) ∈ avro.rules) :
    avro.Derives (.symbol name) [k] :=
  Grammar.avro_rule hr (.token k)

/-- The parts that a loop has read one by one. -/
theorem gather_many {step : Array Node → Parser (Bool × Array Node)} {first : List Node}
    (hstep : ∀ nodes, Takes cap text Anywhere (step nodes) (fun _ _ => True) fun a us =>
      if a.1 then us ≠ [] ∧ Derived r us else us = []) :
    Spends cap text C (gather step first) (Derived (.many r)) := by
  refine gather_takes (fun _ => Derived (.many r)) (fun _ => Derived (.many r)) first
    (fun nodes => (hstep nodes).imp (fun _ h => h) (fun _ _ h => h) ?_) .manyNil
  rintro ⟨go, nodes⟩ us hus ts hts
  cases go with
  | true => exact ⟨hus.1, hts.manyAppend hus.2⟩
  | false =>
    obtain rfl : us = [] := hus
    rwa [List.append_nil]

/-- What may be left out is read if its first token is there. -/
theorem optional_derived {p q : Parser α}
    (hp : Spends cap text (Next k) p (Derived (.seq (r :: rs))))
    (hq : Spends cap text Anywhere q (Derived (.seq rs))) :
    Spends cap text C (do if ← nextIs k then p else q) (Derived (.seq (.optional r :: rs))) := by
  refine (nextIs_takes k).after fun b => ?_
  cases b with
  | true =>
    refine hp.imp (fun s h => ⟨_, h rfl⟩) (fun _ _ h => h) fun _ ts hts => ?_
    obtain ⟨ls, ms, heq, hls, hms⟩ := @Derives.seqAppend _ _ [r] _ hts
    rw [Derived, heq]
    exact .seqCons (.present hls.only) hms
  | false => exact (hq.from_ fun _ _ => trivial).absent

/-- One of two parts is read, by whether the first token of one is there. -/
theorem either_derived {p q : Parser α} {f : α → Parser β}
    (hp : Spends cap text (Next k) p (Derived r)) (hq : Spends cap text Anywhere q (Derived r))
    (hf : ∀ a, Spends cap text Anywhere (f a) (Derived (.seq rs))) :
    Spends cap text C (do if ← nextIs k then p >>= f else q >>= f) (Derived (.seq (r :: rs))) := by
  refine (nextIs_takes k).after fun b => ?_
  cases b with
  | true => exact (hp.from_ fun s h => ⟨_, h rfl⟩).seq hf
  | false => exact (hq.from_ fun _ _ => trivial).seq hf

/-- Behind an opening mark, which has been complained about when it is missing. -/
theorem opened_derived {sync : TokenSet} {field : Option String} {p : Bool × List Node → Parser α}
    (hk : k.isMeant)
    (hp : ∀ opening, Spends cap text Anywhere (p (true, opening)) (Derived (.seq rs)))
    (hq : ∀ opening, Spends cap text Anywhere (p (false, opening)) fun _ => True) :
    Spends cap text C (expect? sync k field >>= p) (Derived (.seq (.token k :: rs))) := by
  refine (expect?_takes sync field hk).bind
    (M := fun r _ ts => r.1 = true → Derived (.seq rs) ts) ?_ ?_
  · rintro ⟨opened, opening⟩
    cases opened with
    | true => exact (hp opening).imp (fun _ _ => trivial) (fun _ _ h => h) fun _ _ h _ => h
    | false => exact (hq opening).imp (fun _ _ => trivial) (fun _ _ h => h) fun _ _ _ => nofun
  · rintro r _ ts us ⟨hr, hts⟩ hus
    exact (Derived.one hts).seq (hus hr)

/-! ## Lists -/

theorem Separated.derived {ts : List Token} (h : Separated (Derived r) ts) :
    ∃ us vs, ts = us ++ vs ∧ Derived r us ∧ Derived (.many (.seq [.mark .comma, r])) vs := by
  induction h with
  | one h => exact ⟨_, [], (List.append_nil _).symm, h, .manyNil⟩
  | @more _ ws comma _ hc hw ih =>
    obtain ⟨us, vs, rfl, hus, hvs⟩ := ih
    have hcomma : Derived (.mark .comma) [comma] := .one ⟨comma, rfl, hc⟩
    exact ⟨us, vs ++ ([comma] ++ ws), by simp, hus, hvs.manyAppend (hcomma.seq hw.last)⟩

/-- The rule of the elements of a list. -/
def elements (trailing : Bool) (r : Rule) : Rule :=
  if trailing then .commasTrailing r else .commas r

theorem Listed.derived {close : Punct} {trailing : Bool} {ts : List Token}
    (h : Listed close trailing (Derived r) ts) :
    Derived (.seq [elements trailing r, .mark close]) ts := by
  have hclose {t : Token} (h : t.kind = .punct close) : Derived (.seq [.mark close]) [t] :=
    .last (.one ⟨t, rfl, h⟩)
  cases h with
  | empty ht =>
    have hnone : Derived (elements trailing r) [] := by
      unfold elements
      split <;> exact .absent
    exact hnone.seq (hclose ht)
  | plain hsep ht =>
    obtain ⟨us, vs, rfl, hus, hvs⟩ := hsep.derived
    refine Derived.seq ?_ (hclose ht)
    unfold elements
    split
    · have hnone : Derived (.optional (.mark .comma)) [] := .absent
      have := hus.seq (hvs.seq hnone.last)
      rw [List.append_nil] at this
      exact .present this
    · exact .present (hus.seq hvs.last)
  | @trailing ts comma t htrailing hsep hc ht =>
    obtain ⟨us, vs, rfl, hus, hvs⟩ := hsep.derived
    have hcomma : Derived (.optional (.mark .comma)) [comma] :=
      .present (Derived.one ⟨comma, rfl, hc⟩)
    refine Derived.seq ?_ (hclose ht)
    rw [elements, if_pos htrailing, List.append_assoc]
    exact .present (hus.seq (hvs.seq hcomma.last))

theorem list_derived {sync : TokenSet} {form : ListForm} {element : TokenSet → Parser (List Node)}
    (h : ∀ sync, Spends cap text (Offers form.first) (element sync) (Derived r))
    (hne : ∀ ts, Derived r ts → ts ≠ []) :
    Spends cap text C (list sync form element)
      (Derived (.seq [elements form.trailing r, .mark form.close])) :=
  (list_spends h hne).imp (fun _ h => h) (fun _ _ h => h) fun _ _ h => h.derived

end Parser

end Parse

end AvroTree
