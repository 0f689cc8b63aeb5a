import AvroTree.Proofs.SchemaMirroring
import AvroTree.Proofs.Spacing

/-!
# Trees that are alike

Two trees over different texts are alike when they have the same shape and the same labels and are
written with the same words where words say what an object declares (`Resembles`). Then they have
the same short form, and an object over alike members declares the same.

What an object declares is the text of a node, and where this node starts is known only of whole
trees. So while two trees are made side by side it is left open what their objects declare
(`Matches`); if the trees are in order in the end, they are alike (`Matches.resembles`).
-/

namespace AvroTree

open Token (Kind)

namespace Parse

/-- The text a node covers. -/
def covered (text : List Char) (n : Node) : List Char :=
  (Text.slice? text n.span.start.byte n.span.stop.byte).getD []

/-- The node starts with the character `c`. -/
def Opens (text : List Char) (n : Node) (c : Char) : Prop :=
  ((Text.dropBytes? text n.span.start.byte).getD []).head? = some c

/-- No name: nothing, an object or a comment. -/
def Nameless (cs : List Char) : Prop :=
  ∀ c ∈ cs.head?, c = '{' ∨ c = '/'

/-- Both nodes tell the same about the object around them. -/
def TellsSame (text text' : List Char) (n n' : Node) : Prop :=
  covered text' n' = covered text n ∨ Nameless (covered text n) ∧ Nameless (covered text' n')

/-- A node covers no name that starts like an object or a comment. -/
theorem nameless_of_opens {text : List Char} {n : Node} {c : Char} (hc : c = '{' ∨ c = '/')
    (h : Opens text n c) :
    Nameless (covered text n) := by
  unfold Opens at h
  unfold covered Text.slice?
  intro d hd
  split at hd
  · cases hdrop : Text.dropBytes? text n.span.start.byte with
    | none => simp [hdrop] at hd
    | some tail =>
      rw [hdrop, Option.getD_some] at h
      obtain ⟨out, hout, -⟩ := Text.takeBytes_prefix tail (n.span.stop.byte - n.span.start.byte)
      simp only [hdrop] at hd
      generalize Text.takeBytes tail (n.span.stop.byte - n.span.start.byte) = cs at hd hout
      cases hstop : Text.dropBytes? tail (n.span.stop.byte - n.span.start.byte) with
      | none => simp [hstop] at hd
      | some _ =>
        simp only [hstop, Option.map_some, Option.getD_some] at hd
        cases cs with
        | nil => cases hd
        | cons e cs =>
          rw [hout] at h
          cases h
          cases hd
          exact hc
  · cases hd

/-- Nodes of the same shape, labels and names over two texts. -/
inductive Resembles (text text' : List Char) : Node → Node → Prop
  | mk {n n' : Node} (kind : n'.kind = n.kind) (field : n'.field = n.field)
      (isMissing : n'.isMissing = n.isMissing)
      (children : List.Forall₂ (Resembles text text') n.children n'.children)
      (extra : n.isExtra → Opens text n '/' ∧ Opens text' n' '/')
      (tells : n.kind.names → TellsSame text text' n n') : Resembles text text' n n'

namespace Resembles

variable {text text' : List Char} {n n' : Node} {ns ns' : List Node}

theorem kind_eq : Resembles text text' n n' → n'.kind = n.kind
  | .mk kind .. => kind

theorem field_eq : Resembles text text' n n' → n'.field = n.field
  | .mk _ field .. => field

theorem isMissing_eq : Resembles text text' n n' → n'.isMissing = n.isMissing
  | .mk _ _ isMissing .. => isMissing

theorem children :
    Resembles text text' n n' → List.Forall₂ (Resembles text text') n.children n'.children
  | .mk _ _ _ children .. => children

theorem extra : Resembles text text' n n' → n.isExtra → Opens text n '/' ∧ Opens text' n' '/'
  | .mk _ _ _ _ extra _ => extra

theorem tells : Resembles text text' n n' → n.kind.names → TellsSame text text' n n'
  | .mk _ _ _ _ _ tells => tells

/-! ## The short form -/

mutual

theorem sexp_eq : ∀ (n n' : Node), Resembles text text' n n' → n'.sexp = n.sexp
  | ⟨kind, span, field, children, isExtra, isMissing⟩,
    ⟨kind', span', field', children', e', m'⟩, h => by
    have hlist := sexpList_eq children children' h.children
    obtain rfl : kind' = kind := h.kind_eq
    obtain rfl : m' = isMissing := h.isMissing_eq
    rw [Node.sexp, Node.sexp, hlist]

theorem sexpList_eq : ∀ ns ns' : List Node, List.Forall₂ (Resembles text text') ns ns' →
    Node.sexpList ns' = Node.sexpList ns
  | [], [], _ => rfl
  | [], _ :: _, h => nomatch h
  | _ :: _, [], h => nomatch h
  | n :: ns, n' :: ns', h => by
    obtain ⟨hn, hns⟩ := List.forall₂_cons.1 h
    have hlist := sexpList_eq ns ns' hns
    have hsexp := sexp_eq n n' hn
    rw [Node.sexpList, Node.sexpList, hlist, hsexp, hn.field_eq, hn.isMissing_eq, Node.isNamed,
      Node.isNamed, hn.kind_eq]

end

/-! ## What objects declare -/

theorem any_eq {f : Node → Bool} (hf : ∀ n n', Resembles text text' n n' → f n' = f n)
    (h : List.Forall₂ (Resembles text text') ns ns') : ns'.any f = ns.any f := by
  induction h with
  | nil => rfl
  | cons hn _ ih => rw [List.any_cons, List.any_cons, hf _ _ hn, ih]

theorem find?_rel {f : Node → Bool} (hf : ∀ n n', Resembles text text' n n' → f n' = f n)
    (h : List.Forall₂ (Resembles text text') ns ns') :
    Option.Rel (Resembles text text') (ns.find? f) (ns'.find? f) := by
  induction h with
  | nil => exact .none
  | cons hn _ ih =>
    rw [List.find?_cons, List.find?_cons, hf _ _ hn]
    split
    · exact .some hn
    · exact ih

/-- A word that is none of a language: it starts with neither a brace nor a slash. -/
theorem ofList_ne {cs : List Char} (h : Nameless cs) {word : String} {c : Char}
    (hc : word.toList.head? = some c) (hbrace : c ≠ '{') (hslash : c ≠ '/') :
    String.ofList cs ≠ word := by
  rintro rfl
  rw [String.toList_ofList] at hc
  exact (h c hc).elim hbrace hslash

theorem isPrimitiveName_nameless {cs : List Char} (h : Nameless cs) :
    Schema.isPrimitiveName (String.ofList cs) = false := by
  unfold Schema.isPrimitiveName
  cases hw : Keyword.ofSpelling? (String.ofList cs) with
  | none => rfl
  | some w =>
    have hspelling : w.spelling = String.ofList cs := by simpa using List.find?_some hw
    obtain ⟨hne, hall⟩ := Spells.keyword_letters w
    obtain ⟨c, word, hword⟩ := List.exists_cons_of_ne_nil hne
    rw [hword, List.all_cons, Bool.and_eq_true] at hall
    have hother {d : Char} (hd : Spells.letters.contains d = false) : c ≠ d := by
      rintro rfl
      rw [hall.1] at hd
      cases hd
    exact absurd hspelling.symm
      (ofList_ne h (by rw [hword]; rfl) (hother (by decide)) (hother (by decide)))

/-- An object whose declared type is no name declares nothing. -/
theorem objectKind_nameless {source cs : List Char}
    (hprotocol : (ns.any fun m => m.kind == .jsonPair && m.field == some "protocol") = false)
    (hlogical : (ns.any fun m => m.kind == .jsonPair && m.field == some "logicalType") = false)
    (hname : Schema.typeName? source ns = some (String.ofList cs)) (h : Nameless cs) :
    Schema.objectKind source ns = .jsonObject := by
  have hword {word : String} {c : Char} (hc : word.toList.head? = some c) (hbrace : c ≠ '{')
      (hslash : c ≠ '/') (he : String.ofList cs = word) : False :=
    ofList_ne h hc hbrace hslash he
  unfold Schema.objectKind
  simp only [hprotocol, hlogical, hname, Bool.false_eq_true, ↓reduceIte]
  split <;> rename_i heq
  case h_7 =>
    rw [← Option.some.inj heq, isPrimitiveName_nameless h]
    rfl
  case h_8 => rfl
  all_goals exact (hword rfl (by decide) (by decide) (Option.some.inj heq)).elim

/-- The declared types of two objects are written alike, or neither is a name. -/
theorem typeName?_cases (h : List.Forall₂ (Resembles text text') ns ns') :
    Schema.typeName? text' ns' = Schema.typeName? text ns
      ∨ ∃ cs cs', Nameless cs ∧ Nameless cs' ∧ Schema.typeName? text ns = some (String.ofList cs)
        ∧ Schema.typeName? text' ns' = some (String.ofList cs') := by
  unfold Schema.typeName?
  have hpair := find?_rel (f := fun m => m.field == some "type")
    (fun n n' hn => by rw [hn.field_eq]) h
  generalize ns.find? (fun m => m.field == some "type") = a at hpair
  generalize ns'.find? (fun m => m.field == some "type") = b at hpair
  cases hpair with
  | none => exact .inl rfl
  | @some pair pair' hpair =>
    have hvalue : Option.Rel (Resembles text text') (pair.childNamed? "value")
        (pair'.childNamed? "value") :=
      find?_rel (fun n n' hn => by rw [hn.field_eq]) hpair.children
    simp only [Option.bind_eq_bind, Option.bind_some]
    generalize pair.childNamed? "value" = a at hvalue
    generalize pair'.childNamed? "value" = b at hvalue
    cases hvalue with
    | none => exact .inl rfl
    | @some value value' hvalue =>
      simp only [Option.bind_some, hvalue.kind_eq]
      by_cases hkind : value.kind = .jsonValue ∨ value.kind = .primitiveType
      · have hnames : value.kind.names := by
          rcases hkind with hk | hk <;> rw [hk] <;> rfl
        have hunquoted {cs : List Char} (h : Nameless cs) : Schema.unquote cs = cs := by
          unfold Schema.unquote
          split
          · exact absurd (h '"' rfl) (by decide)
          · rfl
        rw [if_pos hkind, if_pos hkind]
        rcases hvalue.tells hnames with hsame | ⟨hless, hless'⟩
        · refine .inl ?_
          show some (String.ofList (Schema.unquote (covered text' value'))) = _
          rw [hsame]
          rfl
        · refine .inr ⟨covered text value, covered text' value', hless, hless', ?_, ?_⟩
          · show some (String.ofList (Schema.unquote (covered text value))) = _
            rw [hunquoted hless]
          · show some (String.ofList (Schema.unquote (covered text' value'))) = _
            rw [hunquoted hless']
      · rw [if_neg hkind, if_neg hkind]
        exact .inl rfl

/-- Objects over alike members declare the same. -/
theorem objectKind_eq (h : List.Forall₂ (Resembles text text') ns ns') :
    Schema.objectKind text' ns' = Schema.objectKind text ns := by
  have hhas (key : String) : (ns'.any fun m => m.kind == .jsonPair && m.field == some key)
      = ns.any fun m => m.kind == .jsonPair && m.field == some key :=
    any_eq (fun n n' hn => by rw [hn.kind_eq, hn.field_eq]) h
  rcases typeName?_cases h with hname | ⟨cs, cs', hcs, hcs', hname, hname'⟩
  · unfold Schema.objectKind
    simp only [hhas, hname]
  cases hprotocol : ns.any fun m => m.kind == .jsonPair && m.field == some "protocol" with
  | true =>
    unfold Schema.objectKind
    simp only [hhas, hprotocol, ↓reduceIte]
  | false =>
    cases hlogical : ns.any fun m => m.kind == .jsonPair && m.field == some "logicalType" with
    | true =>
      unfold Schema.objectKind
      simp only [hhas, hprotocol, hlogical, ↓reduceIte]
    | false =>
      rw [objectKind_nameless hprotocol hlogical hname hcs, objectKind_nameless
        ((hhas _).trans hprotocol) ((hhas _).trans hlogical) hname' hcs']

end Resembles

/-! ## Trees in the making -/

/-- An object as it is made: what it declares is said by its members, and it starts with its brace
or a comment. -/
structure IsObject (text : List Char) (n : Node) : Prop where
  kind : n.kind = Schema.objectKind text n.children
  opens : ∃ m c, n.children.head? = some m ∧ Opens text m c ∧ (c = '{' ∨ c = '/')

/-- Nodes of the same shape and labels over two texts. What objects declare is left open. -/
inductive Matches (text text' : List Char) : Node → Node → Prop
  | mk {n n' : Node} (kind : n'.kind = n.kind ∧ (n.kind.names → TellsSame text text' n n')
      ∨ IsObject text n ∧ IsObject text' n') (field : n'.field = n.field)
      (isMissing : n'.isMissing = n.isMissing)
      (children : List.Forall₂ (Matches text text') n.children n'.children)
      (extra : n.isExtra → Opens text n '/' ∧ Opens text' n' '/') : Matches text text' n n'

namespace Matches

variable {text text' : List Char} {n n' : Node} {ns ns' : List Node}

theorem leaf {t t' : Token} (kind : NodeKind) (h : Twins text text' t t') :
    Matches text text' (.leaf kind t) (.leaf kind t') := by
  have hopens (hextra : t.kind.isExtra) :
      Opens text (.leaf kind t) '/' ∧ Opens text' (.leaf kind t') '/' :=
    ⟨h.comment hextra, h.head.trans (h.comment hextra)⟩
  refine .mk (.inl ⟨rfl, fun _ => ?_⟩) rfl rfl .nil hopens
  cases hextra : t.kind.isExtra with
  | true => exact .inr ⟨nameless_of_opens (.inr rfl) (hopens hextra).1,
      nameless_of_opens (.inr rfl) (hopens hextra).2⟩
  | false => exact .inl (h.spelled hextra)

theorem label (h : Matches text text' n n') (field : Option String) :
    Matches text text' (n.label field) (n'.label field) := by
  cases field with
  | none => exact h
  | some f =>
    cases h with
    | mk kind _ isMissing children extra =>
      refine .mk (kind.imp_right ?_) rfl isMissing children extra
      exact fun ⟨⟨hkind, hopens⟩, ⟨hkind', hopens'⟩⟩ => ⟨⟨hkind, hopens⟩, ⟨hkind', hopens'⟩⟩

theorem missing (kind : NodeKind) (l l' : Location) :
    Matches text text' (.missing kind l) (.missing kind l') := by
  refine .mk (.inl ⟨rfl, fun _ => .inl ?_⟩) rfl rfl .nil fun h => nomatch h
  have hempty (text : List Char) (l : Location) : covered text (.missing kind l) = [] := by
    show (Text.slice? text l.byte l.byte).getD [] = []
    rw [Text.slice?, if_pos le_rfl, Nat.sub_self]
    cases Text.dropBytes? text l.byte with
    | none => rfl
    | some tail =>
      have hnone : Text.takeBytes tail 0 = [] := Text.takeBytes_append [] tail
      cases hdrop : Text.dropBytes? tail 0 with
      | none => simp only [hdrop, Option.map_none, Option.getD_none]
      | some _ => simp only [hdrop, Option.map_some, Option.getD_some, hnone]
  rw [hempty, hempty]

theorem branch {kind : NodeKind} (hkind : kind.names = false) (l l' : Location)
    (h : List.Forall₂ (Matches text text') ns ns') :
    Matches text text' (.branch kind ns l) (.branch kind ns' l') := by
  refine .mk (.inl ⟨rfl, fun hnames => ?_⟩) rfl rfl h fun h => nomatch h
  rw [show (Node.branch kind ns l).kind = kind from rfl, hkind] at hnames
  cases hnames

/-- Objects over matching members that come behind an opening brace match. -/
theorem object {extras extras' : List Node} {t t' : Token} (l l' : Location)
    (hcomments : ∀ n ∈ extras, n.isExtra) (hk : t.kind = .punct .lBrace)
    (hextras : List.Forall₂ (Matches text text') extras extras') (ht : Twins text text' t t')
    (hns : List.Forall₂ (Matches text text') ns ns') :
    let opening := extras ++ [.leaf (.token (.punct .lBrace)) t]
    let opening' := extras' ++ [.leaf (.token (.punct .lBrace)) t']
    Matches text text' (.branch (Schema.objectKind text (opening ++ ns)) (opening ++ ns) l)
      (.branch (Schema.objectKind text' (opening' ++ ns')) (opening' ++ ns') l') := by
  intro opening opening'
  have hbrace := ht.brace hk
  refine .mk (.inr ⟨⟨rfl, ?_⟩, ⟨rfl, ?_⟩⟩) rfl rfl
    (List.rel_append (List.rel_append hextras (.cons (leaf _ ht) .nil)) hns) fun h => nomatch h
  all_goals
    cases hextras with
    | nil => exact ⟨_, '{', rfl, by first | exact hbrace | exact ht.head.trans hbrace, .inl rfl⟩
    | cons hn _ =>
      cases hn with
      | mk _ _ _ _ extra =>
        obtain ⟨hopens, hopens'⟩ := extra (hcomments _ List.mem_cons_self)
        exact ⟨_, '/', rfl, by assumption, .inr rfl⟩

end Matches

/-- An object in order covers no name. -/
theorem IsObject.nameless {text : List Char} {n : Node} (h : IsObject text n)
    (hn : n.checkHere = .ok ()) : Nameless (covered text n) := by
  obtain ⟨m, c, hm, hopens, hc⟩ := h.opens
  refine nameless_of_opens hc ?_
  have hspans : n.spans := by
    unfold Node.checkHere at hn
    split at hn
    · assumption
    · cases hn
  have hstart : n.span.start.byte = m.span.start.byte := by
    rw [Node.spans, hm] at hspans
    cases hlast : n.children.getLast? with
    | none =>
      rw [List.getLast?_eq_none_iff] at hlast
      rw [hlast] at hm
      cases hm
    | some last =>
      rw [hlast, Bool.and_eq_true, beq_iff_eq] at hspans
      exact hspans.1.symm
  unfold Opens at hopens ⊢
  rwa [hstart]

theorem seq_ok {a b : Except Diagnostic Unit} (h : (do a; b) = .ok ()) :
    a = .ok () ∧ b = .ok () := by
  cases a with
  | error d => cases h
  | ok u => exact ⟨rfl, h⟩

mutual

/-- Matching trees that are in order are alike. -/
theorem Matches.resembles {text text' : List Char} : ∀ (n n' : Node), Matches text text' n n' →
    n.check = .ok () → n'.check = .ok () → Resembles text text' n n'
  | ⟨kind, span, field, children, isExtra, isMissing⟩,
      ⟨kind', span', field', children', isExtra', isMissing'⟩, h, hn, hn' => by
    rw [Node.check] at hn hn'
    obtain ⟨hhere, hrest⟩ := seq_ok hn
    obtain ⟨hhere', hrest'⟩ := seq_ok hn'
    cases h with
    | mk hkind hfield hmissing hchildren hextra =>
      have hall := Matches.resembles_all children children' hchildren hrest hrest'
      rcases hkind with ⟨hkind, htells⟩ | ⟨hobject, hobject'⟩
      · exact .mk hkind hfield hmissing hall hextra htells
      · refine .mk ?_ hfield hmissing hall hextra fun _ =>
          .inr ⟨hobject.nameless hhere, hobject'.nameless hhere'⟩
        rw [hobject.kind, hobject'.kind, Resembles.objectKind_eq hall]

theorem Matches.resembles_all {text text' : List Char} : ∀ ns ns' : List Node,
    List.Forall₂ (Matches text text') ns ns' → Node.checkAll ns = .ok () →
    Node.checkAll ns' = .ok () → List.Forall₂ (Resembles text text') ns ns'
  | [], [], _, _, _ => .nil
  | [], _ :: _, h, _, _ => nomatch h
  | _ :: _, [], h, _, _ => nomatch h
  | n :: ns, n' :: ns', h, hn, hn' => by
    obtain ⟨hhead, htail⟩ := List.forall₂_cons.1 h
    rw [Node.checkAll] at hn hn'
    obtain ⟨hfirst, hrest⟩ := seq_ok hn
    obtain ⟨hfirst', hrest'⟩ := seq_ok hn'
    exact .cons (Matches.resembles n n' hhead hfirst hfirst')
      (Matches.resembles_all ns ns' htail hrest hrest')

end

end Parse

end AvroTree
