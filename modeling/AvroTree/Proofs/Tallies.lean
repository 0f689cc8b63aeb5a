import AvroTree.Proofs.Deriving

/-!
# What is wrong, in a tree and in a session

While a text is read, errors and missing nodes come into the tree together with complaints
(`Session.Tally`): a missing node with a complaint that something is missing, an error with a
complaint of some kind. Between a complaint and the node that it is about the nodes read so far are
taken for what will become of them, so each move of a parser can be looked at by itself.
-/

namespace AvroTree

open Token (Kind)

namespace Node

/-! ## What is wrong with nodes -/

/-- How many nodes of a tree stand for something absent. -/
def lacking (n : Node) : Nat :=
  n.descendants.countP isMissing

/-- How many nodes of some trees stand for something absent. -/
def absences (ns : List Node) : Nat :=
  (forest ns).countP isMissing

@[simp] theorem absences_nil : absences [] = 0 :=
  rfl

@[simp] theorem absences_cons (n : Node) (ns : List Node) :
    absences (n :: ns) = n.lacking + absences ns := by
  simp [absences, lacking, forest]

@[simp] theorem absences_append (a b : List Node) :
    absences (a ++ b) = absences a + absences b := by
  simp [absences, forest_append]

@[simp] theorem lacking_leaf (kind : NodeKind) (t : Token) : (leaf kind t).lacking = 0 :=
  rfl

@[simp] theorem lacking_missing (kind : NodeKind) (l : Location) : (missing kind l).lacking = 1 :=
  rfl

@[simp] theorem lacking_branch (kind : NodeKind) (ns : List Node) (l : Location) :
    (branch kind ns l).lacking = absences ns := by
  simp [lacking, absences, branch, descendants]

@[simp] theorem lacking_label (f : Option String) (n : Node) : (n.label f).lacking = n.lacking := by
  cases f <;> cases n <;> simp [lacking, label, descendants, List.countP_cons]

attribute [simp] anyError

@[simp] theorem anyError_append (a b : List Node) :
    anyError (a ++ b) = (anyError a || anyError b) := by
  induction a with
  | nil => simp
  | cons n a ih => simp [ih, Bool.or_assoc]

@[simp] theorem hasError_leaf (kind : NodeKind) (t : Token) :
    (leaf kind t).hasError = (kind == .error) := by
  simp [leaf, hasError]

@[simp] theorem hasError_missing (kind : NodeKind) (l : Location) :
    (missing kind l).hasError = true := by
  simp [missing, hasError]

@[simp] theorem hasError_branch (kind : NodeKind) (ns : List Node) (l : Location) :
    (branch kind ns l).hasError = (kind == .error || anyError ns) := by
  simp [branch, hasError]

@[simp] theorem hasError_label (f : Option String) (n : Node) :
    (n.label f).hasError = n.hasError := by
  cases f <;> cases n <;> simp [label, hasError]

/-- As much is wrong with some nodes as with others. -/
def Even (ns ms : List Node) : Prop :=
  absences ns = absences ms ∧ anyError ns = anyError ms

theorem Even.refl (ns : List Node) : Even ns ns :=
  ⟨rfl, rfl⟩

/-- A node in a row is wrapped. -/
theorem absences_set {ns : List Node} {i : Nat} {n : Node} (h : ns[i]? = some n) (kind : NodeKind)
    (l : Location) : absences (ns.set i (.branch kind [n] l)) = absences ns := by
  obtain ⟨hi, rfl⟩ := List.getElem?_eq_some_iff.1 h
  rw [List.set_eq_take_append_cons_drop, if_pos hi]
  conv_rhs => rw [← List.take_append_drop i ns, ← List.cons_getElem_drop_succ (h := hi)]
  simp only [absences_append, absences_cons, lacking_branch, absences_nil, Nat.add_zero]

/-- A node in a row is wrapped into an error. -/
theorem anyError_set {ns : List Node} {i : Nat} {n : Node} (h : ns[i]? = some n) (l : Location) :
    anyError (ns.set i (.branch .error [n] l)) = true := by
  obtain ⟨hi, rfl⟩ := List.getElem?_eq_some_iff.1 h
  rw [List.set_eq_take_append_cons_drop, if_pos hi, anyError_append]
  simp

end Node

open Node (absences anyError Even)

/-- The complaint is that something is missing. -/
def Diagnostic.isAbsence (d : Diagnostic) : Bool :=
  "missing ".toList.isPrefixOf d.message.toList

theorem Diagnostic.isAbsence_syntactic (message : String) (l : Location) :
    (syntactic message l).isAbsence = "missing ".toList.isPrefixOf message.toList :=
  rfl

theorem NodeKind.ofToken_error (k : Kind) : (NodeKind.ofToken k == .error) = k.isError := by
  cases k <;> rfl

namespace Parse

namespace Session

/-- How many complaints are that something is missing. -/
def lacking (s : Session) : Nat :=
  s.syntactic.toList.countP Diagnostic.isAbsence

/-- Nothing is wrong with the comments that wait for a place, and each error token that was taken
has been complained about. Complaints are kept with others of their category. -/
structure Tidy (s : Session) : Prop where
  extras : Even s.extras.toList []
  size : s.lexical.size = s.log.toList.countP fun t => t.token.kind.isError
  lexical : ∀ d ∈ s.lexical.toList, d.category = .lexical
  syntactic : ∀ d ∈ s.syntactic.toList, d.category = .syntactic

/-- What is wrong with the nodes `ns` has been complained about between `o` and `s`. -/
structure Tally (o : Session) (ns : List Node) (s : Session) : Prop where
  tidy : s.Tidy
  lacking : o.lacking + absences ns = s.lacking
  le : o.faults ≤ s.faults
  faults : anyError ns ↔ o.faults < s.faults

variable {cap : Nat} {text : List Char} {o s s' : Session} {ns ms : List Node} {la : Lookahead}

theorem Tally.even (h : Tally o ns s) (he : Even ns ms) : Tally o ms s :=
  ⟨h.tidy, by rw [← he.1, h.lacking], h.le, by rw [← he.2, h.faults]⟩

theorem Tally.refl (h : s.Tidy) : Tally s [] s :=
  ⟨h, rfl, le_rfl, by simp⟩

theorem lexical_commit (s : Session) (la : Lookahead) :
    (s.commit la).lexical.size
      = s.lexical.size + if la.scanned.token.kind.isError then 1 else 0 := by
  unfold commit lexicalComplaint?
  cases hk : la.scanned.token.kind <;> simp [Kind.isError, hk]

theorem log_commit (s : Session) (la : Lookahead) :
    (s.commit la).log.toList.countP (fun t => t.token.kind.isError)
      = s.log.toList.countP (fun t => t.token.kind.isError)
        + if la.scanned.token.kind.isError then 1 else 0 := by
  simp [commit, List.countP_append, List.countP_cons]

theorem Tidy.commit (h : s.Tidy) (la : Lookahead) : (s.commit la).Tidy := by
  refine ⟨h.extras, by rw [lexical_commit, log_commit, h.size], fun d hd => ?_, h.syntactic⟩
  unfold Session.commit lexicalComplaint? at hd
  cases hk : la.scanned.token.kind with
  | error e =>
    simp only [hk, Array.toList_push, List.mem_append, List.mem_singleton] at hd
    rcases hd with hd | rfl
    · exact h.lexical d hd
    · rfl
  | _ =>
    simp only [hk] at hd
    exact h.lexical d hd

/-- A leaf is an error just if its token is one. -/
theorem Tally.commit (h : Tally o ns s) {kind : NodeKind}
    (hk : (kind == .error) = la.scanned.token.kind.isError) :
    Tally o (ns ++ [.leaf kind la.scanned.token]) (s.commit la) := by
  have hfaults := faults_commit s la
  have hle := h.le
  refine ⟨h.tidy.commit la, ?_, by omega, ?_⟩
  · rw [Node.absences_append, Node.absences_cons, Node.lacking_leaf]
    exact h.lacking
  · simp only [Node.anyError_append, anyError, Node.hasError_leaf, hk, Bool.or_false,
      Bool.or_eq_true,
      h.faults, hfaults]
    cases la.scanned.token.kind.isError
    · simp
    · simp only [or_true, ↓reduceIte, true_iff]
      omega

theorem Tally.takeComment (h : Tally o ns s) {valid : TokenSet}
    (hk : (s.scan valid).scanned.token.kind.isExtra) : Tally o ns (s.takeComment valid) := by
  have herror : (s.scan valid).scanned.token.kind.isError = false := by
    cases hc : (s.scan valid).scanned.token.kind <;> simp_all [Kind.isExtra, Kind.isError]
  have hkind := NodeKind.ofToken_error (s.scan valid).scanned.token.kind
  have hfaults := faults_commit s (s.scan valid)
  rw [herror] at hkind
  rw [herror, if_neg (by simp), Nat.add_zero] at hfaults
  have hextras : (s.takeComment valid).extras.toList = s.extras.toList
      ++ [.leaf (.ofToken (s.scan valid).scanned.token.kind) (s.scan valid).scanned.token] := by
    simp [Session.takeComment, Session.commit]
  have htidy := h.tidy.commit (s.scan valid)
  refine ⟨⟨?_, htidy.size, htidy.lexical, htidy.syntactic⟩, h.lacking, ?_, ?_⟩
  · obtain ⟨h₁, h₂⟩ := h.tidy.extras
    rw [hextras]
    exact ⟨by simpa using h₁, by simpa [hkind] using h₂⟩
  · exact h.le.trans hfaults.ge
  · rw [h.faults, ← hfaults]
    rfl

theorem Tally.look (h : Tally o ns s) (valid : TokenSet) : Tally o ns (s.look valid) :=
  ⟨⟨h.tidy.extras, h.tidy.size, h.tidy.lexical, h.tidy.syntactic⟩, h.lacking, h.le, h.faults⟩

theorem Tally.fetch (valid : TokenSet) : ∀ (n : Nat) {s : Session}, Tally o ns s →
    Tally o ns (fetch valid n s).2
  | n, s, h => by
    cases hk : (s.scan valid).scanned.token.kind.isExtra with
    | false =>
      rw [fetch_of_not hk]
      exact h.look valid
    | true =>
      cases n with
      | zero =>
        rw [fetch_zero]
        exact h.look valid
      | succ n =>
        rw [fetch_succ hk]
        exact Tally.fetch valid n (h.takeComment hk)

theorem Tally.peek (h : Tally o ns s) (valid : TokenSet) : Tally o ns (s.peek valid).2 := by
  unfold Session.peek
  simp only []
  split
  · split
    · exact h
    · exact .fetch _ _ h
  · exact .fetch _ _ h

theorem Tally.takeExtras (h : Tally o ns s) : Tally o (ns ++ s.takeExtras.1) s.takeExtras.2 := by
  obtain ⟨h₁, h₂⟩ := h.tidy.extras
  have hextras : Even ns (ns ++ s.extras.toList) := ⟨by simp [h₁], by simp [h₂]⟩
  exact Tally.even ⟨⟨.refl _, h.tidy.size, h.tidy.lexical, h.tidy.syntactic⟩, h.lacking,
    h.le, h.faults⟩
    hextras

/-- With a complaint the nodes become what is complained about. -/
theorem Tally.complain (h : Tally o ns s) {d : Diagnostic} (hd : d.category = .syntactic)
    (habsences : absences ms = absences ns + if d.isAbsence then 1 else 0)
    (herror : anyError ms = true) :
    Tally o ms { s with syntactic := s.syntactic.push d } := by
  have hle := h.le
  have hfaults : Session.faults { s with syntactic := s.syntactic.push d } = s.faults + 1 := by
    simp [Session.faults, Nat.add_assoc]
  refine ⟨⟨h.tidy.extras, h.tidy.size, h.tidy.lexical, fun e he => ?_⟩, ?_, by omega, ?_⟩
  · simp only [Array.toList_push, List.mem_append, List.mem_singleton] at he
    rcases he with he | rfl
    · exact h.tidy.syntactic e he
    · exact hd
  · rw [habsences, ← Nat.add_assoc, h.lacking]
    simp [Session.lacking, List.countP_append, List.countP_cons]
  · rw [herror, hfaults]
    simp only [true_iff]
    omega

end Session

open Session (Sits Faces Tally Anywhere)

namespace Parser

variable {α β : Type} {cap : Nat} {text : List Char} {C C' : Session → Prop} {ns ms : List Node}
  {first stop : TokenSet} {k : Kind} {kind : NodeKind}

/-! ## Parsers that keep the tally -/

/-- The parser finds the nodes `ns` made and leaves `g` made in their place, and keeps the tally.
It starts where `C` holds, and `D` holds behind it. -/
def Tallies (cap : Nat) (text : List Char) (C : Session → Prop) (p : Parser α)
    (D : α → Session → Prop) (ns : List Node) (g : α → List Node) : Prop :=
  ∀ o s a s', s.Sits cap text → Tally o ns s → C s → p s = .ok (a, s') →
    s'.Sits cap text ∧ Tally o (g a) s' ∧ D a s'

/-- The parser makes the nodes `g` behind what has been made, and keeps the tally. -/
def Adds (cap : Nat) (text : List Char) (C : Session → Prop) (p : Parser α)
    (g : α → List Node) : Prop :=
  ∀ ns, Tallies cap text C p (fun _ => Anywhere) ns fun a => ns ++ g a

namespace Tallies

variable {p : Parser α} {f : α → Parser β} {D D' : α → Session → Prop} {E : β → Session → Prop}
  {g : α → List Node} {fin : β → List Node}

theorem bind (h : Tallies cap text C p D ns g)
    (hf : ∀ a, Tallies cap text (D a) (f a) E (g a) fin) :
    Tallies cap text C (p >>= f) E ns fin := by
  intro o s b s' hs ht hc hr
  obtain ⟨a, s₁, hp, hr⟩ := bind_ok hr
  obtain ⟨hs₁, ht₁, hd⟩ := h o s a s₁ hs ht hc hp
  exact hf a o s₁ b s' hs₁ ht₁ hd hr

theorem imp (h : Tallies cap text C p D ns g) (hC : ∀ s, C' s → C s) (hD : ∀ a s, D a s → D' a s) :
    Tallies cap text C' p D' ns g := by
  intro o s a s' hs ht hc hr
  obtain ⟨hs', ht', hd⟩ := h o s a s' hs ht (hC s hc) hr
  exact ⟨hs', ht', hD a s' hd⟩

theorem from_ (h : Tallies cap text C p D ns g) (hC : ∀ s, C' s → C s) :
    Tallies cap text C' p D ns g :=
  h.imp hC fun _ _ h => h

theorem forget (h : Tallies cap text C p D ns g) :
    Tallies cap text C p (fun _ => Anywhere) ns g :=
  h.imp (fun _ h => h) fun _ _ _ => trivial

theorem even (h : Tallies cap text C p D ns g) (hns : Even ms ns) :
    Tallies cap text C p D ms g :=
  fun o s a s' hs ht => h o s a s' hs (ht.even hns)

/-- What every session tells in which `C` holds may be used. -/
theorem given {P : Prop} (h : P → Tallies cap text (fun _ => P) p D ns g) :
    Tallies cap text (fun _ => P) p D ns g :=
  fun o s a s' hs ht hc hr => h hc o s a s' hs ht hc hr

/-- What is known to hold behind the parser. -/
theorem knowing {L : α → List Token → Prop} (ht : Takes cap text C p D' L)
    (h : Tallies cap text C p D ns g) : Tallies cap text C p D' ns g := by
  intro o s a s' hs htally hc hr
  obtain ⟨hs', ht', -⟩ := h o s a s' hs htally hc hr
  exact ⟨hs', ht', (ht s a s' hs hc hr).1⟩

end Tallies

/-- Behind what the parser has made. -/
theorem Adds.then {p : Parser α} {f : α → Parser β} {E : β → Session → Prop} {g : α → List Node}
    {fin : β → List Node} (h : Adds cap text C p g)
    (hf : ∀ a, Tallies cap text Anywhere (f a) E (ns ++ g a) fin) :
    Tallies cap text C (p >>= f) E ns fin :=
  (h ns).bind hf

theorem pure_tallies {a : α} {D : α → Session → Prop} {g : α → List Node}
    (h : Even ns (g a)) (hD : ∀ s, C s → D a s) : Tallies cap text C (pure a) D ns g := by
  intro o s b s' hs ht hc hr
  obtain ⟨rfl, rfl⟩ := pure_ok hr
  exact ⟨hs, ht.even h, hD s hc⟩

theorem pure_ends {a : α} {g : α → List Node} (h : Even ns (g a)) :
    Tallies cap text C (pure a) (fun _ => Anywhere) ns g :=
  pure_tallies h fun _ _ => trivial

theorem get_tallies {f : Session → Parser β} {E : β → Session → Prop} {fin : β → List Node}
    (h : ∀ t, Tallies cap text C (f t) E ns fin) : Tallies cap text C (get >>= f) E ns fin :=
  fun o s => h s o s

/-! ## Single moves -/

theorem peek_tallies (wanted : TokenSet) :
    Tallies cap text C (peek wanted) (fun t => Faces wanted t) ns fun _ => ns := by
  intro o s t s' hs ht _ hr
  obtain ⟨rfl, rfl⟩ := peek_ok hr
  obtain ⟨htook, hfaces⟩ := Session.peek_took hs wanted
  exact ⟨htook.sits, ht.peek wanted, hfaces⟩

theorem nextIs_tallies (k : Kind) :
    Tallies cap text C (nextIs k) (fun b s => b → Next k s) ns fun _ => ns := by
  unfold nextIs
  refine (peek_tallies _).bind fun t => pure_tallies (.refl _) fun s hf hb => ?_
  exact ⟨_, t, hf, of_decide_eq_true hb⟩

theorem flush_tallies (hC : ∀ s, C s → C s.takeExtras.2) :
    Tallies cap text C flush (fun _ => C) ns (ns ++ ·) := by
  intro o s l s' hs ht hc hr
  obtain ⟨hc', _, htook, -⟩ := flush_takes hC s l s' hs hc hr
  cases hr
  exact ⟨htook.sits, ht.takeExtras, hc'⟩

theorem leaf_tallies {wanted : TokenSet} {t : Token} (ht : t.kind ≠ .eof)
    (hk : (kind == .error) = t.kind.isError) :
    Tallies cap text (Faces wanted t) (leaf kind) (fun n _ => n = .leaf kind t) ns (ns ++ [·]) := by
  intro o s n s' hs htally hf hr
  obtain ⟨htook, -⟩ := leaf_run hs hf ht hr
  obtain ⟨la, hla, -, rfl⟩ := hf
  have hleaf : leaf kind s = .ok (.leaf kind la.scanned.token, s.commit la) := by
    change Except.ok (Node.leaf kind s.bump.1, s.bump.2) = _
    simp only [Session.bump, hla]
  rw [hleaf] at hr
  cases hr
  exact ⟨htook.sits, htally.commit hk, rfl⟩

theorem bump_tallies {wanted : TokenSet} {t : Token} (field : Option String) (ht : t.kind ≠ .eof)
    (hk : (kind == .error) = t.kind.isError) :
    Tallies cap text (Faces wanted t) (bump kind field) (fun l _ => t.kind.isError → anyError l) ns
      (ns ++ ·) := by
  unfold bump
  refine (flush_tallies fun _ h => h).bind fun extras => (leaf_tallies ht hk).bind fun n => ?_
  refine pure_tallies ⟨by simp, by simp⟩ ?_
  rintro s rfl he
  simp [hk, he]

/-- Taking a token that has been found to be of this kind. -/
theorem leaf_next (hk : k.isMeant) (hkind : kind ≠ .error) :
    Adds cap text (Next k) (leaf kind) ([·]) := by
  rintro ns o s n s' hs ht ⟨wanted, t, hf, rfl⟩ hr
  obtain ⟨hne, herror⟩ := Kind.isMeant_iff.1 hk
  exact (leaf_tallies hne (by simp [hkind, herror])).forget o s n s' hs ht hf hr

theorem bump_next (field : Option String) (hk : k.isMeant) (hkind : kind ≠ .error) :
    Adds cap text (Next k) (bump kind field) id := by
  rintro ns o s l s' hs ht ⟨wanted, t, hf, rfl⟩ hr
  obtain ⟨hne, herror⟩ := Kind.isMeant_iff.1 hk
  exact (bump_tallies field hne (by simp [hkind, herror])).forget o s l s' hs ht hf hr

theorem here_tallies : Tallies cap text C here (fun _ => C) ns fun _ => ns := by
  intro o s l s' hs ht hc hr
  obtain ⟨rfl, rfl⟩ := here_ok hr
  exact ⟨hs, ht, hc⟩

/-- What holds of a session whatever it has complained about. -/
def Unmoved (C : Session → Prop) : Prop :=
  ∀ (s : Session) (d : Diagnostic), C s → C { s with syntactic := s.syntactic.push d }

theorem complain_tallies {m : List Node} {message : String} {place : Location} (hC : Unmoved C)
    (habsences : absences m
      = absences ns + if (Diagnostic.syntactic message place).isAbsence then 1 else 0)
    (herror : anyError m = true) :
    Tallies cap text C (complain (.syntactic message place)) (fun _ => C) ns fun _ => m := by
  intro o s u s' hs ht hc hr
  obtain ⟨htook, -⟩ := complain_run hs hr
  cases hr
  exact ⟨htook.sits, ht.complain rfl habsences herror, hC s _ hc⟩

/-- A complaint that nothing in particular is missing. -/
theorem reject_tallies {m : List Node} {message : String} {place : Location} (hC : Unmoved C)
    (hd : (Diagnostic.syntactic message place).isAbsence = false)
    (habsences : absences m = absences ns) (herror : anyError m = true) :
    Tallies cap text C (complain (.syntactic message place)) (fun _ => C) ns fun _ => m :=
  complain_tallies hC (by simp [hd, habsences]) herror

theorem isAbsence_missing (what : String) (place : Location) :
    (Diagnostic.syntactic s!"missing {what}" place).isAbsence = true := by
  rw [Diagnostic.isAbsence_syntactic, List.isPrefixOf_iff_prefix]
  exact ⟨what.toList, by simp; rfl⟩

theorem missing_tallies (hC : Unmoved C) (kind : NodeKind) (what : String) :
    Tallies cap text C (missing kind what) (fun _ => C) ns (ns ++ [·]) := by
  unfold missing
  refine here_tallies.bind fun place => (complain_tallies (m := ns ++ [.missing kind place]) hC ?_
    (by simp)).bind fun _ => pure_tallies (.refl _) fun _ h => h
  rw [isAbsence_missing]
  simp

theorem missing_adds (kind : NodeKind) (what : String) :
    Adds cap text C (missing kind what) ([·]) :=
  fun _ => (missing_tallies (C := Anywhere) (fun _ _ h => h) kind what).from_ fun _ _ => trivial

theorem branch_tallies {children : List Node} (hkind : kind ≠ .error)
    (h : Even ns (ms ++ children)) :
    Tallies cap text C (branch kind children) (fun _ => Anywhere) ns (ms ++ [·]) := by
  unfold branch
  refine here_tallies.bind fun place => pure_ends ?_
  exact ⟨by rw [h.1]; simp, by rw [h.2]; simp [beq_eq_false_iff_ne.2 hkind]⟩

/-! ## Loops -/

theorem iterate_tallies {step : α → Parser (Bool × α)} {g : α → List Node}
    {I : α → Prop}
    (h : ∀ a, I a → Tallies cap text Anywhere (step a) (fun r _ => I r.2) (g a) fun r => g r.2)
    (n : Nat) {a : α} (ha : I a) :
    Tallies cap text C (iterate step n a) (fun a _ => I a) (g a) g := by
  intro o s a' s' hs ht _ hr
  obtain ⟨⟨hs', ht'⟩, hi⟩ := iterate_keeps
    (fun a s => (s.Sits cap text ∧ Tally o (g a) s) ∧ I a) (fun a s r s' hinv hr => by
      obtain ⟨hs', ht', hi⟩ := h a hinv.2 o s r s' hinv.1.1 hinv.1.2 trivial hr
      exact ⟨⟨hs', ht'⟩, hi⟩) n ⟨⟨hs, ht⟩, ha⟩ hr
  exact ⟨hs', ht', hi⟩

theorem loop_tallies {step : α → Parser (Bool × α)} {g : α → List Node} {I : α → Prop}
    (h : ∀ a, I a → Tallies cap text Anywhere (step a) (fun r _ => I r.2) (g a) fun r => g r.2)
    {a : α} (ha : I a) : Tallies cap text C (loop step a) (fun a _ => I a) (g a) g :=
  fun o s => iterate_tallies h (s.remaining + 1) ha o s

theorem gather_tallies {step : Array Node → Parser (Bool × Array Node)}
    (h : ∀ nodes, Tallies cap text Anywhere (step nodes) (fun _ => Anywhere) (ns ++ nodes.toList)
      fun r => ns ++ r.2.toList) (first : List Node) :
    Tallies cap text C (gather step first) (fun _ => Anywhere) (ns ++ first) (ns ++ ·) := by
  unfold gather
  refine (loop_tallies (g := fun nodes => ns ++ nodes.toList) (I := fun _ => True)
    (fun nodes _ => (h nodes).imp (fun _ h => h) fun _ _ _ => trivial) trivial).bind fun nodes => ?_
  exact pure_ends (.refl _)

/-! ## Recovery -/

/-- What is known about skipped tokens: without a first one there are no nodes, and one that is an
error is among them. -/
def Skipped.Told (a : Skipped) : Prop :=
  match a.first with
  | none => a.nodes = #[]
  | some t => t.kind.isError → anyError a.nodes.toList

theorem skipStep_tallies (stop : TokenSet) {a : Skipped} (ha : a.Told) :
    Tallies cap text Anywhere (skipStep stop a) (fun r _ => r.2.Told) (ns ++ a.nodes.toList)
      fun r => ns ++ r.2.nodes.toList := by
  unfold skipStep
  refine (peek_tallies _).bind fun t => ?_
  split
  · exact pure_tallies (.refl _) fun _ _ => ha
  · rename_i hgo
    have heof : t.kind ≠ .eof := fun h => hgo (.inl h)
    refine (bump_tallies none heof (NodeKind.ofToken_error _)).bind fun nodes => ?_
    refine pure_tallies ⟨by simp, by simp⟩ fun s hnodes => ?_
    unfold Skipped.Told at ha ⊢
    cases hfirst : a.first with
    | none => simpa using fun he => .inr (hnodes he)
    | some u =>
      rw [hfirst] at ha
      simpa using fun he => .inl (ha he)

theorem isAbsence_unexpected (what : String) (place : Location) :
    (Diagnostic.syntactic s!"unexpected {what}" place).isAbsence = false := by
  rw [Diagnostic.isAbsence_syntactic]
  simp
  rfl

/-- The tokens are in an error, whether it has been complained about or one of them is to blame. -/
theorem wrapUp_tallies {extras : List Node} {a : Skipped} {t : Token}
    (ha : t.kind.isError → anyError a.nodes.toList) :
    Tallies cap text Anywhere (wrapUp extras a t) (fun _ => Anywhere)
      (ns ++ extras ++ a.nodes.toList) (ns ++ ·) := by
  have hwrap {ms : List Node} (habsences : absences ms = absences (ns ++ extras ++ a.nodes.toList))
      (herror : anyError ms) : Tallies cap text Anywhere (do
        return extras ++ [← branch .error a.nodes.toList]) (fun _ => Anywhere) ms (ns ++ ·) := by
    unfold branch
    simp only [bind_assoc, pure_bind]
    exact here_tallies.bind fun place => pure_ends ⟨by simp [habsences], by simp [herror]⟩
  unfold wrapUp
  split
  · exact pure_ends ⟨by simp, by simp⟩
  split
  · exact (reject_tallies (m := ns ++ extras ++ [.branch .error a.nodes.toList {}])
      (fun _ _ h => h) (isAbsence_unexpected _ _) (by simp) (by simp)).bind
        fun _ => hwrap (by simp) (by simp)
  · rename_i hkind
    exact hwrap rfl (by simp [ha (by simpa using hkind)])

theorem skip_adds (stop : TokenSet) : Adds cap text C (skip stop) id := by
  intro ns
  have hloop (extras : List Node) : Tallies cap text Anywhere (loop (skipStep stop) {})
      (fun a _ => a.Told) (ns ++ extras) fun a => ns ++ extras ++ a.nodes.toList :=
    (loop_tallies (g := fun a => ns ++ extras ++ a.nodes.toList) (I := Skipped.Told)
      (fun a ha => skipStep_tallies stop ha) (show Skipped.Told {} from rfl)).even
        ⟨by simp, by simp⟩
  rw [skip_eq]
  refine ((flush_tallies (C := Anywhere) fun _ h => h).from_ fun _ _ => trivial).bind fun extras =>
    (hloop extras).bind fun a => Tallies.given fun ha => ?_
  rw [Skipped.Told] at ha
  cases hfirst : a.first with
  | none =>
    rw [hfirst] at ha
    exact pure_ends ⟨by simp [ha], by simp [ha]⟩
  | some t =>
    rw [hfirst] at ha
    exact (wrapUp_tallies ha).from_ fun _ _ => trivial

theorem recoverTo_tallies (sync first : TokenSet) :
    Tallies cap text C (recoverTo sync first) (fun r s => r.1 → Offers first s) ns (ns ++ ·.2) := by
  refine Tallies.knowing (D := fun _ => Anywhere) (recoverTo_takes sync first) ?_
  unfold recoverTo
  refine (peek_tallies _).bind fun t => Tallies.from_ (C := Anywhere) ?_ fun _ _ => trivial
  split
  · exact pure_ends ⟨by simp, by simp⟩
  split
  · exact pure_ends ⟨by simp, by simp⟩
  · exact (skip_adds _).then fun skipped => (peek_tallies _).bind fun t => pure_ends (.refl _)

theorem Offers.next (hk : k.isError = false) {s : Session} (h : Offers (.single k) s) :
    Next k s := by
  obtain ⟨V, t, -, hf, ht⟩ := h
  exact ⟨V, t, hf, TokenSet.eq_of_contains_single hk ht⟩

theorem flush_offers :
    Tallies cap text (fun s => true = true → Offers first s) flush (fun _ => Offers first) ns
      (ns ++ ·) :=
  (flush_tallies (C := Offers first) fun _ h => h).from_ fun _ h => h rfl

theorem flush_next :
    Tallies cap text (fun s => true = true → Next k s) flush (fun _ => Next k) ns (ns ++ ·) :=
  (flush_tallies (C := Next k) fun _ h => h).from_ fun _ h => h rfl

theorem expectAs?_adds (sync : TokenSet) (field : Option String) (hk : k.isMeant)
    (hkind : kind ≠ .error) : Adds cap text C (expectAs? sync k kind field) Prod.snd := by
  intro ns
  unfold expectAs?
  refine (recoverTo_tallies _ _).bind fun r => ?_
  obtain ⟨found, skipped⟩ := r
  cases found with
  | true =>
    refine (flush_tallies (C := Next k) fun _ h => h).from_ (fun s h => (h rfl).next
      (Kind.isMeant_iff.1 hk).2) |>.bind fun extras => (leaf_next hk hkind _).bind fun n => ?_
    exact pure_ends ⟨by simp, by simp⟩
  | false => exact (missing_adds _ _).then fun n => pure_ends ⟨by simp, by simp⟩

theorem ofToken_ne (hk : k.isMeant) : NodeKind.ofToken k ≠ .error := by
  have h := NodeKind.ofToken_error k
  rw [(Kind.isMeant_iff.1 hk).2] at h
  exact beq_eq_false_iff_ne.1 h

theorem expect?_adds (sync : TokenSet) (field : Option String) (hk : k.isMeant) :
    Adds cap text C (expect? sync k field) Prod.snd :=
  expectAs?_adds sync field hk (ofToken_ne hk)

theorem expect_adds (sync : TokenSet) (field : Option String) (hk : k.isMeant) :
    Adds cap text C (expect sync k field) id := fun ns =>
  (expect?_adds sync field hk ns).bind fun _ => pure_ends (.refl _)

/-! ## Elements -/

theorem progress_tallies {element : Parser α} {k : α → List Node → Parser β} {g : α → List Node}
    {fin : β → List Node} (h : Adds cap text C element g)
    (hk : ∀ a skipped, Tallies cap text Anywhere (k a skipped) (fun _ => Anywhere)
      (ns ++ g a ++ skipped) fin) :
    Tallies cap text C (progress stop element k) (fun _ => Anywhere) ns fin := by
  refine get_tallies fun s => h.then fun a => get_tallies fun t => ?_
  dsimp only
  split
  · exact (skip_adds _).then (hk a)
  · exact (pure_tallies (D := fun _ => Anywhere) (g := fun l => ns ++ g a ++ l) ⟨by simp, by simp⟩
      fun _ _ => trivial).bind (hk a)

theorem addItem_tallies {element : Parser Node} (h : Adds cap text Anywhere element ([·]))
    (nodes : Array Node) :
    Tallies cap text Anywhere (addItem stop element nodes) (fun _ => Anywhere) (ns ++ nodes.toList)
      fun r => ns ++ r.2.toList :=
  (flush_tallies fun _ h => h).bind fun _ => progress_tallies h fun _ _ =>
    pure_ends ⟨by simp, by simp⟩

/-! ## Lists -/

theorem rejectComma_tallies (hC : Unmoved C) (a : Items) :
    Tallies cap text C a.rejectComma (fun _ => C) (ns ++ a.nodes.toList)
      fun nodes => ns ++ nodes.toList := by
  rw [Items.rejectComma]
  split
  · exact pure_tallies (.refl _) fun _ h => h
  · rename_i i comma h
    obtain ⟨j, -, h⟩ := Option.bind_eq_some_iff.1 h
    obtain ⟨n, hn, h⟩ := Option.map_eq_some_iff.1 h
    cases h
    have hlist : a.nodes.toList[i]? = some comma := by simpa using hn
    exact (reject_tallies
      (m := ns ++ a.nodes.toList.set i (.branch .error [comma] comma.span.start)) hC
      ((Diagnostic.isAbsence_syntactic _ _).trans (by decide)) (by simp [Node.absences_set hlist])
      (by simp [Node.anyError_set hlist])).bind fun _ =>
        pure_tallies ⟨by simp, by simp⟩ fun _ h => h

theorem listClose_tallies {form : ListForm} (a : Items) (nodes : Array Node) :
    Tallies cap text (Next (.punct form.close)) (listClose form a nodes) (fun _ => Anywhere)
      (ns ++ nodes.toList) fun r => ns ++ r.2.nodes.toList :=
  (bump_next none rfl (by simp) _).bind fun _ => pure_ends ⟨by simp, by simp⟩

theorem listItem_tallies {element : Parser (List Node)}
    (h : Adds cap text (Offers first) element id) (a : Items) (comma : List Node) :
    Tallies cap text (Offers first) (listItem stop element a comma) (fun _ => Anywhere)
      (ns ++ a.nodes.toList ++ comma) fun r => ns ++ r.2.nodes.toList := by
  rw [listItem_eq]
  exact (flush_tallies fun _ h => h).bind fun _ => progress_tallies h fun _ _ =>
    pure_ends ⟨by simp, by simp⟩

theorem listStep_tallies {sync : TokenSet} {form : ListForm} {element : Parser (List Node)}
    (h : Adds cap text (Offers form.first) element id) (a : Items) :
    Tallies cap text Anywhere (listStep sync form element a) (fun _ => Anywhere)
      (ns ++ a.nodes.toList) fun r => ns ++ r.2.nodes.toList := by
  have hsub (k : Kind) (hk : form.first.contains k) : (form.continues ∪ sync).contains k := by
    simp [ListForm.continues, hk]
  rw [listStep_eq]
  refine (peek_tallies _).bind fun t => ?_
  split
  · rename_i ht
    have hnext (s : Session) (hf : s.Faces (form.continues ∪ sync) t) :
        Next (.punct form.close) s := ⟨_, t, hf, ht⟩
    split
    · exact (rejectComma_tallies (fun _ _ h => h) a).bind fun nodes =>
        (listClose_tallies a nodes).from_ hnext
    · exact (listClose_tallies a a.nodes).from_ hnext
  split
  · rename_i ht
    have hoffers (s : Session) (hf : s.Faces (form.continues ∪ sync) t) : Offers form.first s :=
      ⟨_, t, hsub, hf, ht⟩
    split
    · exact ((listItem_tallies h a []).from_ hoffers).even ⟨by simp, by simp⟩
    · exact (missing_tallies (fun _ _ h => h) _ _).bind fun comma =>
        (listItem_tallies h a [comma]).from_ hoffers
  split
  · rename_i ht
    refine ((bump_next none (k := .punct .comma) rfl (by simp) _).from_ fun s hf =>
      ⟨_, t, hf, ht.1⟩).bind fun comma => pure_ends ⟨by simp, by simp⟩
  split
  · exact (missing_adds _ _).then fun close => pure_ends ⟨by simp, by simp⟩
  · exact (skip_adds _).then fun skipped => pure_ends ⟨by simp, by simp⟩

theorem list_adds {sync : TokenSet} {close : Punct} {trailing : Bool}
    {element : TokenSet → Parser (List Node)}
    (h : ∀ sync, Adds cap text (Offers first) (element sync) id) :
    Adds cap text C (list sync ⟨close, first, trailing⟩ element) id := by
  intro ns
  unfold list
  refine (Tallies.even (loop_tallies (g := fun a : Items => ns ++ a.nodes.toList)
    (I := fun _ => True) (fun a _ => (listStep_tallies (h _) a).imp
      (fun _ h => h) fun _ _ _ => trivial) (a := {}) trivial) ⟨by simp, by simp⟩).bind fun a => ?_
  exact pure_ends (.refl _)

end Parser

end Parse

end AvroTree
