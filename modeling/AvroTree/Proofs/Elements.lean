import AvroTree.Parse.Idl

/-!
# Elements of lists, bodies and files

Lists, bodies and files are read one element after the other. The comments in front of an element
come first, and where the element has taken no token something is skipped, so that reading goes on
(`progress`). The tokens skipped go into an error (`wrapUp`). The steps that read them differ in
where an element may stand and in what becomes of it (`listItem`, `addItem`); `listStep_eq` and the
like take them apart.
-/

namespace AvroTree

namespace Parse

open AvroTree.Parse.Parser

namespace Parser

variable {α β : Type}

/-- What is made of a stretch of unwanted tokens that starts with `t`. -/
def wrapUp (extras : List Node) (a : Skipped) (t : Token) : Parser (List Node) := do
  if a.count = 1 ∧ a.nodes.size = 1 ∧ t.kind.isError then
    return extras ++ a.nodes.toList
  if !t.kind.isError then
    complain (.syntactic s!"unexpected {t.kind.describe}" t.span.start)
  return extras ++ [← branch .error a.nodes.toList]

theorem skip_eq (stop : TokenSet) : skip stop = (do
    let extras ← flush
    let a ← loop (skipStep stop) {}
    a.first.elim (return extras) (wrapUp extras a)) := by
  refine congrArg (flush >>= ·) (funext fun extras => ?_)
  refine congrArg (loop (skipStep stop) {} >>= ·) (funext fun a => ?_)
  cases a.first <;> rfl

/-- An element, and what is skipped when it has taken no token. -/
def progress (stop : TokenSet) (element : Parser α) (next : α → List Node → Parser β) :
    Parser β := do
  let before := (← get).cursor.place.byte
  let item ← element
  let skipped ← if (← get).cursor.place.byte = before then skip stop else pure []
  next item skipped

theorem map_progress {γ : Type} (f : β → γ) (stop : TokenSet) (element : Parser α)
    (next : α → List Node → Parser β) :
    f <$> progress stop element next = progress stop element fun a ns => f <$> next a ns := by
  unfold progress
  simp only [map_bind]
  refine bind_congr fun s => bind_congr fun a => bind_congr fun s' => ?_
  split
  all_goals rw [map_bind]

/-- Reads an element of a list behind the comma in front of it. -/
def listItem (stop : TokenSet) (element : Parser (List Node)) (a : Items) (comma : List Node) :
    Parser (Bool × Items) := do
  let extras ← flush
  let before := (← get).cursor.place.byte
  let item ← element
  let skipped ← if (← get).cursor.place.byte = before then skip stop else pure []
  return (true, { a with
    nodes := a.nodes ++ comma ++ extras ++ item ++ skipped
    wantsItem := false
    count := a.count + 1 })

theorem listItem_eq (stop : TokenSet) (element : Parser (List Node)) (a : Items)
    (comma : List Node) : listItem stop element a comma = (do
      let extras ← flush
      progress stop element fun item skipped => return (true, { a with
        nodes := a.nodes ++ comma ++ extras ++ item ++ skipped
        wantsItem := false
        count := a.count + 1 })) :=
  rfl

/-- Takes the closing mark of a list behind its nodes. -/
def listClose (form : ListForm) (a : Items) (nodes : Array Node) : Parser (Bool × Items) := do
  return (false, { a with nodes := nodes ++ (← bump (.token (.punct form.close))) })

theorem listStep_eq (sync : TokenSet) (form : ListForm) (element : Parser (List Node)) (a : Items) :
    listStep sync form element a = (do
      let stop := form.continues ∪ sync
      let t ← peek stop
      if t.kind = .punct form.close then
        if a.wantsItem && 0 < a.count && !form.trailing then
          listClose form a (← a.rejectComma)
        else
          listClose form a a.nodes
      else if form.first.contains t.kind then
        if a.wantsItem then
          listItem stop element a []
        else
          listItem stop element a [← missing (.token (.punct .comma)) "`,`"]
      else if t.kind = .punct .comma ∧ !a.wantsItem then
        let nodes := a.nodes ++ (← bump (.token (.punct .comma)))
        return (true, { a with nodes, lastComma := some (nodes.size - 1), wantsItem := true })
      else if t.kind = .eof ∨ sync.contains t.kind then
        let close ← missing (.token (.punct form.close)) (Token.Kind.punct form.close).describe
        return (false, { a with nodes := a.nodes.push close })
      else
        return (true, { a with nodes := a.nodes ++ (← skip stop) })) :=
  rfl

/-- Reads an element of a body or a file behind the nodes in front of it. -/
def addItem (stop : TokenSet) (element : Parser Node) (nodes : Array Node) :
    Parser (Bool × Array Node) := do
  let extras ← flush
  progress stop element fun item skipped => return (true, (nodes ++ extras).push item ++ skipped)

end Parser

namespace Idl

theorem bodyStep_eq (sync : TokenSet) (form : BodyForm) (element : Parser Node)
    (nodes : Array Node) : bodyStep sync form element nodes = (do
      let stop := form.continues ∪ sync
      let t ← peek stop
      if t.kind = .punct .rBrace then
        return (false, nodes ++ (← bump (.token (.punct .rBrace))))
      else if form.first.contains t.kind then
        addItem stop element nodes
      else if t.kind = .eof ∨ sync.contains t.kind then
        return (false, nodes.push (← missing (.token (.punct .rBrace)) "`\x7d`"))
      else
        return (true, nodes ++ (← skip stop))) :=
  rfl

theorem programStep_eq (nodes : Array Node) : programStep nodes = (do
    let t ← peek First.declaration
    if t.kind = .eof then
      return (false, nodes)
    else if First.declaration.contains t.kind then
      addItem First.declaration (declaration (.single .eof ∪ First.declaration)) nodes
    else
      return (true, nodes ++ (← skip First.declaration))) :=
  rfl

end Idl

end Parse

end AvroTree
