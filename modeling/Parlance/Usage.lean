import Parlance.Typing
/-!
Everything that points at a declaration. An answer is remembered for the declaration and for all
that points at it.
-/
namespace Parlance.Program

def uses (p : Program) (k : NameKind) : Typing (List (Node × Option Node)) := do
  if let some found := (← get).uses.lookup k then return found
  let found := p.resolved k
  modify fun m => { m with uses := (k, found) :: m.uses }
  return found

variable (p : Program)

def referencesTo (n : Node) (k : NameKind) : Typing (List Node) := do
  return p.referencesAmong (← p.uses k) n

def messages : List Node := p.matching Shape.isMessage

def methodReferences (method : Node) : Typing (List Node) :=
  p.messages.filterM fun m => do
    return ((← p.methodOfMessage m).map (·.id)) == some method.id

/-- The node whose usage a name belongs to. Of a qualified name only the last part counts. -/
def usageOwner? (n : Node) : Option Node := do
  let parent ← p.parent? n
  match n.shape, parent.shape with
  | .operator _, s => if s.isPattern || s.isMessage then some parent else none
  | .symbol _, .qualifiedSymbol =>
    let directive ← p.parent? parent
    guard (directive.shape == .importDirective && parent.children.getLast? == some n.id)
    return directive
  | .symbol _, .keywordPair =>
    let owner ← p.parent? parent
    guard (owner.shape.isMessage || owner.shape.isPattern)
    return owner
  | .symbol _, s =>
    if s.isDeclaration || NameKind.any.refers s || s == .importDirective || s.isMessage ||
        s.isPattern then some parent
    else none
  | _, _ => none

def usageTarget (n : Node) : Typing (Option Node) := do
  match n.shape with
  | .importDirective => return p.imported? n
  | .reference | .typeReference => return p.declaration? n (.of n.shape)
  | .operator _ | .symbol _ => return p.usageOwner? n
  | s =>
    if s.isPattern then
      match p.parent? n with
      | some parent =>
        if parent.shape == .signature then return p.parent? parent
        if parent.shape.isInitializer then return some parent
        return none
      | none => return none
    else if s.isMessage then p.methodOfMessage n
    else return none

def setUsage (u : Option Usage) (n : Node) : Typing Unit :=
  modify fun m => { m with usages := m.usages.setIfInBounds n.id (some u) }

def usageIn (p : Program) : Nat → Node → Typing (Option Usage)
  | 0, _ => return none
  | fuel + 1, n => do
    if let some u := ((← get).usages[n.id]?).join then return u
    let u ←
      if n.shape.isDeclaration then
        let references ← p.referencesTo n (.of n.shape)
        pure (some ⟨n, references, p.importsNaming n⟩)
      else if n.shape.isMethod || n.shape.isInitializer then
        pure (some ⟨n, ← p.methodReferences n, []⟩)
      else
        match ← p.usageTarget n with
        | some t => usageIn p fuel t
        | none => pure none
    if let some u := u then u.members.forM (setUsage (some u))
    setUsage u n
    return u

/-- A name leads to its message, a message to its method, an import to its declaration: the chain
ends after a few steps. -/
def usage (n : Node) : Typing (Option Usage) := usageIn p 8 n

def usageAround (uri : Uri) (l : Location) : Typing (Option Usage) :=
  (p.around uri l).foldlM (fun found n =>
    match found with
    | some u => return some u
    | none => p.usage n) none

end Parlance.Program
