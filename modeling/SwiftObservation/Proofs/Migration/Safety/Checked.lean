import SwiftObservation.Migration.Evidence
import SwiftObservation.Migration.Rules

/-!
# The passes with every access checked

The definitions of the two passes go on with something harmless where a child is not what they expect. Here they are
once more, giving `none` there instead: wherever a pass takes a child by its place, asks a child for its text or kind,
looks into a child, or needs the first or last token of a tree, the place must be taken, the child must be a token or a
node as it is used, and the tree must have a token. What a pass does guard is guarded here in the same way.
-/

namespace SwiftObservation.Migration.Checked

/-- The children of a node; a token has none to look at. -/
def parts? : Tree → Option (List Tree)
  | .node _ children => some children
  | _ => none

/-- A tree whose first token is changed has to be there. -/
def mapFirst (f : Token → Token) : Tree → Option Tree
  | .absent => none
  | t => some (t.mapFirst f)

def mapLast (f : Token → Token) : Tree → Option Tree
  | .absent => none
  | t => some (t.mapLast f)

/-! ### Attributes -/

def attributeName? (t : Tree) : Option (Option Text) := do
  match ← parts? t with
  | _ :: .node .typeIdentifier [name] :: _ => return some (← name.token?).text
  | _ => return none

def isNamed (name : Text) (t : Tree) : Option Bool := return (← attributeName? t) == some name

def isErased (t : Tree) : Option Bool := do
  match ← parts? t with
  | [sign] => return (← sign.token?).text.isEmpty
  | _ => return false

def rename (text : Text) : Tree → Option Tree
  | .node label (name :: rest) => return .node label (.leaf { (← name.token?) with text } :: rest)
  | _ => none

def migrateAttribute (t : Tree) : Option Tree := do
  let parts ← parts? t
  let name ← attributeName? t
  if name == some stateObjectName then
    let sign ← parts[0]?
    let named ← parts[1]?
    return .node .attr (sign :: (← rename stateName named) :: parts.drop 2)
  else if name == some observedObjectName then return erased (← (← parts[0]?).token?)
  else return t

def carry (carried : Option Text) (t : Tree) : Option Text := do
  let leading := (← t.first?).leading
  let trailing := (← t.last?).trailing
  return (match carried with
    | some earlier => Trivia.mergeLeading earlier leading
    | none => leading) ++ trailing.dropWhile Text.isBlank

def deliver (carried : Option Text) (t : Tree) : Option Tree :=
  match carried with
  | some text => mapFirst (takeUp text) t
  | none => some t

def dropFrom (doomed : Tree → Option Bool) : Option Text → List Tree → Option (List Tree × Option Text)
  | carried, [] => some ([], carried)
  | carried, t :: rest => do
    if ← doomed t then dropFrom doomed (some (← carry carried t)) rest
    else
      let first ← deliver carried t
      let (kept, left) ← dropFrom doomed none rest
      return (first :: kept, left)

def dropAttributes (doomed : Tree → Option Bool) : Tree → Option Tree
  | .node label (.node .attributes found :: rest) => do
    if (← found.mapM doomed).any id then
      let (kept, left) ← dropFrom doomed none found
      return .node label (.node .attributes kept :: Migration.deliver left rest)
    else return .node label (.node .attributes found :: rest)
  | .node label (other :: rest) => some (.node label (other :: rest))
  | _ => none

/-! ### Objects from the environment -/

def dropTypeClause (binding : Tree) : Option Tree := do
  let trailing := (← (← binding.child? .typeClause).last?).trailing
  match (← parts? binding).eraseP (·.is .typeClause) with
  | pattern :: rest => return .node .binding ((← mapLast ({ · with trailing }) pattern) :: rest)
  | [] => none

def environmentAttribute (bound t : Tree) : Option Tree := do
  match ← parts? t with
  | [sign, name] =>
    let trailing := (← name.last?).trailing
    let renamed ← mapLast ({ · with trailing := [] }) (← rename environmentName name)
    let _ ← mapFirst ({ · with leading := [] }) bound
    return .node .attr [sign, renamed, lookupArguments bound trailing]
  | _ => none

/-- The first tree with the given attribute name, all names before it having been looked at. -/
def firstNamed? (name : Text) : List Tree → Option (Option Tree)
  | [] => some none
  | t :: rest => do if ← isNamed name t then return some t else firstNamed? name rest

def updateFirst (p : Tree → Bool) (f : Tree → Option Tree) : List Tree → Option (List Tree)
  | [] => some []
  | t :: rest => do if p t then return (← f t) :: rest else return t :: (← updateFirst p f rest)

def migrateEnvironment : Tree → Option Tree
  | .node label (attributes :: rest) => do
    let decl := .node label (attributes :: rest)
    let found ← parts? attributes
    match ← firstNamed? environmentObjectName found with
    | none => return decl
    | some target =>
      if (← parts? target).length == 2 then
        match (rest.find? isPlainlyTyped).bind plainType? with
        | none => return decl
        | some bound =>
          let renamed ← updateFirst (Migration.isNamed environmentObjectName) (environmentAttribute bound) found
          return .node label (.node .attributes renamed :: (← updateFirst isPlainlyTyped dropTypeClause rest))
      else return decl
  | _ => none

def migrateVariables (decl : Tree) : Option Tree := do dropAttributes isErased (← migrateEnvironment decl)

/-! ### Classes -/

def isProtocolEntry (entry : Tree) : Option Bool := do
  let bound ← (← parts? entry)[0]?
  return bound.is .typeIdentifier && bound.innerText == observableProtocol

def stripComma (trailing : Text) : Tree → Option Tree
  | .node label children => do
    let last ← children.getLast?
    let bare := if last.isLeaf .comma then children.dropLast else children
    return (Tree.node label bare).mapLast ({ · with trailing })
  | _ => none

def pruneFrom (reversed : List Tree) (carried : Option Text) : List Tree → Option Pruned
  | [] => some (if reversed.isEmpty then .dangling else .kept reversed.reverse)
  | entry :: rest => do
    if ← isProtocolEntry entry then
      let last ← entry.last?
      if last.kind == .comma then pruneFrom reversed (carried.or (some (← entry.first?).leading)) rest
      else
        match reversed with
        | before :: earlier => pruneFrom ((← stripComma last.trailing before) :: earlier) carried rest
        | [] => return .emptied last.trailing
    else pruneFrom ((← deliver carried entry) :: reversed) none rest

def leaveProtocol (children : List Tree) : Option Leaving := do
  match children.span (!·.is .inheritance) with
  | (before, .node label parts :: behind) =>
    if (← (parts.drop 1).mapM isProtocolEntry).any id then
      let previous ← before.getLast?
      let colon ← parts[0]?
      match ← pruneFrom [] none (parts.drop 1) with
      | .dangling => return .dangling
      | .emptied trailing =>
        return .done (before.dropLast ++ (← mapLast ({ · with trailing }) previous) :: behind)
      | .kept entries => return .done (before ++ .node label (colon :: entries) :: behind)
    else return .absent
  | _ => return .absent

def unpublish (member : Tree) : Option Tree :=
  if member.is .variableDecl then dropAttributes (isNamed publishedName) member else some member

def unpublishBody (children : List Tree) : Option (List Tree) := do
  match ← children.getLast? with
  | .node label members => return children.dropLast ++ [.node label (← members.mapM unpublish)]
  | _ => none

def prependObservable (children : List Tree) : Option (List Tree) := do
  let head ← Tree.firstOf? children
  match (Tree.mapFirstOf? ({ · with leading := Trivia.indentation head.leading }) children).getD children with
  | .node .attributes found :: rest =>
    let lineEnding := Trivia.lineEnding (Token.textOf (Tree.leavesOf (.node .attributes found :: rest)))
    return .node .attributes (observableAttribute head lineEnding :: found) :: rest
  | _ => none

def convertClass (attributes : Tree) (children : List Tree) : Option (List Tree) := do
  let unpublished ← unpublishBody children
  if (← (← parts? attributes).mapM (isNamed observableName)).any id then return unpublished
  else prependObservable unpublished

def migrateType (names : List Text) : Tree → Option Tree
  | .node label (attributes :: modifiers :: keyword :: name :: rest) => do
    let children := attributes :: modifiers :: keyword :: name :: rest
    if (← keyword.token?).kind == .classWord then
      match ← leaveProtocol children with
      | .dangling => return .node label children
      | .done left => return .node label (← convertClass attributes left)
      | .absent =>
        if names.contains (← name.token?).text then return .node label (← convertClass attributes children)
        else return .node label children
    else return .node label children
  | _ => none

/-! ### Expressions -/

def isWrappedValue (t : Tree) : Option Bool := do
  if t.is .argument then
    match ← parts? t with
    | .leaf label :: _ :: _ => return label.text == wrappedValueLabel
    | _ :: _ => return false
    | [] => none
  else return false

def migrateCall : Tree → Option Tree
  | .node label (.leaf callee :: .node .arguments args :: rest) => do
    let call := .node label (.leaf callee :: .node .arguments args :: rest)
    if callee.kind == .identifier && callee.text == stateObjectName then
      if (← args.mapM isWrappedValue).any id then
        let relabelled ← args.mapM fun arg =>
          if Migration.isWrappedValue arg then rename initialValueLabel arg else some arg
        return .node label (.leaf { callee with text := stateName } :: .node .arguments relabelled :: rest)
      else return call
    else return call
  | .node label (callee :: rest) => return .node label (callee :: rest)
  | _ => none

def migrateMember : Tree → Option Tree
  | .node label [receiver, dot, name] => do
    let token ← name.token?
    if token.text == environmentObjectModifier then
      return .node label [receiver, dot, .leaf { token with text := environmentModifier }]
    else return .node label [receiver, dot, name]
  | _ => none

/-! ### Whole trees -/

def migrateNode (names : List Text) (label : Label) (children : List Tree) : Option Tree :=
  match label with
  | .typeDecl => migrateType names (.node label children)
  | .variableDecl => migrateVariables (.node label children)
  | .attr => migrateAttribute (.node label children)
  | .call => migrateCall (.node label children)
  | .memberAccess => migrateMember (.node label children)
  | _ => some (.node label children)

mutual

/-- The migration of a tree, `none` if it reaches for something that is not there. -/
def migrate (names : List Text) : Tree → Option Tree
  | .leaf token => some (.leaf token)
  | .node label children => do migrateNode names label (← migrateAll names children)
  | .absent => some .absent

def migrateAll (names : List Text) : List Tree → Option (List Tree)
  | [] => some []
  | t :: rest => do return (← migrate names t) :: (← migrateAll names rest)

end

/-! ### Evidence -/

def hasWrapper (member : Tree) : Option Bool := do
  let attributes := ((member.child? .attributes).map (·.childrenWith .attr)).getD []
  return (← attributes.mapM attributeName?).any (·.any wrapperNames.contains)

def clauseCandidate? (binding : Tree) : Option (Option Token) :=
  match (binding.child? .typeClause).bind (·.children[1]?) with
  | some bound => if bound.is .typeIdentifier then do return some (← bound.first?) else some none
  | none => some none

def valueCandidate? (binding : Tree) : Option (Option Token) :=
  match binding.child? .initialValue with
  | none => some none
  | some value => do
    let elements ← parts? (← (← parts? value)[1]?)
    match elements with
    | [.node .call callee] =>
      match ← callee[0]? with
      | .leaf token => return if token.kind == .identifier then some token else none
      | _ => return none
    | _ => return none

def bindingCandidate? (binding : Tree) : Option (Option Token) := do
  match ← clauseCandidate? binding with
  | some token => return some token
  | none => valueCandidate? binding

def candidateIn? : List Tree → Option (Option Token)
  | [] => some none
  | binding :: rest => do
    match ← bindingCandidate? binding with
    | some token => return some token
    | none => candidateIn? rest

def memberEvidence? (declaration : Option Tree) (params : List Text) (member : Tree) : Option (Option Evidence) := do
  if ← hasWrapper member then
    match ← candidateIn? (member.childrenWith .binding) with
    | none => return none
    | some candidate =>
      if params.contains candidate.text then
        return some (.ambiguous candidate (← (← declaration).token?).text)
      else return some (.observable candidate.text)
  else return none

def evidenceIn (declaration : Option Tree) (params : List Text) : List Tree → Option (List Evidence)
  | [] => some []
  | member :: rest => do
    return (← memberEvidence? declaration params member).toList ++ (← evidenceIn declaration params rest)

def nodeEvidence (t : Tree) : Option (List Evidence) :=
  match t with
  | .node .typeDecl children => do
    if (← (← children[2]?).token?).kind == .structWord then
      evidenceIn children[3]? (parameterNames t) (((t.child? .memberBlock).map (·.childrenWith .variableDecl)).getD [])
    else return []
  | _ => some []

mutual

/-- All evidence in a tree, `none` if looking for it reaches for something that is not there. -/
def evidence : Tree → Option (List Evidence)
  | .leaf _ => some []
  | .node label children => do return (← nodeEvidence (.node label children)) ++ (← evidenceOf children)
  | .absent => some []

def evidenceOf : List Tree → Option (List Evidence)
  | [] => some []
  | t :: rest => do return (← evidence t) ++ (← evidenceOf rest)

end

end SwiftObservation.Migration.Checked
