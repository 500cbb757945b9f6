import RobotGolf.Yaml.TokenStream
/-!
# YAML documents

A document is a tree of nodes: scalars, sequences and mappings. A node may have a name, by which
later parts of the document, and its own parts, refer to it. Only the first document of a text is
read, and of what follows it no more than one token.

A document is put together from its tokens. What is under way is kept as a list of collections that
are not complete, the innermost first. `Assembling.step` puts a document together piece by piece:
it reads the beginning of a node, or hands a complete node to the collection around it, or sees how
that collection goes on.
-/

namespace RobotGolf.Yaml

/-- A part of a document, with the line that it starts in, counted from zero. Scalars have a tag,
which is empty if none is written. A scalar is implicit if its text alone says what it stands for.
A reference has the name of the node that it stands for, the number of that node among the named
ones, and its own number among the references. -/
inductive Node where
  | scalar (text : String) (tag : Bytes) (implicit : Bool) (line : Nat)
  | sequence (items : List Node) (line : Nat)
  | mapping (entries : List (Node × Node)) (line : Nat)
  | reference (name : String) (target serial : Nat) (line : Nat)

namespace Node

/-- The line that a part starts in. -/
def line : Node → Nat
  | scalar _ _ _ n => n
  | sequence _ n => n
  | mapping _ n => n
  | reference _ _ _ n => n

/-- A part in which nothing is written. -/
def empty (line : Nat) : Node := scalar "" [] true line

/-- Pairs the members of a list, of which there is an even number. -/
def pairs : List Node → List (Node × Node)
  | key :: value :: rest => (key, value) :: pairs rest
  | _ => []

end Node

/-- A document: its root, and its named nodes by number. -/
structure Document where
  root : Node
  named : Array Node

/-! ### Collections under way -/

/-- The kinds of collections. Sequences in blocks may do without an indentation of their own, and
inside of a sequence in brackets, a single entry of a mapping may do without brackets. -/
inductive Collection where
  | blockSequence
  | looseSequence
  | blockMapping
  | flowSequence
  | flowMapping
  | flowPair
  deriving DecidableEq, Repr

/-- A collection that is not complete: its members, the latest first, the members of mappings being
keys and values in turn. The last key may be known to have no value. -/
structure Unfinished where
  kind : Collection
  members : List Node
  lone : Bool
  line : Nat
  /-- The number of the collection, if it has a name. -/
  number : Option Nat

namespace Unfinished

/-- The collection as a node. -/
def toNode (u : Unfinished) : Node :=
  let members := u.members.reverse
  match u.kind with
  | .blockSequence | .looseSequence | .flowSequence => .sequence members u.line
  | .blockMapping | .flowMapping | .flowPair => .mapping (Node.pairs members) u.line

/-- Whether the next member of a mapping is a key. -/
def wantsKey (u : Unfinished) : Bool := u.members.length % 2 == 0

end Unfinished

/-- A document under way. -/
structure Assembly where
  tokens : TokenStream
  /-- The meanings of tag handles. -/
  handles : List (Bytes × Bytes)
  /-- The numbers of names, the latest first. -/
  names : List (String × Nat)
  /-- Named nodes by number; one that is not complete is shown as empty. -/
  named : Array Node
  /-- How many references there are. -/
  references : Nat
  unfinished : List Unfinished

/-- Putting a document together. -/
abbrev Assembling := StateT Assembly (Except Flaw)

/-- What is to be done next: to read a node, in a block or not, where perhaps a sequence may do
without an indentation of its own; to hand a complete node on; or to see how the innermost
collection goes on. -/
inductive Task where
  | read (inBlock loose : Bool)
  | hand (node : Node)
  | continue

namespace Assembling

/-- Stops at a problem. -/
def stop {α : Type} (flaw : Flaw) : Assembling α := fun _ => .error flaw

/-- Stops at a problem with the order of tokens, noticed at a given one. -/
def failAt {α : Type} (token : Token) (p : Problem) : Assembling α :=
  stop (Flaw.ofOrder p token.line)

/-- The next token. -/
def peek : Assembling Token := fun a =>
  match Lexing.peek a.tokens with
  | .error flaw => .error flaw
  | .ok (token, t) => .ok (token, { a with tokens := t })

/-- Passes the next token. -/
def advance : Assembling Unit := fun a =>
  match Lexing.advance a.tokens with
  | .error flaw => .error flaw
  | .ok (_, t) => .ok ((), { a with tokens := t })

/-- The kind of the next token. -/
def peekKind : Assembling TokenKind := do return (← peek).kind

/-! ### Directives -/

/-- The handles that have a meaning without a directive. -/
def standardHandles : List (Bytes × Bytes) :=
  [(Bytes.ofString "!", Bytes.ofString "!"),
    (Bytes.ofString "!!", Bytes.ofString "tag:yaml.org,2002:")]

/-- Reads at most `n` directives. Only version 1.1 is known; neither the version nor the meaning of
a handle may be given twice. -/
def readDirectives : (n : Nat) → (versioned : Bool) → Assembling Unit
  | 0, _ => stop (Flaw.ofOctets .unknown)
  | n + 1, versioned => do
    let token ← peek
    match token.kind with
    | .versionDirective major minor =>
      if versioned then failAt token .repeatedVersion
      if major ≠ 1 || minor ≠ 1 then failAt token .unknownVersion
      advance
      readDirectives n true
    | .tagDirective handle stem =>
      if ((← get).handles.lookup handle).isSome then failAt token .repeatedHandle
      modify fun a => { a with handles := a.handles ++ [(handle, stem)] }
      advance
      readDirectives n versioned
    | _ => modify fun a => { a with handles := a.handles ++ standardHandles }

/-! ### Nodes -/

/-- What may stand in front of a node: its name and the token of its tag, in any order. -/
structure Properties where
  name : Option String
  tag : Option Token
  line : Nat

/-- Reads what stands in front of a node, with the line that it starts in. -/
def readProperties : Assembling Properties := do
  let first ← peek
  match first.kind with
  | .anchor name =>
    advance
    let second ← peek
    match second.kind with
    | .tag _ _ =>
      advance
      return ⟨some name, some second, first.line⟩
    | _ => return ⟨some name, none, first.line⟩
  | .tag _ _ =>
    advance
    match ← peekKind with
    | .anchor name =>
      advance
      return ⟨some name, some first, first.line⟩
    | _ => return ⟨none, some first, first.line⟩
  | _ => return ⟨none, none, first.line⟩

/-- The tag that is meant by a token. A handle has to have a meaning. Without a token the tag is
empty. -/
def tagOf (token : Option Token) : Assembling Bytes := do
  match token with
  | some ⟨.tag handle suffix, line⟩ =>
    if handle.isEmpty then return suffix
    match (← get).handles.lookup handle with
    | none => stop (Flaw.ofOrder .undefinedHandle line)
    | some stem => return stem ++ suffix
  | _ => return []

/-- Gives a number to a node that has a name. -/
def register (name : Option String) : Assembling (Option Nat) := do
  match name with
  | none => return none
  | some name =>
    let number := (← get).named.size
    modify fun a =>
      { a with names := (name, number) :: a.names, named := a.named.push (Node.empty 0) }
    return some number

/-- Notes that the node with a number is complete. -/
def settle (number : Option Nat) (node : Node) : Assembling Unit :=
  match number with
  | none => return ()
  | some n => modify fun a => { a with named := a.named.setIfInBounds n node }

/-- A scalar that is complete. -/
def scalar (p : Properties) (tag : Bytes) (text : String) (implicit : Bool) : Assembling Task := do
  let node := Node.scalar text tag implicit p.line
  settle (← register p.name) node
  return .hand node

/-- Opens a collection. -/
def openCollection (kind : Collection) (name : Option String) (line : Nat) : Assembling Task := do
  let number ← register name
  modify fun a => { a with unfinished := ⟨kind, [], false, line, number⟩ :: a.unfinished }
  return .continue

/-- The tag that is nothing but an exclamation mark. It says that a scalar stands for what its text
says. -/
def bareTag : Bytes := Bytes.ofString "!"

/-- Reads the beginning of a node. Where only a name or a tag is written, the node is empty. -/
def readNode (inBlock loose : Bool) : Assembling Task := do
  let first ← peek
  if let .alias name := first.kind then
    match (← get).names.lookup name with
    | none => stop (Flaw.ofOctets (.unknownName name))
    | some target =>
      advance
      let serial := (← get).references
      modify fun a => { a with references := serial + 1 }
      return .hand (.reference name target serial first.line)
  let p ← readProperties
  let token ← peek
  let tag ← tagOf p.tag
  match token.kind with
  | .scalar text plain =>
    advance
    scalar p tag text (if tag.isEmpty then plain else tag = bareTag)
  | .flowSequenceStart =>
    advance
    openCollection .flowSequence p.name p.line
  | .flowMappingStart =>
    advance
    openCollection .flowMapping p.name p.line
  | kind =>
    if loose && kind = .blockEntry then openCollection .looseSequence p.name p.line
    else if inBlock && kind = .blockSequenceStart then
      advance
      openCollection .blockSequence p.name p.line
    else if inBlock && kind = .blockMappingStart then
      advance
      openCollection .blockMapping p.name p.line
    else if p.name.isSome || !tag.isEmpty then scalar p tag "" tag.isEmpty
    else failAt token .missingNode

/-! ### Collections -/

/-- Closes the innermost collection. -/
def close (u : Unfinished) : Assembling Task := do
  modify fun a => { a with unfinished := a.unfinished.tail }
  settle u.number u.toNode
  return .hand u.toNode

/-- Passes the token that ends the innermost collection, and closes it. -/
def closeAt (u : Unfinished) : Assembling Task := do
  advance
  close u

/-- Passes a token behind which a node may be missing: it is, if one of some tokens follows. In a
block it is missing behind the token, and otherwise in front of its follower. -/
def readUnless (inBlock loose : Bool) (followers : List TokenKind) : Assembling Task := do
  let token ← peek
  advance
  let follower ← peek
  if followers.contains follower.kind then
    return .hand (Node.empty (if inBlock then token.line else follower.line))
  else return .read inBlock loose

/-- Goes on with a sequence in a block. -/
def continueBlockSequence (u : Unfinished) : Assembling Task := do
  let token ← peek
  match token.kind with
  | .blockEntry => readUnless true false [.blockEntry, .blockEnd]
  | .blockEnd => closeAt u
  | _ => failAt token .missingEntry

/-- Goes on with a sequence that has no indentation of its own. -/
def continueLooseSequence (u : Unfinished) : Assembling Task := do
  match ← peekKind with
  | .blockEntry => readUnless true false [.blockEntry, .key, .value, .blockEnd]
  | _ => close u

/-- Goes on with a mapping in a block. -/
def continueBlockMapping (u : Unfinished) : Assembling Task := do
  let token ← peek
  let followers := [TokenKind.key, .value, .blockEnd]
  if u.wantsKey then
    match token.kind with
    | .key => readUnless true true followers
    | .blockEnd => closeAt u
    | _ => failAt token .missingKey
  else
    match token.kind with
    | .value => readUnless true true followers
    | _ => return .hand (Node.empty token.line)

/-- Passes the comma in front of a member of a collection in brackets, which is a problem if it is
missing. The first member needs none. -/
def passComma (u : Unfinished) (p : Problem) : Assembling Unit := do
  unless u.members.isEmpty do
    let token ← peek
    match token.kind with
    | .flowEntry => advance
    | _ => failAt token p

/-- Goes on with a sequence in brackets. -/
def continueFlowSequence (u : Unfinished) : Assembling Task := do
  if (← peekKind) = .flowSequenceEnd then closeAt u
  else
    passComma u .missingCommaInSequence
    let token ← peek
    match token.kind with
    | .flowSequenceEnd => closeAt u
    | .key =>
      advance
      openCollection .flowPair none token.line
    | _ => return .read false false

/-- Goes on with a value in brackets, `closing` being the bracket that may end it. -/
def continueFlowValue (closing : TokenKind) : Assembling Task := do
  let token ← peek
  match token.kind with
  | .value => readUnless false false [.flowEntry, closing]
  | _ => return .hand (Node.empty token.line)

/-- Goes on with a single entry of a mapping. If the key is missing, the token in its place is
passed. -/
def continueFlowPair (u : Unfinished) : Assembling Task := do
  match u.members with
  | [] =>
    let token ← peek
    if [TokenKind.value, .flowEntry, .flowSequenceEnd].contains token.kind then
      advance
      return .hand (Node.empty token.line)
    else return .read false false
  | [_] => continueFlowValue .flowSequenceEnd
  | _ =>
    let _ ← peek
    close u

/-- Goes on with a mapping in brackets. -/
def continueFlowMapping (u : Unfinished) : Assembling Task := do
  if u.wantsKey then
    if (← peekKind) = .flowMappingEnd then closeAt u
    else
      passComma u .missingCommaInMapping
      match ← peekKind with
      | .flowMappingEnd => closeAt u
      | .key => readUnless false false [.value, .flowEntry, .flowMappingEnd]
      | _ =>
        let keyAlone := { u with lone := true }
        modify fun a => { a with unfinished := keyAlone :: a.unfinished.tail }
        return .read false false
  else if u.lone then
    let token ← peek
    modify fun a => { a with unfinished := { u with lone := false } :: a.unfinished.tail }
    return .hand (Node.empty token.line)
  else continueFlowValue .flowMappingEnd

/-- Goes on with the innermost collection. -/
def continueCollection (u : Unfinished) : Assembling Task :=
  match u.kind with
  | .blockSequence => continueBlockSequence u
  | .looseSequence => continueLooseSequence u
  | .blockMapping => continueBlockMapping u
  | .flowSequence => continueFlowSequence u
  | .flowMapping => continueFlowMapping u
  | .flowPair => continueFlowPair u

/-! ### Documents -/

/-- One step. It leads to another task, or to the root of the document. -/
def step : Task → Assembling (Task ⊕ Node)
  | .read inBlock loose => do return .inl (← readNode inBlock loose)
  | .hand node => do
    match (← get).unfinished with
    | [] => return .inr node
    | u :: outer =>
      modify fun a => { a with unfinished := { u with members := node :: u.members } :: outer }
      return .inl .continue
  | .continue => do
    match (← get).unfinished with
    | [] => stop (Flaw.ofOctets .unknown)
    | u :: _ => return .inl (← continueCollection u)

/-- Carries a task out, and all that follow it, in at most `n` steps. -/
def run : (n : Nat) → Task → Assembling Node
  | 0, _ => stop (Flaw.ofOctets .unknown)
  | n + 1, task => fun a =>
    match step task a with
    | .error flaw => .error flaw
    | .ok (.inr root, a) => .ok (root, a)
    | .ok (.inl task, a) => run n task a

/-- Starts a document. There is none in a text that is empty; a document that is marked as one may
be empty. -/
def start : Assembling (Option Task) := do
  let first ← peek
  match first.kind with
  | .streamEnd => return none
  | .versionDirective .. | .tagDirective .. | .documentStart =>
    readDirectives ((← get).tokens.source.bound + 1) false
    let marker ← peek
    match marker.kind with
    | .documentStart => advance
    | _ => failAt marker .missingDocumentStart
    let token ← peek
    match token.kind with
    | .versionDirective .. | .tagDirective .. | .documentStart | .documentEnd | .streamEnd =>
      return some (.hand (Node.empty token.line))
    | _ => return some (.read true false)
  | _ =>
    modify fun a => { a with handles := standardHandles }
    return some (.read true false)

/-- Reads the first document, if there is one. It ends in front of any token. -/
def document : Assembling (Option Document) := do
  match ← start with
  | none => return none
  | some task =>
    let root ← run (64 * ((← get).tokens.source.bound + 1)) task
    let _ ← peek
    return some ⟨root, (← get).named⟩

end Assembling

/-- Reads the first document of a text, which has a flaw if it is not YAML. -/
def Document.read (text : Bytes) : Except Flaw (Option Document) :=
  (Assembling.document ⟨TokenStream.ofBytes text, [], [], #[], 0, []⟩).map (·.1)

end RobotGolf.Yaml
