import Dwell.Yaml.Node
import Dwell.Yaml.Token.Stream

/-!
# Documents

How the tokens of a text make up its document. Recursion is bounded by fuel: every call takes a
token or is answered at once, so a small multiple of the number of tokens is always enough, and
`Document.ofText` provides it.
-/

namespace Dwell.Yaml

/-- What an anchor stands for: a node and how many aliases there are in it, counting those in
what they stand for; none while the node is still being read. -/
structure Anchor where
  name : String
  node? : Option (Node × Nat) := none

structure Assembly where
  tokens : List Token
  /-- The anchors so far, the last one first. -/
  anchors : List Anchor := []
  /-- What the handles of tags stand for. -/
  handles : List (String × String) := []
  /-- The number of nodes written so far. -/
  nodes : Nat := 0
  /-- The number of aliases so far, counting those in what they stand for. -/
  aliases : Nat := 0

abbrev Assemble := StateT Assembly (Except Fault)

namespace Assemble

def fail {α : Type} (f : Fault) : Assemble α :=
  fun _ => .error f

def peek? : Assemble (Option Token) := do
  return (← get).tokens.head?

def skip : Assemble Unit :=
  modify fun s => { s with tokens := s.tokens.drop 1 }

/-- Takes the token ahead if it is the given one. -/
def take (t : Token) : Assemble Bool := do
  if (← peek?) == some t then
    skip
    return true
  else return false

/-- Whether the token ahead is one of some. -/
def ahead (ts : List Token) : Assemble Bool := do
  return (← peek?).any (· ∈ ts)

def count {α : Type} (a : α) : Assemble α := do
  modify fun s => { s with nodes := s.nodes + 1 }
  return a

/-- The node that an alias stands for. -/
def resolve (name : String) : Assemble Node := do
  let s ← get
  match s.anchors.find? (·.name == name) with
  | some ⟨_, some (n, inside)⟩ =>
    set { s with aliases := s.aliases + 1 + inside, nodes := s.nodes + 1 }
    return n
  | some ⟨_, none⟩ =>
    set { s with nodes := s.nodes + 1 }
    return .endless
  | none => fail (.undefinedAnchor name)

/-- The tag that a handle and a suffix make up. -/
def tag (handle suffix : String) : Assemble String := do
  if handle = "" then return suffix
  match (← get).handles.lookup handle with
  | some expansion => return expansion ++ suffix
  | none => fail .badTag

structure Properties where
  anchor? : Option String := none
  tag? : Option String := none

/-- The anchor ahead, if there is one. -/
def takeAnchor : Assemble (Option String) := do
  match ← peek? with
  | some (.anchor name) =>
    skip
    return some name
  | _ => return none

/-- The tag ahead, if there is one. -/
def takeTag : Assemble (Option String) := do
  match ← peek? with
  | some (.tag handle suffix) =>
    skip
    some <$> tag handle suffix
  | _ => return none

/-- The anchor and the tag before a node, in either order. -/
def properties : Assemble Properties := do
  match ← takeAnchor with
  | some name => return ⟨some name, ← takeTag⟩
  | none =>
    let t ← takeTag
    if t.isSome then return ⟨← takeAnchor, t⟩ else return {}

/-- Reads a node that has an anchor. Aliases inside it have no end, those after it stand for it. -/
def anchored (name? : Option String) (read : Assemble Node) : Assemble Node := do
  match name? with
  | none => read
  | some name =>
    let before ← get
    let place := before.anchors.length
    set { before with anchors := ⟨name, none⟩ :: before.anchors }
    let n ← read
    modify fun s => { s with
      anchors := s.anchors.set (s.anchors.length - 1 - place)
        ⟨name, some (n, s.aliases - before.aliases)⟩ }
    return n

mutual

/-- Reads a node. Only in a block may it be a block collection, and only as a key or a value of a
block an unindented sequence. -/
def node (block unindented : Bool) : Nat → Assemble Node
  | 0 => fail .tooDeep
  | fuel + 1 => do
    if let some (.alias name) := ← peek? then
      skip
      resolve name
    else
      let p ← properties
      anchored p.anchor? (content block unindented p fuel)

/-- Reads a node behind its anchor and tag. -/
def content (block unindented : Bool) (p : Properties) : Nat → Assemble Node
  | 0 => fail .tooDeep
  | fuel + 1 => do
    match ← peek? with
    | some .item =>
      if unindented then count (.seq (← unindentedItems fuel) p.tag?)
      else missing p
    | some (.scalar text style) =>
      skip
      count (.scalar text style (p.tag?.filter (· ≠ "!")))
    | some .flowSequence =>
      skip
      count (.seq (← flowItems true fuel) p.tag?)
    | some .flowMapping =>
      skip
      count (.map (← flowEntries true fuel) p.tag?)
    | some .blockSequence =>
      if block then
        skip
        count (.seq (← blockItems fuel) p.tag?)
      else missing p
    | some .blockMapping =>
      if block then
        skip
        count (.map (← blockEntries fuel) p.tag?)
      else missing p
    | _ => missing p

/-- The node where none is written: an empty scalar, if it has an anchor or a tag. -/
def missing (p : Properties) : Assemble Node := do
  if p.anchor?.isSome ∨ p.tag?.isSome then
    count (.scalar "" .plain (p.tag?.filter (· ≠ "!")))
  else fail .expectedNode

/-- Reads a node of a block, or an empty one if a token is ahead that can follow it. -/
def nodeOrEmpty (block unindented : Bool) (stops : List Token) : Nat → Assemble Node
  | 0 => fail .tooDeep
  | fuel + 1 => do
    if ← ahead stops then count .empty else node block unindented fuel

def blockItems : Nat → Assemble (List Node)
  | 0 => fail .tooDeep
  | fuel + 1 => do
    if ← take .item then
      let n ← nodeOrEmpty true false [.item, .blockEnd] fuel
      return n :: (← blockItems fuel)
    else if ← take .blockEnd then return []
    else fail .expectedEntry

def unindentedItems : Nat → Assemble (List Node)
  | 0 => fail .tooDeep
  | fuel + 1 => do
    if ← take .item then
      let n ← nodeOrEmpty true false [.item, .key, .value, .blockEnd] fuel
      return n :: (← unindentedItems fuel)
    else return []

def blockEntries : Nat → Assemble (List (Node × Node))
  | 0 => fail .tooDeep
  | fuel + 1 => do
    if ← take .blockEnd then return []
    if !(← take .key) then fail .expectedEntry
    let k ← nodeOrEmpty true true [.key, .value, .blockEnd] fuel
    let v ←
      if ← take .value then nodeOrEmpty true true [.key, .value, .blockEnd] fuel
      else count .empty
    return (k, v) :: (← blockEntries fuel)

/-- The value of an entry between brackets that end with a token. -/
def flowValue (close : Token) : Nat → Assemble Node
  | 0 => fail .tooDeep
  | fuel + 1 => do
    if ← take .value then nodeOrEmpty false false [.comma, close] fuel else count .empty

def flowItems (first : Bool) : Nat → Assemble (List Node)
  | 0 => fail .tooDeep
  | fuel + 1 => do
    if ← take .flowSequenceEnd then return []
    if !first then
      if !(← take .comma) then fail .expectedEntry
      if ← take .flowSequenceEnd then return []
    let n ←
      if ← take .key then do
        let k ← flowItemKey fuel
        let v ← flowValue .flowSequenceEnd fuel
        count (.map [(k, v)])
      else node false false fuel
    return n :: (← flowItems false fuel)

/-- The key of an item that is an entry. Where it is left out the token ahead is passed over. -/
def flowItemKey : Nat → Assemble Node
  | 0 => fail .tooDeep
  | fuel + 1 => do
    if ← ahead [.value, .comma, .flowSequenceEnd] then
      skip
      count .empty
    else node false false fuel

def flowEntries (first : Bool) : Nat → Assemble (List (Node × Node))
  | 0 => fail .tooDeep
  | fuel + 1 => do
    if ← take .flowMappingEnd then return []
    if !first then
      if !(← take .comma) then fail .expectedEntry
      if ← take .flowMappingEnd then return []
    let e ←
      if ← take .key then do
        let k ← nodeOrEmpty false false [.value, .comma, .flowMappingEnd] fuel
        let v ← flowValue .flowMappingEnd fuel
        pure (k, v)
      else do
        let k ← node false false fuel
        pure (k, ← count .empty)
    return e :: (← flowEntries false fuel)

end

/-- The directives ahead. One version at most, which must be 1.1 or 1.2, and each handle once. -/
def directives : Nat → (versions : Nat) → Assemble Unit
  | 0, _ => fail .badDirective
  | fuel + 1, versions => do
    match ← peek? with
    | some (.version major minor) =>
      if versions > 0 ∨ major ≠ 1 ∨ (minor ≠ 1 ∧ minor ≠ 2) then fail .badDirective
      skip
      directives fuel (versions + 1)
    | some (.shorthand handle expansion) =>
      let s ← get
      if (s.handles.lookup handle).isSome then fail .badDirective
      set { s with handles := (handle, expansion) :: s.handles }
      skip
      directives fuel versions
    | _ => return ()

/-- What tag handles stand for unless a directive says otherwise. -/
def standardHandles : List (String × String) :=
  [("!", "!"), ("!!", "tag:yaml.org,2002:")]

/-- Reads the directives and the marker before a document. -/
def explicitStart (fuel : Nat) : Assemble Unit := do
  directives fuel 0
  if !(← take .documentStart) then fail .expectedEntry

/-- Reads a document, of which only the first may begin without a marker. -/
def document (fuel : Nat) : Assemble Node := do
  let isMarked := match ← peek? with
    | some (.version ..) | some (.shorthand ..) | some .documentStart => true
    | _ => false
  if isMarked then explicitStart fuel
  modify fun s => { s with handles := s.handles ++ standardHandles }
  match isMarked, ← peek? with
  | true, some (.version ..) | true, some (.shorthand ..) | true, some .documentStart
  | true, some .documentEnd | true, none => count .empty
  | _, _ => node true false fuel

end Assemble

/-- The document of a text; none when the text holds no document at all. Aliases may not multiply
the nodes of a text a hundredfold. -/
def Document.ofText (text : String) : Except Fault (Option Node) := do
  let tokens ← Token.ofText text
  if tokens = [] then return none
  let (n, s) ← (Assemble.document (4 * tokens.length + 8)).run { tokens }
  if (s.tokens.dropWhile (· == .documentEnd)) ≠ [] then throw .severalDocuments
  if s.aliases > 100 * s.nodes then throw .tooDeep
  return some n

end Dwell.Yaml
