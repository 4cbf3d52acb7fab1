import EoAssembly.Yaml.Scanner

/-!
Contract: from the tokens of a YAML text to the one document it holds.

Owns:
- `Node`, with aliases replaced by what their anchors name;
- the grammar of documents, collections and scalars over tokens;
- `Node.ofText?`, which refuses a text with no document or with several.
-/

namespace EoAssembly.Yaml

/-- A node of a document; a tag is kept on scalars only, where it can matter. -/
inductive Node where
  | scalar (style : Style) (tag : Option String) (text : String)
  | sequence (items : List Node)
  | mapping (entries : List (Node × Node))

namespace Node

/-- The scalar that stands where nothing is written. -/
def absent : Node := .scalar .plain none ""

/-- What a document has declared so far: the meaning of tag handles, and the nodes
that anchors name, the latest first. -/
structure Context where
  handles : List (String × String)
  anchors : List (String × Node)

/-- The lead of the tags of the format itself. -/
def coreLead : String := "tag:yaml.org,2002:"

/-- The handles that every document knows. -/
def coreHandles : List (String × String) := [("!", "!"), ("!!", coreLead)]

/-- The full text of a tag. -/
def fullTag? (context : Context) (handle suffix : String) : Option String :=
  if handle = "" then some suffix
  else ((context.handles ++ coreHandles).lookup handle).map (· ++ suffix)

/-- The anchor and the tag before a node. -/
structure Properties where
  anchor : Option String
  tag : Option String

/-- The properties at the start of tokens, at most one of each, and what follows. -/
def propertiesFrom? (context : Context) (tokens : List Token) :
    Option (Properties × List Token) :=
  match tokens with
  | .anchor name :: .tag handle suffix :: rest =>
    (fullTag? context handle suffix).map fun tag => (⟨some name, some tag⟩, rest)
  | .tag handle suffix :: .anchor name :: rest =>
    (fullTag? context handle suffix).map fun tag => (⟨some name, some tag⟩, rest)
  | .anchor name :: rest => some (⟨some name, none⟩, rest)
  | .tag handle suffix :: rest =>
    (fullTag? context handle suffix).map fun tag => (⟨none, some tag⟩, rest)
  | rest => some (⟨none, none⟩, rest)

/-- A context that knows the anchor of a node. -/
def Context.named (context : Context) (properties : Properties) (node : Node) : Context :=
  match properties.anchor with
  | some name => { context with anchors := (name, node) :: context.anchors }
  | none => context

/-- Whether a node may be left out before a token of an entry outside of brackets. -/
def endsBlockEntry (tokens : List Token) : Bool :=
  match tokens with
  | .blockEntry :: _ => true
  | .key :: _ => true
  | .value :: _ => true
  | .blockEnd :: _ => true
  | [] => true
  | _ => false

/-- Whether a node may be left out before a token of a mapping outside of brackets. -/
def endsBlockPart (tokens : List Token) : Bool :=
  match tokens with
  | .key :: _ => true
  | .value :: _ => true
  | .blockEnd :: _ => true
  | _ => false

/-- Whether a node may be left out before a token between brackets. -/
def endsFlowPart (tokens : List Token) : Bool :=
  match tokens with
  | .value :: _ => true
  | .flowEntry :: _ => true
  | .flowSequenceEnd :: _ => true
  | .flowMappingEnd :: _ => true
  | _ => false

mutual

/-- A node.  `inBlock` allows collections made by columns, and `bare` allows the
entries of a sequence at the column of their key. -/
def nodeFrom (inBlock bare : Bool) : Nat → Context → List Token →
    Option (Node × Context × List Token)
  | 0, _, _ => none
  | _ + 1, context, .alias name :: rest =>
    (context.anchors.lookup name).map fun node => (node, context, rest)
  | fuel + 1, context, tokens =>
    match propertiesFrom? context tokens with
    | none => none
    | some (properties, rest) =>
      match contentFrom inBlock bare fuel context properties rest with
      | none => none
      | some (node, next, behind) => some (node, next.named properties node, behind)

/-- The content of a node behind its properties. -/
def contentFrom (inBlock bare : Bool) : Nat → Context → Properties → List Token →
    Option (Node × Context × List Token)
  | 0, _, _, _ => none
  | fuel + 1, context, properties, tokens =>
    match tokens with
    | .scalar style text :: rest => some (.scalar style properties.tag text, context, rest)
    | .flowSequenceStart :: rest => flowItems true fuel context rest
    | .flowMappingStart :: rest => flowEntries true fuel context rest
    | .blockSequenceStart :: rest =>
      if inBlock then blockItems fuel context rest else absentWith properties context tokens
    | .blockMappingStart :: rest =>
      if inBlock then blockEntries fuel context rest else absentWith properties context tokens
    | .blockEntry :: _ =>
      if bare then bareItems fuel context tokens else absentWith properties context tokens
    | _ => absentWith properties context tokens

/-- Nothing, where a property stands for it. -/
def absentWith (properties : Properties) (context : Context) (tokens : List Token) :
    Option (Node × Context × List Token) :=
  if properties.anchor.isSome || properties.tag.isSome then
    some (.scalar .plain properties.tag "", context, tokens)
  else none

/-- A node of a sequence or a mapping made by columns, or nothing at its end. -/
def partFrom (bare left : Bool) : Nat → Context → List Token →
    Option (Node × Context × List Token)
  | 0, _, _ => none
  | fuel + 1, context, tokens =>
    if left then some (absent, context, tokens) else nodeFrom true bare fuel context tokens

/-- The entries of a sequence made by columns, to its end. -/
def blockItems : Nat → Context → List Token → Option (Node × Context × List Token)
  | 0, _, _ => none
  | fuel + 1, context, tokens =>
    match tokens with
    | .blockEnd :: rest => some (.sequence [], context, rest)
    | .blockEntry :: rest =>
      let left := match rest with
        | .blockEntry :: _ => true
        | .blockEnd :: _ => true
        | _ => false
      match partFrom false left fuel context rest with
      | none => none
      | some (node, next, behind) =>
        match blockItems fuel next behind with
        | some (.sequence others, last, final) => some (.sequence (node :: others), last, final)
        | _ => none
    | _ => none

/-- The entries of a sequence at the column of its key. -/
def bareItems : Nat → Context → List Token → Option (Node × Context × List Token)
  | 0, _, _ => none
  | fuel + 1, context, tokens =>
    match tokens with
    | .blockEntry :: rest =>
      match partFrom false (endsBlockEntry rest) fuel context rest with
      | none => none
      | some (node, next, behind) =>
        match bareItems fuel next behind with
        | some (.sequence others, last, final) => some (.sequence (node :: others), last, final)
        | _ => none
    | _ => some (.sequence [], context, tokens)

/-- The entries of a mapping made by columns, to its end. -/
def blockEntries : Nat → Context → List Token → Option (Node × Context × List Token)
  | 0, _, _ => none
  | fuel + 1, context, tokens =>
    match tokens with
    | .blockEnd :: rest => some (.mapping [], context, rest)
    | .key :: rest =>
      match partFrom true (endsBlockPart rest) fuel context rest with
      | none => none
      | some (key, next, behind) => blockValue fuel key next behind
    | .value :: _ => blockValue fuel absent context tokens
    | _ => none

/-- The value behind a key, and the entries that follow. -/
def blockValue : Nat → Node → Context → List Token → Option (Node × Context × List Token)
  | 0, _, _, _ => none
  | fuel + 1, key, context, tokens =>
    let found := match tokens with
      | .value :: rest => partFrom true (endsBlockPart rest) fuel context rest
      | _ => some (absent, context, tokens)
    match found with
    | none => none
    | some (value, next, behind) =>
      match blockEntries fuel next behind with
      | some (.mapping others, last, final) => some (.mapping ((key, value) :: others), last, final)
      | _ => none

/-- A node between brackets, or nothing where it is left out. -/
def flowPart : Nat → Context → List Token → Option (Node × Context × List Token)
  | 0, _, _ => none
  | fuel + 1, context, tokens =>
    if endsFlowPart tokens then some (absent, context, tokens)
    else nodeFrom false false fuel context tokens

/-- The value of a pair between brackets, when a colon comes next. -/
def flowValue : Nat → Context → List Token → Option (Node × Context × List Token)
  | 0, _, _ => none
  | fuel + 1, context, tokens =>
    match tokens with
    | .value :: rest => flowPart fuel context rest
    | _ => some (absent, context, tokens)

/-- The entries of a sequence between brackets, to its end; a pair alone makes a
mapping of one entry. -/
def flowItems (first : Bool) : Nat → Context → List Token → Option (Node × Context × List Token)
  | 0, _, _ => none
  | fuel + 1, context, tokens =>
    match tokens with
    | .flowSequenceEnd :: rest => some (.sequence [], context, rest)
    | _ =>
      match (if first then some tokens else afterComma? tokens) with
      | none => none
      | some (.flowSequenceEnd :: rest) => some (.sequence [], context, rest)
      | some entry =>
        let found := match entry with
          | .key :: rest =>
            match flowPart fuel context rest with
            | none => none
            | some (key, next, behind) =>
              (flowValue fuel next behind).map fun value =>
                (.mapping [(key, value.1)], value.2)
          | _ => nodeFrom false false fuel context entry
        match found with
        | none => none
        | some (node, next, behind) =>
          match flowItems false fuel next behind with
          | some (.sequence others, last, final) => some (.sequence (node :: others), last, final)
          | _ => none

/-- The entries of a mapping between brackets, to its end. -/
def flowEntries (first : Bool) : Nat → Context → List Token → Option (Node × Context × List Token)
  | 0, _, _ => none
  | fuel + 1, context, tokens =>
    match tokens with
    | .flowMappingEnd :: rest => some (.mapping [], context, rest)
    | _ =>
      match (if first then some tokens else afterComma? tokens) with
      | none => none
      | some (.flowMappingEnd :: rest) => some (.mapping [], context, rest)
      | some entry =>
        let found := match entry with
          | .key :: rest =>
            match flowPart fuel context rest with
            | none => none
            | some (key, next, behind) =>
              (flowValue fuel next behind).map fun value => ((key, value.1), value.2)
          | _ =>
            (nodeFrom false false fuel context entry).map fun key => ((key.1, absent), key.2)
        match found with
        | none => none
        | some (pair, next, behind) =>
          match flowEntries false fuel next behind with
          | some (.mapping others, last, final) => some (.mapping (pair :: others), last, final)
          | _ => none

/-- What follows a comma. -/
def afterComma? : List Token → Option (List Token)
  | .flowEntry :: rest => some rest
  | _ => none

end

/-- The directives at the start of tokens: the handles they declare, whether one
gave the version, and what follows. -/
def directivesFrom? (handles : List (String × String)) (versioned : Bool) :
    List Token → Option (List (String × String) × Bool × List Token)
  | .version major minor :: rest =>
    if versioned || major != 1 || (minor != 1 && minor != 2) then none
    else directivesFrom? handles true rest
  | .handle mark lead :: rest =>
    if (handles.lookup mark).isSome then none
    else directivesFrom? ((mark, lead) :: handles) versioned rest
  | rest => some (handles, versioned, rest)

/-- The content of a document behind its start. -/
def documentContent? (fuel : Nat) (context : Context) (tokens : List Token) :
    Option (Node × List Token) :=
  match tokens with
  | [] => some (absent, [])
  | .version .. :: _ => some (absent, tokens)
  | .handle .. :: _ => some (absent, tokens)
  | .documentStart :: _ => some (absent, tokens)
  | .documentEnd :: _ => some (absent, tokens)
  | _ => (nodeFrom true false fuel context tokens).map fun found => (found.1, found.2.2)

/-- The first document at the start of tokens, which no mark has to open, and what
follows it. -/
def firstDocument? (fuel : Nat) (tokens : List Token) : Option (Node × List Token) :=
  match directivesFrom? [] false tokens with
  | none => none
  | some (handles, versioned, rest) =>
    let context : Context := ⟨handles, []⟩
    match rest with
    | .documentStart :: behind => documentContent? fuel context behind
    | _ =>
      if versioned || !handles.isEmpty || rest.isEmpty then none
      else (nodeFrom true false fuel context rest).map fun found => (found.1, found.2.2)

/-- Tokens without the marks of ended documents at their start. -/
def afterEnds (tokens : List Token) : List Token :=
  tokens.dropWhile (· == .documentEnd)

/-- The document of a text, when it holds exactly one. -/
def ofText? (text : String) : Option Node :=
  match tokens text with
  | none => none
  | some found =>
    match firstDocument? (8 * found.length + 8) found with
    | some (node, rest) => if (afterEnds rest).isEmpty then some node else none
    | none => none

end Node

end EoAssembly.Yaml
