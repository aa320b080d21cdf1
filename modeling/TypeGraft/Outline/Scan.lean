import TypeGraft.Outline
import TypeGraft.Event
import TypeGraft.Failure

/-!
# Scanning a tree

`TypeGraft.Outline.ofTree` takes the outline of a script from its tree. Only the statements at
the top of the script count, with the words in front of them that export them or declare them
ambient; blocks and namespaces are not looked into.

**A name that is declared twice** is an error of a strict scan. Otherwise the last
declaration counts, and a warning names the first.
-/

namespace TypeGraft.Outline

open Syntax

/-- What a scan comes to: an outline so far and the warnings, or a fault. -/
abbrev Scan := Except Fault (Outline × List Event)

/-- The content of a quoted text: what stands between two like quotes. -/
def unquoted (text : String) : String :=
  let chars := text.toList
  match chars.head?, chars.getLast? with
  | some a, some b =>
    if 2 ≤ chars.length && a == b && ['\'', '"', '`'].contains a then
      String.ofList (chars.drop 1).dropLast
    else text
  | _, _ => text

/-! ### Declarations -/

/-- The kind of the value that a member of an enumeration is given, if it shows: that of a
number, a number with an operator in front of it, a string or a template without
substitutions, each perhaps in parentheses. -/
def valueKind? : Node → Option ValueKind
  | .mk kind _ _ children =>
    match kind with
    | .number => some .number
    | .unary =>
      match (children.filter (·.kind.named)).getLast? with
      | some last => if last.kind = .number then some .number else none
      | none => none
    | .string => some .string
    | .template => if children.any (·.kind == .substitution) then none else some .string
    | .parenthesized => inside children
    | _ => none
where
  /-- The kind of the first named one of some nodes. -/
  inside : List Node → Option ValueKind
    | [] => none
    | child :: rest => if child.kind.named then valueKind? child else inside rest

/-- The kind of the value of a member of an enumeration. A member that is given none is
numbered. -/
def memberKind? (member : Node) : Option ValueKind :=
  if member.kind = .enumAssignment then (member.child? .value).bind valueKind? else some .number

/-- The kinds of values in the block of an enumeration. -/
def valueKinds (block : Node) : List ValueKind :=
  (block.namedChildren.filter fun m => !m.isComment).filterMap memberKind?

/-- The entry of a list of bases at a node, if the node names a type. -/
def heritage? (source : Bytes) (type : Node) : Option Heritage :=
  let clause (name : Node) (arguments : Option Node) : Heritage :=
    ⟨name.text source, name.span, type.span, type.text source, arguments⟩
  match type.kind with
  | .genericType =>
    some (clause ((type.child? .name).getD type) (type.childOfKind? .typeArguments))
  | .typeIdentifier | .qualifiedType => some (clause type none)
  | _ => none

/-- The types that an interface extends. -/
def bases (source : Bytes) (node : Node) : List Heritage :=
  (node.children.filter (·.kind == .extendsClause)).flatMap fun clause =>
    clause.namedChildren.filterMap (heritage? source)

/-- The names in a list of type parameters. -/
def parameterNames (source : Bytes) (parameters : Node) : List String :=
  (parameters.namedChildren.filter (·.kind == .typeParameter)).filterMap fun parameter =>
    (parameter.child? .name).map (·.text source)

/-- The declaration at a node, with the block or the value that it needs. -/
def declaration? (path : String) (source : Bytes) (statement node : Node) :
    Option Declaration := do
  let name ← node.child? .name
  let parameters := node.child? .typeParameters
  let common (body : Span) (content : Bytes) (shape : Shape) : Declaration :=
    { name := name.text source, file := path, span := node.span, statement := statement.span
      body, content, shape
      typeParameters := (parameters.map (·.text source)).getD ""
      parameterNames := (parameters.map (parameterNames source)).getD []
      line := lineAt source node.span.start }
  match node.kind with
  | .typeAlias =>
    let value ← node.child? .value
    some (common value.span (value.bytes source) (.alias value))
  | .interface =>
    let block ← node.child? .body
    some (common block.span (block.bytes source) (.interface (bases source node) block))
  | .enumeration =>
    let kinds := ((node.child? .body).map valueKinds).getD []
    some { common node.span (Bytes.ofString (enumerationBody kinds)) .enumeration with
      typeParameters := "" }
  | _ => none

/-- Add a declaration to an outline. -/
def declare (strict : Bool) (d : Declaration) (outline : Outline) : Scan :=
  let registered := { outline with declarations := outline.declarations.put d.name d }
  match outline.declarations.get? d.name with
  | none => .ok (registered, [])
  | some first =>
    if strict then .error (.redeclared outline.path d.name first.line d.line)
    else .ok (registered, [.redeclared outline.path d.line d.name first.line])

/-! ### Imports and exports -/

/-- The binding of a name at a node. -/
def binding (source : Bytes) (name foreignName specifier : String) (node : Node) : Binding :=
  ⟨name, foreignName, specifier, node.span, lineAt source node.span.start⟩

/-- The names that a list in braces brings in, each with its text. -/
def namedBindings (source : Bytes) (specifier : String) (list : Node) : List (Binding × String) :=
  (list.namedChildren.filter (·.kind == .importSpecifier)).map fun entry =>
    let foreignName := unquoted (((entry.child? .name).map (·.text source)).getD "")
    let name := ((entry.child? .alias).map (·.text source)).getD foreignName
    (binding source name foreignName specifier entry, entry.text source)

/-- Add one part of an import clause to a statement. -/
def addPart (source : Bytes) (specifier : String) (statement : Import) (part : Node) :
    Import :=
  match part.kind with
  | .identifier =>
    { statement with
      default := some (binding source (part.text source) "default" specifier part) }
  | .namespaceImport => { statement with wholeModule := some (part.text source) }
  | .namedImports =>
    { statement with named := statement.named ++ namedBindings source specifier part }
  | _ => statement

/-- The bindings of one part of an import clause. -/
def partBindings (source : Bytes) (specifier : String) (part : Node) : List Binding :=
  match part.kind with
  | .identifier => [binding source (part.text source) "default" specifier part]
  | .namedImports => (namedBindings source specifier part).map (·.1)
  | _ => []

/-- Add an import statement to an outline. An import from no module is passed over. -/
def addImport (node : Node) (outline : Outline) : Outline :=
  match node.child? .source with
  | none => outline
  | some from_ =>
    let source := outline.source
    let specifier := unquoted (from_.text source)
    let parts := ((node.childOfKind? .importClause).map Node.namedChildren).getD []
    let statement : Import :=
      { span := node.span, quotedModule := from_.text source
        typeOnly := node.hasToken "type"
        terminated := (node.children.getLast?.map (·.kind == .token ";")).getD false
        default := none, wholeModule := none, named := [] }
    { outline with
      imports := (parts.flatMap (partBindings source specifier)).foldl
        (fun table b => table.put b.name b) outline.imports
      importList := outline.importList ++
        [parts.foldl (addPart source specifier) statement] }

/-- Add one entry of a list of exports to an outline. -/
def addExport (specifier : Option String) (outline : Outline) (entry : Node) : Outline :=
  let source := outline.source
  let name := unquoted (((entry.child? .name).map (·.text source)).getD "")
  let exported := ((entry.child? .alias).map fun n => unquoted (n.text source)).getD name
  match specifier with
  | none => { outline with exports := outline.exports.put exported name }
  | some specifier =>
    { outline with
      reexports := outline.reexports.put exported (binding source exported name specifier entry) }

/-- Add an export without a declaration to an outline. -/
def addExports (node : Node) (outline : Outline) : Outline :=
  let source := outline.source
  let specifier := (node.child? .source).map fun n => unquoted (n.text source)
  match node.childOfKind? .exportClause with
  | some clause =>
    (clause.namedChildren.filter (·.kind == .exportSpecifier)).foldl (addExport specifier) outline
  | none =>
    match specifier with
    | some specifier =>
      if (node.childOfKind? .namespaceExport).isNone && node.hasToken "*" then
        { outline with starExports := outline.starExports ++ [specifier] }
      else outline
    | none => outline

/-- Export a name as the default. -/
def exportDefault (name : String) (outline : Outline) : Outline :=
  { outline with exports := outline.exports.put "default" name }

/-! ### Statements -/

/-- What the visit of a statement comes to: the outline, the warnings, and the name of the
type that it declares. -/
abbrev Visit := Except Fault (Outline × List Event × Option String)

mutual

/-- Visit a node that is part of `statement`. -/
def visit (strict : Bool) (statement : Node) (outline : Outline) : Node → Visit
  | .mk kind field span children =>
    let node := Node.mk kind field span children
    match kind with
    | .importStatement => .ok (addImport node outline, [], none)
    | .exportStatement => visitExport strict node outline children
    | .ambient => visitAmbient strict statement outline children
    | _ =>
      match declaration? outline.path outline.source statement node with
      | none => .ok (outline, [], none)
      | some d => (declare strict d outline).map fun (o, events) => (o, events, some d.name)

/-- Visit the parts of an export. What it declares is visited, as part of the export. -/
def visitExport (strict : Bool) (node : Node) (outline : Outline) : List Node → Visit
  | [] =>
    if node.hasToken "default" then
      match node.child? .value with
      | some value =>
        if value.kind = .identifier then
          .ok (exportDefault (value.text outline.source) outline, [], none)
        else .ok (outline, [], none)
      | none => .ok (outline, [], none)
    else .ok (addExports node outline, [], none)
  | child :: rest =>
    if child.field = some .declaration then
      (visit strict node outline child).map fun (outline, events, name) =>
        match name with
        | some name =>
          (if node.hasToken "default" then exportDefault name outline else outline, events, none)
        | none => (outline, events, none)
    else visitExport strict node outline rest

/-- Visit the parts of an ambient declaration, up to the first that declares a type. -/
def visitAmbient (strict : Bool) (statement : Node) (outline : Outline) : List Node → Visit
  | [] => .ok (outline, [], none)
  | child :: rest =>
    if child.kind.named then
      match visit strict statement outline child with
      | .error fault => .error fault
      | .ok (outline, events, some name) => .ok (outline, events, some name)
      | .ok (outline, events, none) =>
        (visitAmbient strict statement outline rest).map fun (o, more, name) =>
          (o, events ++ more, name)
    else visitAmbient strict statement outline rest

end

/-- Visit statements one after the other. -/
def visitAll (strict : Bool) (outline : Outline) : List Node → Scan
  | [] => .ok (outline, [])
  | node :: rest =>
    match visit strict node outline node with
    | .error fault => .error fault
    | .ok (outline, events, _) =>
      (visitAll strict outline rest).map fun (o, more) => (o, events ++ more)

/-- The outline of the script at `path` with a tree. -/
def ofTree (strict : Bool) (path : String) (source : Bytes) (tree : Node) : Scan :=
  visitAll strict (empty path source) tree.namedChildren

end TypeGraft.Outline
