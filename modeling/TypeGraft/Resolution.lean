import TypeGraft.Harvest.Binding
import TypeGraft.Script

/-!
# The search for declarations

Requested names are looked for in their file, and what is found there is searched for further
names. `TypeGraft.Resolution.run` takes a search to its end, one `Resolution.step` at a time.

**One file at a time.** A `TypeGraft.Frame` is the work that is left in a file. It first takes
all names from its queue, where declarations add the names that they mention
(`Harvest.meet`). Names that the file imports or passes on are set aside, and then looked for
in their modules, one module after the other; each of these is a frame of its own, which is
brought to its end before the work goes on. Names that are still missing are at last looked
for in the modules of which the file exports everything.

**The world** (`TypeGraft.World`) answers two questions: what is in a file, and which file a
specifier leads to.

**The end.** A world has finitely many places, so only so many files can be read
(`TypeGraft.Resolution.run`). Between two of these, no reference comes to a place twice and no
declaration is taken in twice, which bounds the number of steps
(`TypeGraft.Resolution.allowance`).
-/

namespace TypeGraft

/-- What a search needs to know of the files around it. -/
structure World where
  /-- The bytes of a file. -/
  read : String → Except Fault Bytes
  /-- The file that a specifier in a file leads to, if any. -/
  locate : (specifier origin : String) → Except Failure (Option String) × List Event
  /-- All files that a specifier may lead to. -/
  places : List String

/-- What becomes of a name that was looked for in a file. -/
inductive Found where
  /-- Nothing is left to do for it here. -/
  | settled
  /-- It comes from another module. -/
  | elsewhere (binding : Binding)
  /-- It may be one of the names of which the file does not say where they come from. -/
  | starred
  /-- It is declared here, and its declaration mentions further names. -/
  | declared (mentioned : List Query)

/-- The work that is left in a file. -/
inductive Stage where
  /-- Look for the names in a queue. -/
  | names (queue : List Query) (missing : List (Query × Binding)) (starred : List Query)
  /-- Look for names in the modules that they come from. -/
  | modules (groups : List (String × List Query)) (starred : List Query)
  /-- Look for names in the modules of which everything is exported. -/
  | stars (specifiers : List String) (pending : List Query)

/-- A file with the work that is left in it. -/
structure Frame where
  outline : Outline
  stage : Stage

/-- The sum of some numbers. -/
def total (numbers : List Nat) : Nat := numbers.foldr (fun n sum => n + sum) 0

/-- The amount of work that is left in a file. -/
def Frame.weight (frame : Frame) : Nat :=
  match frame.stage with
  | .names queue missing starred => queue.length + missing.length + starred.length + 3
  | .modules groups starred => total (groups.map (·.2.length + 1)) + starred.length + 2
  | .stars specifiers pending => specifiers.length + pending.length + 1

/-- The number of names that stand in a file: those that its declarations mention, and those
that it imports or passes on. -/
def Outline.weight (outline : Outline) : Nat :=
  total (outline.declarations.map fun d => (d.2.freeMentions outline.source).length + 1) +
    outline.imports.length + outline.exports.length + outline.reexports.length +
    outline.starExports.length + 1

namespace Harvest

/-- The line on which a name can be seen in a file, for messages: that of the reference, if it
stands there, else that of the import or of the declaration of the name. -/
def shownLine (outline : Outline) (name : String) (r : Reference) : Nat :=
  if r.file = outline.path then r.line
  else
    match outline.imports.get? name, outline.reexports.get? name,
      outline.declarations.get? name with
    | some b, _, _ => b.line
    | none, some b, _ => b.line
    | none, none, some d => d.line
    | none, none, none => 1

/-- Take in a declaration, and list the names that it mentions. -/
def meet (s : Harvest) (outline : Outline) (d : Declaration) (record : SynonymId)
    (request : Option String) : Harvest × List Query :=
  let (s, _) := s.takeIn d request
  let s := if d.isInterface then { s with parentRefs := s.parentRefs.put d.key [] } else s
  let s := s.fulfil record d.key
  let mentions := d.freeMentions outline.source
  let (s, refs) := s.addReferences (mentions.map fun m =>
    Reference.ofMention d.key (Outline.lineAt outline.source m.span.start) m)
  let numbered := mentions.zip refs
  let bases := (numbered.filter fun m => m.1.kind == .extends_).map (·.2)
  let s := if bases.isEmpty then s
    else { s with parentRefs := s.parentRefs.adjust (· ++ bases) d.key }
  (s, numbered.map fun m => ⟨m.2, m.1.name, false⟩)

/-- Go on with a name whose declaration may be in the file, as `name`. -/
def findDeclared (s : Harvest) (outline : Outline) (query : Query) (r : Reference)
    (record : SynonymId) (name : String) : Harvest × Found :=
  let key : Key := ⟨outline.path, name⟩
  match ((s.graft? key).map (·.declaration)).or (outline.declarations.get? name) with
  | none =>
    match outline.imports.get? name with
    | some binding => (s, .elsewhere binding)
    | none =>
      if query.external && !outline.starExports.isEmpty then (s, .starred)
      else (s.log [.notFound r.file r.line r.name], .settled)
  | some d =>
    if s.leavesOut r d then
      let s := s.leaveOut query.ref key
      ({ s with synonyms := s.synonyms.settle query.ref key }, .settled)
    else if (s.graft? key).isSome then (s.fulfil record key, .settled)
    else
      let request := if r.kind = .root then some r.name else none
      let (s, mentioned) := s.meet outline d record request
      (s, .declared mentioned)

/-- Look for a name in a file. A name that arrives from another file may be one that the file
exports under another name or passes on. -/
def look (s : Harvest) (outline : Outline) (query : Query) : Harvest × Found :=
  match s.reference? query.ref with
  | none => (s, .settled)
  | some r =>
    let waypoint : Waypoint := ⟨outline.path, query.name, query.external⟩
    if r.isResolved ∨ waypoint ∈ r.waypoints then (s, .settled)
    else
      let s := s.modifyReference query.ref fun r =>
        { r with waypoints := r.waypoints ++ [waypoint] }
      let (synonyms, record) :=
        s.synonyms.wait false query.ref waypoint (shownLine outline query.name r)
      let s := { s with synonyms }
      if query.external then
        match outline.exports.get? query.name with
        | some name => s.findDeclared outline query r record name
        | none =>
          match outline.reexports.get? query.name with
          | some binding =>
            if outline.declarations.has query.name then
              s.findDeclared outline query r record query.name
            else (s, .elsewhere binding)
          | none => s.findDeclared outline query r record query.name
      else s.findDeclared outline query r record query.name

/-- Those lookups whose references are not resolved. -/
def stillMissing (s : Harvest) (queries : List Query) : List Query :=
  queries.filter fun l => !s.isResolved l.ref

/-- The names that were set aside and are still missing, by the module that they come from. -/
def groups (s : Harvest) (missing : List (Query × Binding)) : List (String × List Query) :=
  let open_ := missing.filter fun m => !s.isResolved m.1.ref
  open_.foldl (fun table (query, binding) =>
    let found := (Table.get? table binding.specifier).getD []
    Table.put table binding.specifier
      (found ++ [⟨query.ref, binding.foreignName, true⟩])) ([] : Table String (List Query))

/-- The outline of a file, which is read and scanned unless that was done before. -/
def outlineOf (world : World) (s : Harvest) (path : String) : Harvest × Except Failure Outline :=
  match s.files.get? path with
  | some outline => (s, .ok outline)
  | none =>
    let s := { s with reads := s.reads ++ [path] }
    match world.read path with
    | .error fault => (s, .error (.fault fault))
    | .ok source =>
      match Script.outline s.strict path source with
      | .error fault => (s, .error (.fault fault))
      | .ok (outline, events) =>
        ((s.addFile outline).log (events ++ [.loaded path outline.declarations.length]),
          .ok outline)

/-- The outline of the module that a specifier in a file leads to, if it leads anywhere. -/
def moduleOutline (world : World) (s : Harvest) (origin specifier : String) (queries : List Query) :
    Harvest × Except Failure (Option Outline) :=
  let (found, events) := world.locate specifier origin
  let s := s.log events
  match found with
  | .error failure => (s, .error failure)
  | .ok none =>
    let names := (distinct (queries.map (·.name))).mergeSort fun a b => !(b < a)
    (s.log [.moduleNotFound origin specifier names], .ok none)
  | .ok (some path) =>
    let (s, outline) := s.outlineOf world path
    (s, outline.map some)

end Harvest

/-- A search, as it stands between two steps: the innermost frame first. -/
structure Resolution where
  harvest : Harvest
  frames : List Frame

namespace Resolution

/-- What a step leads to. -/
inductive Progress where
  | running (r : Resolution)
  | finished (s : Harvest)
  | failed (s : Harvest) (failure : Failure)

/-- Look for names in another module, and go on with `frame` after that. -/
def enter (world : World) (s : Harvest) (frame : Frame) (rest : List Frame)
    (specifier : String) (queries : List Query) : Progress :=
  match s.moduleOutline world frame.outline.path specifier queries with
  | (s, .error failure) => .failed s failure
  | (s, .ok none) => .running ⟨s, frame :: rest⟩
  | (s, .ok (some outline)) => .running ⟨s, ⟨outline, .names queries [] []⟩ :: frame :: rest⟩

/-- Do one step of a search. -/
def step (world : World) (r : Resolution) : Progress :=
  match r.frames with
  | [] => .finished r.harvest
  | ⟨outline, .names (query :: queue) missing starred⟩ :: rest =>
    let (s, found) := r.harvest.look outline query
    let stage := match found with
      | .settled => Stage.names queue missing starred
      | .elsewhere binding => .names queue (missing ++ [(query, binding)]) starred
      | .starred => .names queue missing (starred ++ [query])
      | .declared mentioned => .names (queue ++ mentioned) missing starred
    .running ⟨s, ⟨outline, stage⟩ :: rest⟩
  | ⟨outline, .names [] missing starred⟩ :: rest =>
    .running ⟨r.harvest, ⟨outline, .modules (r.harvest.groups missing) starred⟩ :: rest⟩
  | ⟨outline, .modules ((specifier, queries) :: groups) starred⟩ :: rest =>
    enter world r.harvest ⟨outline, .modules groups starred⟩ rest specifier queries
  | ⟨outline, .modules [] starred⟩ :: rest =>
    .running ⟨r.harvest, ⟨outline, .stars outline.starExports starred⟩ :: rest⟩
  | ⟨outline, .stars specifiers pending⟩ :: rest =>
    match specifiers, r.harvest.stillMissing pending with
    | specifier :: specifiers, query :: pending =>
      enter world r.harvest ⟨outline, .stars specifiers (query :: pending)⟩ rest specifier
        (query :: pending)
    | _, _ => .running ⟨r.harvest, rest⟩

/-- How a search ends. -/
inductive Result where
  | finished (s : Harvest)
  | failed (s : Harvest) (failure : Failure)
  /-- More files were to be read than was expected. -/
  | unfinished (r : Resolution)

/-- A bound for the number of steps until a search ends or reads a file. Each reference comes
to each name of a file once at most, and passes from there to no more modules than the file
names. -/
def allowance (r : Resolution) : Nat :=
  let weight := 8 + total (r.harvest.files.map (·.2.weight)) + r.harvest.references.length +
    total (r.frames.map Frame.weight)
  weight * weight * weight * weight * weight * weight

/-- Go on with a search until it ends or has read a file, in at most `steps` steps. -/
def advance (world : World) : (steps : Nat) → Resolution → Progress
  | 0, r => .running r
  | steps + 1, r =>
    match step world r with
    | .running next =>
      if next.harvest.files.length = r.harvest.files.length then advance world steps next
      else .running next
    | stopped => stopped

/-- Take a search to its end, while at most `reads` files are read. -/
def run (world : World) : (reads : Nat) → Resolution → Result
  | 0, r => .unfinished r
  | reads + 1, r =>
    match advance world r.allowance r with
    | .running r => run world reads r
    | .finished s => .finished s
    | .failed s failure => .failed s failure

/-- The search for some requests in a file, each with its name, slot and line. -/
def begin_ (s : Harvest) (outline : Outline) (requests : List (String × Option Span × Nat))
    (external : Bool) : Resolution :=
  let (s, refs) := s.addReferences (requests.map fun (name, span, line) =>
    Reference.ofRequest outline.path name span line)
  let s := { s with roots := s.roots ++ refs }
  let queries := (requests.zip refs).map fun (request, ref) => ⟨ref, request.1, external⟩
  ⟨s, [⟨outline, .names queries [] []⟩]⟩

end Resolution

end TypeGraft
