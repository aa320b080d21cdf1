import TypeGraft.Component
import TypeGraft.Project
import TypeGraft.Extraction
import TypeGraft.Request

/-!
# Inlining

`TypeGraft.inlineTypes` puts the types that the macros of a component ask for into its setup script,
and takes away the imports that this makes useless.

**What stays as it is.** A component without a setup script in the typed language, one whose
script asks for nothing, and one for which nothing is to be written. A fault also leaves the
component as it is, and is told beside it, unless the run is `strict`.
-/

namespace TypeGraft

open Syntax

/-- A component after its types were inlined. -/
structure Inlined where
  code : String
  changed : Bool
  /-- The names that the macros ask for. -/
  requested : List String
  /-- The names of the declarations in the block. -/
  emitted : List String
  /-- The requested names that were not found. -/
  unresolved : List String
  /-- The files that were read. -/
  loaded : List String
  /-- The circles of interfaces that were broken. -/
  cycles : List (List String)
  /-- Why the component was left as it is. -/
  error : Option String
deriving Repr

/-- A component that stays as it is. -/
def Inlined.unchanged (code : String) (error : Option String) : Inlined :=
  { code, changed := false, requested := [], emitted := [], unresolved := [], loaded := []
    cycles := [], error }

/-- The setup script of a component, with what it asks for. -/
structure SetupScript where
  element : ScriptElement
  source : Bytes
  tree : Node
  requests : List Request

namespace SetupScript

/-- The setup script of the component at a path, if there is one in the typed language. -/
def ofComponent? (macros : List String) (path code : String) :
    Except Fault (Option SetupScript) :=
  match ScriptElement.setup? code with
  | none => .ok none
  | some element =>
    let source := Bytes.ofString element.content
    match Script.tree .plain path source with
    | .error fault => .error fault
    | .ok tree => .ok (some ⟨element, source, tree, Request.ofTree macros source tree⟩)

/-- What the script asks for. -/
def rootRequests (script : SetupScript) : List RootRequest :=
  script.requests.map fun r => ⟨r.name, some r.span, r.line⟩

/-- The script as it is entered, before anything is looked for. -/
def open_ (script : SetupScript) (strict : Bool) (path : String) :
    Except Fault (Harvest × Outline) :=
  (Outline.ofTree strict path script.source script.tree).map fun (outline, events) =>
    (((Harvest.start strict (some path)).enter outline).log events, outline)

/-- The script with its edits made and the block at its front. -/
def edited (script : SetupScript) (splice : Splice) : Except Failure String :=
  match Replacement.applyAll script.source (.whole script.source) splice.edits with
  | .error failure => .error failure
  | .ok bytes =>
    match bytes.toString? with
    | none => .error .undecodable
    | some text =>
      .ok (if splice.block = "" then text else "\n" ++ splice.block ++ "\n" ++ text)

/-- The component with another content of the script. -/
def inserted (script : SetupScript) (code content : String) : String :=
  String.ofList (code.toList.take script.element.start) ++ content ++
    String.ofList (code.toList.drop script.element.stop)

/-- The code of the component after splicing. -/
def newCode (script : SetupScript) (code : String) (splice : Splice) : Except Failure String :=
  if splice.block = "" ∧ splice.edits = [] then .ok code
  else (script.edited splice).map (script.inserted code)

end SetupScript

/-- Note the references for which no declaration was found. -/
def Harvest.logUnbound (s : Harvest) : Harvest :=
  s.log ((s.unbound.filterMap s.reference?).map fun r => .leftUnresolved r.file r.line r.name)

/-- End a run at a fault: leave the component as it is, or fail if the run is strict. -/
def giveUp (strict : Bool) (path code : String) (reads : List String) (events : List Event)
    (fault : Fault) : Run Inlined :=
  if strict then ⟨.error (.fault fault), reads, events⟩
  else ⟨.ok (.unchanged code (some fault.message)), reads,
    events ++ [.untransformed fault.message path]⟩

/-- Inline the types that a script asks for into its component. -/
def SetupScript.inlineTypes (script : SetupScript) (world : World) (clean : Cleaning)
    (strict : Bool) (path code : String) : Run Inlined :=
  match script.open_ strict path with
  | .error fault => giveUp strict path code [] [] fault
  | .ok (s, outline) =>
    match s.searchAndSplice world outline script.rootRequests false clean with
    | (s, .error (.fault fault)) => giveUp strict path code s.reads s.events fault
    | (s, .error failure) => s.finish (.error failure)
    | (s, .ok (orders, splice)) =>
      let s := s.logUnbound
      s.finish ((script.newCode code splice).map fun newCode =>
        { code := newCode
          changed := newCode != code
          requested := script.requests.map (·.name)
          emitted := splice.emitted
          unresolved := s.missingRequests
          loaded := s.loaded
          cycles := s.circleNames orders
          error := none })

/-- Inline the types that the component at an absolute path asks for. -/
def inlineTypes (world : World) (project : Project) (strict : Bool) (path code : String) :
    Run Inlined :=
  match SetupScript.ofComponent? project.macros path code with
  | .error fault => giveUp strict path code [] [] fault
  | .ok none => ⟨.ok (.unchanged code none), [], []⟩
  | .ok (some script) =>
    if script.requests.isEmpty then ⟨.ok (.unchanged code none), [], []⟩
    else script.inlineTypes world project.cleaning strict path code

end TypeGraft
