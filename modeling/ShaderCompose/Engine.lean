import ShaderCompose.Check.Body
import ShaderCompose.Library.Load
import ShaderCompose.Mix.Emit
import ShaderCompose.Reflect.Link
import ShaderCompose.Shader.Clean
import ShaderCompose.Stream.Interface

/-!
The engine compiles requests: it loads and checks the classes of a request, composes and mixes them
into one shader, and links that. Between requests it keeps the loaded classes.
-/

namespace ShaderCompose

/-- The library, the builtins and the options of an engine. -/
structure Engine where
  library : Library := {}
  builtins : List Module := []
  options : Options := {}

/-- What a compilation gives. -/
structure Outcome where
  log : Log := []
  shader : Option Shader := none
  reflection : Option Reflection := none
  entryPoints : EntryPoints := []
  digests : List (String × Digest) := []

/-- Why a builtin source is refused. -/
inductive BuiltinError where
  | preprocess (cause : PreprocessError)
  | invalid (log : Log)
  | noClass
  deriving Repr, Inhabited

def BuiltinError.message : BuiltinError → String
  | preprocess _ => "failed to preprocess builtin source"
  | invalid log => "invalid builtin source:\n" ++ log.text
  | noClass => "builtin source does not declare a shader class"

/-- The digests of the classes that took part, by name. -/
def Cache.digests (loaded : Cache) : List (String × Digest) :=
  let found := (loaded.filter fun e => !e.2.isMixin).map fun e => (e.1.name, e.2.sourceDigest)
  let once := found.foldl (fun done (name, digest) => setKey name digest done) []
  once.mergeSort fun a b => decide (a.1 ≤ b.1)

namespace Engine

def builtinFile : String := "<builtin>"

/-- Make the members of the classes of a source visible everywhere. -/
def addBuiltin (e : Engine) (source : String) : Except BuiltinError Engine :=
  match Preprocess.text ⟨{}, []⟩ [] builtinFile none source with
  | .error cause => .error (.preprocess cause)
  | .ok text =>
    let (classes, log) := Reader.source text builtinFile
    if log.hasErrors then .error (.invalid log)
    else if classes.isEmpty then .error .noClass
    else
      let start := e.library.next
      let made := classes.zipIdx.map fun (cls, i) =>
        ({ id := start + i, key := ⟨cls.name, [], []⟩, cls, bases := [], digest := .ofString text } : Module)
      .ok { e with
        library := { e.library with next := start + classes.length }
        builtins := e.builtins ++ made }

def evict (e : Engine) (names : List String) : Engine :=
  { e with library := e.library.evict names }

/-- Load and check a request; a context if nothing is wrong. -/
def check (e : Engine) (r : Request) (macros : List MacroDef) : Option Context × Outcome × Engine :=
  let macros := macros ++ r.collectMacros
  let loading := e.library.load ⟨macros, e.options.fillGenerics, fun _ => []⟩ r
  let e := { e with library := loading.library }
  let outcome : Outcome := { log := loading.log, digests := loading.loaded.digests }
  if loading.log.hasErrors then (none, outcome, e)
  else
    let context := Context.make loading.loaded e.builtins macros
    let outcome := { outcome with log := outcome.log ++ context.log }
    (if outcome.log.hasErrors then none else some context, outcome, e)

/-- Only the findings of loading and checking. -/
def analyze (e : Engine) (r : Request) (macros : List MacroDef) : Outcome × Engine :=
  (e.check r macros).2

/-- The scope of instances: builtins are kept, stage-only modules shared. -/
def requestScope (e : Engine) (context : Context) : Copying :=
  let kept : CopyScope := e.builtins.foldl CopyScope.keep {}
  context.shareStageModules ⟨kept.child, e.library.next⟩

/-- The instances of a request and what fills their slots. -/
def composed (e : Engine) (context : Context) (r : Request) : Option (List Module) × Composing :=
  let copying := e.requestScope context
  context.compose e.options copying.scope r { next := copying.next }

/-- The mixed shader of a checked request. -/
def compose (e : Engine) (context : Context) (r : Request) : Option Shader × Log :=
  let (roots, s) := e.composed context r
  if s.log.hasErrors then (none, s.log)
  else
    match roots with
    | none => (none, s.log)
    | some [root] =>
      let (shader, log) := mix context s.filled root
      (shader, s.log ++ log)
    | some _ => (none, s.log ++ [.error .invalidRoot])

/-- Link a mixed shader, or report missing entry points. -/
def finish (o : Options) (shader : Shader) (outcome : Outcome) : Outcome :=
  let entryPoints := shader.entryPoints
  let log := outcome.log ++ entryPoints.missing o.required
  if log.hasErrors then { outcome with log }
  else
    let (shader, more) := Stream.create shader entryPoints
    let log := log ++ more
    if log.hasErrors then { outcome with log }
    else
      let (shader, reflection, more) := Link.link shader
      let log := log ++ more
      if log.hasErrors then { outcome with log }
      else
        { outcome with
          log, shader := some shader.clean, reflection := some reflection, entryPoints }

/-- Compile a request. -/
def compile (e : Engine) (r : Request) (macros : List MacroDef) : Outcome × Engine :=
  match e.check r macros with
  | (none, outcome, e) => (outcome, e)
  | (some context, outcome, e) =>
    let (shader, log) := e.compose context r
    let outcome := { outcome with log := outcome.log ++ log }
    match shader with
    | none => (outcome, e)
    | some shader => (finish e.options shader outcome, e)

end Engine

end ShaderCompose
