import ShaderCompose.Generic.Instance
import ShaderCompose.Library.Reach
import ShaderCompose.Options

/-!
Loading: every class that a request names is read, with the classes it inherits from and the types
of its slots. Bases are loaded at once, below the class that names them; the classes of the request
and the types of slots wait in a list.
-/

namespace ShaderCompose

/-- What a load goes by. -/
structure LoadSetting where
  macros : List MacroDef
  fill : Bool
  watch : String → List (List String)

/-- A setting in which evictions change from text to text. -/
structure LoadPlan where
  macros : List MacroDef
  fill : Bool
  evictions : (parsed : Nat) → String → List (List String)

/-- What is evicted depends on the text alone. -/
def LoadSetting.plan (s : LoadSetting) : LoadPlan := ⟨s.macros, s.fill, fun _ => s.watch⟩

/-- How far a load has come. -/
structure Loading where
  library : Library
  loaded : Cache := []
  failed : List ModuleKey := []
  waiting : List ModuleKey := []
  log : Log := []
  parsed : List ModuleKey := []
  exhausted : Bool := false

namespace Loading

def report (s : Loading) (d : Diagnostic) : Loading := { s with log := s.log ++ [d] }

/-- These keys are loaded next. -/
def await (s : Loading) (keys : List ModuleKey) : Loading :=
  { s with waiting := keys.reverse ++ s.waiting }

/-- The key is not tried again. -/
def fail (s : Loading) (key : ModuleKey) : Loading := { s with failed := key :: s.failed }

/-- The load went too deep. -/
def giveUp (s : Loading) : Loading := { s with exhausted := true }

/-- A class has become part of the request. -/
def add (s : Loading) (key : ModuleKey) (c : LoadedClass) : Loading :=
  { s with loaded := setKey key c s.loaded }

/-- A class stays for later requests. -/
def keep (s : Loading) (key : ModuleKey) (c : LoadedClass) : Loading :=
  { s with library := { s.library with cache := setKey key c s.library.cache } }

def takeNumber (s : Loading) : Loading :=
  { s with library := { s.library with next := s.library.next + 1 } }

/-- The key is loaded or has failed. -/
def isSettled (s : Loading) (key : ModuleKey) : Bool :=
  (s.loaded.lookup key).isSome || s.failed.contains key

end Loading

/-- A class that is read but has no bases yet. -/
structure ReadClass where
  cls : ShaderClass
  file : SourceFile
  digest : Digest

/-- The one class of a text, instantiated. -/
def classOfText (plan : LoadPlan) (key : ModuleKey) (file : SourceFile) (text : String) : Option ReadClass × Log :=
  let (classes, log) := Reader.source text file.fileName
  if log.hasErrors then (none, log)
  else
    match classes with
    | [cls] =>
      if cls.name ≠ key.name then
        (none, log ++ [.errorAt cls.loc (.otherClassName file.fileName cls.name)])
      else
        match cls.instantiate key.generics plan.fill with
        | .ok made => (some ⟨made, file, .ofString text⟩, log)
        | .error message => (none, log ++ [.errorAt cls.loc message])
    | _ => (none, log ++ [.error (.notOneClass key.name classes.length)])

def preprocessedText (store : SourceStore) (macros : List MacroDef) (file : SourceFile) :
    Except PreprocessError String :=
  Preprocess.text ⟨store.files, store.lookup⟩ macros file.fileName file.path file.text

/-- The class of a file, and the text if it was parsed. -/
def classOfFile (plan : LoadPlan) (store : SourceStore) (key : ModuleKey) :
    Except PreprocessError SourceFile → Option ReadClass × Log × Option String
  | .error (.notFound _) => (none, [.error (.shaderNotFound key.name)], none)
  | .error e => (none, [.error (.preprocessFailed key.name e)], none)
  | .ok file =>
    match preprocessedText store plan.macros file with
    | .error e => (none, [.error (.preprocessFailed key.name e)], none)
    | .ok text =>
      let (found, log) := classOfText plan key file text
      (found, log, some text)

/-- Read a class, and evict what the plan says. -/
def readClass (plan : LoadPlan) (parsed : Nat) (key : ModuleKey) (l : Library) : Option ReadClass × Log × Library :=
  let (file, store) := l.store.load key.name
  let (found, log, text) := classOfFile plan store key file
  let batches := (text.map (plan.evictions parsed)).getD []
  (found, log, batches.foldl Library.evict { l with store })

def Loading.read (plan : LoadPlan) (key : ModuleKey) (s : Loading) : Option ReadClass × Loading :=
  let (read, log, library) := readClass plan s.parsed.length key s.library
  (read, { s with library, log := s.log ++ log, parsed := key :: s.parsed })

/-- Load classes in order, up to the first that fails. -/
def loadEach (load : ModuleKey → Loading → Option LoadedClass × Loading) :
    List ModuleKey → Loading → Option (List LoadedClass) × Loading
  | [], s => (some [], s)
  | key :: keys, s =>
    match load key s with
    | (none, s) => (none, s)
    | (some c, s) =>
      let (cs, s) := loadEach load keys s
      (cs.map (c :: ·), s)

def baseKeysOf (cls : ShaderClass) (macros : List MacroDef) : List ModuleKey :=
  cls.bases.map fun b => ClassRef.key ⟨b.name, b.args⟩ macros

def slotKeysOf (cls : ShaderClass) (macros : List MacroDef) : List ModuleKey :=
  (cls.slotTypes.map fun t => ClassRef.key ⟨t.name, t.template⟩ macros).eraseDups

/-- Keep a class unless a base was evicted meanwhile. -/
def keepLoaded (s : Loading) (key : ModuleKey) (c : LoadedClass) : LoadedClass × Loading :=
  let current := c.baseKeys.all fun b =>
    match s.library.cached? b, s.loaded.lookup b with
    | some kept, some used => kept.same used
    | _, _ => false
  if !current then (c, s)
  else
    match s.library.cached? key with
    | some kept => (kept, s)
    | none => (c, s.keep key c)

/-- The class with its bases in place. -/
def madeClass (plan : LoadPlan) (key : ModuleKey) (read : ReadClass) (bases : List LoadedClass)
    (number : Nat) : LoadedClass where
  module := ⟨number, key, read.cls, bases.map LoadedClass.module, read.digest⟩
  sourceDigest := read.file.digest
  baseKeys := baseKeysOf read.cls plan.macros
  slotKeys := slotKeysOf read.cls plan.macros
  path := read.file.path
  isMixin := false

/-- Make, keep and add a class; its slot types wait. -/
def finishClass (plan : LoadPlan) (key : ModuleKey) (read : ReadClass) (bases : List LoadedClass)
    (s : Loading) : LoadedClass × Loading :=
  let made := madeClass plan key read bases s.library.next
  let (c, s) := keepLoaded (s.await made.slotKeys).takeNumber key made
  (c, s.add key c)

/-- What is known of a class before it is read. -/
def Loading.known? (s : Loading) (path : List ModuleKey) (key : ModuleKey) : Option (Option LoadedClass × Loading) :=
  match s.loaded.lookup key with
  | some c => some (some c, s)
  | none =>
    if s.failed.contains key then some (none, s)
    else if path.contains key then some (none, s.report (.error (.cyclicInheritance key.name)))
    else (s.library.cached? key).map fun c => (some c, (s.await c.dependencies).add key c)

/-- Load a class and its bases below the classes on `path`. -/
def loadFrom (plan : LoadPlan) : (fuel : Nat) → (path : List ModuleKey) → ModuleKey →
    Loading → Option LoadedClass × Loading
  | fuel, path, key, s =>
    match s.known? path key with
    | some result => result
    | none =>
      match fuel with
      | 0 => (none, s.giveUp)
      | fuel + 1 =>
        match s.read plan key with
        | (none, s) => (none, s.fail key)
        | (some read, s) =>
          match loadEach (loadFrom plan fuel (key :: path)) (baseKeysOf read.cls plan.macros) s with
          | (none, s) => (none, s.fail key)
          | (some bases, s) =>
            let (c, s) := finishClass plan key read bases s
            (some c, s)

/-- The class that stands for a mixin: bases and nothing else. -/
def mixinClass (key : ModuleKey) (refs : List ClassRef) : ShaderClass :=
  { name := key.name, loc := .generated
    bases := refs.map fun r => { name := r.name, args := r.generics, loc := .generated } }

/-- A loaded mixin, which has no source. -/
def madeMixin (macros : List MacroDef) (refs : List ClassRef) (bases : List LoadedClass)
    (number : Nat) : LoadedClass where
  module := ⟨number, mixinKey refs macros, mixinClass (mixinKey refs macros) refs,
    bases.map LoadedClass.module, .blank⟩
  sourceDigest := .blank
  baseKeys := refs.map fun r => r.key macros
  slotKeys := []
  path := none
  isMixin := true

/-- Load the classes of a mixin, then make it. -/
def loadMixin (plan : LoadPlan) (fuel : Nat) (refs : List ClassRef) (s : Loading) : Loading :=
  let key := mixinKey refs plan.macros
  if (s.loaded.lookup key).isSome then s
  else
    match loadEach (loadFrom plan fuel []) (refs.map fun r => r.key plan.macros) s with
    | (none, s) => s
    | (some bases, s) => s.takeNumber.add key (madeMixin plan.macros refs bases s.library.next)

/-- Several classes are loaded at once, a single one waits. -/
def loadBases (plan : LoadPlan) (fuel : Nat) : List ClassRef → Loading → Loading
  | [], s => s.report (.error .emptyMixin)
  | [cls], s => s.await [cls.key plan.macros]
  | cls :: other :: rest, s => loadMixin plan fuel (cls :: other :: rest) s

mutual

/-- Note the classes that a request names. -/
def loadRequest (plan : LoadPlan) (fuel : Nat) : Request → Loading → Loading
  | .single cls, s => s.await [cls.key plan.macros]
  | .mixin bases slots _, s => loadSlots plan fuel slots (loadBases plan fuel bases s)
  | .array values, s => loadValues plan fuel values s

def loadSlots (plan : LoadPlan) (fuel : Nat) : List (String × Request) → Loading → Loading
  | [], s => s
  | (_, r) :: rest, s => loadSlots plan fuel rest (loadRequest plan fuel r s)

def loadValues (plan : LoadPlan) (fuel : Nat) : List Request → Loading → Loading
  | [], s => s
  | r :: rest, s => loadValues plan fuel rest (loadRequest plan fuel r s)

end

/-- Load what waits until nothing does. -/
def loadWaiting (plan : LoadPlan) (fuel : Nat) : (steps : Nat) → Loading → Loading
  | steps, s =>
    match s.waiting.dropWhile s.isSettled with
    | [] => { s with waiting := [] }
    | key :: rest =>
      match steps with
      | 0 => s.giveUp
      | steps + 1 =>
        loadWaiting plan fuel steps (loadFrom plan fuel [] key { s with waiting := rest }).2

/-- A load that goes at most `bound` deep and far. -/
def Library.loadWithin (l : Library) (plan : LoadPlan) (bound : Nat) (r : Request) : Loading :=
  loadWaiting plan bound bound (loadRequest plan bound r { library := l })

/-- The bound that is tried first. -/
def usualReach : Nat := 4096

/-- A load that is not given up. -/
def Library.loadBy (l : Library) (plan : LoadPlan) (r : Request) : Loading :=
  let first := l.loadWithin plan usualReach r
  if first.exhausted then l.loadWithin plan (l.reach plan.macros r) r else first

/-- Load the classes of a request. -/
def Library.load (l : Library) (setting : LoadSetting) (r : Request) : Loading :=
  l.loadBy setting.plan r

end ShaderCompose
