import ShaderCompose.Mix.Instance

/-!
Renaming: references to members become the names that the members have in the mixed shader, and
loops over arrays of compositions are unrolled. Local names hide members.
-/

namespace ShaderCompose.Mix

/-- What a local name stands for. -/
inductive Binding where
  | plain
  | composed (number : Nat)
  deriving DecidableEq, Repr, Inhabited

/-- A member of a builtin. -/
abbrev BuiltinRef := Module × DeclId

/-- The local names, and what renaming has met. -/
structure RenameState where
  scope : List (String × Binding) := []
  builtins : List BuiltinRef := []
  log : Log := []

abbrev Rename := StateM RenameState

namespace RenameState

def declare (s : RenameState) (name : String) (b : Binding) : RenameState :=
  { s with scope := (name, b) :: s.scope }

def binding? (s : RenameState) (name : String) : Option Binding := s.scope.lookup name

def report (s : RenameState) (loc : Span) (message : Message) : RenameState :=
  { s with log := s.log ++ [.errorAt loc message] }

end RenameState

/-- A step with names that are forgotten after it. -/
def Rename.within {α : Type} (bound : List (String × Binding)) (step : Rename α) : Rename α :=
  fun s =>
    let (a, t) := step { s with scope := bound ++ s.scope }
    (a, { t with scope := s.scope })

/-- An instance and a class of its hierarchy. -/
structure Place where
  number : Nat
  cls : Nat
  deriving DecidableEq, Repr, Inhabited

/-- Where a declaration belongs, and all it can refer to. -/
structure RenameEnv where
  builtins : List Module
  instances : List MixInstance
  place : Option Place

namespace RenameEnv

def instance? (env : RenameEnv) : Option MixInstance :=
  env.place.bind fun p => env.instances[p.number]?

/-- The new name of a plain name. -/
def resolveName (env : RenameEnv) (name : String) : Rename (Option String) := fun s =>
  if (s.binding? name).isSome then (none, s)
  else
    match env.instance?.bind fun i => i.names.member? name with
    | some renamed => (some renamed, s)
    | none =>
      match builtinMember? env.builtins name with
      | some ref => (none, { s with builtins := s.builtins ++ [ref] })
      | none => (none, s)

/-- The instance at a constant position. -/
def elementAt? (filling : Filling) : Expr → Option Nat
  | .literal _ (.int n) => if n < 0 then none else filling.instances[n.toNat]?
  | _ => none

/-- The instance that a slot stands for here. -/
def slotElement (name : String) (filling : Filling) (position : Option Expr) (loc : Span) :
    Rename (Option Nat) := fun s =>
  let wrong := (none, s.report loc (.compositionArray name))
  match position with
  | some position =>
    match elementAt? filling position with
    | some number => (some number, s)
    | none => wrong
  | none =>
    match filling.instances with
    | [] => (none, s.report loc (.missingComposition name))
    | [single] => if filling.isArray then wrong else (some single, s)
    | _ => wrong

/-- A name before a dot, with the index behind it. -/
def receiver? : Expr → Option (String × Option Expr)
  | .ident _ name => some (name, none)
  | .index _ target position => target.ident?.map fun name => (name, some position)
  | _ => none

/-- The instance that a receiver stands for. -/
def composedInstance (env : RenameEnv) (target : Expr) (loc : Span) : Rename (Option Nat) := fun s =>
  match env.instance?, receiver? target with
  | some inst, some (name, position) =>
    match s.binding? name, position with
    | some (.composed number), none => (some number, s)
    | some _, _ => (none, s)
    | none, _ =>
      match inst.slots.lookup name with
      | some filling => slotElement name filling position loc s
      | none => (none, s)
  | _, _ => (none, s)

/-- What `base` calls: the implementation before this class. -/
def baseMember? (inst : MixInstance) (cls : Nat) (name : String) : Option String :=
  match inst.table.method? name with
  | some slot => (slot.before? cls).bind fun m => inst.names.implementations.lookup m
  | none => inst.names.vars.lookup name

def composedMember (env : RenameEnv) (target : Expr) (name : String) (loc : Span) : Rename (Option String) := do
  match ← env.composedInstance target loc with
  | some number => return (env.instances[number]?).bind fun i => i.names.member? name
  | none => return none

/-- The name of a member, if its receiver is resolved. -/
def resolveMember (env : RenameEnv) (target : Expr) (name : String) (loc : Span) : Rename (Option String) := fun s =>
  match env.place, env.instance? with
  | some place, some inst =>
    match target.ident? with
    | none => env.composedMember target name loc s
    | some subject =>
      if s.binding? subject = some .plain then (none, s)
      else
        match subject with
        | "streams" => (some ("streams_" ++ name), s)
        | "this" => env.resolveName name s
        | "base" => (baseMember? inst place.cls name, s)
        | _ => env.composedMember target name loc s
  | _, _ => (none, s)

/-- The instances that a loop is unrolled over. -/
def loopTargets (env : RenameEnv) (collection : Expr) (s : RenameState) : List Nat :=
  match collection.ident?, env.instance? with
  | some name, some inst =>
    if (s.binding? name).isSome then []
    else
      match inst.slots.lookup name with
      | some filling => if filling.isArray then filling.instances else []
      | none => []
  | _, _ => []

mutual

def expr (env : RenameEnv) : Expr → Rename Expr
  | .literal loc value => return .literal loc value
  | .ident loc name => do
    match ← env.resolveName name with
    | some renamed => return .ident loc renamed
    | none => return .ident loc name
  | .member loc target name => do
    match ← env.resolveMember target name loc with
    | some renamed => return .ident loc renamed
    | none => return .member loc (← expr env target) name
  | .call loc callee args => return .call loc (← expr env callee) (← exprs env args)
  | .index loc target position => return .index loc (← expr env target) (← expr env position)
  | .unary loc op operand => return .unary loc op (← expr env operand)
  | .binary loc op lhs rhs => return .binary loc op (← expr env lhs) (← expr env rhs)
  | .assign loc op target value => return .assign loc op (← expr env target) (← expr env value)
  | .ternary loc condition yes no =>
    return .ternary loc (← expr env condition) (← expr env yes) (← expr env no)
  | .list loc items => return .list loc (← exprs env items)

def exprs (env : RenameEnv) : List Expr → Rename (List Expr)
  | [] => return []
  | e :: es => return (← expr env e) :: (← exprs env es)

end

def option (env : RenameEnv) : Option Expr → Rename (Option Expr)
  | some e => return some (← env.expr e)
  | none => return none

def type (env : RenameEnv) (t : TypeRef) : Rename TypeRef :=
  match t.array with
  | some (.fixed size) => return { t with array := some (.fixed (← env.expr size)) }
  | _ => return t

def attrs (env : RenameEnv) (as : List Attribute) : Rename (List Attribute) :=
  as.mapM fun a => return { a with args := ← env.exprs a.args }

def lead (env : RenameEnv) (l : Lead) : Rename Lead := return { l with attrs := ← env.attrs l.attrs }

/-- The name is bound behind its own initializer. -/
def simple (env : RenameEnv) : Simple → Rename Simple
  | .declare quals t name init => do
    let t ← env.type t
    let init ← env.option init
    modify fun s => s.declare name .plain
    return .declare quals t name init
  | .expr value => return .expr (← env.expr value)

def loopStart (env : RenameEnv) : Option (Span × Simple) → Rename (Option (Span × Simple))
  | some (loc, what) => return some (loc, ← env.simple what)
  | none => return none

mutual

def stmt (env : RenameEnv) : Stmt → Rename Stmt
  | .block l body => Rename.within [] do return .block (← env.lead l) (← stmts env body)
  | .simple l what => return .simple (← env.lead l) (← env.simple what)
  | .ret l value => return .ret (← env.lead l) (← env.option value)
  | .ifThen l condition yes =>
    return .ifThen (← env.lead l) (← env.expr condition) (← stmt env yes)
  | .ifElse l condition yes no =>
    return .ifElse (← env.lead l) (← env.expr condition) (← stmt env yes) (← stmt env no)
  | .forLoop l init condition step body =>
    Rename.within [] do
      return .forLoop (← env.lead l) (← env.loopStart init) (← env.option condition)
        (← env.option step) (← stmt env body)
  | .whileLoop l condition body =>
    return .whileLoop (← env.lead l) (← env.expr condition) (← stmt env body)
  | .forEach l name collection body => do
    let targets := env.loopTargets collection (← get)
    let copies ← targets.mapM fun number =>
      Rename.within [(name, .composed number)] (stmt env body)
    return .block l copies
  | .breakLoop l => return .breakLoop (← env.lead l)
  | .continueLoop l => return .continueLoop (← env.lead l)
  | .discard l => return .discard (← env.lead l)
  | .empty l => return .empty (← env.lead l)

def stmts (env : RenameEnv) : List Stmt → Rename (List Stmt)
  | [] => return []
  | s :: ss => return (← stmt env s) :: (← stmts env ss)

end

def param (env : RenameEnv) (p : Param) : Rename Param :=
  return { p with type := ← env.type p.type, default := ← env.option p.default }

def initializer (env : RenameEnv) : Initializer → Rename Initializer
  | .expr value => return .expr (← env.expr value)
  | .state fields =>
    return .state (← fields.mapM fun f => return { f with value := ← env.expr f.value })

/-- Members of a buffer are renamed on their own. -/
def kind (env : RenameEnv) : DeclKind → Rename DeclKind
  | .var t semantic init => do
    let t ← env.type t
    match init with
    | some init => return .var t semantic (some (← env.initializer init))
    | none => return .var t semantic none
  | .method returns params semantic body => do
    let returns ← env.type returns
    let params ← params.mapM env.param
    match body with
    | some body => return .method returns params semantic (some (← env.stmts body))
    | none => return .method returns params semantic none
  | .struct fields => return .struct (← fields.mapM env.param)
  | .buffer kind members => return .buffer kind members

def decl (env : RenameEnv) (d : Decl) : Rename Decl :=
  return { d with attrs := ← env.attrs d.attrs, kind := ← env.kind d.kind }

end RenameEnv

/-- The parameters of a method are bound. -/
def startState (d : Decl) : RenameState :=
  (d.params?.getD []).foldl (fun s p => s.declare p.name .plain) {}

end ShaderCompose.Mix
