import ShaderCompose.Check.Context
import ShaderCompose.Lang.Builtin

/-!
Checks of method bodies. A walk over the statements carries the local names and a log of what does
not fit.
-/

namespace ShaderCompose.Check

/-- What a local name stands for. -/
inductive Local where
  | value
  | composition (type : TypeRef)
  deriving Repr, Inhabited

/-- The local names in scope and the findings so far. -/
structure BodyState where
  scope : List (String × Local) := []
  log : Log := []
  deriving Repr, Inhabited

namespace BodyState

def report (s : BodyState) (loc : Span) (message : Message) : BodyState :=
  { s with log := s.log ++ [.errorAt loc message] }

def declare (s : BodyState) (name : String) (what : Local) : BodyState :=
  { s with scope := (name, what) :: s.scope }

def isBound (s : BodyState) (name : String) : Bool := (s.scope.lookup name).isSome

/-- Run a step, then leave the scope it opened. -/
def within (s : BodyState) (step : BodyState → BodyState) : BodyState :=
  { step s with scope := s.scope }

end BodyState

/-- What the check of one method body can look up. -/
structure BodyEnv where
  slotTable? : TypeRef → Option MemberTable
  builtins : List Module
  table : MemberTable
  method : String
  returnsValue : Bool

/-- Names with a meaning of their own before a dot. -/
def specialNames : List String := ["streams", "base", "this"]

def arityText (arity : Nat × Nat) : String :=
  if arity.1 = arity.2 then s!"{arity.1}" else s!"{arity.1} to {arity.2}"

/-- Report a call with too few or too many arguments. -/
def checkArity (name : String) (arity : Option (Nat × Nat)) (actual : Nat) (loc : Span) (s : BodyState) : BodyState :=
  match arity with
  | some arity =>
    if actual < arity.1 ∨ arity.2 < actual then
      s.report loc (.argumentCount name (arityText arity) actual)
    else s
  | none => s

/-- How a message names the receiver of a call. -/
def describe : Expr → String
  | .ident _ name => name
  | .member _ target name => describe target ++ "." ++ name
  | .index _ target _ => describe target ++ "[]"
  | _ => "expression"

namespace BodyEnv

/-- A name that is visible in every body of the class. -/
def isKnown (env : BodyEnv) (name : String) : Bool :=
  specialNames.contains name || (env.table.variableRef? name).isSome ||
    (env.table.method? name).isSome || (env.table.structRef? name).isSome ||
    (builtinMember? env.builtins name).isSome || (intrinsicArity? name).isSome || isNumericType name

/-- The class of a composition, local or of a slot. -/
def compositionType? (env : BodyEnv) (s : BodyState) (name : String) : Option TypeRef :=
  match s.scope.lookup name with
  | some (.composition type) => some type
  | some .value => none
  | none =>
    (env.table.variableDecl? name).bind fun d => if d.isComposition then d.varType? else none

/-- Report a name that nothing declares. -/
def checkName (env : BodyEnv) (name : String) (loc : Span) (s : BodyState) : BodyState :=
  if s.isBound name || env.isKnown name then s else s.report loc (.unresolvedIdentifier name)

def checkCall (env : BodyEnv) (name : String) (count : Nat) (loc : Span) (s : BodyState) :
    BodyState :=
  if s.isBound name then s
  else
    match env.table.method? name with
    | some slot => checkArity name (env.table.arity? slot) count loc s
    | none =>
      match builtinMember? env.builtins name with
      | some (m, id) => checkArity name ((m.cls.table[id]?).bind Decl.arity?) count loc s
      | none =>
        match intrinsicArity? name with
        | some arity => checkArity name (some arity) count loc s
        | none =>
          if isNumericType name || (env.table.structRef? name).isSome then s
          else s.report loc (.unresolvedIdentifier name)

/-- Check a use of a member of a composed class. -/
def checkSlotMember (env : BodyEnv) (composition : String) (type : TypeRef) (name : String)
    (count : Option Nat) (loc : Span) (s : BodyState) : BodyState :=
  match env.slotTable? type with
  | none => s
  | some table =>
    match table.method? name, count with
    | some slot, some count => checkArity name (table.arity? slot) count loc s
    | some _, none => s
    | none, _ =>
      if (table.variableRef? name).isSome then s
      else s.report loc (.unknownCompositionMember composition name)

/-- Check a use of `base`, which needs an overridden method. -/
def checkBase (env : BodyEnv) (name : String) (count : Option Nat) (loc : Span) (s : BodyState) :
    BodyState :=
  match (env.table.method? name).bind fun slot => slot.before? env.table.ownPlace with
  | none => s.report loc (.baseMethodNotFound name)
  | some m =>
    match count with
    | some count => checkArity name ((env.table.decl? m).bind Decl.arity?) count loc s
    | none => s

/-- Check a member of `streams`, `base` or `this`. -/
def checkSpecial? (env : BodyEnv) (receiver name : String) (count : Option Nat) (loc : Span)
    (s : BodyState) : Option BodyState :=
  match receiver with
  | "streams" =>
    if (env.table.variableDecl? name).any Decl.isStream then some s
    else some (s.report loc (.streamMemberNotFound name))
  | "base" => some (env.checkBase name count loc s)
  | "this" =>
    match count with
    | some count => some (env.checkCall name count loc s)
    | none => some (env.checkName name loc s)
  | _ => none

/-- Check a member of a special name or a composition. -/
def checkMember? (env : BodyEnv) (receiver : Expr) (indexed : Bool) (name : String)
    (count : Option Nat) (loc : Span) (s : BodyState) : Option BodyState :=
  match receiver.ident? with
  | none => none
  | some subject =>
    let special :=
      if indexed || s.isBound subject then none else env.checkSpecial? subject name count loc s
    match special with
    | some s => some s
    | none =>
      (env.compositionType? s subject).map fun type =>
        env.checkSlotMember subject type.element name count loc s

mutual

def checkExpr (env : BodyEnv) : Expr → BodyState → BodyState
  | .literal .., s => s
  | .ident loc name, s => env.checkName name loc s
  | .member loc (.index _ target position) name, s =>
    let s := checkExpr env position s
    match env.checkMember? target true name none loc s with
    | some s => s
    | none => checkExpr env target s
  | .member loc target name, s =>
    match env.checkMember? target false name none loc s with
    | some s => s
    | none => checkExpr env target s
  | .call _ (.ident loc name) args, s => env.checkCall name args.length loc (checkExprs env args s)
  | .call _ (.member loc (.index _ target position) name) args, s =>
    let s := checkExpr env position (checkExprs env args s)
    match env.checkMember? target true name (some args.length) loc s with
    | some s => s
    | none => checkExpr env target s
  | .call _ (.member loc target name) args, s =>
    let s := checkExprs env args s
    match env.checkMember? target false name (some args.length) loc s with
    | some s => s
    | none => checkExpr env target s
  | .call _ callee args, s => checkExpr env callee (checkExprs env args s)
  | .index _ target position, s => checkExpr env position (checkExpr env target s)
  | .unary _ _ operand, s => checkExpr env operand s
  | .binary _ _ lhs rhs, s => checkExpr env rhs (checkExpr env lhs s)
  | .assign _ _ target value, s => checkExpr env value (checkExpr env target s)
  | .ternary _ condition yes no, s =>
    checkExpr env no (checkExpr env yes (checkExpr env condition s))
  | .list _ items, s => checkExprs env items s

def checkExprs (env : BodyEnv) : List Expr → BodyState → BodyState
  | [], s => s
  | e :: es, s => checkExprs env es (checkExpr env e s)

end

def checkOption (env : BodyEnv) (e : Option Expr) (s : BodyState) : BodyState :=
  match e with
  | some e => env.checkExpr e s
  | none => s

/-- A declaration is in scope after its own initializer. -/
def checkSimple (env : BodyEnv) (what : Simple) (s : BodyState) : BodyState :=
  match what with
  | .declare _ _ name init => (env.checkOption init s).declare name .value
  | .expr value => env.checkExpr value s

/-- A return has a value exactly in a method that has one. -/
def checkReturn (env : BodyEnv) (loc : Span) (value : Option Expr) (s : BodyState) : BodyState :=
  match value.isSome, env.returnsValue with
  | true, false => s.report loc (.valueInVoidMethod env.method)
  | false, true => s.report loc (.missingReturnValue env.method)
  | _, _ => s

/-- The loop variable of a composition array is a composition. -/
def loopVariable (env : BodyEnv) (collection : Expr) (s : BodyState) : Local × BodyState :=
  match (collection.ident?.bind (env.compositionType? s)).filter TypeRef.isArray with
  | some type => (.composition type.element, s)
  | none => (.value, s.report collection.loc (.invalidForEach (describe collection)))

mutual

/-- Check one statement; blocks and loops open a scope. -/
def checkStmt (env : BodyEnv) : Stmt → BodyState → BodyState
  | .block _ body, s => s.within (checkStmts env body)
  | .simple _ what, s => env.checkSimple what s
  | .ret lead value, s => env.checkOption value (env.checkReturn lead.loc value s)
  | .ifThen _ condition yes, s => checkStmt env yes (env.checkExpr condition s)
  | .ifElse _ condition yes no, s =>
    checkStmt env no (checkStmt env yes (env.checkExpr condition s))
  | .forLoop _ init condition step body, s =>
    s.within fun s =>
      let s := match init with
        | some (_, what) => env.checkSimple what s
        | none => s
      checkStmt env body (env.checkOption step (env.checkOption condition s))
  | .whileLoop _ condition body, s => checkStmt env body (env.checkExpr condition s)
  | .forEach _ name collection body, s =>
    let (what, s) := env.loopVariable collection s
    s.within fun s => checkStmt env body (s.declare name what)
  | .breakLoop _, s | .continueLoop _, s | .discard _, s | .empty _, s => s

def checkStmts (env : BodyEnv) : List Stmt → BodyState → BodyState
  | [], s => s
  | t :: ts, s => checkStmts env ts (checkStmt env t s)

end

end BodyEnv

def methodLog (context : Context) (table : MemberTable) (d : Decl) : Log :=
  match d.kind with
  | .method returns params _ (some body) =>
    let env : BodyEnv := ⟨context.slotTable?, context.builtins, table, d.name, !returns.isVoid⟩
    let start : BodyState := params.foldl (fun s p => s.declare p.name .value) {}
    (env.checkStmts body start).log
  | _ => []

/-- The findings in one class; synthesized mixins have none. -/
def classLog (context : Context) (k : KnownClass) : Log :=
  if k.loaded.isMixin then []
  else k.loaded.cls.methods.flatMap fun e => methodLog context k.table e.2

end Check

def Context.bodyLog (c : Context) : Log := c.classes.flatMap (Check.classLog c)

/-- Bodies are checked only if the declarations are right. -/
def Context.log (c : Context) : Log :=
  let log := c.declarationLog
  if log.hasErrors then log else log ++ c.bodyLog

end ShaderCompose
