import ShaderCompose.Lang.Decl

/-!
The calls in a method, with the names that are bound around them.
-/

namespace ShaderCompose

inductive Callee where
  | name (called : String)
  | member (receiver : Option String) (called : String)
  deriving DecidableEq

namespace Callee

def called : Callee → String
  | name called | member _ called => called

def name? : Callee → Option String
  | name called => some called
  | member .. => none

def receiver? : Callee → Option String
  | name _ => none
  | member receiver _ => receiver

end Callee

def Expr.callee? : Expr → Option Callee
  | .ident _ name => some (.name name)
  | .member _ target name => some (.member target.ident? name)
  | _ => none

mutual

def Expr.calls : Expr → List Callee
  | .literal .. | .ident .. => []
  | .member _ target _ => target.calls
  | .call _ callee args => callee.callee?.toList ++ (callee.calls ++ Expr.callsAll args)
  | .index _ target position => target.calls ++ position.calls
  | .unary _ _ operand => operand.calls
  | .binary _ _ lhs rhs => lhs.calls ++ rhs.calls
  | .assign _ _ target value => target.calls ++ value.calls
  | .ternary _ condition yes no => condition.calls ++ (yes.calls ++ no.calls)
  | .list _ items => Expr.callsAll items

def Expr.callsAll : List Expr → List Callee
  | [] => []
  | e :: es => e.calls ++ Expr.callsAll es

end

def Expr.called (e : Expr) : List String := e.calls.filterMap Callee.name?

theorem Expr.calls_of_ident? {e : Expr} {name : String} (h : e.ident? = some name) : e.calls = [] := by
  cases e <;> first | rfl | cases h

inductive Bound where
  | value
  | loop
  deriving DecidableEq

abbrev Scope := List (String × Bound)

/-- An expression with the names that are bound around it. -/
structure Spot where
  scope : Scope
  isAside : Bool
  expr : Expr

def Spot.freeCalls (s : Spot) : List String := s.expr.called.filter fun n => (s.scope.lookup n).isNone

def Spot.ofOption (scope : Scope) (e : Option Expr) : List Spot := e.toList.map fun e => ⟨scope, false, e⟩

def TypeRef.spots (scope : Scope) (t : TypeRef) : List Spot :=
  match t.array with
  | some (.fixed size) => [⟨scope, true, size⟩]
  | _ => []

def Lead.spots (scope : Scope) (l : Lead) : List Spot :=
  l.attrs.flatMap fun a => a.args.map fun e => ⟨scope, true, e⟩

namespace Simple

def binds : Simple → Scope
  | .declare _ _ name _ => [(name, .value)]
  | .expr _ => []

def spots (scope : Scope) : Simple → List Spot
  | .declare _ type _ init => type.spots scope ++ Spot.ofOption scope init
  | .expr value => [⟨scope, false, value⟩]

def bindsIn (start : Option (Span × Simple)) : Scope := (start.map fun s => s.2.binds).getD []

def spotsIn (scope : Scope) (start : Option (Span × Simple)) : List Spot :=
  (start.map fun s => s.2.spots scope).getD []

end Simple

namespace Stmt

def binds : Stmt → Scope
  | .simple _ what => what.binds
  | .ifThen _ _ yes => yes.binds
  | .ifElse _ _ yes no => no.binds ++ yes.binds
  | .whileLoop _ _ body => body.binds
  | _ => []

mutual

def spots (scope : Scope) : Stmt → List Spot
  | .block l body => l.spots scope ++ spotsAll scope body
  | .simple l what => l.spots scope ++ what.spots scope
  | .ret l value => l.spots scope ++ Spot.ofOption scope value
  | .ifThen l condition yes => l.spots scope ++ (⟨scope, false, condition⟩ :: yes.spots scope)
  | .ifElse l condition yes no =>
    l.spots scope ++ (⟨scope, false, condition⟩ :: (yes.spots scope ++ no.spots (yes.binds ++ scope)))
  | .forLoop l init condition step body =>
    l.spots scope ++ (Simple.spotsIn scope init ++ (Spot.ofOption (Simple.bindsIn init ++ scope) condition ++
        (Spot.ofOption (Simple.bindsIn init ++ scope) step ++ body.spots (Simple.bindsIn init ++ scope))))
  | .whileLoop l condition body => l.spots scope ++ (⟨scope, false, condition⟩ :: body.spots scope)
  | .forEach l name collection body =>
    l.spots scope ++ (⟨scope, false, collection⟩ :: body.spots ((name, .loop) :: scope))
  | .breakLoop l | .continueLoop l | .discard l | .empty l => l.spots scope

def spotsAll (scope : Scope) : List Stmt → List Spot
  | [] => []
  | s :: ss => s.spots scope ++ spotsAll (s.binds ++ scope) ss

end

section

variable {scope binds : Scope} {l : Lead} {condition : Expr} {yes no body : Stmt}
  {init : Option (Span × Simple)} {check step : Option Expr}

theorem spots_ifElse (h : yes.binds = binds) : (ifElse l condition yes no).spots scope =
      l.spots scope ++ (⟨scope, false, condition⟩ :: (yes.spots scope ++ no.spots (binds ++ scope))) := by
  rw [spots, h]

theorem spots_forLoop (h : Simple.bindsIn init = binds) : (forLoop l init check step body).spots scope =
      l.spots scope ++ (Simple.spotsIn scope init ++ (Spot.ofOption (binds ++ scope) check ++
        (Spot.ofOption (binds ++ scope) step ++ body.spots (binds ++ scope)))) := by
  rw [spots, h]

theorem spotsAll_cons {first : Stmt} {rest : List Stmt} (h : first.binds = binds) :
    spotsAll scope (first :: rest) = first.spots scope ++ spotsAll (binds ++ scope) rest := by
  rw [spotsAll, h]

end

def bindsAll : List Stmt → Scope
  | [] => []
  | s :: ss => bindsAll ss ++ s.binds

end Stmt

def Param.scope (params : List Param) : Scope := (params.map fun p => (p.name, Bound.value)).reverse

def DeclKind.spots : DeclKind → List Spot
  | .method _ params _ (some body) => Stmt.spotsAll (Param.scope params) body
  | _ => []

theorem DeclKind.spots_method {returns : TypeRef} {params : List Param} {semantic : Option String}
    {body : List Stmt} {scope : Scope} (h : Param.scope params = scope) :
    (method returns params semantic (some body)).spots = Stmt.spotsAll scope body := by
  rw [spots, h]

theorem DeclKind.spots_eq_nil {kind : DeclKind}
    (h : ∀ returns params semantic body, kind ≠ method returns params semantic (some body)) : kind.spots = [] := by
  cases kind with
  | method returns params semantic body? =>
    cases body? with
    | none => rfl
    | some body => exact absurd rfl (h returns params semantic body)
  | _ => rfl

def Decl.spots (d : Decl) : List Spot := d.kind.spots

def Decl.freeCalls (d : Decl) : List String := d.spots.flatMap Spot.freeCalls

theorem Decl.mem_freeCalls {d : Decl} {n : String} :
    n ∈ d.freeCalls ↔ ∃ spot ∈ d.spots, .name n ∈ spot.expr.calls ∧ spot.scope.lookup n = none := by
  have hcalled : ∀ e : Expr, n ∈ e.called ↔ .name n ∈ e.calls := by
    intro e
    refine List.mem_filterMap.trans ⟨?_, fun h => ⟨_, h, rfl⟩⟩
    rintro ⟨c, hc, hname⟩
    cases c with
    | name called =>
      cases hname
      exact hc
    | member receiver called => cases hname
  simp only [freeCalls, List.mem_flatMap, Spot.freeCalls, List.mem_filter, hcalled, Option.isNone_iff_eq_none]

theorem Decl.freeCalls_of_not_isMethod {d : Decl} (h : d.isMethod = false) : d.freeCalls = [] := by
  unfold isMethod at h
  rw [freeCalls, spots]
  cases hkind : d.kind with
  | method => simp [hkind] at h
  | _ => rfl

end ShaderCompose
