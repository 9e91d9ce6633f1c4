import ShaderCompose.Proofs.Mix.Calls
import ShaderCompose.Proofs.Mix.Coverage

/-!
The references in a renamed declaration.
-/

namespace ShaderCompose

open List

/-! ## The names that stand as expressions in a declaration, in order -/

mutual

def Expr.names : Expr → List String
  | .literal .. => []
  | .ident _ name => [name]
  | .member _ target _ => target.names
  | .call _ callee args => callee.names ++ Expr.namesAll args
  | .index _ target position => target.names ++ position.names
  | .unary _ _ operand => operand.names
  | .binary _ _ lhs rhs => lhs.names ++ rhs.names
  | .assign _ _ target value => target.names ++ value.names
  | .ternary _ condition yes no => condition.names ++ (yes.names ++ no.names)
  | .list _ items => Expr.namesAll items

def Expr.namesAll : List Expr → List String
  | [] => []
  | e :: es => e.names ++ Expr.namesAll es

end

def Expr.namesIn (e : Option Expr) : List String := (e.map Expr.names).getD []

def TypeRef.names (t : TypeRef) : List String :=
  match t.array with
  | some (.fixed size) => size.names
  | _ => []

def Attribute.namesAll (as : List Attribute) : List String := as.flatMap fun a => Expr.namesAll a.args

def Simple.names : Simple → List String
  | .declare _ type _ init => type.names ++ Expr.namesIn init
  | .expr value => value.names

def Lead.names (l : Lead) : List String := Attribute.namesAll l.attrs

def Simple.namesIn (start : Option (Span × Simple)) : List String :=
  (start.map fun s => s.2.names).getD []

mutual

def Stmt.names : Stmt → List String
  | .block l body => l.names ++ Stmt.namesAll body
  | .simple l what => l.names ++ what.names
  | .ret l value => l.names ++ Expr.namesIn value
  | .ifThen l condition yes => l.names ++ (condition.names ++ yes.names)
  | .ifElse l condition yes no => l.names ++ (condition.names ++ (yes.names ++ no.names))
  | .forLoop l init condition step body =>
    l.names ++ (Simple.namesIn init ++ (Expr.namesIn condition ++ (Expr.namesIn step ++ body.names)))
  | .whileLoop l condition body => l.names ++ (condition.names ++ body.names)
  | .forEach l _ collection body => l.names ++ (collection.names ++ body.names)
  | .breakLoop l | .continueLoop l | .discard l | .empty l => l.names

def Stmt.namesAll : List Stmt → List String
  | [] => []
  | s :: ss => s.names ++ Stmt.namesAll ss

end

theorem Stmt.namesAll_eq (ss : List Stmt) : Stmt.namesAll ss = ss.flatMap Stmt.names := by
  induction ss with
  | nil => rfl
  | cons s ss ih => rw [Stmt.namesAll, ih, flatMap_cons]

def Param.names (p : Param) : List String := p.type.names ++ Expr.namesIn p.default

def Initializer.names : Initializer → List String
  | .expr value => value.names
  | .state fields => fields.flatMap fun f => f.value.names

def DeclKind.names : DeclKind → List String
  | .var type _ init => type.names ++ (init.map Initializer.names).getD []
  | .method returns params _ body =>
    returns.names ++ (params.flatMap Param.names ++ (body.map Stmt.namesAll).getD [])
  | .struct fields => fields.flatMap Param.names
  | .buffer .. => []

def Decl.names (d : Decl) : List String := Attribute.namesAll d.attrs ++ d.kind.names

namespace Mix

/-! ## Traces of renaming -/

inductive Origin where
  | kept
  | member
  | stream
  deriving DecidableEq

structure Reference where
  origin : Origin
  name : String
  deriving DecidableEq

def Rename.both (m n : Rename (List Reference)) : Rename (List Reference) := do
  let x ← m
  let y ← n
  return x ++ y

def Rename.each {α : Type} (f : α → Rename (List Reference)) : List α → Rename (List Reference)
  | [] => return []
  | a :: as => Rename.both (f a) (Rename.each f as)

namespace RenameEnv

open Rename

mutual

def traceExpr (env : RenameEnv) : Expr → Rename (List Reference)
  | .literal .. => return []
  | .ident _ name => do
    match ← env.resolveName name with
    | some renamed => return [⟨.member, renamed⟩]
    | none => return [⟨.kept, name⟩]
  | .member loc target name => do
    match ← env.resolveMember target name loc with
    | some renamed =>
      return [⟨if target.ident? = some "streams" then .stream else .member, renamed⟩]
    | none => traceExpr env target
  | .call _ callee args => both (traceExpr env callee) (traceExprs env args)
  | .index _ target position => both (traceExpr env target) (traceExpr env position)
  | .unary _ _ operand => traceExpr env operand
  | .binary _ _ lhs rhs => both (traceExpr env lhs) (traceExpr env rhs)
  | .assign _ _ target value => both (traceExpr env target) (traceExpr env value)
  | .ternary _ condition yes no =>
    both (traceExpr env condition) (both (traceExpr env yes) (traceExpr env no))
  | .list _ items => traceExprs env items

def traceExprs (env : RenameEnv) : List Expr → Rename (List Reference)
  | [] => return []
  | e :: es => both (traceExpr env e) (traceExprs env es)

end

def traceOption (env : RenameEnv) : Option Expr → Rename (List Reference)
  | some e => env.traceExpr e
  | none => return []

def traceType (env : RenameEnv) (t : TypeRef) : Rename (List Reference) :=
  match t.array with
  | some (.fixed size) => env.traceExpr size
  | _ => return []

def traceAttrs (env : RenameEnv) (as : List Attribute) : Rename (List Reference) :=
  each (fun a => env.traceExprs a.args) as

def traceSimple (env : RenameEnv) : Simple → Rename (List Reference)
  | .declare _ t name init => do
    let refs ← both (env.traceType t) (env.traceOption init)
    modify fun s => s.declare name .plain
    return refs
  | .expr value => env.traceExpr value

def traceStart (env : RenameEnv) : Option (Span × Simple) → Rename (List Reference)
  | some (_, what) => env.traceSimple what
  | none => return []

mutual

def traceStmt (env : RenameEnv) : Stmt → Rename (List Reference)
  | .block l body => within [] (both (env.traceAttrs l.attrs) (traceStmts env body))
  | .simple l what => both (env.traceAttrs l.attrs) (env.traceSimple what)
  | .ret l value => both (env.traceAttrs l.attrs) (env.traceOption value)
  | .ifThen l condition yes =>
    both (env.traceAttrs l.attrs) (both (env.traceExpr condition) (traceStmt env yes))
  | .ifElse l condition yes no =>
    both (env.traceAttrs l.attrs) (both (env.traceExpr condition) (both (traceStmt env yes) (traceStmt env no)))
  | .forLoop l init condition step body =>
    within [] (both (env.traceAttrs l.attrs) (both (env.traceStart init)
      (both (env.traceOption condition) (both (env.traceOption step) (traceStmt env body)))))
  | .whileLoop l condition body =>
    both (env.traceAttrs l.attrs) (both (env.traceExpr condition) (traceStmt env body))
  | .forEach l name collection body => do
    let targets := env.loopTargets collection (← get)
    let refs ← each (fun number => within [(name, .composed number)] (traceStmt env body)) targets
    -- what stands before a loop is not renamed
    return (Attribute.namesAll l.attrs).map (⟨.kept, ·⟩) ++ refs
  | .breakLoop l | .continueLoop l | .discard l | .empty l => env.traceAttrs l.attrs

def traceStmts (env : RenameEnv) : List Stmt → Rename (List Reference)
  | [] => return []
  | s :: ss => both (traceStmt env s) (traceStmts env ss)

end

def traceParam (env : RenameEnv) (p : Param) : Rename (List Reference) :=
  both (env.traceType p.type) (env.traceOption p.default)

def traceInitializer (env : RenameEnv) : Initializer → Rename (List Reference)
  | .expr value => env.traceExpr value
  | .state fields => each (fun f => env.traceExpr f.value) fields

def traceKind (env : RenameEnv) : DeclKind → Rename (List Reference)
  | .var t _ none => env.traceType t
  | .var t _ (some init) => both (env.traceType t) (env.traceInitializer init)
  | .method returns params _ none => both (env.traceType returns) (each env.traceParam params)
  | .method returns params _ (some body) =>
    both (env.traceType returns) (both (each env.traceParam params) (env.traceStmts body))
  | .struct fields => each env.traceParam fields
  | .buffer .. => return []

def traceDecl (env : RenameEnv) (d : Decl) : Rename (List Reference) :=
  both (env.traceAttrs d.attrs) (env.traceKind d.kind)

end RenameEnv

/-! ## Traces follow renaming -/

def Tracks {α : Type} (P : String → Prop) (m : Rename (List Reference)) (r : Rename α)
    (Q : List String → α → Prop) : Prop :=
  ∀ s, (m s).2 = (r s).2 ∧ Q ((m s).1.map Reference.name) (r s).1 ∧ ∀ ref ∈ (m s).1, ref.origin = .member → P ref.name

namespace Tracks

open Rename

variable {α β : Type} {P : String → Prop} {m n : Rename (List Reference)} {r : Rename α}

variable {Q : List String → α → Prop} {R : List String → β → Prop}

theorem pure {a : α} (h : Q [] a) : Tracks P (Pure.pure []) (Pure.pure a) Q := fun _ => ⟨rfl, h, forall_mem_nil _⟩

theorem last {names : α → List String} {f : α → β} (h : Tracks P m r fun xs a => xs = names a)
    (hf : ∀ a, R (names a) (f a)) : Tracks P m (r >>= fun a => Pure.pure (f a)) R := by
  intro s
  obtain ⟨hstate, hnames, hmember⟩ := h s
  exact ⟨hstate, hnames ▸ hf _, hmember⟩

theorem keep {f : α → β} (h : Tracks P m r Q) (names : List String) (hf : ∀ xs a, Q xs a → R (names ++ xs) (f a)) :
    Tracks P (m >>= fun refs => Pure.pure (names.map (⟨.kept, ·⟩) ++ refs))
      (r >>= fun a => Pure.pure (f a)) R := by
  intro s
  obtain ⟨hstate, hnames, hmember⟩ := h s
  have hkept : (names.map (Reference.mk .kept)).map Reference.name = names := by
    rw [map_map]
    exact map_id names
  refine ⟨hstate, ?_, forall_mem_append.mpr ⟨fun ref href horigin => ?_, hmember⟩⟩
  · have hall := hf _ _ hnames
    rwa [← hkept, ← map_append] at hall
  · obtain ⟨name, -, rfl⟩ := mem_map.mp href
    cases horigin

theorem read {m : RenameState → Rename (List Reference)} {r : RenameState → Rename α}
    {Q : List String → α → Prop} (h : ∀ s, Tracks P (m s) (r s) Q) : Tracks P (get >>= m) (get >>= r) Q :=
  fun s => h s s

theorem seq {names : α → List String} {f : α → Rename β} (h : Tracks P m r fun xs a => xs = names a)
    (hf : ∀ a, Tracks P n (f a) fun ys b => R (names a ++ ys) b) : Tracks P (both m n) (r >>= f) R := by
  intro s
  obtain ⟨hstate, hnames, hmember⟩ := h s
  obtain ⟨hstate', hnames', hmember'⟩ := hf _ (r s).2
  have hboth : both m n s = ((m s).1 ++ (n (m s).2).1, (n (m s).2).2) := rfl
  have hbind : (r >>= f) s = f (r s).1 (r s).2 := rfl
  rw [hboth, hstate]
  refine ⟨hstate', ?_, forall_mem_append.mpr ⟨hmember, hmember'⟩⟩
  rw [map_append, hnames]
  exact hnames'

theorem within (h : Tracks P m r Q) (bound : List (String × Binding)) :
    Tracks P (Rename.within bound m) (Rename.within bound r) Q := by
  intro s
  obtain ⟨hstate, hnames, hmember⟩ := h { s with scope := bound ++ s.scope }
  exact ⟨congrArg (fun t : RenameState => { t with scope := s.scope }) hstate, hnames, hmember⟩

theorem each {f : α → Rename (List Reference)} {g : α → Rename β} (names : β → List String)
    (h : ∀ a, Tracks P (f a) (g a) fun xs b => xs = names b) (as : List α) :
    Tracks P (Rename.each f as) (as.mapM g) fun xs bs => xs = bs.flatMap names := by
  induction as with
  | nil => exact .pure rfl
  | cons a as ih =>
    rw [mapM_cons]
    exact (h a).seq fun _ => ih.last fun _ => flatMap_cons.symm

end Tracks

structure RenameEnv.Gives (env : RenameEnv) (P : String → Prop) : Prop where
  name {name : String} {s : RenameState} {renamed : String} : (env.resolveName name s).1 = some renamed → P renamed
  member {target : Expr} {name : String} {loc : Span} {s : RenameState} {renamed : String} :
    target.ident? ≠ some "streams" → (env.resolveMember target name loc s).1 = some renamed → P renamed

section

variable {env : RenameEnv} {P : String → Prop}

mutual

theorem traceExpr_tracks (h : env.Gives P) (e : Expr) :
    Tracks P (env.traceExpr e) (env.expr e) fun names e' => names = e'.names := by
  match e with
  | .literal _ _ => exact .pure rfl
  | .ident loc name =>
    intro s
    have hresult := @h.name name s
    simp only [RenameEnv.traceExpr, RenameEnv.expr, bind, StateT.bind]
    generalize env.resolveName name s = found at hresult ⊢
    obtain ⟨renamed, t⟩ := found
    cases renamed with
    | none => exact ⟨rfl, rfl, forall_mem_singleton.mpr fun horigin => by cases horigin⟩
    | some renamed => exact ⟨rfl, rfl, forall_mem_singleton.mpr fun _ => hresult rfl⟩
  | .member loc target name =>
    intro s
    have hresult := @h.member target name loc s
    have ih := traceExpr_tracks h target
    simp only [RenameEnv.traceExpr, RenameEnv.expr, bind, StateT.bind]
    generalize env.resolveMember target name loc s = found at hresult ⊢
    obtain ⟨renamed, t⟩ := found
    cases renamed with
    | none => exact ih t
    | some renamed =>
      refine ⟨rfl, rfl, forall_mem_singleton.mpr fun horigin => ?_⟩
      refine hresult (fun hstreams => ?_) rfl
      simp [hstreams] at horigin
  | .call loc callee args =>
    exact (traceExpr_tracks h callee).seq fun _ => (traceExprs_tracks h args).last fun _ => rfl
  | .index loc lhs rhs | .binary loc _ lhs rhs | .assign loc _ lhs rhs =>
    exact (traceExpr_tracks h lhs).seq fun _ => (traceExpr_tracks h rhs).last fun _ => rfl
  | .ternary loc condition yes no =>
    exact (traceExpr_tracks h condition).seq fun _ => (traceExpr_tracks h yes).seq fun _ =>
      (traceExpr_tracks h no).last fun _ => rfl
  | .unary loc op operand =>
    exact (traceExpr_tracks h operand).last fun _ => rfl
  | .list loc items =>
    exact (traceExprs_tracks h items).last fun _ => rfl

theorem traceExprs_tracks (h : env.Gives P) (es : List Expr) :
    Tracks P (env.traceExprs es) (env.exprs es) fun names es' => names = Expr.namesAll es' := by
  match es with
  | [] => exact .pure rfl
  | e :: es =>
    exact (traceExpr_tracks h e).seq fun _ => (traceExprs_tracks h es).last fun _ => rfl

end

theorem traceOption_tracks (h : env.Gives P) (e : Option Expr) :
    Tracks P (env.traceOption e) (env.option e) fun names e' => names = Expr.namesIn e' := by
  cases e with
  | none => exact .pure rfl
  | some e => exact (traceExpr_tracks h e).last fun _ => rfl

theorem traceType_tracks (h : env.Gives P) (t : TypeRef) :
    Tracks P (env.traceType t) (env.type t) fun names t' => names = t'.names := by
  obtain ⟨name, args, array⟩ := t
  cases array with
  | none => exact .pure rfl
  | some size =>
    cases size with
    | fixed size => exact (traceExpr_tracks h size).last fun _ => rfl
    | _ => exact .pure rfl

theorem traceAttrs_tracks (h : env.Gives P) (as : List Attribute) :
    Tracks P (env.traceAttrs as) (env.attrs as) fun names as' => names = Attribute.namesAll as' :=
  .each (fun a : Attribute => Expr.namesAll a.args)
    (fun a : Attribute => (traceExprs_tracks h a.args).last fun _ => rfl) as

theorem traceLead_tracks (h : env.Gives P) (l : Lead) :
    Tracks P (env.traceAttrs l.attrs) (env.lead l) fun names l' => names = l'.names :=
  (traceAttrs_tracks h l.attrs).last fun _ => rfl

theorem traceSimple_tracks (h : env.Gives P) (what : Simple) :
    Tracks P (env.traceSimple what) (env.simple what) fun names what' => names = what'.names := by
  cases what with
  | declare quals t name init =>
    have hparts : Tracks P (Rename.both (env.traceType t) (env.traceOption init))
        (do let t ← env.type t; let init ← env.option init; return (t, init))
        fun names parts => names = parts.1.names ++ Expr.namesIn parts.2 := by
      exact (traceType_tracks h t).seq fun _ => (traceOption_tracks h init).last fun _ => rfl
    intro s
    obtain ⟨hstate, hnames, hmembers⟩ := hparts s
    exact ⟨congrArg (fun t : RenameState => t.declare name .plain) hstate, hnames, hmembers⟩
  | expr value => exact (traceExpr_tracks h value).last fun _ => rfl

theorem traceStart_tracks (h : env.Gives P) (start : Option (Span × Simple)) :
    Tracks P (env.traceStart start) (env.loopStart start)
      fun names start' => names = Simple.namesIn start' := by
  cases start with
  | none => exact .pure rfl
  | some start => exact (traceSimple_tracks h start.2).last fun _ => rfl

mutual

theorem traceStmt_tracks (h : env.Gives P) (st : Stmt) :
    Tracks P (env.traceStmt st) (env.stmt st) fun names st' => names = st'.names := by
  match st with
  | .block l body =>
    exact .within ((traceLead_tracks h l).seq fun _ => (traceStmts_tracks h body).last fun _ => rfl) []
  | .simple l what =>
    exact (traceLead_tracks h l).seq fun _ => (traceSimple_tracks h what).last fun _ => rfl
  | .ret l value =>
    exact (traceLead_tracks h l).seq fun _ => (traceOption_tracks h value).last fun _ => rfl
  | .ifThen l condition body | .whileLoop l condition body =>
    exact (traceLead_tracks h l).seq fun _ => (traceExpr_tracks h condition).seq fun _ =>
      (traceStmt_tracks h body).last fun _ => rfl
  | .ifElse l condition yes no =>
    exact (traceLead_tracks h l).seq fun _ => (traceExpr_tracks h condition).seq fun _ =>
      (traceStmt_tracks h yes).seq fun _ => (traceStmt_tracks h no).last fun _ => rfl
  | .forLoop l init condition step body =>
    refine .within ?_ []
    exact (traceLead_tracks h l).seq fun _ => (traceStart_tracks h init).seq fun _ =>
      (traceOption_tracks h condition).seq fun _ => (traceOption_tracks h step).seq fun _ =>
        (traceStmt_tracks h body).last fun _ => rfl
  | .forEach l name collection body =>
    have hcopies : ∀ targets : List Nat, Tracks P
        (Rename.each (fun number => Rename.within [(name, .composed number)] (env.traceStmt body)) targets)
        (targets.mapM fun number => Rename.within [(name, .composed number)] (env.stmt body))
        fun names copies => names = copies.flatMap Stmt.names :=
      Tracks.each Stmt.names fun number => (traceStmt_tracks h body).within [(name, .composed number)]
    refine Tracks.read fun s => ?_
    refine (hcopies (env.loopTargets collection s)).keep (Attribute.namesAll l.attrs) fun xs a ha => ?_
    rw [ha, ← Stmt.namesAll_eq]
    rfl
  | .breakLoop l | .continueLoop l | .discard l | .empty l =>
    exact (traceLead_tracks h l).last fun _ => rfl

theorem traceStmts_tracks (h : env.Gives P) (ss : List Stmt) :
    Tracks P (env.traceStmts ss) (env.stmts ss) fun names ss' => names = Stmt.namesAll ss' := by
  match ss with
  | [] => exact .pure rfl
  | st :: ss =>
    exact (traceStmt_tracks h st).seq fun _ => (traceStmts_tracks h ss).last fun _ => rfl

end

theorem traceParam_tracks (h : env.Gives P) (p : Param) :
    Tracks P (env.traceParam p) (env.param p) fun names p' => names = p'.names :=
  (traceType_tracks h p.type).seq fun _ => (traceOption_tracks h p.default).last fun _ => rfl

theorem traceParams_tracks (h : env.Gives P) (ps : List Param) :
    Tracks P (Rename.each env.traceParam ps) (ps.mapM env.param) fun names ps' => names = ps'.flatMap Param.names :=
  .each Param.names (traceParam_tracks h) ps

theorem traceInitializer_tracks (h : env.Gives P) (init : Initializer) :
    Tracks P (env.traceInitializer init) (env.initializer init) fun names init' => names = init'.names := by
  cases init with
  | expr value => exact (traceExpr_tracks h value).last fun _ => rfl
  | state fields =>
    refine (Tracks.each (fun f : StateField => f.value.names) (fun f => ?_) fields).last fun _ => rfl
    exact (traceExpr_tracks h f.value).last fun _ => rfl

theorem traceKind_tracks (h : env.Gives P) (k : DeclKind) :
    Tracks P (env.traceKind k) (env.kind k) fun names k' => names = k'.names := by
  match k with
  | .var t semantic none =>
    exact (traceType_tracks h t).last fun _ => (append_nil _).symm
  | .var t semantic (some init) =>
    exact (traceType_tracks h t).seq fun _ => (traceInitializer_tracks h init).last fun _ => rfl
  | .method returns params semantic none =>
    exact (traceType_tracks h returns).seq fun _ => (traceParams_tracks h params).last fun _ =>
      congrArg (_ ++ ·) (append_nil _).symm
  | .method returns params semantic (some body) =>
    exact (traceType_tracks h returns).seq fun _ => (traceParams_tracks h params).seq fun _ =>
      (traceStmts_tracks h body).last fun _ => rfl
  | .struct fields => exact (traceParams_tracks h fields).last fun _ => rfl
  | .buffer kind members => exact .pure rfl

theorem traceDecl_tracks (h : env.Gives P) (d : Decl) :
    Tracks P (env.traceDecl d) (env.decl d) fun names d' => names = d'.names :=
  (traceAttrs_tracks h d.attrs).seq fun _ => (traceKind_tracks h d.kind).last fun _ => rfl

end

/-! ## References to members are declared -/

section

variable {builtins : List Module} {instances : List MixInstance} {number : Nat} {inst : MixInstance}
  (hlog : (emit builtins instances).2.hasErrors = false) (horderly : ∀ i ∈ instances, i.Orderly)

include hlog horderly

variable {name renamed : String}

theorem vars_declared (hinst : instances[number]? = some inst)
    (h : inst.names.vars.lookup name = some renamed) :
    (emit builtins instances).1.Declares renamed := by
  rw [(horderly inst (mem_of_getElem? hinst)).names] at h
  obtain ⟨ref, cls, d, hcls, hd, hcomp, -, rfl⟩ := Names.lookup_vars h
  exact declared_of_variable hlog horderly ⟨hinst, hcls, hd⟩ hcomp

theorem member?_declared (hinst : instances[number]? = some inst)
    (h : inst.names.member? name = some renamed) :
    (emit builtins instances).1.Declares renamed := by
  rcases Names.member?_cases h with hmethod | ⟨-, hvar⟩
  · have hown := horderly inst (mem_of_getElem? hinst)
    rw [hown.names] at hmethod
    obtain ⟨slot, ref, -, -, -, himplements⟩ := Names.lookup_methods hmethod
    exact declared_of_method hlog hinst hown himplements
  · exact vars_declared hlog horderly hinst hvar

theorem baseMember?_declared (hinst : instances[number]? = some inst)
    {place : Nat} (h : RenameEnv.baseMember? inst place name = some renamed) :
    (emit builtins instances).1.Declares renamed := by
  unfold RenameEnv.baseMember? at h
  split at h
  · have hown := horderly inst (mem_of_getElem? hinst)
    obtain ⟨ref, -, hlookup⟩ := Option.bind_eq_some_iff.mp h
    rw [hown.names] at hlookup
    exact declared_of_method hlog hinst hown (Names.mem_implementations.mp (mem_of_lookup hlookup))
  · exact vars_declared hlog horderly hinst h

theorem gives_declared (place : Option Place) :
    (RenameEnv.mk builtins instances place).Gives (emit builtins instances).1.Declares := by
  have hmember : ∀ {i name renamed}, i ∈ instances → i.names.member? name = some renamed →
      (emit builtins instances).1.Declares renamed := by
    intro i name renamed hi hname
    obtain ⟨number, hnumber⟩ := mem_iff_getElem?.mp hi
    exact member?_declared hlog horderly hnumber hname
  refine ⟨fun h => ?_, fun {target name loc s renamed} hstreams h => ?_⟩
  · obtain ⟨i, hi, hname⟩ := resolveName_some h
    exact hmember (instance_mem hi) hname
  · have hbecomes : Becomes _ [] [] _ renamed := resolveMember_some h
    generalize hreceiver : target.ident? = receiver at hbecomes
    cases hbecomes with
    | member _ hi hname => exact hmember hi hname
    | base _ hinst hbase => exact baseMember?_declared hlog horderly hinst hbase
    | stream => exact absurd hreceiver hstreams

end

end Mix

end ShaderCompose
