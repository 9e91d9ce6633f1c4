import Mathlib.Computability.Language
import ShaderCompose.Proofs.Stream.Walk

/-!
Executions of an entry point, as far as streams go.
-/

namespace ShaderCompose.Stream

open List Computability

inductive AccessKind where
  | read
  | write
  deriving DecidableEq, Repr

structure Event where
  stream : Nat
  kind : AccessKind
  deriving DecidableEq, Repr

/-- What a statement does, by the way it ends. -/
structure Exits (K : Type) where
  next : K
  broken : K
  continued : K
  returned : K

namespace Exits

variable {K : Type} [Zero K] [One K] [Add K] [Mul K] [KStar K]

def of (k : K) : Exits K := ⟨k, 0, 0, 0⟩

def after (k : K) (x : Exits K) : Exits K := ⟨k * x.next, k * x.broken, k * x.continued, k * x.returned⟩

def choice (x y : Exits K) : Exits K :=
  ⟨x.next + y.next, x.broken + y.broken, x.continued + y.continued, x.returned + y.returned⟩

def seq (x y : Exits K) : Exits K :=
  ⟨x.next * y.next, x.broken + x.next * y.broken, x.continued + x.next * y.continued,
    x.returned + x.next * y.returned⟩

def loop (condition step : K) (body : Exits K) : Exits K :=
  ⟨(condition * (body.next + body.continued) * step)∗ * (condition + condition * body.broken), 0, 0,
    (condition * (body.next + body.continued) * step)∗ * (condition * body.returned)⟩

def total (x : Exits K) : K := x.next + x.broken + x.continued + x.returned

end Exits

section Runs

variable {K : Type} [Zero K] [One K] [Add K] [Mul K] [KStar K]
  (event : Event → K) (streams : StreamIndex) (params : String → List Param) (enter : String → K)

def runName (bound : List String) (kind : AccessKind) (name : String) : K :=
  if bound.contains name then 1
  else
    match streams.lookup name with
    | some k => event ⟨k, kind⟩
    | none => 1

def runStore (bound : List String) : Expr → K
  | .ident _ name => runName event streams bound .write name
  | .member _ target _ => runStore bound target
  | .index _ target _ => runStore bound target
  | _ => 1

def runStores (bound : List String) : List Expr → List Param → K
  | [], _ => 1
  | e :: es, ps =>
    (if (Passing.of ps.head?).written then runStore event streams bound e else 1) * runStores bound es ps.tail

mutual

def runExpr (bound : List String) : Access → Expr → K
  | _, .literal .. => 1
  | .value, .ident _ name => runName event streams bound .read name
  | .target, .ident .. => 1
  | access, .member _ target _ => runExpr bound access target
  | .value, .index _ target position => runExpr bound .value target * runExpr bound .value position
  | .target, .index _ target position => runExpr bound .value position * runExpr bound .target target
  | _, .call _ callee args =>
    match callee with
    | .ident _ name =>
      runArgs bound args (params name) * enter name * runStores event streams bound args (params name)
    | _ => runExpr bound .value callee * runList bound args
  | _, .unary _ op operand =>
    runExpr bound .value operand *
      if changesOperand op then runExpr bound .target operand * runStore event streams bound operand else 1
  | _, .binary _ _ lhs rhs => runExpr bound .value lhs * runExpr bound .value rhs
  | _, .assign _ op target value =>
    runExpr bound .value value * (if op.isSome then runExpr bound .value target else 1) *
      (runExpr bound .target target * runStore event streams bound target)
  | _, .ternary _ condition yes no =>
    runExpr bound .value condition * (runExpr bound .value yes + runExpr bound .value no)
  | _, .list _ items => runList bound items

def runList (bound : List String) : List Expr → K
  | [] => 1
  | e :: es => runExpr bound .value e * runList bound es

def runArgs (bound : List String) : List Expr → List Param → K
  | [], _ => 1
  | e :: es, ps =>
    (if (Passing.of ps.head?).read then runExpr bound .value e else 1) *
      (if (Passing.of ps.head?).written then runExpr bound .target e else 1) * runArgs bound es ps.tail

end

def runOption (bound : List String) : Option Expr → K
  | some e => runExpr event streams params enter bound .value e
  | none => 1

def runSimple (bound : List String) : Simple → K
  | .declare _ _ _ init => runOption event streams params enter bound init
  | .expr value => runExpr event streams params enter bound .value value

def runStart (bound : List String) : Option (Span × Simple) → K
  | some (_, what) => runSimple event streams params enter bound what
  | none => 1

def declared : Simple → List String
  | .declare _ _ name _ => [name]
  | .expr _ => []

def declaredAtStart (init : Option (Span × Simple)) : List String := (init.map fun s => declared s.2).getD []

def declaredBy : Stmt → List String
  | .simple _ what => declared what
  | _ => []

mutual

def runStmt (bound : List String) : Stmt → Exits K
  | .block _ body => runStmts bound body
  | .simple _ what => .of (runSimple event streams params enter bound what)
  | .ret _ value => ⟨0, 0, 0, runOption event streams params enter bound value⟩
  | .ifThen _ condition yes =>
    .after (runExpr event streams params enter bound .value condition) (.choice (runStmt bound yes) (.of 1))
  | .ifElse _ condition yes no =>
    .after (runExpr event streams params enter bound .value condition)
      (.choice (runStmt bound yes) (runStmt bound no))
  | .forLoop _ init condition step body =>
    .after (runStart event streams params enter bound init)
      (.loop (runOption event streams params enter (declaredAtStart init ++ bound) condition)
        (runOption event streams params enter (declaredAtStart init ++ bound) step)
        (runStmt (declaredAtStart init ++ bound) body))
  | .whileLoop _ condition body =>
    .loop (runExpr event streams params enter bound .value condition) 1 (runStmt bound body)
  | .forEach _ name collection body =>
    .after (runExpr event streams params enter bound .value collection) (.loop 1 1 (runStmt (name :: bound) body))
  | .breakLoop _ => ⟨0, 1, 0, 0⟩
  | .continueLoop _ => ⟨0, 0, 1, 0⟩
  | .discard _ | .empty _ => .of 1

def runStmts (bound : List String) : List Stmt → Exits K
  | [] => .of 1
  | s :: ss => .seq (runStmt bound s) (runStmts (declaredBy s ++ bound) ss)

end

def runMethod (shader : Shader) : (depth : Nat) → String → K
  | 0, _ => 0
  | depth + 1, name =>
    match bodyOf? shader name with
    | none => 1
    | some body =>
      (runStmts event streams (methodParams shader) (runMethod shader depth)
        ((methodParams shader name).map Param.name) body).total

end Runs

/-! ## Two readings of the same code -/

section

variable {K L : Type} [Zero K] [One K] [Add K] [Mul K] [KStar K] [Zero L] [One L] [Add L] [Mul L] [KStar L]

structure Respects (R : K → L → Prop) : Prop where
  zero : R 0 0
  one : R 1 1
  add : ∀ {a b x y}, R a x → R b y → R (a + b) (x + y)
  mul : ∀ {a b x y}, R a x → R b y → R (a * b) (x * y)
  star : ∀ {a x}, R a x → R a∗ x∗

variable {R : K → L → Prop} (hR : Respects R)

structure Exits.Related (R : K → L → Prop) (x : Exits K) (y : Exits L) : Prop where
  next : R x.next y.next
  broken : R x.broken y.broken
  continued : R x.continued y.continued
  returned : R x.returned y.returned

namespace Exits.Related

variable {k : K} {l : L} {x x' : Exits K} {y y' : Exits L}

include hR

theorem of (h : R k l) : Related R (.of k) (.of l) := ⟨h, hR.zero, hR.zero, hR.zero⟩

theorem after (h : R k l) (hx : Related R x y) : Related R (.after k x) (.after l y) :=
  ⟨hR.mul h hx.next, hR.mul h hx.broken, hR.mul h hx.continued, hR.mul h hx.returned⟩

theorem choice (hx : Related R x y) (hx' : Related R x' y') : Related R (.choice x x') (.choice y y') :=
  ⟨hR.add hx.next hx'.next, hR.add hx.broken hx'.broken, hR.add hx.continued hx'.continued,
    hR.add hx.returned hx'.returned⟩

theorem seq (hx : Related R x y) (hx' : Related R x' y') : Related R (.seq x x') (.seq y y') :=
  ⟨hR.mul hx.next hx'.next, hR.add hx.broken (hR.mul hx.next hx'.broken),
    hR.add hx.continued (hR.mul hx.next hx'.continued), hR.add hx.returned (hR.mul hx.next hx'.returned)⟩

theorem loop {c s : K} {d t : L} (hc : R c d) (hs : R s t) (hx : Related R x y) :
    Related R (.loop c s x) (.loop d t y) := by
  have hrounds := hR.star (hR.mul (hR.mul hc (hR.add hx.next hx.continued)) hs)
  exact ⟨hR.mul hrounds (hR.add hc (hR.mul hc hx.broken)), hR.zero, hR.zero, hR.mul hrounds (hR.mul hc hx.returned)⟩

theorem total (hx : Related R x y) : R x.total y.total :=
  hR.add (hR.add (hR.add hx.next hx.broken) hx.continued) hx.returned

end Exits.Related

variable {event : Event → K} {event' : Event → L} {streams : StreamIndex} {params : String → List Param}
  {enter : String → K} {enter' : String → L}

structure RelatedAt (R : K → L → Prop) (event : Event → K) (event' : Event → L) (streams : StreamIndex)
    (enter : String → K) (enter' : String → L) (x : Expr) : Prop where
  name : ∀ n, x.ident? = some n → ∀ k kind, streams.lookup n = some k → R (event ⟨k, kind⟩) (event' ⟨k, kind⟩)
  call : ∀ n, x.calledName? = some n → R (enter n) (enter' n)

include hR

theorem runName_related {name : String}
    (h : ∀ k kind, streams.lookup name = some k → R (event ⟨k, kind⟩) (event' ⟨k, kind⟩)) (bound : List String)
    (kind : AccessKind) :
    R (runName event streams bound kind name) (runName event' streams bound kind name) := by
  rw [runName, runName]
  split
  · exact hR.one
  · split
    · next k hk => exact h k kind hk
    · exact hR.one

theorem runStore_related {e : Expr} (h : ∀ x ∈ e.parts, RelatedAt R event event' streams enter enter' x)
    (bound : List String) : R (runStore event streams bound e) (runStore event' streams bound e) := by
  match e with
  | .ident loc name =>
    exact runName_related hR ((h _ mem_cons_self).name name rfl) bound .write
  | .member loc target name =>
    exact runStore_related (e := target) (forall_mem_cons.mp h).2 bound
  | .index loc target position =>
    exact runStore_related (e := target) (forall_mem_append.mp (forall_mem_cons.mp h).2).1 bound
  | .literal .. | .call .. | .unary .. | .binary .. | .assign .. | .ternary .. | .list .. =>
    exact hR.one

theorem runStores_related {es : List Expr} {ps : List Param}
    (h : ∀ x ∈ Expr.partsAll es, RelatedAt R event event' streams enter enter' x) (bound : List String) :
    R (runStores event streams bound es ps) (runStores event' streams bound es ps) := by
  induction es generalizing ps with
  | nil => exact hR.one
  | cons e es ih =>
    obtain ⟨he, hes⟩ := forall_mem_append.mp h
    refine hR.mul ?_ (ih hes)
    split
    · exact runStore_related hR he bound
    · exact hR.one

mutual

theorem runExpr_related {e : Expr} (h : ∀ x ∈ e.parts, RelatedAt R event event' streams enter enter' x)
    (bound : List String) (access : Access) :
    R (runExpr event streams params enter bound access e) (runExpr event' streams params enter' bound access e) := by
  match e with
  | .literal loc value =>
    exact hR.one
  | .ident loc name =>
    cases access with
    | value =>
      exact runName_related hR ((h _ mem_cons_self).name name rfl) bound .read
    | target =>
      exact hR.one
  | .member loc target name =>
    exact runExpr_related (forall_mem_cons.mp h).2 bound access
  | .index loc target position =>
    obtain ⟨htarget, hposition⟩ := forall_mem_append.mp (forall_mem_cons.mp h).2
    cases access with
    | value =>
      exact hR.mul (runExpr_related htarget bound .value) (runExpr_related hposition bound .value)
    | target =>
      exact hR.mul (runExpr_related hposition bound .value) (runExpr_related htarget bound .target)
  | .call loc callee args =>
    have hcallee := fun h => runExpr_related (e := callee) h bound .value
    have hlist := fun h => runList_related args h bound
    have hargs := fun ps h => runArgs_related args ps h bound
    cases callee with
    | ident loc' name =>
      obtain ⟨hname, hpassed⟩ := forall_mem_cons.mp h
      exact hR.mul (hR.mul (hargs _ hpassed) (hname.call name rfl)) (runStores_related hR hpassed bound)
    | _ =>
      obtain ⟨hfirst, hrest⟩ := forall_mem_append.mp (forall_mem_cons.mp h).2
      exact hR.mul (hcallee hfirst) (hlist hrest)
  | .unary loc op operand =>
    have h := (forall_mem_cons.mp h).2
    refine hR.mul (runExpr_related h bound .value) ?_
    split
    · exact hR.mul (runExpr_related h bound .target) (runStore_related hR h bound)
    · exact hR.one
  | .binary loc op lhs rhs =>
    obtain ⟨hlhs, hrhs⟩ := forall_mem_append.mp (forall_mem_cons.mp h).2
    exact hR.mul (runExpr_related hlhs bound .value) (runExpr_related hrhs bound .value)
  | .assign loc op target value =>
    obtain ⟨htarget, hvalue⟩ := forall_mem_append.mp (forall_mem_cons.mp h).2
    refine hR.mul (hR.mul (runExpr_related hvalue bound .value) ?_)
      (hR.mul (runExpr_related htarget bound .target) (runStore_related hR htarget bound))
    split
    · exact runExpr_related htarget bound .value
    · exact hR.one
  | .ternary loc condition yes no =>
    obtain ⟨hcondition, hbranches⟩ := forall_mem_append.mp (forall_mem_cons.mp h).2
    obtain ⟨hyes, hno⟩ := forall_mem_append.mp hbranches
    exact hR.mul (runExpr_related hcondition bound .value)
      (hR.add (runExpr_related hyes bound .value) (runExpr_related hno bound .value))
  | .list loc items =>
    exact runList_related items (forall_mem_cons.mp h).2 bound

theorem runList_related (es : List Expr)
    (h : ∀ x ∈ Expr.partsAll es, RelatedAt R event event' streams enter enter' x) (bound : List String) :
    R (runList event streams params enter bound es) (runList event' streams params enter' bound es) := by
  match es with
  | [] =>
    exact hR.one
  | e :: es =>
    obtain ⟨he, hes⟩ := forall_mem_append.mp h
    exact hR.mul (runExpr_related he bound .value) (runList_related es hes bound)

theorem runArgs_related (es : List Expr) (ps : List Param)
    (h : ∀ x ∈ Expr.partsAll es, RelatedAt R event event' streams enter enter' x) (bound : List String) :
    R (runArgs event streams params enter bound es ps) (runArgs event' streams params enter' bound es ps) := by
  match es with
  | [] =>
    exact hR.one
  | e :: es =>
    obtain ⟨he, hes⟩ := forall_mem_append.mp h
    refine hR.mul (hR.mul ?_ ?_) (runArgs_related es ps.tail hes bound)
    · split
      · exact runExpr_related he bound .value
      · exact hR.one
    · split
      · exact runExpr_related he bound .target
      · exact hR.one

end

theorem runOption_related {e : Option Expr}
    (h : ∀ y ∈ e.toList, ∀ x ∈ y.parts, RelatedAt R event event' streams enter enter' x) (bound : List String) :
    R (runOption event streams params enter bound e) (runOption event' streams params enter' bound e) := by
  cases e with
  | none => exact hR.one
  | some e => exact runExpr_related hR (h e mem_cons_self) bound .value

theorem runSimple_related {what : Simple}
    (h : ∀ e ∈ what.roots, ∀ x ∈ e.parts, RelatedAt R event event' streams enter enter' x) (bound : List String) :
    R (runSimple event streams params enter bound what) (runSimple event' streams params enter' bound what) := by
  cases what with
  | declare quals type name init => exact runOption_related hR h bound
  | expr value => exact runExpr_related hR (h value mem_cons_self) bound .value

theorem runStart_related {init : Option (Span × Simple)}
    (h : ∀ e ∈ init.toList.flatMap fun s => s.2.roots, ∀ x ∈ e.parts,
      RelatedAt R event event' streams enter enter' x) (bound : List String) :
    R (runStart event streams params enter bound init) (runStart event' streams params enter' bound init) := by
  cases init with
  | none => exact hR.one
  | some start => exact runSimple_related hR (by simpa using h) bound

mutual

theorem runStmt_related {s : Stmt}
    (h : ∀ e ∈ s.roots, ∀ x ∈ e.parts, RelatedAt R event event' streams enter enter' x) (bound : List String) :
    (runStmt event streams params enter bound s).Related R (runStmt event' streams params enter' bound s) := by
  match s with
  | .block lead body =>
    exact runStmts_related h bound
  | .simple lead what =>
    exact .of hR (runSimple_related hR h bound)
  | .ret lead value =>
    exact ⟨hR.zero, hR.zero, hR.zero, runOption_related hR h bound⟩
  | .ifThen lead condition yes =>
    obtain ⟨hcondition, hyes⟩ := forall_mem_cons.mp h
    exact .after hR (runExpr_related hR hcondition bound .value)
      (.choice hR (runStmt_related hyes bound) (.of hR hR.one))
  | .ifElse lead condition yes no =>
    obtain ⟨hcondition, hbranches⟩ := forall_mem_cons.mp h
    obtain ⟨hyes, hno⟩ := forall_mem_append.mp hbranches
    exact .after hR (runExpr_related hR hcondition bound .value)
      (.choice hR (runStmt_related hyes bound) (runStmt_related hno bound))
  | .forLoop lead init condition step body =>
    obtain ⟨hinit, hstep⟩ := forall_mem_append.mp h
    obtain ⟨hinit, hbody⟩ := forall_mem_append.mp hinit
    obtain ⟨hinit, hcondition⟩ := forall_mem_append.mp hinit
    exact .after hR (runStart_related hR hinit bound)
      (.loop hR (runOption_related hR hcondition _) (runOption_related hR hstep _) (runStmt_related hbody _))
  | .whileLoop lead condition body =>
    obtain ⟨hcondition, hbody⟩ := forall_mem_cons.mp h
    exact .loop hR (runExpr_related hR hcondition bound .value) hR.one (runStmt_related hbody bound)
  | .forEach lead name collection body =>
    obtain ⟨hcollection, hbody⟩ := forall_mem_cons.mp h
    exact .after hR (runExpr_related hR hcollection bound .value) (.loop hR hR.one hR.one (runStmt_related hbody _))
  | .breakLoop lead =>
    exact ⟨hR.zero, hR.one, hR.zero, hR.zero⟩
  | .continueLoop lead =>
    exact ⟨hR.zero, hR.zero, hR.one, hR.zero⟩
  | .discard lead | .empty lead =>
    exact .of hR hR.one

theorem runStmts_related {ss : List Stmt}
    (h : ∀ e ∈ Stmt.rootsAll ss, ∀ x ∈ e.parts, RelatedAt R event event' streams enter enter' x) (bound : List String) :
    (runStmts event streams params enter bound ss).Related R
      (runStmts event' streams params enter' bound ss) := by
  match ss with
  | [] =>
    exact .of hR hR.one
  | s :: ss =>
    obtain ⟨hs, hss⟩ := forall_mem_append.mp h
    exact .seq hR (runStmt_related hs bound) (runStmts_related hss _)

end

theorem runMethod_related {shader : Shader} (hevents : ∀ e, R (event e) (event' e)) (depth : Nat) (name : String) :
    R (runMethod event streams shader depth name) (runMethod event' streams shader depth name) := by
  induction depth generalizing name with
  | zero => exact hR.zero
  | succ depth ih =>
    rw [runMethod, runMethod]
    split
    · exact hR.one
    · exact (runStmts_related hR (fun _ _ x _ => ⟨fun _ _ _ _ _ => hevents _, fun n _ => ih n⟩) _).total hR

end

/-! ## Executions -/

def single (e : Event) : Language Event := ({[e]} : Set (List Event))

def Executes (shader : Shader) (streams : StreamIndex) (entry : String) (t : List Event) : Prop :=
  ∃ depth, t ∈ runMethod single streams shader depth entry

theorem respects_subset : Respects fun L M : Language Event => ∀ t ∈ L, t ∈ M where
  zero := fun _ ht => ht
  one := fun _ ht => ht
  add := fun ha hb t ht => by
    exact ht.imp (ha t) (hb t)
  mul := fun ha hb t ht => by
    obtain ⟨u, hu, v, hv, rfl⟩ := ht
    exact ⟨u, ha u hu, v, hb v hv, rfl⟩
  star := fun ha t ht => by
    obtain ⟨rounds, rfl, hrounds⟩ := ht
    exact ⟨rounds, rfl, fun u hu => ha u (hrounds u hu)⟩

theorem respects_streams (P : Nat → Prop) : Respects fun L _ : Language Event => ∀ t ∈ L, ∀ e ∈ t, P e.stream where
  zero := fun _ ht => absurd ht (Language.notMem_zero _)
  one := fun t ht e he => by
    subst ht
    exact absurd he not_mem_nil
  add := fun ha hb t ht => by
    exact ht.elim (ha t) (hb t)
  mul := fun ha hb t ht e he => by
    obtain ⟨u, hu, v, hv, rfl⟩ := ht
    exact (mem_append.mp he).elim (ha u hu e) (hb v hv e)
  star := fun ha t ht e he => by
    obtain ⟨rounds, rfl, hrounds⟩ := ht
    obtain ⟨u, hu, he⟩ := mem_flatten.mp he
    exact ha u (hrounds u hu) e he

/-! ## First accesses -/

def firstAccess (k : Nat) (t : List Event) : Option AccessKind :=
  (t.find? fun e => e.stream == k).map Event.kind

theorem firstAccess_append (k : Nat) (t u : List Event) :
    firstAccess k (t ++ u) = (firstAccess k t).or (firstAccess k u) := by
  rw [firstAccess, firstAccess, find?_append]
  cases t.find? fun e => e.stream == k <;> rfl

/-- The possible first accesses; `none` is none at all. -/
structure Outcomes where
  has : Option AccessKind → Bool

namespace Outcomes

def only (x : Option AccessKind) : Outcomes := ⟨fun y => y == x⟩

def possible (o : Outcomes) : Bool := o.has none || o.has (some .read) || o.has (some .write)

instance : Zero Outcomes := ⟨⟨fun _ => false⟩⟩

instance : One Outcomes := ⟨only none⟩

instance : Add Outcomes := ⟨fun o p => ⟨fun x => o.has x || p.has x⟩⟩

instance : Mul Outcomes :=
  ⟨fun o p => ⟨fun x => x.isSome && o.has x && p.possible || o.has none && p.has x⟩⟩

instance : KStar Outcomes := ⟨fun o => ⟨fun x => x.isNone || o.has x⟩⟩

theorem has_one (x : Option AccessKind) : (1 : Outcomes).has x = (x == none) := rfl

theorem has_add (o p : Outcomes) (x : Option AccessKind) : (o + p).has x = (o.has x || p.has x) := rfl

theorem has_mul (o p : Outcomes) (x : Option AccessKind) :
    (o * p).has x = (x.isSome && o.has x && p.possible || o.has none && p.has x) := rfl

theorem has_star (o : Outcomes) (x : Option AccessKind) : (o∗).has x = (x.isNone || o.has x) := rfl

theorem possible_iff {o : Outcomes} : o.possible = true ↔ ∃ x, o.has x = true := by
  rw [possible, Bool.or_eq_true, Bool.or_eq_true]
  constructor
  · rintro ((h | h) | h)
    exacts [⟨_, h⟩, ⟨_, h⟩, ⟨_, h⟩]
  · rintro ⟨x, h⟩
    cases x with
    | none => exact .inl (.inl h)
    | some kind =>
      cases kind with
      | read => exact .inl (.inr h)
      | write => exact .inr h

end Outcomes

def Firsts (k : Nat) (L : Language Event) (o : Outcomes) : Prop :=
  ∀ x, o.has x = true ↔ ∃ t ∈ L, firstAccess k t = x

def outcome (k : Nat) (e : Event) : Outcomes := .only (if e.stream = k then some e.kind else none)

theorem firsts_single (k : Nat) (e : Event) : Firsts k (single e) (outcome k e) := by
  intro x
  have hfirst : firstAccess k [e] = if e.stream = k then some e.kind else none := by
    rw [firstAccess, find?_cons]
    by_cases h : e.stream = k
    · simp [h]
    · rw [beq_false_of_ne h, if_neg h]
      rfl
  show (x == _) = true ↔ ∃ t ∈ single e, firstAccess k t = x
  rw [beq_iff_eq, ← hfirst]
  constructor
  · rintro rfl
    exact ⟨[e], rfl, rfl⟩
  · rintro ⟨t, rfl, rfl⟩
    rfl

theorem firstAccess_flatten {k : Nat} {rounds : List (List Event)} {kind : AccessKind}
    (h : firstAccess k rounds.flatten = some kind) : ∃ t ∈ rounds, firstAccess k t = some kind := by
  induction rounds with
  | nil => cases h
  | cons t rounds ih =>
    rw [flatten_cons, firstAccess_append] at h
    cases ht : firstAccess k t with
    | some first =>
      rw [ht] at h
      exact ⟨t, mem_cons_self, ht.trans h⟩
    | none =>
      rw [ht] at h
      obtain ⟨u, hu, hfirst⟩ := ih h
      exact ⟨u, mem_cons_of_mem _ hu, hfirst⟩

theorem respects_firsts (k : Nat) : Respects (Firsts k) where
  zero := fun x => by
    refine ⟨fun h => ?_, fun ⟨t, ht, _⟩ => absurd ht (Language.notMem_zero t)⟩
    cases h
  one := fun x => by
    rw [Outcomes.has_one, beq_iff_eq]
    constructor
    · rintro rfl
      exact ⟨[], rfl, rfl⟩
    · rintro ⟨t, ht, rfl⟩
      rw [ht]
      rfl
  add := fun ha hb x => by
    rw [Outcomes.has_add, Bool.or_eq_true, ha x, hb x]
    constructor
    · rintro (⟨t, ht, hx⟩ | ⟨t, ht, hx⟩)
      · exact ⟨t, .inl ht, hx⟩
      · exact ⟨t, .inr ht, hx⟩
    · rintro ⟨t, ht | ht, hx⟩
      · exact .inl ⟨t, ht, hx⟩
      · exact .inr ⟨t, ht, hx⟩
  mul := fun {a b o p} ha hb x => by
    rw [Outcomes.has_mul, Bool.or_eq_true, Bool.and_eq_true, Bool.and_eq_true, Bool.and_eq_true, ha x, ha none,
      hb x, Outcomes.possible_iff]
    constructor
    · rintro (⟨⟨hsome, t, ht, hx⟩, y, hy⟩ | ⟨⟨t, ht, hnone⟩, u, hu, hx⟩)
      · obtain ⟨u, hu, -⟩ := (hb y).mp hy
        refine ⟨t ++ u, Language.mem_mul.mpr ⟨t, ht, u, hu, rfl⟩, ?_⟩
        obtain ⟨kind, rfl⟩ := Option.isSome_iff_exists.mp hsome
        rw [firstAccess_append, hx, Option.some_or]
      · refine ⟨t ++ u, Language.mem_mul.mpr ⟨t, ht, u, hu, rfl⟩, ?_⟩
        rw [firstAccess_append, hnone, Option.none_or, hx]
    · rintro ⟨w, hw, hx⟩
      obtain ⟨t, ht, u, hu, rfl⟩ := Language.mem_mul.mp hw
      rw [firstAccess_append] at hx
      cases hfirst : firstAccess k t with
      | none =>
        rw [hfirst] at hx
        exact .inr ⟨⟨t, ht, hfirst⟩, u, hu, hx⟩
      | some kind =>
        rw [hfirst] at hx
        subst hx
        exact .inl ⟨⟨rfl, t, ht, hfirst⟩, _, (hb _).mpr ⟨u, hu, rfl⟩⟩
  star := fun ha x => by
    rw [Outcomes.has_star, Bool.or_eq_true, ha x]
    constructor
    · rintro (hnone | ⟨t, ht, hx⟩)
      · refine ⟨[], Language.nil_mem_kstar _, ?_⟩
        rw [Option.isNone_iff_eq_none.mp hnone]
        rfl
      · exact ⟨t, Language.mem_kstar.mpr ⟨[t], by simp, by simpa using ht⟩, hx⟩
    · rintro ⟨t, ht, hx⟩
      obtain ⟨rounds, rfl, hrounds⟩ := Language.mem_kstar.mp ht
      cases x with
      | none => exact .inl rfl
      | some kind =>
        obtain ⟨u, hu, hfirst⟩ := firstAccess_flatten hx
        exact .inr ⟨u, hrounds u hu, hfirst⟩

theorem firsts_runMethod (k : Nat) (shader : Shader) (streams : StreamIndex) (depth : Nat) (name : String) :
    Firsts k (runMethod single streams shader depth name) (runMethod (outcome k) streams shader depth name) :=
  runMethod_related (respects_firsts k) (firsts_single k) depth name

end ShaderCompose.Stream
