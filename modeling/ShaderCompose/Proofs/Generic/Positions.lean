import ShaderCompose.Proofs.Generic.Instance

/-!
Instances of a generic class, position by position.
-/

namespace ShaderCompose

open List

/-- A piece of a class. -/
inductive Piece where
  | word (w : String)
  | words (ws : List String)
  | semantic (w : Option String)
  | expr (e : Expr)
  | exprs (es : List Expr)
  | option (e : Option Expr)
  | type (t : TypeRef)
  | size (s : Option ArraySize)
  | attrs (as : List Attribute)
  | simple (what : Simple)
  | start (s : Option (Span × Simple))
  | stmt (st : Stmt)
  | stmts (sts : List Stmt)
  | body (b : Option (List Stmt))
  | params (ps : List Param)
  | fields (fs : List StateField)
  | init (i : Option Initializer)
  | kind (k : DeclKind)
  | decls (ds : List Decl)
  | bases (bs : List BaseRef)

namespace Piece

def parts : Piece → List Piece
  | word _ | words [] | semantic none | expr (.literal ..) | expr (.ident ..) | exprs [] | option none | size none
  | size (some .unsized) | attrs [] | start none | stmts [] | body none | params [] | fields [] | init none
  | kind (.buffer ..) | decls [] | bases [] => []
  | words (w :: ws) => [word w, words ws]
  | semantic (some w) => [word w]
  | expr (.member _ target _) => [expr target]
  | expr (.call _ callee args) => [expr callee, exprs args]
  | expr (.index _ target position) => [expr target, expr position]
  | expr (.unary _ _ operand) => [expr operand]
  | expr (.binary _ _ lhs rhs) => [expr lhs, expr rhs]
  | expr (.assign _ _ target value) => [expr target, expr value]
  | expr (.ternary _ condition yes no) => [expr condition, expr yes, expr no]
  | expr (.list _ items) => [exprs items]
  | exprs (e :: es) => [expr e, exprs es]
  | option (some e) => [expr e]
  | type ⟨name, template, array⟩ => [word name, words template, size array]
  | size (some (.fixed e)) => [expr e]
  | attrs (⟨_, args⟩ :: as) => [exprs args, attrs as]
  | simple (.declare _ t _ value) => [type t, option value]
  | simple (.expr value) => [expr value]
  | start (some (_, what)) => [simple what]
  | stmt (.block ⟨_, as⟩ sts) => [attrs as, stmts sts]
  | stmt (.simple ⟨_, as⟩ what) => [attrs as, simple what]
  | stmt (.ret ⟨_, as⟩ value) => [attrs as, option value]
  | stmt (.ifThen ⟨_, as⟩ condition yes) => [attrs as, expr condition, stmt yes]
  | stmt (.ifElse ⟨_, as⟩ condition yes no) => [attrs as, expr condition, stmt yes, stmt no]
  | stmt (.forLoop ⟨_, as⟩ s condition step st) => [attrs as, start s, option condition, option step, stmt st]
  | stmt (.whileLoop ⟨_, as⟩ condition st) => [attrs as, expr condition, stmt st]
  | stmt (.forEach ⟨_, as⟩ _ collection st) => [attrs as, expr collection, stmt st]
  | stmt (.breakLoop ⟨_, as⟩) | stmt (.continueLoop ⟨_, as⟩) | stmt (.discard ⟨_, as⟩) | stmt (.empty ⟨_, as⟩) => [attrs as]
  | stmts (st :: sts) => [stmt st, stmts sts]
  | body (some sts) => [stmts sts]
  | params (⟨_, t, _, s, value, _⟩ :: ps) => [type t, semantic s, option value, params ps]
  | fields (⟨_, value, _⟩ :: fs) => [expr value, fields fs]
  | init (some (.expr value)) => [expr value]
  | init (some (.state fs)) => [fields fs]
  | kind (.var t s i) => [type t, semantic s, init i]
  | kind (.method t ps s b) => [type t, params ps, semantic s, body b]
  | kind (.struct ps) => [params ps]
  | decls (⟨_, _, as, _, _, k⟩ :: ds) => [attrs as, kind k, decls ds]
  | bases (⟨_, args, _⟩ :: bs) => [words args, bases bs]

def at? : Piece → List Nat → Option Piece
  | p, [] => some p
  | p, i :: path => (p.parts[i]?).bind fun part => part.at? path

/-- Two pieces that differ in their parts alone. -/
inductive Alike : Piece → Piece → Prop
  | refl (p) : Alike p p
  | words (w ws w' ws') : Alike (words (w :: ws)) (words (w' :: ws'))
  | semantic (w w') : Alike (semantic (some w)) (semantic (some w'))
  | member (loc name e e') : Alike (expr (.member loc e name)) (expr (.member loc e' name))
  | call (loc e es e' es') : Alike (expr (.call loc e es)) (expr (.call loc e' es'))
  | index (loc a b a' b') : Alike (expr (.index loc a b)) (expr (.index loc a' b'))
  | unary (loc op e e') : Alike (expr (.unary loc op e)) (expr (.unary loc op e'))
  | binary (loc op a b a' b') : Alike (expr (.binary loc op a b)) (expr (.binary loc op a' b'))
  | assign (loc op a b a' b') : Alike (expr (.assign loc op a b)) (expr (.assign loc op a' b'))
  | ternary (loc a b c a' b' c') : Alike (expr (.ternary loc a b c)) (expr (.ternary loc a' b' c'))
  | list (loc es es') : Alike (expr (.list loc es)) (expr (.list loc es'))
  | exprs (e es e' es') : Alike (exprs (e :: es)) (exprs (e' :: es'))
  | option (e e') : Alike (option (some e)) (option (some e'))
  | type (name ws s name' ws' s') : Alike (type ⟨name, ws, s⟩) (type ⟨name', ws', s'⟩)
  | size (e e') : Alike (size (some (.fixed e))) (size (some (.fixed e')))
  | attrs (name es as es' as') : Alike (attrs (⟨name, es⟩ :: as)) (attrs (⟨name, es'⟩ :: as'))
  | declare (quals t name e t' e') : Alike (simple (.declare quals t name e)) (simple (.declare quals t' name e'))
  | value (e e') : Alike (simple (.expr e)) (simple (.expr e'))
  | start (loc s s') : Alike (start (some (loc, s))) (start (some (loc, s')))
  | block (loc as ss as' ss') : Alike (stmt (.block ⟨loc, as⟩ ss)) (stmt (.block ⟨loc, as'⟩ ss'))
  | simple (loc as s as' s') : Alike (stmt (.simple ⟨loc, as⟩ s)) (stmt (.simple ⟨loc, as'⟩ s'))
  | ret (loc as e as' e') : Alike (stmt (.ret ⟨loc, as⟩ e)) (stmt (.ret ⟨loc, as'⟩ e'))
  | ifThen (loc as e s as' e' s') : Alike (stmt (.ifThen ⟨loc, as⟩ e s)) (stmt (.ifThen ⟨loc, as'⟩ e' s'))
  | ifElse (loc as e s t as' e' s' t') : Alike (stmt (.ifElse ⟨loc, as⟩ e s t)) (stmt (.ifElse ⟨loc, as'⟩ e' s' t'))
  | forLoop (loc as i a b s as' i' a' b' s') :
    Alike (stmt (.forLoop ⟨loc, as⟩ i a b s)) (stmt (.forLoop ⟨loc, as'⟩ i' a' b' s'))
  | whileLoop (loc as e s as' e' s') : Alike (stmt (.whileLoop ⟨loc, as⟩ e s)) (stmt (.whileLoop ⟨loc, as'⟩ e' s'))
  | forEach (loc as name e s as' e' s') :
    Alike (stmt (.forEach ⟨loc, as⟩ name e s)) (stmt (.forEach ⟨loc, as'⟩ name e' s'))
  | breakLoop (loc as as') : Alike (stmt (.breakLoop ⟨loc, as⟩)) (stmt (.breakLoop ⟨loc, as'⟩))
  | continueLoop (loc as as') : Alike (stmt (.continueLoop ⟨loc, as⟩)) (stmt (.continueLoop ⟨loc, as'⟩))
  | discard (loc as as') : Alike (stmt (.discard ⟨loc, as⟩)) (stmt (.discard ⟨loc, as'⟩))
  | empty (loc as as') : Alike (stmt (.empty ⟨loc, as⟩)) (stmt (.empty ⟨loc, as'⟩))
  | stmts (s ss s' ss') : Alike (stmts (s :: ss)) (stmts (s' :: ss'))
  | body (ss ss') : Alike (body (some ss)) (body (some ss'))
  | params (name quals loc t s e ps t' s' e' ps') :
    Alike (params (⟨name, t, quals, s, e, loc⟩ :: ps)) (params (⟨name, t', quals, s', e', loc⟩ :: ps'))
  | fields (key loc e fs e' fs') : Alike (fields (⟨key, e, loc⟩ :: fs)) (fields (⟨key, e', loc⟩ :: fs'))
  | initial (e e') : Alike (init (some (.expr e))) (init (some (.expr e')))
  | state (fs fs') : Alike (init (some (.state fs))) (init (some (.state fs')))
  | var (t s i t' s' i') : Alike (kind (.var t s i)) (kind (.var t' s' i'))
  | method (t ps s b t' ps' s' b') : Alike (kind (.method t ps s b)) (kind (.method t' ps' s' b'))
  | struct (ps ps') : Alike (kind (.struct ps)) (kind (.struct ps'))
  | decls (name loc quals entry as k ds as' k' ds') :
    Alike (decls (⟨name, loc, as, quals, entry, k⟩ :: ds)) (decls (⟨name, loc, as', quals, entry, k'⟩ :: ds'))
  | bases (name loc ws bs ws' bs') : Alike (bases (⟨name, ws, loc⟩ :: bs)) (bases (⟨name, ws', loc⟩ :: bs'))

def name? : Piece → Option String
  | word w => some w
  | expr (.ident _ name) => some name
  | _ => none

/-- What stands for a piece, its parts aside. -/
inductive Becomes (f : String → Option GenericArg) : Piece → Piece → Prop
  | argument (loc name arg) : f name = some arg → Becomes f (expr (.ident loc name)) (expr (arg.value.moveTo loc))
  | text (w arg) : f w = some arg → Becomes f (word w) (word arg.text)
  | other (p q) : (∀ name, p.name? = some name → f name = none) → Alike p q → Becomes f p q

def Everywhere (f : String → Option GenericArg) (p q : Piece) : Prop :=
  ∀ path x, p.at? path = some x → ∃ y, q.at? path = some y ∧ x.Becomes f y

variable {p q q' : Piece} {f : String → Option GenericArg}

theorem sizeOf_parts (h : q ∈ p.parts) : sizeOf q < sizeOf p := by
  revert h
  fun_cases parts p <;> grind

theorem Alike.length_parts (h : Alike p q) : q.parts.length = p.parts.length := by
  cases h <;> rfl

theorem Alike.ext (h : Alike p q) (h' : Alike p q') (hparts : q.parts = q'.parts) : q = q' := by
  cases h <;> cases h' <;> simp_all [parts]

theorem Becomes.ext (h : Becomes f p q) (h' : Becomes f p q') (hparts : p.parts ≠ [] → q.parts = q'.parts) :
    q = q' := by
  have single : ∀ {r}, Alike p r → p.parts = [] → r.parts = [] := fun halike hnil =>
    eq_nil_of_length_eq_zero (halike.length_parts.trans (congrArg List.length hnil))
  cases h with
  | argument loc name arg hf =>
    cases h' with
    | argument _ _ arg' hf' => cases hf.symm.trans hf'; rfl
    | other _ _ hnone => cases hf.symm.trans (hnone name rfl)
  | text w arg hf =>
    cases h' with
    | text _ arg' hf' => cases hf.symm.trans hf'; rfl
    | other _ _ hnone => cases hf.symm.trans (hnone w rfl)
  | other _ _ hnone halike =>
    cases h' with
    | argument loc name arg hf' => cases hf'.symm.trans (hnone name rfl)
    | text w arg hf' => cases hf'.symm.trans (hnone w rfl)
    | other _ _ _ halike' =>
      by_cases hnil : p.parts = []
      · exact halike.ext halike' (by rw [single halike hnil, single halike' hnil])
      · exact halike.ext halike' (hparts hnil)

theorem Becomes.length_parts (h : Becomes f p q) (hparts : p.parts ≠ []) : q.parts.length = p.parts.length := by
  cases h with
  | argument | text => exact absurd rfl hparts
  | other _ _ _ halike => exact halike.length_parts

theorem Everywhere.parts (h : Everywhere f p q) {i : Nat} (hp : i < p.parts.length) (hq : i < q.parts.length) :
    Everywhere f p.parts[i] q.parts[i] := by
  intro path x hx
  have hstep := h (i :: path) x
  simp only [at?, getElem?_eq_getElem hp, getElem?_eq_getElem hq] at hstep
  exact hstep hx

theorem Everywhere.unique {p q q' : Piece} (h : Everywhere f p q) (h' : Everywhere f p q') : q = q' := by
  obtain ⟨_, hself, hq⟩ := h [] p rfl
  obtain ⟨_, hself', hq'⟩ := h' [] p rfl
  cases hself
  cases hself'
  refine hq.ext hq' fun hparts => ext_getElem ?_ fun i hi hi' => ?_
  · rw [hq.length_parts hparts, hq'.length_parts hparts]
  · have hp : i < p.parts.length := hq.length_parts hparts ▸ hi
    exact Everywhere.unique (h.parts hp hi) (h'.parts hp hi')
termination_by sizeOf p
decreasing_by exact sizeOf_parts (getElem_mem hp)

end Piece

namespace Substitution

open Piece (parts)

variable (σ : Substitution)

def piece : Piece → Piece
  | .word w => .word (σ.text w)
  | .words ws => .words (ws.map σ.text)
  | .semantic w => .semantic (w.map σ.text)
  | .expr e => .expr (σ.expr e)
  | .exprs es => .exprs (σ.exprs es)
  | .option e => .option (e.map σ.expr)
  | .type t => .type (σ.type t)
  | .size s => .size (σ.type ⟨"", [], s⟩).array
  | .attrs as => .attrs (as.map σ.attr)
  | .simple what => .simple (σ.simple what)
  | .start s => .start (s.map fun (loc, what) => (loc, σ.simple what))
  | .stmt st => .stmt (σ.stmt st)
  | .stmts sts => .stmts (σ.stmts sts)
  | .body b => .body (b.map σ.stmts)
  | .params ps => .params (ps.map σ.param)
  | .fields fs => .fields (fs.map fun f => { f with value := σ.expr f.value })
  | .init i => .init (i.map σ.initializer)
  | .kind k => .kind (σ.decl { name := "", loc := default, kind := k }).kind
  | .decls ds => .decls (ds.map σ.decl)
  | .bases bs => .bases (bs.map σ.base)

variable {p : Piece}

theorem alike_piece (hp : p.name? = none) : p.Alike (σ.piece p) := by
  revert hp
  fun_cases parts p <;> intro hp
  all_goals first | constructor | cases hp

theorem parts_piece (hp : p.parts ≠ []) : (σ.piece p).parts = p.parts.map σ.piece := by
  revert hp
  fun_cases parts p <;> intro hp
  all_goals first | rfl | exact absurd rfl hp

theorem becomes_piece : p.Becomes (List.lookup · σ) (σ.piece p) := by
  fun_cases Piece.name? p with
  | case1 w =>
    rw [piece, text]
    cases hlookup : σ.lookup w with
    | none => exact .other _ _ (fun name hname => Option.some.inj hname ▸ hlookup) (.refl _)
    | some arg => exact .text w arg hlookup
  | case2 loc name =>
    rw [piece, expr]
    cases hlookup : σ.lookup name with
    | none => exact .other _ _ (fun name hname => Option.some.inj hname ▸ hlookup) (.refl _)
    | some arg => exact .argument loc name arg hlookup
  | case3 p hword hident =>
    have hnone : p.name? = none := by grind [Piece.name?]
    exact .other _ _ (fun name hname => absurd (hnone.symm.trans hname) (by simp)) (σ.alike_piece hnone)

theorem everywhere_piece (p : Piece) : p.Everywhere (List.lookup · σ) (σ.piece p) := by
  intro path x hx
  refine ⟨σ.piece x, ?_, σ.becomes_piece⟩
  induction path generalizing p with
  | nil =>
    cases hx
    rfl
  | cons i path ih =>
    obtain ⟨part, hpart, hpath⟩ := Option.bind_eq_some_iff.mp hx
    rw [Piece.at?, σ.parts_piece (ne_nil_of_mem (mem_of_getElem? hpart)), getElem?_map, hpart]
    exact ih part hpath

end Substitution

namespace ShaderClass

structure Arguments (c : ShaderClass) (args : List String) (f : String → Option GenericArg) : Prop where
  given : ∀ g text, (g, text) ∈ c.generics.zip args →
    ∃ value, Reader.expression? text = some value ∧ f g.name = some ⟨text, value⟩
  other : ∀ name ∉ c.generics.map GenericParam.name, f name = none

/-- A class with arguments for names. -/
structure InstanceOf (made c : ShaderClass) (args : List String) (f : String → Option GenericArg) : Prop where
  name : made.name = if c.generics = [] then c.name else instanceName c.name args
  generics : made.generics = []
  loc : made.loc = c.loc
  members : made.members = c.members
  bases : Piece.Everywhere f (.bases c.bases) (.bases made.bases)
  table : Piece.Everywhere f (.decls c.table.toList) (.decls made.table.toList)

variable {c made : ShaderClass} {args : List String} {f : String → Option GenericArg}

theorem InstanceOf.unique {other : ShaderClass} (h : made.InstanceOf c args f) (h' : other.InstanceOf c args f) :
    made = other := by
  obtain ⟨name, loc, generics, bases, ⟨table⟩, members⟩ := made
  obtain ⟨name', loc', generics', bases', ⟨table'⟩, members'⟩ := other
  cases h.bases.unique h'.bases
  cases h.table.unique h'.table
  cases h.name.trans h'.name.symm
  cases h.loc.trans h'.loc.symm
  cases h.generics.trans h'.generics.symm
  cases h.members.trans h'.members.symm
  rfl

theorem firstRepeated?_eq_none {seen names : List String} (h : names.Nodup) (hseen : ∀ n ∈ names, n ∉ seen) :
    firstRepeated? seen names = none := by
  induction names generalizing seen with
  | nil => rfl
  | cons n names ih =>
    have hn := nodup_cons.mp h
    rw [firstRepeated?, if_neg (by simpa using hseen n (by simp))]
    refine ih hn.2 fun m hm hmem => ?_
    rcases mem_cons.mp hmem with rfl | hmem
    · exact hn.1 hm
    · exact hseen m (mem_cons_of_mem _ hm) hmem

theorem exists_bindArgs (hread : ∀ text ∈ args, (Reader.expression? text).isSome = true)
    (hcount : args.length = c.generics.length) (hnames : (c.generics.map GenericParam.name).Nodup) :
    ∃ σ, c.bindArgs args = .ok σ ∧ c.Arguments args (List.lookup · σ) := by
  simp only [Option.isSome_iff_exists] at hread
  choose! value hvalue using hread
  let bound (p : GenericParam × String) : String × GenericArg := (p.1.name, ⟨p.2, value p.2⟩)
  have hkeys : ((c.generics.zip args).map bound).map (·.1) = c.generics.map GenericParam.name :=
    calc ((c.generics.zip args).map bound).map (·.1)
      _ = ((c.generics.zip args).map Prod.fst).map GenericParam.name := by simp only [map_map]; rfl
      _ = c.generics.map GenericParam.name := by rw [map_fst_zip (Nat.le_of_eq hcount.symm)]
  refine ⟨_, bindArgs_eq_ok.mpr ?_, ⟨fun g text hmem => ⟨_, hvalue _ (of_mem_zip hmem).2,
    lookup_of_mem (hkeys ▸ hnames) (mem_map_of_mem hmem)⟩, fun name hname => ?_⟩⟩
  · rw [forall₂_map_right_iff, forall₂_same]
    exact fun p hp => ⟨_, hvalue _ (of_mem_zip hp).2, rfl⟩
  · rw [← hkeys] at hname
    exact Option.eq_none_iff_forall_ne_some.mpr fun arg harg => hname (mem_keys_of_lookup harg)

theorem exists_instanceOf {σ : Substitution} (hnames : (c.generics.map GenericParam.name).Nodup)
    (hcount : args.length = c.generics.length) (hσ : c.bindArgs args = .ok σ)
    (hargs : c.Arguments args (List.lookup · σ)) (fill : Bool) :
    ∃ made, c.instantiate args fill = .ok made ∧ made.InstanceOf c args (List.lookup · σ) := by
  rw [instantiate, firstRepeated?_eq_none hnames (by simp)]
  by_cases hgenerics : c.generics = []
  · obtain rfl : args = [] := eq_nil_of_length_eq_zero (by rw [hcount, hgenerics]; rfl)
    have hnone : ∀ name, σ.lookup name = none := fun name => hargs.other name (by simp [hgenerics])
    have same : ∀ p : Piece, p.Everywhere (List.lookup · σ) p := fun p path x hx =>
      ⟨x, hx, .other x x (fun name _ => hnone name) (.refl x)⟩
    exact ⟨c, if_pos (by simp [hgenerics]), (if_pos hgenerics).symm, hgenerics, rfl, rfl, same _, same _⟩
  · have hempty : (c.generics.isEmpty && args.isEmpty) = false := by simp [hgenerics]
    simp only [hempty, completeArgs, if_pos hcount, hσ, bind, Except.bind]
    refine ⟨_, rfl, (if_neg hgenerics).symm, rfl, rfl, rfl, σ.everywhere_piece (.bases c.bases), ?_⟩
    rw [Array.toList_map]
    exact σ.everywhere_piece (.decls c.table.toList)

/-- The instance is the only class in which every place holds what it becomes. -/
theorem instantiate_everywhere (hnames : (c.generics.map GenericParam.name).Nodup)
    (hcount : args.length = c.generics.length)
    (hread : ∀ text ∈ args, (Reader.expression? text).isSome = true) (fill : Bool) :
    ∃ made f, c.instantiate args fill = .ok made ∧ c.Arguments args f ∧
      ∀ x : ShaderClass, x.InstanceOf c args f ↔ x = made := by
  obtain ⟨σ, hσ, hargs⟩ := exists_bindArgs hread hcount hnames
  obtain ⟨made, hok, hinst⟩ := exists_instanceOf hnames hcount hσ hargs fill
  refine ⟨made, _, hok, hargs, fun x => ⟨fun hx => hx.unique hinst, ?_⟩⟩
  rintro rfl
  exact hinst

def crossed : ShaderClass :=
  { name := "Crossed"
    loc := default
    generics := [⟨{ name := "Type" }, "T"⟩, ⟨{ name := "int" }, "N"⟩]
    bases := [⟨"Base", ["N", "T"], default⟩]
    table := #[⟨"v", default, [], {}, none,
      .var { name := "T", array := some (.fixed (.ident default "N")) } (some "N")
        (some (.expr (.ident default "N")))⟩]
    members := [0] }

theorem crossed_instantiate_everywhere :
    (crossed.generics.map GenericParam.name).Nodup ∧ (∀ text ∈ ["N", "T"], (Reader.expression? text).isSome = true) ∧
      ∃ made f, crossed.instantiate ["N", "T"] false = .ok made ∧ crossed.Arguments ["N", "T"] f ∧
        ∀ x : ShaderClass, x.InstanceOf crossed ["N", "T"] f ↔ x = made := by
  have hnames : (crossed.generics.map GenericParam.name).Nodup := by decide
  have hread : ∀ text ∈ ["N", "T"], (Reader.expression? text).isSome = true :=
    List.forall_mem_cons.mpr ⟨rfl, List.forall_mem_cons.mpr ⟨rfl, List.forall_mem_nil _⟩⟩
  exact ⟨hnames, hread, instantiate_everywhere hnames rfl hread false⟩

end ShaderClass

end ShaderCompose
