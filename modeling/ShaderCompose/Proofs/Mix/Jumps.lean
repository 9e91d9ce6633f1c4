import ShaderCompose.Proofs.Mix.Unrolled

/-!
Jumps and their loops.
-/

namespace ShaderCompose

open List

inductive Jump where
  | leave
  | next
  deriving DecidableEq

namespace Node

variable {n m c : Node} {test : Node → Bool} {i : Nat} {path more found : List Nat}

def jump? : Node → Option Jump
  | stmt (.breakLoop _) => some .leave
  | stmt (.continueLoop _) => some .next
  | _ => none

def isPlainLoop : Node → Bool
  | stmt (.forLoop ..) | stmt (.whileLoop ..) => true
  | _ => false

theorem eq_forEach (h : n.isLoop = true) : ∃ l name collection body, n = stmt (.forEach l name collection body) := by
  cases n with
  | stmt st =>
    cases st with
    | forEach l name collection body => exact ⟨l, name, collection, body, rfl⟩
    | _ => cases h
  | _ => cases h

def around? (test : Node → Bool) : Node → List Nat → Option (List Nat)
  | _, [] => none
  | n, i :: path =>
    (n.children[i]?).bind fun child =>
      ((child.around? test path).map (i :: ·)).or (if test n then some [] else none)

def loopOf? (n : Node) (path : List Nat) : Option (List Nat) := n.around? (fun n => n.isLoop || n.isPlainLoop) path

def loopAt? (n : Node) (path : List Nat) : Option Node := (n.loopOf? path).bind n.at?

theorem around?_cons (h : n.children[i]? = some c) (path : List Nat) : n.around? test (i :: path) =
      ((c.around? test path).map (i :: ·)).or (if test n then some [] else none) := by
  rw [around?, h]
  rfl

theorem around?_append (h : n.at? path = some m) (more : List Nat) :
    n.around? test (path ++ more) = ((m.around? test more).map (path ++ ·)).or (n.around? test path) := by
  induction path generalizing n with
  | nil =>
    cases h
    simp [around?]
  | cons i path ih =>
    obtain ⟨c, hc, h⟩ := Option.bind_eq_some_iff.mp h
    rw [cons_append, around?_cons hc, around?_cons hc, ih h, Option.map_or, Option.map_map, Option.or_assoc]
    rfl

theorem at?_around? (h : n.around? test path = some found) : ∃ m, n.at? found = some m ∧ test m = true := by
  induction path generalizing n found with
  | nil => cases h
  | cons i path ih =>
    obtain ⟨c, hc, h⟩ := Option.bind_eq_some_iff.mp h
    rcases Option.or_eq_some_iff.mp h with hbelow | ⟨-, hhere⟩
    · obtain ⟨below, hfound, rfl⟩ := Option.map_eq_some_iff.mp hbelow
      obtain ⟨m, hm, htest⟩ := ih hfound
      exact ⟨m, by rw [at?, hc]; exact hm, htest⟩
    · split at hhere
      · next htest =>
        cases hhere
        exact ⟨n, rfl, htest⟩
      · cases hhere

theorem around?_of_imp {weak : Node → Bool} (himp : ∀ n, test n = true → weak n = true)
    (h : n.around? weak path = some found) (hm : n.at? found = some m) (htest : test m = true) :
    n.around? test path = some found := by
  have hnone : ∀ (path : List Nat) (n : Node), n.around? weak path = none → n.around? test path = none := by
    intro path
    induction path with
    | nil => exact fun _ _ => rfl
    | cons i path ih =>
      intro n h
      rw [around?] at h ⊢
      cases hc : n.children[i]? with
      | none => rfl
      | some c =>
        simp only [hc, Option.bind_some, Option.or_eq_none_iff, Option.map_eq_none_iff, ite_eq_right_iff] at h ⊢
        exact ⟨ih c h.1, fun hn => h.2 (himp n hn)⟩
  induction path generalizing n found with
  | nil => cases h
  | cons i path ih =>
    obtain ⟨c, hc, h⟩ := Option.bind_eq_some_iff.mp h
    rw [around?_cons hc]
    rcases Option.or_eq_some_iff.mp h with hbelow | ⟨hbelow, hhere⟩
    · obtain ⟨below, hfound, rfl⟩ := Option.map_eq_some_iff.mp hbelow
      rw [at?, hc] at hm
      rw [ih hfound hm]
      rfl
    · rw [hnone path c (Option.map_eq_none_iff.mp hbelow)]
      split at hhere
      · cases hhere
        cases hm
        simp [htest]
      · cases hhere

theorem around?_of_loopOf? (h : n.loopOf? path = some found) (hm : n.at? found = some m)
    (hplain : m.isPlainLoop = true) : n.around? isPlainLoop path = some found :=
  around?_of_imp (fun _ h => by simp [h]) h hm hplain

end Node

namespace Mix.RenameEnv

open Node

variable {env : RenameEnv} {n m c : Node} {s t : RenameState} {path image : List Nat} {scope : Scope} {st : Stmt}

theorem Image.found (h : env.Image n scope path image m) : n.at? path = some m := by
  induction h with
  | here => rfl
  | child _ hchild _ ih =>
    rw [at?, hchild]
    exact ih
  | copy _ _ ih => exact ih

theorem holdsStmts_of_isExpr (h : n.isExpr = true) : n.holdsStmts = false := by
  cases n <;> first | rfl | cases h

theorem holdsStmts_node (env : RenameEnv) (n : Node) (s : RenameState) :
    (env.node n s).1.holdsStmts = n.holdsStmts := by
  cases n <;> rfl

theorem child_node (env : RenameEnv) (hloop : n.isLoop = false) (hexpr : n.isExpr = false) {i : Nat}
    (hchild : n.children[i]? = some c) (s : RenameState) :
    ∃ t : RenameState, t.bounds = n.entering i ++ s.bounds ∧
      (env.node n s).1.children[i]? = some (env.node c t).1 := by
  refine ⟨runAll env.after (n.children.take i) s, ?_, ?_⟩
  · rw [(runAll_extends env _ s).bounds, entering_eq hloop]
  · rw [children_node hloop hexpr, getElem?_nodes, hchild]
    rfl

theorem loop_node (hloop : n.isLoop = false) (s : RenameState) :
    ((env.node n s).1.isLoop || (env.node n s).1.isPlainLoop) = n.isPlainLoop := by
  cases n with
  | stmt st =>
    cases st with
    | forEach => cases hloop
    | _ => rfl
  | _ => rfl

theorem jump?_stmt (env : RenameEnv) (st : Stmt) (s : RenameState) :
    (Node.stmt (env.stmt st s).1).jump? = (Node.stmt st).jump? := by
  cases st <;> rfl

/-! ## Copies of loops -/

theorem loopOf?_copyPath (l : Lead) (copies : List Stmt) (k : Nat) :
    (Node.stmt (.block l copies)).loopOf? (copyPath k) = none := by
  have hstmts : ∀ (k : Nat) (copies : List Stmt), (Node.stmts copies).loopOf? (List.replicate k 1 ++ [0]) = none := by
    intro k
    induction k with
    | zero => intro copies; cases copies <;> rfl
    | succ k ih =>
      intro copies
      cases copies with
      | nil => rfl
      | cons copy copies =>
        have hrest := ih copies
        unfold loopOf? at hrest ⊢
        rw [replicate_succ, cons_append, around?_cons rfl, hrest]
        rfl
  have hrest := hstmts k copies
  unfold loopOf? at hrest ⊢
  rw [copyPath, around?_cons rfl, hrest]
  rfl

theorem copyPath_of_at? {l : Lead} {copies : List Stmt} {i : Nat} {path : List Nat}
    (h : (Node.stmt (.block l copies)).at? (i :: path) = some (.stmt st)) :
    ∃ k copy below, i :: path = copyPath k ++ below ∧ copies[k]? = some copy ∧
      (Node.stmt copy).at? below = some (.stmt st) := by
  have hstmts : ∀ (path : List Nat) (copies : List Stmt), (Node.stmts copies).at? path = some (.stmt st) →
      ∃ k copy below, path = List.replicate k 1 ++ 0 :: below ∧ copies[k]? = some copy ∧
        (Node.stmt copy).at? below = some (.stmt st) := by
    intro path
    induction path with
    | nil =>
      intro copies h
      cases h
    | cons i path ih =>
      intro copies h
      obtain ⟨c, hc, h⟩ := Option.bind_eq_some_iff.mp h
      cases copies with
      | nil => cases hc
      | cons copy copies =>
        match i, hc with
        | 0, rfl => exact ⟨0, copy, path, rfl, rfl, h⟩
        | 1, rfl =>
          obtain ⟨k, found, below, rfl, hfound, hbelow⟩ := ih copies h
          exact ⟨k + 1, found, below, rfl, hfound, hbelow⟩
  obtain ⟨c, hc, h⟩ := Option.bind_eq_some_iff.mp h
  match i, hc with
  | 0, rfl => cases holdsStmts_at? (n := .attrs l.attrs) rfl h
  | 1, rfl =>
    obtain ⟨k, copy, below, rfl, hcopy, hbelow⟩ := hstmts path copies h
    exact ⟨k, copy, below, by simp [copyPath], hcopy, hbelow⟩

theorem copy_node (l : Lead) (name : String) (body : Stmt) {collection : Expr} {k : Nat}
    (hk : k < (env.targetsIn s.bounds collection).length) :
    ∃ t : RenameState, t.bounds = (name, .loop) :: s.bounds ∧
      (env.node (.stmt (.forEach l name collection body)) s).1.at? (copyPath k) = some (env.node (.stmt body) t).1 := by
  obtain ⟨t, ht⟩ : ∃ t, (env.copyStates name body (env.loopTargets collection s) s)[k]? = some t := by
    rw [← loopTargets_eq] at hk
    exact ⟨_, getElem?_eq_getElem ((length_copyStates s).symm ▸ hk)⟩
  obtain ⟨number, -, hscope⟩ := scope_copyStates ht
  refine ⟨t, ?_, ?_⟩
  · rw [RenameState.bounds, hscope]
    rfl
  · change (Node.stmt (env.stmt (.forEach l name collection body) s).1).at? (copyPath k) = _
    rw [stmt_forEach, at?_copyPath, getElem?_copies, ht]
    rfl

/-! ## Images -/

theorem Image.lands (h : env.Image n scope path image (.stmt st)) : ∀ s : RenameState, s.bounds = scope →
    Option.Rel (fun l l' => ∃ loop, env.Image n scope l l' (.stmt loop)) (n.around? isPlainLoop path)
      ((env.node n s).1.loopOf? image) := by
  generalize hm : Node.stmt st = m at h
  induction h with
  | here => exact fun _ _ => .none
  | @child n c m scope i path image hloop hchild hrest ih =>
    subst hm
    intro s hs
    have hexpr : n.isExpr = false := by
      refine eq_false_of_ne_true fun hexpr => ?_
      have hnone := holdsStmts_child (holdsStmts_of_isExpr hexpr) (mem_of_getElem? hchild)
      cases holdsStmts_at? hnone hrest.found
    obtain ⟨t, ht, hresult⟩ := child_node env hloop hexpr hchild s
    rw [hs] at ht
    have hbelow := ih rfl t ht
    unfold loopOf? at hbelow ⊢
    rw [around?_cons hchild, around?_cons hresult, loop_node hloop]
    generalize c.around? isPlainLoop path = outer, around? _ (env.node c t).1 image = inner at hbelow
    cases hbelow with
    | @some l l' hl =>
      obtain ⟨loop, hl⟩ := hl
      exact .some ⟨loop, .child hloop hchild hl⟩
    | none =>
      cases hplain : n.isPlainLoop with
      | false => exact .none
      | true =>
        cases n with
        | stmt loop => exact .some ⟨loop, .here⟩
        | _ => cases hplain
  | @copy l name collection body m scope k path image hk hrest ih =>
    subst hm
    intro s hs
    rw [← hs] at hk
    obtain ⟨t, ht, hcopy⟩ := copy_node l name body hk
    rw [hs] at ht
    have hbelow := ih rfl t ht
    have hblock : (env.node (.stmt (.forEach l name collection body)) s).1.loopOf? (copyPath k) = none := by
      exact loopOf?_copyPath ..
    unfold loopOf? at hbelow hblock ⊢
    rw [around?_append hcopy, hblock]
    have hbody : (Node.stmt (.forEach l name collection body)).around? isPlainLoop (2 :: path) =
        ((Node.stmt body).around? isPlainLoop path).map (2 :: ·) := by
      exact Option.or_none
    rw [hbody]
    generalize (Node.stmt body).around? isPlainLoop path = outer, around? _ (env.node _ t).1 image = inner at hbelow
    cases hbelow with
    | @some l l' hl =>
      obtain ⟨loop, hl⟩ := hl
      exact .some ⟨loop, .copy (hs ▸ hk) hl⟩
    | none => exact .none

theorem image_of_at? (env : RenameEnv) (image : List Nat) (n : Node) (s : RenameState) (st' : Stmt)
    (h : (env.node n s).1.at? image = some (.stmt st')) :
    ∃ path st t, env.Image n s.bounds path image (.stmt st) ∧ st' = (env.stmt st t).1 := by
  induction hlength : image.length using Nat.strongRecOn generalizing image n s with
  | _ length ih =>
  subst hlength
  cases image with
  | nil =>
    cases n with
    | stmt st => exact ⟨[], st, s, .here, (Node.stmt.inj (Option.some.inj h)).symm⟩
    | _ => cases h
  | cons i rest =>
    cases hloop : n.isLoop with
    | true =>
      obtain ⟨l, name, collection, body, rfl⟩ := eq_forEach hloop
      change (Node.stmt (env.stmt (.forEach l name collection body) s).1).at? (i :: rest) = _ at h
      rw [stmt_forEach] at h
      obtain ⟨k, copy, below, himage, hcopy, hbelow⟩ := copyPath_of_at? h
      rw [getElem?_copies] at hcopy
      obtain ⟨t, ht, rfl⟩ := Option.map_eq_some_iff.mp hcopy
      obtain ⟨number, hnumber, hscope⟩ := scope_copyStates ht
      have hbounds : t.bounds = (name, .loop) :: s.bounds := by
        rw [RenameState.bounds, hscope]
        rfl
      have hlt : below.length < (i :: rest).length := by
        simp only [himage, copyPath, length_cons, length_append]
        omega
      obtain ⟨path, st, u, hst, hsame⟩ := ih _ hlt below (.stmt body) t hbelow rfl
      rw [hbounds] at hst
      rw [himage]
      refine ⟨2 :: path, st, u, .copy ?_ hst, hsame⟩
      rw [← loopTargets_eq]
      exact (List.getElem?_eq_some_iff.mp hnumber).1
    | false =>
      have hexpr : n.isExpr = false := by
        refine eq_false_of_ne_true fun hexpr => ?_
        cases holdsStmts_at? ((holdsStmts_node env n s).trans (holdsStmts_of_isExpr hexpr)) h
      obtain ⟨c', hc', h⟩ := Option.bind_eq_some_iff.mp h
      obtain ⟨c, hc⟩ : ∃ c, n.children[i]? = some c := by
        rw [children_node hloop hexpr, getElem?_nodes] at hc'
        obtain ⟨c, hc, -⟩ := Option.map_eq_some_iff.mp hc'
        exact ⟨c, hc⟩
      obtain ⟨t, ht, hresult⟩ := child_node env hloop hexpr hc s
      obtain rfl : c' = (env.node c t).1 := Option.some.inj (hc'.symm.trans hresult)
      obtain ⟨path, st, u, hst, hsame⟩ := ih _ (Nat.lt_succ_self _) rest c t h rfl
      rw [ht] at hst
      exact ⟨i :: path, st, u, .child hloop hc hst, hsame⟩

def CarriesJump (env : RenameEnv) (scope : Scope) (d : Decl) (path image : List Nat) (j : Jump) : Prop :=
  ∃ st, env.Image (.decl d) scope path image (.stmt st) ∧ (Node.stmt st).jump? = some j

/-- A jump belongs to what has become of its loop. -/
structure JumpsFollow (env : RenameEnv) (scope : Scope) (d x : Decl) : Prop where
  jumps : ∀ image j, ((Node.decl x).at? image).bind Node.jump? = some j ↔ ∃ path, env.CarriesJump scope d path image j
  lands : ∀ path image j, env.CarriesJump scope d path image j →
    Option.Rel (fun l l' => ∃ loop, env.Image (.decl d) scope l l' (.stmt loop))
      ((Node.decl d).around? isPlainLoop path) ((Node.decl x).loopOf? image)

def KeepsLoops (env : RenameEnv) (scope : Scope) (d x : Decl) : Prop :=
  ∀ path image j, env.CarriesJump scope d path image j → ((Node.decl d).loopAt? path).any isLoop = true →
    ((Node.decl x).loopAt? image).all isPlainLoop = false

theorem jumps_follow (env : RenameEnv) (d : Decl) (s : RenameState) :
    env.JumpsFollow s.bounds d ((env.decl d).run s).1 := by
  refine ⟨fun image j => ⟨fun h => ?_, ?_⟩, ?_⟩
  · obtain ⟨m, hm, hjump⟩ := Option.bind_eq_some_iff.mp h
    cases m with
    | stmt st' =>
      obtain ⟨path, st, t, himage, rfl⟩ := image_of_at? env image (.decl d) s st' hm
      exact ⟨path, st, himage, (jump?_stmt env st t).symm.trans hjump⟩
    | _ => cases hjump
  · rintro ⟨path, st, himage, hjump⟩
    obtain ⟨t, hvisits⟩ := himage.visits rfl s rfl
    rw [show (Node.decl ((env.decl d).run s).1).at? image = _ from hvisits.renamesAt.result]
    exact (jump?_stmt env st t).trans hjump
  · rintro path image j ⟨st, himage, -⟩
    exact himage.lands s rfl

variable {d x : Decl}

theorem JumpsFollow.stays {j : Jump} {l : List Nat} {loop : Node} (h : env.JumpsFollow scope d x)
    (hjump : env.CarriesJump scope d path image j)
    (hl : (Node.decl d).loopOf? path = some l) (hloop : (Node.decl d).at? l = some loop)
    (hplain : loop.isPlainLoop = true) :
    ∃ l', (Node.decl x).loopOf? image = some l' ∧ env.Image (.decl d) scope l l' loop := by
  have hlands := h.lands path image j hjump
  rw [around?_of_loopOf? hl hloop hplain] at hlands
  generalize (Node.decl x).loopOf? image = landing at hlands
  obtain ⟨st, hst⟩ := hlands
  cases hst.found.symm.trans hloop
  exact ⟨_, rfl, hst⟩

theorem keepsLoops_iff (hloopless : (Node.decl x).Loopless) : env.KeepsLoops scope d x ↔
      ∀ path image j, env.CarriesJump scope d path image j → ((Node.decl d).loopAt? path).any isLoop = false := by
  have hall : ∀ image, ((Node.decl x).loopAt? image).all isPlainLoop = true := by
    intro image
    rw [Option.all_eq_true]
    intro m hm
    obtain ⟨l, hl, hm⟩ := Option.bind_eq_some_iff.mp hm
    obtain ⟨m', hm', htest⟩ := at?_around? hl
    cases hm'.symm.trans hm
    simpa [hloopless l m hm] using htest
  refine forall_congr' fun path => forall_congr' fun image => forall_congr' fun j => imp_congr_right fun _ => ?_
  simp [hall image]

end Mix.RenameEnv

end ShaderCompose
