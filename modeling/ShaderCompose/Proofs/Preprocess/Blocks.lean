import ShaderCompose.Proofs.Preprocess.Directives

/-!
Conditionals as blocks.
-/

namespace ShaderCompose.Preprocess

open List

inductive LineKind where
  | opens
  | tests
  | otherwise
  | closes
  | plain
  deriving DecidableEq

def lineKind (line : List Char) : LineKind :=
  match directive? line with
  | some ("if", _) | some ("ifdef", _) | some ("ifndef", _) => .opens
  | some ("elif", _) => .tests
  | some ("else", _) => .otherwise
  | some ("endif", _) => .closes
  | _ => .plain

mutual

inductive Blocks where
  | done
  | line (text : List Char) (kind : lineKind text = .plain) (rest : Blocks)
  | group (text : List Char) (kind : lineKind text = .opens) (body : Blocks) (others : Branches) (rest : Blocks)

inductive Branches where
  | tests (text : List Char) (kind : lineKind text = .tests) (body : Blocks) (others : Branches)
  | otherwise (text : List Char) (kind : lineKind text = .otherwise) (body : Blocks) (last : List Char)
      (close : lineKind last = .closes)
  | close (text : List Char) (kind : lineKind text = .closes)

end

mutual

def Blocks.lines : Blocks → List (List Char)
  | .done => []
  | .line text _ rest => text :: rest.lines
  | .group text _ body others rest => text :: (body.lines ++ others.lines) ++ rest.lines

def Branches.lines : Branches → List (List Char)
  | .tests text _ body others => text :: (body.lines ++ others.lines)
  | .otherwise text _ body last _ => text :: (body.lines ++ [last])
  | .close text _ => [text]

end

def test (ds : Defines) (line : List Char) : Option Bool :=
  match directive? line with
  | some ("ifdef", rest) => some (ds.has (String.ofList rest))
  | some ("ifndef", rest) => some (!ds.has (String.ofList rest))
  | some (_, rest) => (Condition.ofText? rest).map fun c => c.eval ds != 0
  | none => none

def plainLine (ds : Defines) (line : List Char) : Option (Defines × List Char) :=
  match directive? line with
  | none => some (ds, substitute ds line)
  | some ("define", rest) => (definition? rest).map fun d => (ds.define d.1 d.2, [])
  | some ("undef", rest) => some (ds.undefine (String.ofList rest), [])
  | some ("error", _) => none
  | some _ => some (ds, line)

abbrev Written := Option (Defines × List (List Char))

def Written.before (x : Written) (f : Defines → Written) : Written :=
  x.bind fun r => (f r.1).map fun r' => (r'.1, r.2 ++ r'.2)

def blank (ls : List (List Char)) (ds : Defines) : Written := some (ds, ls.map fun _ => [])

def branch (holds : Option Bool) (text : List Char) (body others : List (List Char)) (run runOthers : Defines → Written)
    (ds : Defines) : Written :=
  match holds with
  | none => none
  | some true => (blank [text] ds).before fun ds => (run ds).before (blank others)
  | some false => (blank [text] ds).before fun ds => (blank body ds).before runOthers

mutual

def Blocks.run : Blocks → Defines → Written
  | .done, ds => some (ds, [])
  | .line text _ rest, ds => Written.before ((plainLine ds text).map fun r => (r.1, [r.2])) rest.run
  | .group text _ body others rest, ds =>
    (branch (test ds text) text body.lines others.lines body.run others.run ds).before rest.run

def Branches.run : Branches → Defines → Written
  | .tests text _ body others, ds => branch (test ds text) text body.lines others.lines body.run others.run ds
  | .otherwise text _ body last _, ds => (blank [text] ds).before fun ds => (body.run ds).before (blank [last])
  | .close text _, ds => blank [text] ds

end

/-! ## One line -/

section

variable {s : DirectiveState} {line : List Char} (number : Nat)

theorem runLine_opens (h : lineKind line = .opens) : (runLine s number line).toOption =
    (if s.isActive then test s.defines line else some false).map fun chosen =>
      ({ s with branches := ⟨s.isActive, chosen, chosen, false, number⟩ :: s.branches }, []) := by
  rw [lineKind] at h
  split at h
  · next rest hd =>
    cases hactive : s.isActive
    · simp [runLine, hd, runDirective, hactive, Except.toOption]
    · simp [runLine, test, hd, runDirective, opens, evaluate, hactive]
      cases Condition.ofText? rest <;> rfl
  iterate 2
    · next rest hd =>
      cases hactive : s.isActive <;> simp [runLine, test, hd, runDirective, opens, hactive, Except.toOption]
  all_goals cases h

theorem runLine_tests (h : lineKind line = .tests) : (runLine s number line).toOption =
    match s.branches with
    | [] => none
    | b :: outer =>
      if b.seenElse then none
      else (if b.parentActive && !b.taken then (test s.defines line).map fun chosen =>
          { b with active := chosen, taken := chosen } else some { b with active := false }).map fun b' =>
        ({ s with branches := b' :: outer }, []) := by
  rw [lineKind] at h
  split at h
  any_goals cases h
  next rest hd =>
  have htest : test s.defines line = (Condition.ofText? rest).map fun c => c.eval s.defines != 0 := by simp [test, hd]
  rw [htest]
  simp only [runLine, hd, runDirective, evaluate, DirectiveState.continue?]
  obtain ⟨ds, _ | ⟨⟨parentActive, active, taken, _ | _, opened⟩, outer⟩⟩ := s
  · rfl
  · cases parentActive <;> cases taken <;> cases Condition.ofText? rest <;> rfl
  · rfl

theorem runLine_otherwise (h : lineKind line = .otherwise) : (runLine s number line).toOption =
    match s.branches with
    | [] => none
    | b :: outer =>
      if b.seenElse then none
      else some ({ s with branches :=
        { b with active := b.parentActive && !b.taken, taken := true, seenElse := true } :: outer }, []) := by
  rw [lineKind] at h
  split at h
  any_goals cases h
  next rest hd =>
  simp only [runLine, hd, runDirective, DirectiveState.continue?]
  obtain ⟨ds, _ | ⟨⟨parentActive, active, taken, _ | _, opened⟩, outer⟩⟩ := s <;> rfl

theorem runLine_closes (h : lineKind line = .closes) : (runLine s number line).toOption =
    match s.branches with
    | [] => none
    | _ :: outer => some ({ s with branches := outer }, []) := by
  rw [lineKind] at h
  split at h
  any_goals cases h
  next rest hd =>
  simp only [runLine, hd, runDirective]
  obtain ⟨ds, _ | _⟩ := s <;> rfl

theorem runLine_plain (h : lineKind line = .plain) : (runLine s number line).toOption =
    (if s.isActive then plainLine s.defines line else some (s.defines, [])).map fun r =>
      ({ s with defines := r.1 }, r.2) := by
  rw [runLine]
  cases hd : directive? line with
  | none => cases hactive : s.isActive <;> simp [plainLine, hd, Except.toOption]
  | some d =>
    obtain ⟨name, rest⟩ := d
    rw [lineKind, hd] at h
    dsimp only
    rw [runDirective.eq_def]
    split
    any_goals cases h
    cases s.isActive with
    | false => rfl
    | true =>
      simp only [Bool.not_true, Bool.false_eq_true, if_false, if_true]
      split
      · cases hdefinition : definition? rest <;> simp [plainLine, hd, hdefinition, Except.toOption]
      · simp [plainLine, hd, Except.toOption]
      · simp [plainLine, hd, Except.toOption]
      · have hverbatim : plainLine s.defines line = some (s.defines, line) := by
          rw [plainLine, hd]
          split <;> simp_all
        rw [hverbatim]
        rfl

end

theorem runLines_cons (s : DirectiveState) (number : Nat) (line : List Char) (ls : List (List Char)) :
    (runLines s number (line :: ls)).toOption = (runLine s number line).toOption.bind fun r =>
      (runLines r.1 (number + 1) ls).toOption.map (asLine r.2 ++ ·) := by
  rw [runLines]
  cases runLine s number line with
  | error cause => rfl
  | ok r =>
    change (runLines r.1 (number + 1) ls >>= _).toOption = (runLines r.1 (number + 1) ls).toOption.map _
    cases runLines r.1 (number + 1) ls <;> rfl

/-! ## Blocks on the stack -/

def Written.into (x : Written) (f : Defines → Option (List Char)) : Option (List Char) :=
  x.bind fun r => (f r.1).map (r.2.flatMap asLine ++ ·)

theorem Written.into_before (x : Written) (f : Defines → Written) (g : Defines → Option (List Char)) :
    (x.before f).into g = x.into fun ds => (f ds).into g := by
  cases x with
  | none => rfl
  | some r =>
    simp only [before, into, Option.bind_some]
    cases f r.1 <;> simp [Function.comp_def]

variable {text : List Char} {ls more body others : List (List Char)} {ds : Defines} {s : DirectiveState}
  {outer outer' outer'' : List Branch} {number : Nat} {x : Written} {f run runOthers : Defines → Written}

theorem blank_append (ls more : List (List Char)) (ds : Defines) :
    (blank ls ds).before (blank more) = blank (ls ++ more) ds := by
  simp [blank, Written.before]

def Takes (ds : Defines) (outer : List Branch) (ls : List (List Char)) (outer' : List Branch) (x : Written) : Prop :=
  ∀ number more, (runLines ⟨ds, outer⟩ number (ls ++ more)).toOption =
    x.into fun ds => (runLines ⟨ds, outer'⟩ (number + ls.length) more).toOption

theorem Takes.append (h : Takes ds outer ls outer' x) (hmore : ∀ ds, Takes ds outer' more outer'' (f ds)) :
    Takes ds outer (ls ++ more) outer'' (x.before f) := by
  intro number rest
  rw [append_assoc, h, Written.into_before, length_append, ← Nat.add_assoc]
  exact congrArg x.into (funext fun ds => hmore ds _ rest)

theorem Takes.blank_cons (hls : Takes ds outer ls outer' x) (more : List (List Char))
    (hline : (runLine s number text).toOption = some (⟨ds, outer⟩, [])) :
    (runLines s number (text :: ls ++ more)).toOption = ((blank [text] ds).before fun _ => x).into fun ds =>
      (runLines ⟨ds, outer'⟩ (number + (text :: ls).length) more).toOption := by
  rw [cons_append, runLines_cons, hline, Option.bind_some, hls, Written.into_before, length_cons, Nat.add_comm ls.length,
    ← Nat.add_assoc]
  rfl

theorem Takes.branch_cons {b : Branch} (chosen : Bool)
    (hbody : Takes ds (b :: outer) body (b :: outer) (if chosen then run ds else blank body ds))
    (hothers : ∀ ds, Takes ds (b :: outer) others outer (if true && !chosen then runOthers ds else blank others ds))
    (more : List (List Char)) (hline : (runLine s number text).toOption = some (⟨ds, b :: outer⟩, [])) :
    (runLines s number (text :: (body ++ others) ++ more)).toOption =
      (branch (some chosen) text body others run runOthers ds).into fun ds =>
        (runLines ⟨ds, outer⟩ (number + (text :: (body ++ others)).length) more).toOption := by
  have hrest := (hbody.append hothers).blank_cons more hline
  cases chosen <;> exact hrest

mutual

theorem Blocks.takes (bs : Blocks) (ds : Defines) (outer : List Branch) (active : Bool)
    (hactive : ∀ ds, DirectiveState.isActive ⟨ds, outer⟩ = active) :
    Takes ds outer bs.lines outer (if active then bs.run ds else blank bs.lines ds) := by
  match bs with
  | .done =>
    intro number more
    cases active <;> simp [Blocks.lines, Blocks.run, blank, Written.into]
  | .line text kind rest =>
    have hline : Takes ds outer [text] outer
        (if active then (plainLine ds text).map fun r => (r.1, [r.2]) else blank [text] ds) := by
      intro number more
      rw [singleton_append, runLines_cons, runLine_plain number kind, hactive]
      cases active with
      | false => rfl
      | true => cases plainLine ds text <;> simp [Written.into]
    have happend := hline.append fun ds => rest.takes ds outer active hactive
    cases active <;> exact happend
  | .group text kind body others rest =>
    have hgroup : Takes ds outer (text :: (body.lines ++ others.lines)) outer
        (if active then branch (test ds text) text body.lines others.lines body.run others.run ds
          else blank (text :: (body.lines ++ others.lines)) ds) := by
      intro number more
      have hline := runLine_opens (s := ⟨ds, outer⟩) number kind
      rw [hactive] at hline
      cases active with
      | false =>
        have hbody := body.takes ds (⟨false, false, false, false, number⟩ :: outer) false fun _ => rfl
        have hothers := fun ds => others.takes ds false false false number outer
        have hblank := (hbody.append hothers).blank_cons more hline
        simpa [blank, Written.before] using hblank
      | true =>
        cases htest : test ds text with
        | none => simp [runLines_cons, hline, htest, branch, Written.into]
        | some chosen =>
          have hbody := body.takes ds (⟨true, chosen, chosen, false, number⟩ :: outer) chosen fun _ => rfl
          have hothers := fun ds => others.takes ds true chosen chosen number outer
          simp only [htest] at hline
          exact hbody.branch_cons chosen hothers more hline
    have happend := hgroup.append fun ds => rest.takes ds outer active hactive
    cases active with
    | false => simpa [Blocks.lines, blank_append] using happend
    | true => exact happend

theorem Branches.takes (bs : Branches) (ds : Defines) (parentActive active taken : Bool) (opened : Nat)
    (outer : List Branch) : Takes ds (⟨parentActive, active, taken, false, opened⟩ :: outer) bs.lines outer
      (if parentActive && !taken then bs.run ds else blank bs.lines ds) := by
  intro number more
  match bs with
  | .tests text kind body others =>
    have hline := runLine_tests (s := ⟨ds, ⟨parentActive, active, taken, false, opened⟩ :: outer⟩) number kind
    cases hlive : parentActive && !taken with
    | false =>
      have hbody := body.takes ds (⟨parentActive, false, taken, false, opened⟩ :: outer) false fun _ => rfl
      have hothers := fun ds => others.takes ds parentActive false taken opened outer
      simp only [hlive] at hline hothers
      have hblank := (hbody.append hothers).blank_cons more hline
      simpa [blank, Branches.lines, Written.before] using hblank
    | true =>
      obtain ⟨rfl, -⟩ := Bool.and_eq_true_iff.mp hlive
      simp only [hlive, Bool.false_eq_true, if_false, if_true] at hline ⊢
      cases htest : test ds text with
      | none => simp [Branches.lines, Branches.run, runLines_cons, hline, htest, branch, Written.into]
      | some chosen =>
        have hbody := body.takes ds (⟨true, chosen, chosen, false, opened⟩ :: outer) chosen fun _ => rfl
        have hothers := fun ds => others.takes ds true chosen chosen opened outer
        rw [htest] at hline
        rw [Branches.run, htest]
        exact hbody.branch_cons chosen hothers more hline
  | .otherwise text kind body last close =>
    have hline := runLine_otherwise (s := ⟨ds, ⟨parentActive, active, taken, false, opened⟩ :: outer⟩) number kind
    have hbody := body.takes ds (⟨parentActive, parentActive && !taken, true, true, opened⟩ :: outer)
      (parentActive && !taken) fun _ => rfl
    have hlast : ∀ ds, Takes ds (⟨parentActive, parentActive && !taken, true, true, opened⟩ :: outer) [last] outer
        (blank [last] ds) := by
      intro ds number more
      rw [singleton_append, runLines_cons, runLine_closes number close]
      rfl
    have hrest := (hbody.append hlast).blank_cons more hline
    cases hlive : parentActive && !taken with
    | false =>
      simp only [hlive] at hrest
      simpa [blank, Branches.lines, Written.before] using hrest
    | true =>
      simp only [hlive] at hrest
      exact hrest
  | .close text kind =>
    rw [Branches.lines, singleton_append, runLines_cons, runLine_closes number kind]
    cases parentActive && !taken <;> rfl

end

/-! ## Reading the blocks -/

def Runs (s : DirectiveState) (ls : List (List Char)) : Prop := ∃ number out, runLines s number ls = .ok out

def GoesOn (ls : List (List Char)) : Prop := ∀ line ∈ ls.head?, lineKind line ≠ .plain ∧ lineKind line ≠ .opens

theorem Runs.cons (h : Runs s (text :: ls)) :
    ∃ number s' out, (runLine s number text).toOption = some (s', out) ∧ Runs s' ls := by
  obtain ⟨number, out, h⟩ := h
  obtain ⟨⟨s', out⟩, hline, h⟩ := bind_eq_ok h
  obtain ⟨below, hbelow, -⟩ := bind_eq_ok h
  exact ⟨number, s', out, by rw [hline]; rfl, number + 1, below, hbelow⟩

theorem not_runs_nil {b : Branch} : ¬Runs ⟨ds, b :: outer⟩ [] := by
  rintro ⟨number, out, h⟩
  cases h

theorem Runs.closes (h : Runs ⟨ds, outer⟩ (text :: ls)) (hgoes : GoesOn (text :: ls)) (helse : ∀ b ∈ outer.head?, b.seenElse = true) :
    lineKind text = .closes ∧ ∃ b outer', outer = b :: outer' ∧ Runs ⟨ds, outer'⟩ ls := by
  obtain ⟨number, s', out, hline, hrest⟩ := h.cons
  cases kind : lineKind text with
  | plain => exact absurd kind (hgoes text rfl).1
  | opens => exact absurd kind (hgoes text rfl).2
  | tests => cases outer <;> simp_all [runLine_tests number kind]
  | otherwise => cases outer <;> simp_all [runLine_otherwise number kind]
  | closes =>
    rw [runLine_closes number kind] at hline
    cases outer with
    | nil => cases hline
    | cons b outer =>
      cases hline
      exact ⟨rfl, b, outer, rfl, hrest⟩

mutual

theorem Runs.blocks {ls : List (List Char)} {ds : Defines} {outer : List Branch} (h : Runs ⟨ds, outer⟩ ls) :
    ∃ (bs : Blocks) (rest : List (List Char)) (ds' : Defines), ls = bs.lines ++ rest ∧ Runs ⟨ds', outer⟩ rest ∧
      GoesOn rest := by
  match ls with
  | [] => exact ⟨.done, [], ds, rfl, h, nofun⟩
  | line :: ls =>
    obtain ⟨number, s', out, hline, hrest⟩ := h.cons
    cases kind : lineKind line with
    | plain =>
      rw [runLine_plain number kind] at hline
      obtain ⟨r, -, heq⟩ := Option.map_eq_some_iff.mp hline
      cases heq
      obtain ⟨bs, rest, ds', rfl, hends, hgoes⟩ := hrest.blocks
      exact ⟨.line line kind bs, rest, ds', rfl, hends, hgoes⟩
    | opens =>
      rw [runLine_opens number kind] at hline
      obtain ⟨chosen, -, heq⟩ := Option.map_eq_some_iff.mp hline
      cases heq
      obtain ⟨body, _, _, rfl, hbody, hgoes⟩ := hrest.blocks
      obtain ⟨others, _, _, rfl, hothers⟩ := hbody.branches hgoes
      obtain ⟨bs, rest, ds', rfl, hends, hgoes⟩ := hothers.blocks
      exact ⟨.group line kind body others bs, rest, ds', by simp [Blocks.lines], hends, hgoes⟩
    | _ => exact ⟨.done, line :: ls, ds, rfl, h, by simp [GoesOn, kind]⟩
termination_by ls.length

theorem Runs.branches {ls : List (List Char)} {ds : Defines} {parentActive active taken : Bool} {opened : Nat}
    {outer : List Branch} (h : Runs ⟨ds, ⟨parentActive, active, taken, false, opened⟩ :: outer⟩ ls) (hgoes : GoesOn ls) :
    ∃ (bs : Branches) (rest : List (List Char)) (ds' : Defines), ls = bs.lines ++ rest ∧ Runs ⟨ds', outer⟩ rest := by
  match ls with
  | [] => exact absurd h not_runs_nil
  | line :: ls =>
    obtain ⟨number, s', out, hline, hrest⟩ := h.cons
    cases kind : lineKind line with
    | plain => exact absurd kind (hgoes line rfl).1
    | opens => exact absurd kind (hgoes line rfl).2
    | tests =>
      rw [runLine_tests number kind] at hline
      obtain ⟨b, hb, heq⟩ := Option.map_eq_some_iff.mp hline
      cases heq
      have hopen : ∃ active taken, b = ⟨parentActive, active, taken, false, opened⟩ := by
        split at hb
        · obtain ⟨chosen, -, rfl⟩ := Option.map_eq_some_iff.mp hb
          exact ⟨chosen, chosen, rfl⟩
        · cases hb
          exact ⟨false, taken, rfl⟩
      obtain ⟨active', taken', rfl⟩ := hopen
      obtain ⟨body, _, _, rfl, hbody, hgoes⟩ := hrest.blocks
      obtain ⟨others, rest, ds', rfl, hends⟩ := hbody.branches hgoes
      exact ⟨.tests line kind body others, rest, ds', by simp [Branches.lines], hends⟩
    | otherwise =>
      rw [runLine_otherwise number kind] at hline
      cases hline
      obtain ⟨body, _ | ⟨last, rest⟩, ds', rfl, hbody, hgoes⟩ := hrest.blocks
      · exact absurd hbody not_runs_nil
      · obtain ⟨close, _, _, heq, hends⟩ := hbody.closes hgoes (by simp)
        cases heq
        exact ⟨.otherwise line kind body last close, rest, ds', by simp [Branches.lines], hends⟩
    | closes =>
      rw [runLine_closes number kind] at hline
      cases hline
      exact ⟨.close line kind, ls, ds, rfl, hrest⟩
termination_by ls.length

end

theorem Runs.all (h : Runs ⟨ds, []⟩ ls) : ∃ bs : Blocks, bs.lines = ls := by
  obtain ⟨bs, _ | ⟨line, rest⟩, ds', rfl, hends, hgoes⟩ := h.blocks
  · exact ⟨bs, (append_nil _).symm⟩
  · obtain ⟨-, b, outer, heq, -⟩ := hends.closes hgoes nofun
    cases heq

/-! ## One line for every line -/

def Lined (ls : List (List Char)) (ds : Defines) (x : Written) : Prop :=
  (∀ l ∈ ls, '\n' ∉ l) → ds.OneLine →
    ∀ r, x = some r → r.1.OneLine ∧ r.2.length = ls.length ∧ ∀ o ∈ r.2, '\n' ∉ o

theorem lined_blank (ls : List (List Char)) (ds : Defines) : Lined ls ds (blank ls ds) := by
  rintro - hds r heq
  cases heq
  exact ⟨hds, length_map _, by simp⟩

theorem Lined.append (h : Lined ls ds x) (hmore : ∀ ds, Lined more ds (f ds)) : Lined (ls ++ more) ds (x.before f) := by
  intro hls hds r heq
  rw [forall_mem_append] at hls
  obtain ⟨r₁, hx, heq⟩ := Option.bind_eq_some_iff.mp heq
  obtain ⟨r₂, hf, rfl⟩ := Option.map_eq_some_iff.mp heq
  obtain ⟨hds₁, hlength₁, hout₁⟩ := h hls.1 hds r₁ hx
  obtain ⟨hds₂, hlength₂, hout₂⟩ := hmore r₁.1 hls.2 hds₁ r₂ hf
  exact ⟨hds₂, by simp [hlength₁, hlength₂], forall_mem_append.mpr ⟨hout₁, hout₂⟩⟩

theorem Lined.cons (h : ∀ ds, Lined ls ds (f ds)) : Lined (text :: ls) ds ((blank [text] ds).before f) :=
  (lined_blank [text] ds).append h

theorem lined_branch (hbody : ∀ ds, Lined body ds (run ds)) (hothers : ∀ ds, Lined others ds (runOthers ds))
    (holds : Option Bool) : Lined (text :: (body ++ others)) ds (branch holds text body others run runOthers ds) :=
  match holds with
  | none => fun _ _ _ heq => nomatch heq
  | some true => .cons fun ds => (hbody ds).append (lined_blank others)
  | some false => .cons fun ds => (lined_blank body ds).append hothers

theorem lined_plainLine (kind : lineKind text = .plain) :
    Lined [text] ds ((plainLine ds text).map fun r => (r.1, [r.2])) := by
  intro hls hds r heq
  obtain ⟨⟨ds', out⟩, hline, rfl⟩ := Option.map_eq_some_iff.mp heq
  have hrun : (runLine ⟨ds, []⟩ 1 text).toOption = some (⟨ds', []⟩, out) := by
    rw [runLine_plain 1 kind]
    exact Option.map_eq_some_iff.mpr ⟨_, hline, rfl⟩
  cases hok : runLine ⟨ds, []⟩ 1 text with
  | error cause =>
    rw [hok] at hrun
    cases hrun
  | ok r =>
    rw [hok] at hrun
    cases hrun
    obtain ⟨hout, hds'⟩ := runLine_oneLine hok (hls text mem_cons_self) hds
    exact ⟨hds', rfl, by simpa using hout⟩

mutual

theorem Blocks.lined (bs : Blocks) (ds : Defines) : Lined bs.lines ds (bs.run ds) := by
  match bs with
  | .done => exact lined_blank [] ds
  | .line text kind rest => exact (lined_plainLine kind).append rest.lined
  | .group text kind body others rest => exact (lined_branch body.lined others.lined _).append rest.lined

theorem Branches.lined (bs : Branches) (ds : Defines) : Lined bs.lines ds (bs.run ds) := by
  match bs with
  | .tests text kind body others => exact lined_branch body.lined others.lined _
  | .otherwise text kind body last close => exact .cons fun ds => (body.lined ds).append (lined_blank [last])
  | .close text kind => exact lined_blank [text] ds

end

/-! ## A text -/

theorem runDirectives_blocks {macros : List MacroDef} {bs : Blocks} (hbs : bs.lines = Text.lines text) :
    (runDirectives macros text).toOption = (bs.run (.ofMacros macros)).map fun r => r.2.flatMap asLine := by
  have htakes := bs.takes (.ofMacros macros) [] true (fun _ => rfl) 1 []
  rw [append_nil, hbs] at htakes
  rw [runDirectives, htakes]
  cases bs.run (.ofMacros macros) <;> simp [Written.into, runLines, Except.toOption]

theorem eq_ok_iff {ε α : Type} {y : Except ε α} {a : α} : y = .ok a ↔ y.toOption = some a := by
  cases y <;> simp [Except.toOption]

/-- A text is accepted exactly if its lines are blocks in which nothing fails that is run. -/
theorem directives_follow_blocks {macros : List MacroDef} (hmacros : ∀ m ∈ macros, '\n' ∉ m.text.toList)
    (text : List Char) :
    ((∃ out, runDirectives macros text = .ok out) ↔
      ∃ bs : Blocks, bs.lines = Text.lines text ∧ (bs.run (.ofMacros macros)).isSome) ∧
    ∀ bs : Blocks, bs.lines = Text.lines text → ∀ out, runDirectives macros text = .ok out ↔
      ∃ ds outs, bs.run (.ofMacros macros) = some (ds, outs) ∧ out = outs.flatMap asLine ∧
        Text.pieces out = outs ++ [[]] ∧ outs.length = (Text.lines text).length := by
  refine ⟨⟨?_, ?_⟩, fun bs hbs out => ?_⟩
  · rintro ⟨out, hout⟩
    obtain ⟨bs, hbs⟩ := Runs.all ⟨1, out, hout⟩
    rw [eq_ok_iff, runDirectives_blocks hbs] at hout
    obtain ⟨r, hrun, -⟩ := Option.map_eq_some_iff.mp hout
    exact ⟨bs, hbs, by rw [hrun]; rfl⟩
  · rintro ⟨bs, hbs, hrun⟩
    obtain ⟨r, hrun⟩ := Option.isSome_iff_exists.mp hrun
    exact ⟨r.2.flatMap asLine, by rw [eq_ok_iff, runDirectives_blocks hbs, hrun]; rfl⟩
  · rw [eq_ok_iff, runDirectives_blocks hbs]
    constructor
    · intro hout
      obtain ⟨⟨ds, outs⟩, hrun, rfl⟩ := Option.map_eq_some_iff.mp hout
      obtain ⟨-, hlength, houts⟩ := bs.lined _ (fun l hl => Text.not_mem_of_mem_lines (hbs ▸ hl))
        (oneLine_ofMacros hmacros) _ hrun
      exact ⟨ds, outs, hrun, rfl, Text.pieces_join houts, hbs ▸ hlength⟩
    · rintro ⟨ds, outs, hrun, rfl, -, -⟩
      rw [hrun]
      rfl

theorem skipped_follow_blocks :
    let macros : List MacroDef := [⟨"A", "2"⟩]
    let text := "#if 0\n#if )\n#elif (\n#else\n#error\n#endif\n#elif A > 1\n#define B A+\n B\n#elif )\n#endif\n#line B\nB".toList
    (∀ m ∈ macros, '\n' ∉ m.text.toList) ∧
      ∃ bs : Blocks, bs.lines = Text.lines text ∧ (bs.run (.ofMacros macros)).isSome := by
  intro macros text
  have hmacros : ∀ m ∈ macros, '\n' ∉ m.text.toList := by decide
  have hout : runDirectives macros text = .ok "\n\n\n\n\n\n\n\n 2+\n\n\n#line B\n2+\n".toList := by
    decide +kernel
  exact ⟨hmacros, (directives_follow_blocks hmacros text).1.mp ⟨_, hout⟩⟩

end ShaderCompose.Preprocess
