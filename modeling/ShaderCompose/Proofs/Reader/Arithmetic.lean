import ShaderCompose.Proofs.Hlsl.Spelled
import ShaderCompose.Proofs.Reader.Layout

/-!
Arithmetic that was read is spelled (`expression?_isSpelled`).
-/

namespace ShaderCompose

open List

def Expr.isArithmetic : Expr → Bool
  | .ident .. | .literal _ (.int _) => true
  | .unary _ _ operand => operand.isArithmetic
  | .binary _ _ lhs rhs => lhs.isArithmetic && rhs.isArithmetic
  | _ => false

theorem Expr.isArithmetic_moveTo (loc : Span) (e : Expr) : (e.moveTo loc).isArithmetic = e.isArithmetic := by
  cases e with
  | literal l value => cases value <;> rfl
  | _ => rfl

theorem Expr.isSpelled_moveTo (loc : Span) (e : Expr) : (e.moveTo loc).isSpelled = e.isSpelled := by
  cases e <;> rfl

def Literal.Unsigned (value : Literal) : Prop := ∀ n, value = .int n → 0 ≤ n ∧ Text.fitsInt64 n = true

namespace Reader

/-! ## What a parser has read -/

namespace Parser

variable {α β : Type} {p q : Parser α}

variable {c rest : Cursor}

theorem bind_eq_ok {f : α → Parser β} {b : β} (h : (p >>= f) c = .ok b rest) :
    ∃ a mid, p c = .ok a mid ∧ f a mid = .ok b rest := by
  change Parser.bind p f c = _ at h
  unfold Parser.bind at h
  split at h
  · next a mid hp => exact ⟨a, mid, hp, h⟩
  · cases h
  · cases h

theorem orElse_eq_ok {a : α} (h : orElse p q c = .ok a rest) :
    p c = .ok a rest ∨ q c = .ok a rest := by
  unfold orElse at h
  split at h
  · exact .inr h
  · exact .inl h

theorem filterMap_eq_ok {f : α → Option β} {b : β} (h : filterMap p f c = .ok b rest) :
    ∃ a, p c = .ok a rest ∧ f a = some b := by
  unfold filterMap at h
  split at h
  · next a mid hp =>
    split at h
    · next hb =>
      cases h
      exact ⟨a, hp, hb⟩
    · cases h
  · cases h
  · cases h

end Parser

open ShaderCompose.Reader.Parser

/-! ## Between the words -/

theorem drop_takeWhile (p : Char → Bool) (text : List Char) :
    text.drop (text.takeWhile p).length = text.dropWhile p := by
  induction text with
  | nil => rfl
  | cons ch text ih =>
    rw [takeWhile_cons, dropWhile_cons]
    split
    · rw [length_cons, drop_succ_cons, ih]
    · rfl

theorem pos_of_bytesToClose? {text : List Char} {n : Nat} (h : bytesToClose? text = some n) : 0 < n := by
  unfold bytesToClose? at h
  split at h
  · cases h
    decide
  · next ch _ _ =>
    obtain ⟨m, -, rfl⟩ := Option.map_eq_some_iff.mp h
    exact Nat.add_pos_right m ch.utf8Size_pos
  · cases h

variable {c rest : Cursor} {e : Expr}

theorem isAtWord_of_skipFrom {fuel : Nat} {c' : Cursor} (hfuel : c.rest.length < fuel)
    (h : skipFrom fuel c = .ok () c') : isAtWord c'.rest = true := by
  induction fuel generalizing c with
  | zero => exact absurd hfuel (Nat.not_lt_zero _)
  | succ fuel ih =>
    have hrest : (c.drop (c.rest.takeWhile isSpace).length).rest = c.rest.dropWhile isSpace := by
      rw [Cursor.rest_drop, drop_takeWhile]
    have hlength := (dropWhile_suffix isSpace (l := c.rest)).length_le
    have hspace := head?_dropWhile_not isSpace c.rest
    rw [skipFrom] at h
    generalize c.drop (c.rest.takeWhile isSpace).length = d at h hrest
    rw [← hrest] at hlength hspace
    -- every round but the last drops a character, so the fuel lasts
    have hround : ∀ {n : Nat}, 0 < n → 0 < d.rest.length → (d.drop n).rest.length < fuel := by
      intro n hn hd
      rw [Cursor.rest_drop, length_drop]
      omega
    split at h
    · next hd =>
      refine ih (hround ?_ (by simp [hd])) h
      simp [hd]
    · next hd =>
      refine ih (hround ?_ (by simp [hd])) h
      simp [hd]
    · next hd =>
      split at h
      · exact ih (hround (by simp [hd]) (by simp [hd])) h
      · next n hn =>
        split at h
        · exact ih (hround (pos_of_bytesToClose? hn) (by simp [hd])) h
        · cases h
    · next hhash hline hblock =>
      cases h
      unfold isAtWord
      split
      · next hd => exact absurd hd (hhash _)
      · next hd => exact absurd hd (hline _)
      · next hd => exact absurd hd (hblock _)
      · next hd => simpa [hd] using hspace
      · rfl

theorem isAtWord_of_skip {c' : Cursor} (h : skip c = .ok () c') : isAtWord c'.rest = true :=
  isAtWord_of_skipFrom (Nat.lt_succ_self _) h

theorem skip_of_isAtWord (h : isAtWord c.rest = true) : skip c = .ok () c := by
  have hspace : c.rest.takeWhile isSpace = [] := by
    have hsame := takeWhile_isSpace gap_nil h
    exact hsame
  unfold skip skipFrom
  simp only [hspace, length_nil, Cursor.drop]
  unfold isAtWord at h
  split <;> simp_all

theorem identifier_isName : Yields identifier fun name => isName name = true := by
  refine yields_seq fun _ c name rest h => ?_
  obtain ⟨w, hword, hname⟩ := filterMap_eq_ok h
  obtain ⟨first, mid, hfirst, hmore⟩ := bind_eq_ok hword
  obtain ⟨others, mid', hothers, hpure⟩ := bind_eq_ok hmore
  cases hpure
  dsimp only at hname
  split at hname
  · cases hname
  · next hkeyword =>
    cases hname
    refine isName_iff.mpr ⟨first, others, String.toList_ofList, yields_satisfy _ _ _ _ hfirst,
      yields_takeWhile _ _ _ _ hothers, by simpa using hkeyword⟩

def NoSign (c : Cursor) : Prop := ∀ ch ∈ c.rest.head?, ch ≠ '+' ∧ ch ≠ '-'

theorem numeral_positive {n : Numeral} (hsign : NoSign c) (h : numeral c = .ok n rest) : n.negative = false := by
  have hmisses : Misses sign c.rest := by
    refine .bind (.satisfy fun ch hch => ?_)
    obtain ⟨hplus, hminus⟩ := hsign ch hch
    simp [hplus, hminus]
  obtain ⟨place, hmiss⟩ := hmisses c rfl
  obtain ⟨negative, mid, hnegative, hmore⟩ := bind_eq_ok h
  rw [Parser.optional, hmiss] at hnegative
  cases hnegative
  obtain ⟨parts, mid', -, hmore⟩ := bind_eq_ok hmore
  obtain ⟨exponent, mid'', -, hpure⟩ := bind_eq_ok hmore
  cases hpure
  rfl

theorem number_unsigned {value : Literal} (hsign : NoSign c) (h : number c = .ok value rest) : value.Unsigned := by
  rintro n rfl
  rcases orElse_eq_ok h with h | h
  · obtain ⟨digits, -, hvalue⟩ := filterMap_eq_ok h
    obtain ⟨m, hm, hint⟩ := Option.map_eq_some_iff.mp hvalue
    cases hint
    obtain ⟨rfl, hfits⟩ := Text.asInt64_eq_some_iff.mp hm
    exact ⟨Int.natCast_nonneg _, hfits⟩
  · obtain ⟨⟨numeral, suffix⟩, hparts, hvalue⟩ := filterMap_eq_ok h
    obtain ⟨numeral', mid, hnumeral, hmore⟩ := bind_eq_ok hparts
    obtain ⟨suffix', mid', -, hmore⟩ := bind_eq_ok hmore
    obtain ⟨_, mid'', -, hpure⟩ := bind_eq_ok hmore
    cases hpure
    have hpositive := numeral_positive hsign hnumeral
    simp only [Numeral.literal?] at hvalue
    split at hvalue
    · cases hvalue
    · obtain ⟨m, hm, hint⟩ := Option.map_eq_some_iff.mp hvalue
      cases hint
      simp only [Numeral.toInt?, hpositive] at hm
      obtain ⟨rfl, hfits⟩ := Text.asInt64_eq_some_iff.mp hm
      exact ⟨Int.natCast_nonneg _, hfits⟩

theorem literal_unsigned {value : Literal} (hword : isAtWord c.rest = true) (hsign : NoSign c)
    (h : literal c = .ok value rest) : value.Unsigned := by
  obtain ⟨_, mid, hskip, h⟩ := bind_eq_ok h
  rw [skip_of_isAtWord hword] at hskip
  cases hskip
  rcases orElse_eq_ok h with h | h
  · exact (yields_seq fun _ => yields_pure nofun) _ _ _ h
  rcases orElse_eq_ok h with h | h
  · exact (yields_seq fun _ => yields_pure nofun) _ _ _ h
  rcases orElse_eq_ok h with h | h
  · exact (yields_seq fun _ => yields_pure nofun) _ _ _ h
  exact number_unsigned hsign h

theorem unaryOp_of_sign (h : ¬ NoSign c) : ∃ op rest, unaryOp c = .ok op rest := by
  have hsign : ∃ ch text, c.rest = ch :: text ∧ (ch = '+' ∨ ch = '-') := by
    cases hc : c.rest with
    | nil => exact absurd (fun ch hch => by rw [hc] at hch; cases hch) h
    | cons ch text =>
      refine ⟨ch, text, rfl, ?_⟩
      by_contra hne
      rw [not_or] at hne
      refine h fun x hx => ?_
      rw [hc] at hx
      cases hx
      exact hne
  obtain ⟨ch, text, hc, hch⟩ := hsign
  have hread : ∃ start rest, ch :: text = start ++ rest ∧ Reads unaryOp start rest fun _ => True := by
    by_cases hdouble : ∃ rest, text = ch :: rest
    · obtain ⟨rest, rfl⟩ := hdouble
      refine ⟨[ch, ch], rest, rfl, ?_⟩
      rcases hch with rfl | rfl
      · refine (reads_skip gap_nil rfl).first fun _ _ => .orElse ((Reads.tag _ _).last fun _ _ => .pure trivial)
      · refine (reads_skip gap_nil rfl).first fun _ _ => .orElse_of_misses (.bind (.tag rfl)) ?_
        exact .orElse ((Reads.tag _ _).last fun _ _ => .pure trivial)
    · have hafter : Text.after? [ch, ch] (ch :: text) = none := by
        cases text with
        | nil => simp [Text.after?]
        | cons x rest =>
          have hne : ch ≠ x := fun heq => hdouble ⟨rest, by rw [heq]⟩
          simp [Text.after?, hne]
      refine ⟨[ch], text, rfl, ?_⟩
      rcases hch with rfl | rfl
      · refine (reads_skip gap_nil rfl).first fun _ _ => .orElse_of_misses (.bind (.tag hafter)) ?_
        refine .orElse_of_misses (.bind (.tag rfl)) (.orElse_of_misses (.bind (.tag rfl)) ?_)
        exact .orElse ((Reads.tag _ _).last fun _ _ => .pure trivial)
      · refine (reads_skip gap_nil rfl).first fun _ _ => .orElse_of_misses (.bind (.tag rfl)) ?_
        refine .orElse_of_misses (.bind (.tag hafter)) ?_
        exact .orElse ((Reads.tag _ _).last fun _ _ => .pure trivial)
  obtain ⟨start, rest, htext, hreads⟩ := hread
  obtain ⟨op, c', hok, -⟩ := hreads c (hc.trans htext)
  exact ⟨op, c', hok⟩

def Sound (e : Expr) : Prop := e.isArithmetic = true → e.isSpelled = true

theorem Sound.moveTo (h : Sound e) (loc : Span) : Sound (e.moveTo loc) := by
  rw [Sound, Expr.isArithmetic_moveTo, Expr.isSpelled_moveTo]
  exact h

theorem Sound.unary (h : Sound e) (loc : Span) (op : UnaryOp) : Sound (.unary loc op e) := h

theorem Sound.binary {lhs rhs : Expr} (hlhs : Sound lhs) (hrhs : Sound rhs) (loc : Span) (op : BinaryOp) :
    Sound (.binary loc op lhs rhs) := by
  intro h
  simp only [Expr.isArithmetic, Expr.isSpelled, Bool.and_eq_true] at h ⊢
  exact ⟨hlhs h.1, hrhs h.2⟩

section

variable {nested : Parser Expr} (hnested : Yields nested Sound)

theorem suffix_sound : Yields (suffix nested) fun extend => ∀ e, Sound e → Sound (extend e) := by
  refine yields_orElse ?_ (yields_orElse ?_ (yields_orElse ?_ (yields_orElse ?_ ?_)))
  · exact yields_seq fun _ => yields_seq fun _ => yields_pure nofun
  · refine yields_seq fun _ => yields_seq fun _ => yields_seq fun _ => ?_
    exact yields_pure nofun
  · refine yields_seq fun _ => yields_seq fun _ => yields_seq fun _ => ?_
    exact yields_pure nofun
  · exact yields_seq fun _ => yields_pure fun e he => he.unary e.loc _
  · exact yields_seq fun _ => yields_pure fun e he => he.unary e.loc _

theorem suffixes_sound {fuel : Nat} {e : Expr} (he : Sound e) : Yields (suffixes nested fuel e) Sound := by
  induction fuel generalizing e with
  | zero =>
    intro c x rest h
    cases h
    exact he
  | succ fuel ih =>
    intro c x rest h
    rw [suffixes] at h
    split at h
    · next extend mid hsuffix => exact ih (suffix_sound _ _ _ hsuffix e he) mid x rest h
    · cases h
      exact he

include hnested

theorem primary_sound {c rest : Cursor} {e : Expr} (hword : isAtWord c.rest = true) (hsign : NoSign c)
    (h : primary nested c = .ok e rest) : Sound e := by
  obtain ⟨loc, mid, hlocated, h⟩ := bind_eq_ok h
  obtain ⟨_, mid', hskip, hspan⟩ := bind_eq_ok hlocated
  rw [skip_of_isAtWord hword] at hskip
  cases hskip
  cases hspan
  rcases orElse_eq_ok h with h | h
  · obtain ⟨value, mid, hvalue, hpure⟩ := bind_eq_ok h
    cases hpure
    have hunsigned := literal_unsigned hword hsign hvalue
    cases value with
    | int n =>
      intro _
      have hn := hunsigned n rfl
      simp [Expr.isSpelled, Literal.isSpelled, hn.1, hn.2]
    | _ =>
      intro harithmetic
      cases harithmetic
  rcases orElse_eq_ok h with h | h
  · obtain ⟨name, mid, hname, hpure⟩ := bind_eq_ok h
    cases hpure
    exact fun _ => identifier_isName _ _ _ hname
  rcases orElse_eq_ok h with h | h
  · refine (yields_seq fun _ => yields_bind hnested fun a ha => ?_) _ _ _ h
    exact yields_seq fun _ => yields_pure (ha.moveTo _)
  · refine (yields_seq fun _ => yields_seq fun _ => yields_seq fun _ => ?_) _ _ _ h
    refine yields_seq fun _ => yields_pure ?_
    intro harithmetic
    cases harithmetic

theorem unaryFrom_sound (fuel : Nat) : Yields (unaryFrom nested fuel) Sound := by
  induction fuel with
  | zero => exact fun c e rest h => nomatch h
  | succ fuel ih =>
    intro c e rest h
    obtain ⟨loc, mid, hlocated, h⟩ := bind_eq_ok h
    obtain ⟨_, mid', hskip, hspan⟩ := bind_eq_ok hlocated
    cases hspan
    have hword := isAtWord_of_skip hskip
    split at h
    · next op after _ =>
      exact (yields_bind ih fun x hx => yields_pure (hx.unary _ op)) _ _ _ h
    · next hno =>
      have hsign : NoSign mid := by
        by_contra hsign
        obtain ⟨op, after, hok⟩ := unaryOp_of_sign hsign
        exact hno op after hok
      obtain ⟨x, mid', hprimary, hsuffixes⟩ := bind_eq_ok h
      exact suffixes_sound (primary_sound hnested hword hsign hprimary) _ _ _ hsuffixes

omit hnested in
theorem chainFrom_sound {operand : Parser Expr} (hoperand : Yields operand Sound) {level : List BinaryOp}
    {fuel : Nat} {lhs : Expr} (hlhs : Sound lhs) : Yields (chainFrom operand level fuel lhs) Sound := by
  induction fuel generalizing lhs with
  | zero =>
    intro c e rest h
    cases h
    exact hlhs
  | succ fuel ih =>
    intro c e rest h
    rw [chainFrom] at h
    split at h
    · next op after _ =>
      split at h
      · next rhs mid hrhs => exact ih (hlhs.binary (hoperand _ _ _ hrhs) _ op) mid e rest h
      · cases h
        exact hlhs
      · cases h
    · cases h
      exact hlhs

theorem binary_sound (levels : List (List BinaryOp)) : Yields (binary nested levels) Sound := by
  induction levels with
  | nil => exact fun c e rest h => unaryFrom_sound hnested _ c e rest h
  | cons level tighter ih =>
    exact yields_bind ih fun lhs hlhs c e rest h => chainFrom_sound ih hlhs c e rest h

theorem assignment_sound : Yields (assignment nested) Sound := by
  have hternary : Yields (ternary nested) Sound := by
    refine yields_bind (binary_sound hnested _) fun condition hcondition => ?_
    refine yields_seq fun more => yields_pure ?_
    cases more with
    | none => exact hcondition
    | some both => exact nofun
  refine yields_bind hternary fun target htarget c e rest h => ?_
  split at h
  · exact (yields_seq fun _ => yields_pure nofun) _ _ _ h
  · cases h
    exact htarget

end

theorem exprFrom_sound (fuel : Nat) : Yields (exprFrom fuel) Sound := by
  induction fuel with
  | zero => exact fun c e rest h => nomatch h
  | succ fuel ih => exact assignment_sound ih

theorem expression?_isSpelled {text : String} (h : expression? text = some e)
    (harithmetic : e.isArithmetic = true) : e.isSpelled = true := by
  unfold expression? at h
  split at h
  · next x rest hok =>
    cases h
    obtain ⟨x, mid, hexpr, hmore⟩ := bind_eq_ok hok
    obtain ⟨_, mid', -, hmore⟩ := bind_eq_ok hmore
    obtain ⟨_, mid'', -, hpure⟩ := bind_eq_ok hmore
    cases hpure
    exact exprFrom_sound _ _ _ _ hexpr harithmetic
  · cases h

end Reader

end ShaderCompose
