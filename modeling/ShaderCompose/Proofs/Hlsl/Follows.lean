import ShaderCompose.Proofs.Hlsl.Spelled

/-!
What may follow an expression in written text.
-/

namespace ShaderCompose.Hlsl

open List Reader
open Reader.Parser (Reads Misses)

/-! ## What follows an expression -/

/-- A word that cannot be taken for more of the expression. -/
inductive NextWord (strength place : Nat) : List Char → Prop
  | stop : NextWord strength place []
  | close {ch : Char} {text : List Char} : ch ∈ [')', ']', ',', '\x7d', ':'] → NextWord strength place (ch :: text)
  | question {text : List Char} : 2 ≤ strength → NextWord strength place ('?' :: text)
  | assign {op : Option BinaryOp} {text : List Char} : op ∈ none :: compoundOps.map some → 1 ≤ strength →
      2 ≤ place → NextWord strength place (assignText op ++ ' ' :: text)
  | operator {op : BinaryOp} {text : List Char} : binaryStrength op < strength →
      NextWord strength place (op.text.toList ++ ' ' :: text)

/-- A text that may follow what is written in a place. -/
inductive Follows (strength place : Nat) : List Char → Prop
  | intro {gap word : List Char} : Gap gap → NextWord strength place word → Follows strength place (gap ++ word)

def takes (op : BinaryOp) (text : List Char) : Bool :=
  match Text.after? op.text.toList text with
  | some rest => !extendsTo op rest.head?
  | none => false

theorem takes_operator (op other : BinaryOp) (text : List Char) :
    takes op (other.text.toList ++ ' ' :: text) = decide (op = other) := by
  cases op <;> cases other <;> rfl

theorem takes_assign (op : BinaryOp) {other : Option BinaryOp} (h : other ∈ none :: compoundOps.map some)
    (text : List Char) : takes op (assignText other ++ ' ' :: text) = false := by
  simp only [compoundOps, map_cons, map_nil, mem_cons, not_mem_nil, or_false] at h
  rcases h with rfl | rfl | rfl | rfl | rfl | rfl | rfl | rfl | rfl | rfl | rfl <;> cases op <;> rfl

namespace NextWord

variable {strength place : Nat} {word : List Char}

theorem mono (h : NextWord strength place word) {strength' place' : Nat} (hstrength : strength ≤ strength')
    (hplace : place ≤ place') : NextWord strength' place' word := by
  cases h with
  | stop => exact .stop
  | close hch => exact .close hch
  | question hq => exact .question (hq.trans hstrength)
  | assign hop hs hp => exact .assign hop (hs.trans hstrength) (hp.trans hplace)
  | operator hs => exact .operator (hs.trans_le hstrength)

theorem start (h : NextWord strength place word) : isAtWord word = true ∧ endsWord word = true ∧
    word.head? ≠ some '.' ∧ ∀ mark ∈ [".", "(", "[", "++", "--"], Text.after? mark.toList word = none := by
  cases h with
  | stop | question => exact ⟨rfl, rfl, by simp, by simp [Text.after?]⟩
  | close hch =>
    simp only [mem_cons, not_mem_nil, or_false] at hch
    rcases hch with rfl | rfl | rfl | rfl | rfl <;> exact ⟨rfl, rfl, by simp, by simp [Text.after?]⟩
  | assign hop =>
    simp only [compoundOps, map_cons, map_nil, mem_cons, not_mem_nil, or_false] at hop
    rcases hop with rfl | rfl | rfl | rfl | rfl | rfl | rfl | rfl | rfl | rfl | rfl <;>
      exact ⟨rfl, rfl, by simp [assignText, BinaryOp.text], by simp [Text.after?, assignText, BinaryOp.text]⟩
  | @operator op text =>
    cases op <;> exact ⟨rfl, rfl, by simp [BinaryOp.text], by simp [Text.after?, BinaryOp.text]⟩

theorem takes_eq_false (h : NextWord strength place word) {op : BinaryOp} (hop : strength ≤ binaryStrength op) :
    takes op word = false := by
  cases h with
  | stop => cases op <;> rfl
  | close hch =>
    simp only [mem_cons, not_mem_nil, or_false] at hch
    rcases hch with rfl | rfl | rfl | rfl | rfl <;> cases op <;> rfl
  | question => cases op <;> rfl
  | assign hassign => exact takes_assign op hassign _
  | @operator other text hlt =>
    rw [takes_operator]
    refine decide_eq_false ?_
    rintro rfl
    omega

theorem no_question (h : NextWord strength place word) (hstrength : strength ≤ 1) : Text.after? ['?'] word = none := by
  cases h with
  | stop => rfl
  | close hch =>
    simp only [mem_cons, not_mem_nil, or_false] at hch
    rcases hch with rfl | rfl | rfl | rfl | rfl <;> rfl
  | question hq => omega
  | assign hop =>
    simp only [compoundOps, map_cons, map_nil, mem_cons, not_mem_nil, or_false] at hop
    rcases hop with rfl | rfl | rfl | rfl | rfl | rfl | rfl | rfl | rfl | rfl | rfl <;> rfl
  | @operator op text => cases op <;> rfl

theorem no_assign (h : NextWord 0 place word) (op : BinaryOp) :
    Text.after? (op.text ++ "=").toList word = none ∧ Text.after? ['='] word = none := by
  cases h with
  | stop => cases op <;> exact ⟨rfl, rfl⟩
  | close hch =>
    simp only [mem_cons, not_mem_nil, or_false] at hch
    rcases hch with rfl | rfl | rfl | rfl | rfl <;> cases op <;> exact ⟨rfl, rfl⟩
  | question hq => omega
  | assign _ hs => omega
  | operator hs => omega

end NextWord

variable {strength place : Nat} {rest : List Char} {ops : List BinaryOp} {op : BinaryOp}

theorem Follows.mono (h : Follows strength place rest) {strength' place' : Nat}
    (hstrength : strength ≤ strength') (hplace : place ≤ place') :
    Follows strength' place' rest := by
  obtain ⟨hgap, hword⟩ := h
  exact ⟨hgap, hword.mono hstrength hplace⟩

theorem Follows.of_ternary (h : Follows 1 1 rest) : Follows 0 1 rest := by
  obtain ⟨hgap, hword⟩ := h
  refine ⟨hgap, ?_⟩
  cases hword with
  | stop => exact .stop
  | close hch => exact .close hch
  | question hq => omega
  | assign _ _ hp => omega
  | @operator op text hs => cases op <;> simp [binaryStrength] at hs

theorem Follows.word {word : List Char} (h : NextWord strength place word) :
    Follows strength place word :=
  show Follows strength place ([] ++ word) from .intro gap_nil h

theorem Follows.space {word : List Char} (h : NextWord strength place word) : Follows strength place (' ' :: word) :=
  show Follows strength place ([' '] ++ word) from .intro gap_space h

theorem Follows.endsWord (h : Follows strength place rest) : endsWord rest = true ∧ rest.head? ≠ some '.' := by
  obtain ⟨hgap, hword⟩ := h
  rename_i gap word
  cases gap with
  | nil => exact ⟨hword.start.2.1, hword.start.2.2.1⟩
  | cons ch gap =>
    obtain rfl := hgap ch (by simp)
    exact ⟨rfl, by simp⟩

theorem operatorOf_cons (op : BinaryOp) (ops : List BinaryOp) (c : Cursor) : operatorOf (op :: ops) c =
      if takes op c.rest = true then .ok op (c.drop op.text.toList.length) else operatorOf ops c := by
  rw [operatorOf, takes, String.length_toList]
  cases Text.after? op.text.toList c.rest with
  | none => rfl
  | some rest => cases hextends : extendsTo op rest.head? <;> simp [hextends]

theorem reads_operatorOf (h : op ∈ ops) (text : List Char) :
    Reads (operatorOf ops) op.text.toList (' ' :: text) (· = op) := by
  intro c hc
  induction ops with
  | nil => cases h
  | cons other ops ih =>
    rw [operatorOf_cons, hc, takes_operator]
    by_cases hsame : other = op
    · subst hsame
      exact ⟨other, c.drop other.text.toList.length, by simp, by rw [Cursor.rest_drop, hc, drop_left], rfl⟩
    · rw [decide_eq_false hsame]
      exact ih ((mem_cons.mp h).resolve_left fun heq => hsame heq.symm)

theorem misses_operatorOf {text : List Char} (h : ∀ op ∈ ops, takes op text = false) :
    Misses (operatorOf ops) text := by
  intro c hc
  induction ops with
  | nil => exact ⟨c, rfl⟩
  | cons op ops ih =>
    rw [operatorOf_cons, hc, h op (by simp)]
    exact ih fun other hother => h other (mem_cons_of_mem _ hother)

theorem reads_binaryOp (h : op ∈ ops) (text : List Char) :
    Reads (binaryOp ops) (' ' :: op.text.toList) (' ' :: text) (· = op) := by
  refine .cons (reads_skip gap_space ?_) fun _ _ => reads_operatorOf h text
  cases op <;> rfl

theorem misses_binaryOp (h : Follows strength place rest) (hops : ∀ op ∈ ops, strength ≤ binaryStrength op) :
    Misses (binaryOp ops) rest := by
  obtain ⟨hgap, hword⟩ := h
  refine .after (reads_skip hgap hword.start.1) fun _ _ => misses_operatorOf fun op hop => ?_
  exact hword.takes_eq_false (hops op hop)

theorem after?_assignText (hop : op ∈ compoundOps) {other : Option BinaryOp}
    (hother : other ∈ none :: compoundOps.map some) (hne : some op ≠ other) (text : List Char) :
    Text.after? (op.text ++ "=").toList (assignText other ++ ' ' :: text) = none := by
  simp only [compoundOps, map_cons, map_nil, mem_cons, not_mem_nil, or_false] at hop hother
  rcases hother with rfl | rfl | rfl | rfl | rfl | rfl | rfl | rfl | rfl | rfl | rfl <;>
    rcases hop with rfl | rfl | rfl | rfl | rfl | rfl | rfl | rfl | rfl | rfl <;>
      first | rfl | exact absurd rfl hne

theorem reads_assignOps (hops : ∀ op ∈ ops, op ∈ compoundOps) {op : Option BinaryOp}
    (hop : op ∈ none :: ops.map some) (text : List Char) :
    Reads (Parser.oneOf (ops.map (fun op => do Parser.tag (op.text ++ "=").toList; return some op) ++
      [do equals; return none])) (assignText op) (' ' :: text) (· = op) := by
  induction ops with
  | nil =>
    obtain rfl : op = none := by simpa using hop
    refine Reads.last (P := fun _ => True) ?_ fun _ _ => .pure rfl
    refine (Reads.tag ['='] (' ' :: text)).last fun _ _ => .notNext fun ch hch => ?_
    cases hch
    rfl
  | cons first ops ih =>
    rw [map_cons, cons_append, Parser.oneOf_cons _ (by simp)]
    by_cases hsame : some first = op
    · subst hsame
      exact .orElse ((Reads.tag (first.text ++ "=").toList (' ' :: text)).last fun _ _ => .pure rfl)
    · have hmore : op ∈ none :: ops.map some := by
        rw [map_cons] at hop
        simp only [mem_cons] at hop ⊢
        exact hop.imp_right fun h => h.resolve_left fun heq => hsame heq.symm
      have hall : op ∈ none :: compoundOps.map some := by
        refine mem_cons.mpr ((mem_cons.mp hmore).imp_right fun h => ?_)
        obtain ⟨o, ho, rfl⟩ := mem_map.mp h
        exact mem_map_of_mem (hops o (mem_cons_of_mem _ ho))
      refine .orElse_of_misses (.bind (.tag ?_)) (ih (fun o ho => hops o (mem_cons_of_mem _ ho)) hmore)
      exact after?_assignText (hops first (by simp)) hall hsame text

theorem reads_assignOp {op : Option BinaryOp} (h : op ∈ none :: compoundOps.map some) (text : List Char) :
    Reads assignOp (' ' :: assignText op) (' ' :: text) (· = op) := by
  have hword : NextWord 1 2 (assignText op ++ ' ' :: text) := .assign h le_rfl le_rfl
  exact .cons (reads_skip gap_space hword.start.1) fun _ _ => reads_assignOps (fun _ => id) h text

theorem misses_assignOp (h : Follows 0 place rest) : Misses assignOp rest := by
  obtain ⟨hgap, hword⟩ := h
  refine .after (reads_skip hgap hword.start.1) fun _ _ => .oneOf fun p hp => ?_
  rcases mem_append.mp hp with hp | hp
  · obtain ⟨op, -, rfl⟩ := mem_map.mp hp
    exact .bind (.tag (hword.no_assign op).1)
  · rw [mem_singleton.mp hp]
    exact .bind (.bind (.tag (hword.no_assign .add).2))

theorem misses_suffix (nested : Parser Expr) (h : Follows strength place rest) : Misses (suffix nested) rest := by
  obtain ⟨hgap, hword⟩ := h
  have hmark : ∀ mark ∈ [".", "(", "[", "++", "--"], Misses (symbol mark) _ := fun mark hmark =>
    misses_symbol hgap hword.start.1 (hword.start.2.2.2 mark hmark)
  refine .orElse (.bind (hmark _ (by simp))) (.orElse (.bind (hmark _ (by simp))) ?_)
  refine .orElse (.bind (hmark _ (by simp))) (.orElse (.bind (hmark _ (by simp))) ?_)
  exact .bind (hmark _ (by simp))

end ShaderCompose.Hlsl
