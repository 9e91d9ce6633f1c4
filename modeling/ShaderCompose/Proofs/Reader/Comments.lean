import Mathlib.Algebra.GroupWithZero.Nat
import ShaderCompose.Proofs.Reader.Arithmetic

/-!
Block comments.
-/

namespace ShaderCompose.Reader

open List

def Outcome.left? {α : Type} : Outcome α → Option (List Char)
  | .ok _ c => some c.rest
  | _ => none

def comment (body : List Char) : List Char := '/' :: '*' :: (body ++ ['*', '/'])

def bytes (text : List Char) : Nat := (text.map Char.utf8Size).sum

theorem bytes_cons (ch : Char) (text : List Char) : bytes (ch :: text) = ch.utf8Size + bytes text := sum_cons

theorem length_le_bytes (text : List Char) : text.length ≤ bytes text := by
  induction text with
  | nil => exact Nat.le_refl 0
  | cons ch text ih =>
    have hpos := ch.utf8Size_pos
    rw [bytes_cons, length_cons]
    omega

variable {text : List Char}

theorem bytes_eq_length_iff : bytes text = text.length ↔ ∀ ch ∈ text, ch.utf8Size = 1 := by
  induction text with
  | nil => simp [bytes]
  | cons ch text ih =>
    have hpos := ch.utf8Size_pos
    have hle := length_le_bytes text
    rw [forall_mem_cons, ← ih, bytes_cons, length_cons]
    omega

theorem bytesToClose?_append (h : ¬['*', '/'] <:+: text) (rest : List Char) :
    bytesToClose? (text ++ '*' :: '/' :: rest) = some (bytes text + 2) := by
  induction text with
  | nil => rfl
  | cons ch text ih =>
    have hnext := ih fun hclosed => h (hclosed.trans (suffix_cons ch text).isInfix)
    have hopen : ∀ more, ch = '*' → text ++ '*' :: '/' :: rest = '/' :: more → False := by
      rintro more rfl heq
      cases text with
      | nil => simp at heq
      | cons ch' text => exact h ⟨[], text, by rw [(cons.inj heq).1]; rfl⟩
    rw [cons_append, bytesToClose?.eq_2 _ _ hopen, hnext, bytes_cons, Option.map_some]
    exact congrArg some (by omega)

theorem left?_skipFrom {fuel fuel' : Nat} {c d : Cursor} (h : c.rest = d.rest) (hfuel : c.rest.length < fuel)
    (hfuel' : c.rest.length < fuel') : (skipFrom fuel c).left? = (skipFrom fuel' d).left? := by
  induction fuel generalizing fuel' c d with
  | zero => exact absurd hfuel (Nat.not_lt_zero _)
  | succ fuel ih =>
    obtain ⟨fuel', rfl⟩ := Nat.exists_eq_succ_of_ne_zero (Nat.ne_zero_of_lt hfuel')
    rw [skipFrom, skipFrom, ← h]
    have hlength : (c.drop (c.rest.takeWhile isSpace).length).rest.length ≤ c.rest.length := by
      rw [Cursor.rest_drop, length_drop]
      omega
    have hsame : (c.drop (c.rest.takeWhile isSpace).length).rest = (d.drop (c.rest.takeWhile isSpace).length).rest := by
      rw [Cursor.rest_drop, Cursor.rest_drop, h]
    generalize c.drop (c.rest.takeWhile isSpace).length = c at hlength hsame ⊢
    generalize d.drop _ = d at hsame ⊢
    have hround : ∀ {n : Nat}, 0 < n → 0 < c.rest.length →
        (skipFrom fuel (c.drop n)).left? = (skipFrom fuel' (d.drop n)).left? := by
      intro n hn hpos
      have hless : (c.drop n).rest.length < c.rest.length := by
        rw [Cursor.rest_drop, length_drop]
        omega
      exact ih (by rw [Cursor.rest_drop, Cursor.rest_drop, hsame]) (by omega) (by omega)
    rw [← hsame]
    split
    · next htext => exact hround (by simp [htext]) (by simp [htext])
    · next htext => exact hround (by simp [htext]) (by simp [htext])
    · next htext =>
      split
      · exact hround (by simp [htext]) (by simp [htext])
      · next n hn =>
        split
        · exact hround (pos_of_bytesToClose? hn) (by simp [htext])
        · rfl
    · exact congrArg some hsame

variable {c d : Cursor}

theorem left?_skip_congr (h : c.rest = d.rest) : (skip c).left? = (skip d).left? :=
  left?_skipFrom h (Nat.lt_succ_self _) (by rw [h]; exact Nat.lt_succ_self _)

theorem left?_skip_block {n : Nat} (hc : c.rest = '/' :: '*' :: text)
    (hn : bytesToClose? c.rest = some n) :
    (skip c).left? = if n ≤ c.rest.length then (skip (c.drop n)).left? else none := by
  have hspace : c.rest.takeWhile isSpace = [] := by
    rw [hc]
    rfl
  have hless : (c.drop n).rest.length < c.rest.length := by
    have hpos := pos_of_bytesToClose? hn
    rw [Cursor.rest_drop, length_drop, hc, length_cons]
    omega
  rw [skip, skipFrom]
  simp only [hspace, length_nil, Cursor.drop]
  split <;> rename_i htext
  · simp [hc] at htext
  · simp [hc] at htext
  · rw [hn]
    dsimp only
    split
    · exact left?_skipFrom rfl hless (Nat.lt_succ_self _)
    · rfl
  · exact absurd hc (htext _)

variable {body rest : List Char}

theorem left?_skip_slash (hc : c.rest = comment ('/' :: body) ++ rest)
    (hd : d.rest = body ++ ['*', '/'] ++ rest) : (skip c).left? = (skip d).left? := by
  have hn : bytesToClose? c.rest = some 3 := by
    rw [hc]
    rfl
  have htext : c.rest = '/' :: '*' :: '/' :: d.rest := by
    rw [hc, hd]
    rfl
  rw [left?_skip_block htext hn, if_pos (by simp [htext])]
  refine left?_skip_congr ?_
  rw [Cursor.rest_drop, htext]
  rfl

theorem left?_skip_comment (hopen : ¬['*', '/'] <:+: body) (hslash : body.head? ≠ some '/')
    (hc : c.rest = comment body ++ rest) (hd : d.rest = rest.drop (bytes body - body.length)) :
    (skip c).left? = if bytes body - body.length ≤ rest.length then (skip d).left? else none := by
  have hopen' : ¬['*', '/'] <:+: '/' :: '*' :: body := by
    simp only [infix_cons_iff, cons_prefix_cons, not_or]
    refine ⟨fun hfirst => absurd hfirst.1 (by decide), fun hsecond => hslash ?_, hopen⟩
    obtain ⟨more, rfl⟩ := hsecond.2
    rfl
  have htext : c.rest = ('/' :: '*' :: body) ++ '*' :: '/' :: rest := by
    rw [hc]
    simp [comment]
  have hn : bytesToClose? c.rest = some (bytes body + 4) := by
    rw [htext, bytesToClose?_append hopen', bytes_cons, bytes_cons]
    exact congrArg some (by rw [show ('/').utf8Size = 1 from rfl, show ('*').utf8Size = 1 from rfl]; omega)
  have hle := length_le_bytes body
  have hlength : c.rest.length = body.length + rest.length + 4 := by
    rw [htext]
    simp
    omega
  rw [left?_skip_block htext hn]
  by_cases hfits : bytes body - body.length ≤ rest.length
  · rw [if_pos (by omega), if_pos hfits]
    refine left?_skip_congr ?_
    have hmany : bytes body + 4 = (comment body).length + (bytes body - body.length) := by
      simp only [comment, length_cons, length_append, length_nil]
      omega
    rw [Cursor.rest_drop, hc, hd, hmany, drop_length_add_append]
  · rw [if_neg (by omega), if_neg hfits]

/-- A comment that does not begin with a slash is transparent exactly if its body is ASCII. -/
theorem comment_transparent (hopen : ¬['*', '/'] <:+: body) :
    (∀ more, body = '/' :: more → ∀ (c d : Cursor) rest, c.rest = comment body ++ rest →
      d.rest = more ++ ['*', '/'] ++ rest → (skip c).left? = (skip d).left?) ∧
    (body.head? ≠ some '/' →
      ((∀ c d : Cursor, c.rest = comment body ++ d.rest → (skip c).left? = (skip d).left?) ↔
        ∀ ch ∈ body, ch.utf8Size = 1)) := by
  refine ⟨fun more hbody c d rest hc hd => left?_skip_slash (by rw [hc, hbody]) hd, fun hslash => ⟨fun h => ?_, ?_⟩⟩
  · by_contra hascii
    have hmore : bytes body - body.length ≠ 0 := fun heq =>
      hascii (bytes_eq_length_iff.mp (Nat.le_antisymm (Nat.sub_eq_zero_iff_le.mp heq) (length_le_bytes body)))
    obtain ⟨k, hk⟩ := Nat.exists_eq_succ_of_ne_zero hmore
    -- a word of just the characters that the comment takes too many
    have hword := h { (default : Cursor) with rest := comment body ++ replicate (k + 1) 'x' }
      { (default : Cursor) with rest := replicate (k + 1) 'x' } rfl
    rw [left?_skip_comment hopen hslash rfl (d := { (default : Cursor) with rest := [] }) (by simp [hk]),
      if_pos (by simp [hk])] at hword
    cases hword
  · intro hascii c d hc
    have hbytes := bytes_eq_length_iff.mpr hascii
    rw [left?_skip_comment hopen hslash hc (d := d) (by rw [hbytes, Nat.sub_self, drop_zero]),
      if_pos (by rw [hbytes, Nat.sub_self]; exact Nat.zero_le _)]

theorem stars_transparent : ¬['*', '/'] <:+: ['*', ' ', '/', '*'] ∧
    (skip (.start "" ['/', '*', '*', ' ', '/', '*', '*', '/', 'x'])).left? = some ['x'] := by
  have hopen : ¬['*', '/'] <:+: ['*', ' ', '/', '*'] := by decide
  have hsame := ((comment_transparent hopen).2 (by decide)).mpr (by simp [Char.utf8Size])
  exact ⟨hopen, (hsame _ (.start "" ['x']) rfl).trans rfl⟩

theorem accent_takes_letter : (skip (.start "" (comment ['é'] ++ ['a', 'b']))).left? = some ['b'] ∧
    (skip (.start "" (comment ['/'] ++ ['x']))).left? = some ['*', '/', 'x'] ∧
    (skip (.start "" ['a', 'b'])).left? = some ['a', 'b'] ∧ (skip (.start "" ['x'])).left? = some ['x'] :=
  ⟨rfl, rfl, rfl, rfl⟩

end ShaderCompose.Reader
