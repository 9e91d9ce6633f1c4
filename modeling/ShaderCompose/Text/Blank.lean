/-!
Blank characters, in the sense of the Unicode property `White_Space`, and the ways in which text is
cut at them.
-/

namespace ShaderCompose.Text

/-- The code points that are blank. -/
def blankRanges : List (Nat × Nat) :=
  [(0x9, 0xD), (0x20, 0x20), (0x85, 0x85), (0xA0, 0xA0), (0x1680, 0x1680), (0x2000, 0x200A),
   (0x2028, 0x2029), (0x202F, 0x202F), (0x205F, 0x205F), (0x3000, 0x3000)]

def inRanges (ranges : List (Nat × Nat)) (c : Char) : Bool :=
  ranges.any fun r => decide (r.1 ≤ c.toNat) && decide (c.toNat ≤ r.2)

/-- Gaps and runs of code points take turns. -/
def inRuns : (runs : List Nat) → (code : Nat) → Bool
  | gap :: run :: rest, code =>
    decide (gap ≤ code) && (decide (code < gap + run) || inRuns rest (code - (gap + run)))
  | _, _ => false

def isBlank (c : Char) : Bool := inRanges blankRanges c

def trimStart (cs : List Char) : List Char := cs.dropWhile isBlank

/-- Cut at the end. -/
def dropEndWhile (p : Char → Bool) (cs : List Char) : List Char :=
  (cs.reverse.dropWhile p).reverse

def trim (cs : List Char) : List Char := dropEndWhile isBlank (trimStart cs)

def trimQuotes (cs : List Char) : List Char :=
  dropEndWhile (· == '"') (cs.dropWhile (· == '"'))

/-- What stands before and after the first blank. -/
def splitAtBlank : List Char → Option (List Char × List Char)
  | [] => none
  | c :: cs =>
    if isBlank c then some ([], cs)
    else (splitAtBlank cs).map fun (word, rest) => (c :: word, rest)

/-- The first word and the trimmed rest. -/
def headWord (cs : List Char) : List Char × List Char :=
  match splitAtBlank cs with
  | none => (cs, [])
  | some (word, rest) => (word, trim rest)

/-- The rest of a text that starts like this. -/
def after? : (start : List Char) → List Char → Option (List Char)
  | [], cs => some cs
  | _ :: _, [] => none
  | s :: ss, c :: cs => if s = c then after? ss cs else none

def words (cs : List Char) : List (List Char) :=
  (cs.splitBy fun a b => isBlank a == isBlank b).filter fun run => run.all fun c => !isBlank c

@[simp]
theorem after?_self (start rest : List Char) : after? start (start ++ rest) = some rest := by
  induction start with
  | nil => rfl
  | cons s ss ih => simp [after?, ih]

theorem eq_append_of_after? {start cs rest : List Char} (h : after? start cs = some rest) : cs = start ++ rest := by
  induction start generalizing cs with
  | nil => simpa [after?] using h
  | cons s ss ih =>
    cases cs with
    | nil => simp [after?] at h
    | cons c cs =>
      by_cases e : s = c
      · simp only [after?, e, if_true] at h
        simp [e, ih h]
      · simp [after?, e] at h

end ShaderCompose.Text
