import ShaderCompose.Text.Blank

/-!
Lines of a text.
-/

namespace ShaderCompose.Text

/-- The pieces between the occurrences of a character. -/
def cutAt (sep : Char) : List Char → List (List Char)
  | [] => [[]]
  | c :: cs =>
    if c = sep then [] :: cutAt sep cs
    else
      match cutAt sep cs with
      | [] => [[c]]
      | piece :: rest => (c :: piece) :: rest

def pieces (cs : List Char) : List (List Char) := cutAt '\n' cs

def dropReturn (line : List Char) : List Char :=
  if line.getLast? = some '\r' then line.dropLast else line

/-- The lines; a last empty one is none. -/
def lines (cs : List Char) : List (List Char) :=
  let ps := pieces cs
  ps.dropLast.map dropReturn ++
    match ps.getLast? with
    | none | some [] => []
    | some line => [line]

theorem cutAt_ne_nil (sep : Char) (cs : List Char) : cutAt sep cs ≠ [] := by
  cases cs with
  | nil => simp [cutAt]
  | cons c cs =>
    rw [cutAt]
    split
    · simp
    · split <;> simp

theorem not_mem_of_mem_cutAt {sep : Char} {cs piece : List Char} (h : piece ∈ cutAt sep cs) : sep ∉ piece := by
  induction cs generalizing piece with
  | nil => simp_all [cutAt]
  | cons c cs ih =>
    rw [cutAt] at h
    split at h
    · rcases List.mem_cons.1 h with rfl | h
      · simp
      · exact ih h
    · rename_i hc
      split at h
      · simp_all; grind
      · rename_i first rest hp
        rcases List.mem_cons.1 h with rfl | h
        · have : sep ∉ first := ih (by simp [hp])
          simp_all; grind
        · exact ih (by simp [hp, h])

theorem not_mem_of_mem_pieces {cs line : List Char} (h : line ∈ pieces cs) : '\n' ∉ line := not_mem_of_mem_cutAt h

end ShaderCompose.Text
