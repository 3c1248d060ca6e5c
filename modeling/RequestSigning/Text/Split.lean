/-!
# Splitting at a separator

`splitOn sep cs` cuts a list of characters at every `sep`.  A list with `n` separators has
`n + 1` parts, empty ones included, and `join` puts them together again.
-/

namespace RequestSigning.Text

/-- the parts between the separators -/
def splitOn (sep : Char) : List Char → List (List Char)
  | [] => [[]]
  | c :: cs => if c = sep then [] :: splitOn sep cs else (splitOn sep cs).modifyHead (c :: ·)

/-- the parts with one separator between neighbours -/
def join (sep : Char) : List (List Char) → List Char
  | [] => []
  | [part] => part
  | part :: parts => part ++ sep :: join sep parts

theorem splitOn_nil (sep : Char) : splitOn sep [] = [[]] := rfl
theorem splitOn_cons_self (sep : Char) (cs : List Char) :
    splitOn sep (sep :: cs) = [] :: splitOn sep cs := by simp [splitOn]
theorem splitOn_cons_ne (sep c : Char) (cs : List Char) (h : c ≠ sep) :
    splitOn sep (c :: cs) = (splitOn sep cs).modifyHead (c :: ·) := by simp [splitOn, h]

theorem splitOn_ne_nil (sep : Char) (cs : List Char) : splitOn sep cs ≠ [] := by
  induction cs with
  | nil => simp [splitOn]
  | cons c cs ih =>
    by_cases h : c = sep
    · simp [splitOn, h]
    · rw [splitOn_cons_ne sep c cs h]
      cases hp : splitOn sep cs with
      | nil => exact absurd hp ih
      | cons part parts => simp

theorem join_splitOn (sep : Char) (cs : List Char) : join sep (splitOn sep cs) = cs := by
  induction cs with
  | nil => rfl
  | cons c cs ih =>
    by_cases h : c = sep
    · subst h
      rw [splitOn_cons_self]
      cases hp : splitOn c cs with
      | nil => exact absurd hp (splitOn_ne_nil c cs)
      | cons part parts => rw [hp] at ih; simp [join, ih]
    · rw [splitOn_cons_ne sep c cs h]
      cases hp : splitOn sep cs with
      | nil => exact absurd hp (splitOn_ne_nil sep cs)
      | cons part parts =>
        rw [hp] at ih
        cases parts with
        | nil => simpa [join] using ih
        | cons p ps => simpa [join] using ih

end RequestSigning.Text
