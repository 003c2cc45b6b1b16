/-!
# Splitting text

A text is the list of its parts with a separator between them: the parts hold no separator, and put
together they are the text again (`intercalate_splitAtEach`). The empty text has one empty part.
-/

namespace CodonGrammar.Text

/-- The parts of a text between the places of a separator. -/
def splitAtEach (separator : Char) : List Char → List (List Char)
  | [] => [[]]
  | c :: rest =>
    if c = separator then [] :: splitAtEach separator rest
    else
      match splitAtEach separator rest with
      | [] => [[c]]
      | first :: others => (c :: first) :: others

theorem splitAtEach_ne_nil (separator : Char) (text : List Char) :
    splitAtEach separator text ≠ [] := by
  cases text with
  | nil => simp [splitAtEach]
  | cons c rest =>
    simp only [splitAtEach]
    split
    · simp
    · split <;> simp

/-- A character that is no separator goes to the front of the first part. -/
theorem splitAtEach_cons {separator c : Char} (rest : List Char) (h : c ≠ separator) :
    ∃ first others, splitAtEach separator rest = first :: others ∧
      splitAtEach separator (c :: rest) = (c :: first) :: others := by
  cases hParts : splitAtEach separator rest with
  | nil => exact absurd hParts (splitAtEach_ne_nil separator rest)
  | cons first others => exact ⟨first, others, rfl, by simp [splitAtEach, h, hParts]⟩

theorem intercalate_splitAtEach (separator : Char) (text : List Char) :
    [separator].intercalate (splitAtEach separator text) = text := by
  induction text with
  | nil => simp [splitAtEach, List.intercalate]
  | cons c rest ih =>
    by_cases h : c = separator
    · subst h
      cases hParts : splitAtEach c rest with
      | nil => exact absurd hParts (splitAtEach_ne_nil c rest)
      | cons first others =>
        rw [hParts] at ih
        simp_all [splitAtEach, List.intercalate]
    · obtain ⟨first, others, hParts, hWhole⟩ := splitAtEach_cons rest h
      rw [hWhole]
      rw [hParts] at ih
      cases others <;> simp_all [List.intercalate]

theorem not_mem_of_mem_splitAtEach {separator : Char} {text part : List Char}
    (h : part ∈ splitAtEach separator text) : separator ∉ part := by
  induction text generalizing part with
  | nil => simp_all [splitAtEach]
  | cons c rest ih =>
    by_cases hc : c = separator
    · simp only [splitAtEach, hc, if_true, List.mem_cons] at h
      rcases h with rfl | h
      · simp
      · exact ih h
    · obtain ⟨first, others, hParts, hWhole⟩ := splitAtEach_cons rest hc
      rw [hWhole, List.mem_cons] at h
      rw [hParts] at ih
      rcases h with rfl | h
      · simp [Ne.symm hc, ih List.mem_cons_self]
      · exact ih (List.mem_cons_of_mem _ h)

end CodonGrammar.Text
