import CodonGrammar.Text.Split

/-!
# Splitting text that is put together

A text that is put together from parts with a separator between them is split into these parts
again, as long as no part holds the separator (`splitAtEach_intercalate`). To leave characters out
of a text is the same as to leave them out of its parts (`splitAtEach_filter`).
-/

namespace CodonGrammar.Text

variable {separator : Char}

theorem splitAtEach_append {front : List Char} (hFree : separator ∉ front) (back : List Char) :
    splitAtEach separator (front ++ separator :: back) = front :: splitAtEach separator back := by
  induction front with
  | nil => simp [splitAtEach]
  | cons c front ih =>
    have hDiffers : c ≠ separator := (List.ne_of_not_mem_cons hFree).symm
    rw [List.cons_append, splitAtEach, if_neg hDiffers, ih (List.not_mem_of_not_mem_cons hFree)]

theorem splitAtEach_of_not_mem {text : List Char} (hFree : separator ∉ text) :
    splitAtEach separator text = [text] := by
  induction text with
  | nil => rfl
  | cons c text ih =>
    have hDiffers : c ≠ separator := (List.ne_of_not_mem_cons hFree).symm
    rw [splitAtEach, if_neg hDiffers, ih (List.not_mem_of_not_mem_cons hFree)]

theorem splitAtEach_intercalate {parts : List (List Char)} (hParts : parts ≠ [])
    (hFree : ∀ part ∈ parts, separator ∉ part) :
    splitAtEach separator ([separator].intercalate parts) = parts := by
  induction parts with
  | nil => exact absurd rfl hParts
  | cons part rest ih =>
    obtain ⟨hPart, hRest⟩ := List.forall_mem_cons.mp hFree
    cases rest with
    | nil => rw [List.intercalate_singleton, splitAtEach_of_not_mem hPart]
    | cons next others =>
      rw [List.intercalate_cons_cons, List.append_assoc, List.singleton_append,
        splitAtEach_append hPart, ih (List.cons_ne_nil next others) hRest]

/-- The characters of a text that is put together are those of its parts, and of what is between. -/
theorem mem_intercalate {gap : List Char} {parts : List (List Char)} {c : Char}
    (hMem : c ∈ gap.intercalate parts) : c ∈ gap ∨ ∃ part ∈ parts, c ∈ part := by
  induction parts with
  | nil => cases hMem
  | cons part rest ih =>
    cases rest with
    | nil =>
      rw [List.intercalate_singleton] at hMem
      exact .inr ⟨part, List.mem_cons_self, hMem⟩
    | cons next others =>
      rw [List.intercalate_cons_cons, List.append_assoc, List.mem_append, List.mem_append] at hMem
      rcases hMem with hPart | hGap | hRest
      · exact .inr ⟨part, List.mem_cons_self, hPart⟩
      · exact .inl hGap
      · obtain hGap | ⟨other, hOther, hMem⟩ := ih hRest
        · exact .inl hGap
        · exact .inr ⟨other, List.mem_cons_of_mem part hOther, hMem⟩

theorem mem_intercalate_of_mem {gap part : List Char} {parts : List (List Char)}
    (hPart : part ∈ parts) {c : Char} (hMem : c ∈ part) : c ∈ gap.intercalate parts := by
  induction parts with
  | nil => cases hPart
  | cons first rest ih =>
    cases rest with
    | nil =>
      rw [List.intercalate_singleton, ← List.mem_singleton.mp hPart]
      exact hMem
    | cons next others =>
      rw [List.intercalate_cons_cons, List.append_assoc]
      rcases List.mem_cons.mp hPart with rfl | hRest
      · exact List.mem_append_left _ hMem
      · exact List.mem_append_right _ (List.mem_append_right _ (ih hRest))

theorem mem_of_mem_splitAtEach {text part : List Char} (hPart : part ∈ splitAtEach separator text)
    {c : Char} (hMem : c ∈ part) : c ∈ text := by
  rw [← intercalate_splitAtEach separator text]
  exact mem_intercalate_of_mem hPart hMem

theorem splitAtEach_filter {keep : Char → Bool} (hKept : keep separator = true)
    (text : List Char) :
    splitAtEach separator (text.filter keep)
      = (splitAtEach separator text).map (List.filter keep) := by
  induction text with
  | nil => rfl
  | cons c rest ih =>
    by_cases hSeparator : c = separator
    · subst hSeparator
      rw [List.filter_cons_of_pos hKept, splitAtEach, if_pos rfl, splitAtEach, if_pos rfl, ih]
      rfl
    · obtain ⟨first, others, hSplit, hWhole⟩ := splitAtEach_cons rest hSeparator
      rw [hSplit] at ih
      rw [hWhole, List.map_cons]
      cases hKeep : keep c with
      | true =>
        rw [List.filter_cons_of_pos hKeep, List.filter_cons_of_pos hKeep, splitAtEach,
          if_neg hSeparator, ih]
        rfl
      | false =>
        rw [List.filter_cons_of_neg (by simp [hKeep]), List.filter_cons_of_neg (by simp [hKeep]),
          ih]
        rfl

end CodonGrammar.Text
