import CodonGrammar.Proofs.Bnf.Partition
import Mathlib.Data.List.Basic

/-!
# Terminals alone in a source

The written form of a terminal, taken as a whole source, is one word with the text of the terminal
and nothing else. It has quotes only if it must: a text is written as it is exactly when it is
already such a word by itself (`tokenize_escape`). The writer looks at all characters of a text in
the same way, while the reader goes from one to the next with names, bare runs and the assignment
mark in mind. So both sides are compared with what the text is like: it is not empty, and a bare run
can hold all of it (`IsBare`).
-/

namespace CodonGrammar.Bnf

open Text (apostrophe isBlank isPrintable)

/-! ## Texts that are written as they are -/

theorem needsQuotes_of_isBare {text : List Char} (hNonempty : text ≠ []) (h : IsBare text) :
    needsQuotes text = false := by
  have hForces : text.any forcesQuotes = false :=
    List.any_eq_false.mpr fun c hMem => Bool.eq_false_iff.mp (h.2 c hMem).1
  rw [needsQuotes, h.1, hForces, List.isEmpty_eq_false_iff.mpr hNonempty]
  rfl

/-- No place inside a bare run ends it. -/
theorem IsBare.goesOn {c : Char} {rest : List Char} (h : IsBare (c :: rest)) :
    endsBareRun (c :: rest) = false := by
  obtain ⟨hAssign, hChars⟩ := h
  obtain ⟨hForces, hQuote⟩ := hChars c List.mem_cons_self
  rw [holdsAssign, Bool.or_eq_false_iff] at hAssign
  simp only [forcesQuotes, Bool.or_eq_false_iff] at hForces
  simp [endsBareRun, hForces, hQuote, hAssign.1]

theorem IsBare.eq_nil_of_ends {front after : List Char} (h : IsBare (front ++ after))
    (hEnds : endsBareRun after = true) : after = [] := by
  cases after with
  | nil => rfl
  | cons c rest =>
    rw [(h.append_right front).goesOn] at hEnds
    cases hEnds

theorem IsBare.eq_nil_of_blank {blanks after : List Char} (h : IsBare (blanks ++ after))
    (hBlanks : ∀ c ∈ blanks, isBlank c = true) : blanks = [] := by
  rw [List.eq_nil_iff_forall_not_mem]
  intro c hMem
  have hVisible := h.not_isBlank c (List.mem_append_left _ hMem)
  rw [hBlanks c hMem] at hVisible
  cases hVisible

/-- A word that is not quoted, and does not stand between angle brackets, is a bare run. -/
theorem Lexeme.Stands.isBare {kind : WordKind} {text : Terminal} {before after : List Char}
    (h : Stands before (.word kind text) after) (hKind : kind ≠ .quoted)
    (hBefore : before.getLast? ≠ some '<') :
    IsBare text.text.toList ∧ endsBareRun after = true := by
  cases h with
  | quoted => exact absurd rfl hKind
  | bracketedName hLt => exact absurd hLt hBefore
  | name hParts hEnds =>
    have hName := IsBare.append_left hParts (⟨rfl, by simp⟩ : IsBare [])
    rw [List.append_nil] at hName
    exact ⟨hName, hEnds⟩
  | bare hBare hEnds => exact ⟨hBare, hEnds⟩

theorem IsPlain.not_infix_mark {text : List Char} (h : IsPlain text) (mark : Mark) :
    ¬ mark.text <:+: text := by
  intro hInfix
  cases mark with
  | assign => exact h.2 hInfix
  | _ => cases (h.1 _ (hInfix.subset List.mem_cons_self)).2.1

theorem Lexeme.written_word {kind : WordKind} (hKind : kind ≠ .quoted) (text : Terminal) :
    (word kind text).written = text.text.toList := by
  cases kind with
  | quoted => exact absurd rfl hKind
  | name => rfl
  | bare => rfl

/-! ## Sources of one word -/

theorem Scans.eq_of_nil {before rest : List Char} {outcome : Except Error TokenList}
    (h : Scans before rest outcome) (hRest : rest = []) : outcome = .ok ⟨[], before.length⟩ := by
  cases h with
  | finish =>
    rw [hRest, List.append_nil]
  | invalid => simp at hRest
  | unclosed => simp at hRest
  | lexeme _ hSome _ _ => exact absurd (List.append_eq_nil_iff.mp
      (List.append_eq_nil_iff.mp hRest).2).1 hSome

/-- A text that a bare run can hold is scanned as one word. -/
theorem Scans.of_isBare {text : Terminal} {rest : List Char} {outcome : Except Error TokenList}
    (h : Scans [] rest outcome) (hRest : rest = text.text.toList) (hNonempty : rest ≠ [])
    (hBare : IsBare rest) :
    ∃ kind, kind ≠ .quoted ∧ outcome = .ok ⟨[⟨.word kind text, 0⟩], rest.length⟩ := by
  cases h with
  | finish hBlanks =>
    have hAlone : IsBare (rest ++ []) := by rwa [List.append_nil]
    exact absurd (hAlone.eq_nil_of_blank hBlanks) hNonempty
  | @invalid _ blanks c after _ _ hPrintable =>
    have hPlain := (hBare.isPlain.1 c (by simp)).2.2
    rw [hPrintable] at hPlain
    cases hPlain
  | unclosed => exact absurd rfl (hBare.2 apostrophe (by simp)).2
  | @lexeme _ blanks after lexeme others hBlanks hSome hStands hOthers =>
    obtain rfl := hBare.eq_nil_of_blank hBlanks
    rw [List.nil_append] at hBare hRest hOthers ⊢
    cases lexeme with
    | mark mark =>
      refine absurd ?_ (hBare.isPlain.not_infix_mark mark)
      exact ⟨[], after, by simp [Lexeme.written, Lexeme.value]⟩
    | finish => exact absurd rfl hSome
    | word kind word =>
      have hKind : kind ≠ .quoted := by
        rintro rfl
        exact (hBare.2 apostrophe (by simp [Lexeme.written])).2 rfl
      have hEnds := (hStands.isBare hKind (by simp)).2
      obtain rfl := hBare.eq_nil_of_ends hEnds
      rw [List.append_nil, Lexeme.written_word hKind] at hRest
      obtain rfl : word = text := Terminal.ext (String.toList_inj.mp hRest)
      refine ⟨kind, hKind, ?_⟩
      rw [hOthers.eq_of_nil rfl]
      simp [Except.map, TokenList.prepend]

/-- A text between apostrophes is scanned as one word. -/
theorem Scans.of_quoted {text : Terminal} {rest : List Char} {outcome : Except Error TokenList}
    (h : Scans [] rest outcome) (hRest : rest = apostrophe :: text.text.toList ++ [apostrophe]) :
    outcome = .ok ⟨[⟨.word .quoted text, 0⟩], rest.length⟩ := by
  have hNoBlanks : ∀ {blanks after : List Char}, (∀ c ∈ blanks, isBlank c = true) →
      blanks ++ after = apostrophe :: text.text.toList ++ [apostrophe] → blanks = [] := by
    intro blanks after hBlanks hSame
    cases blanks with
    | nil => rfl
    | cons c blanks =>
      obtain ⟨rfl, -⟩ := List.cons.inj hSame
      exact absurd (hBlanks apostrophe List.mem_cons_self) (by decide)
  cases h with
  | finish hBlanks =>
    rw [← List.append_nil rest] at hRest
    rw [hNoBlanks hBlanks hRest] at hRest
    cases hRest
  | invalid after hBlanks _ hPrintable =>
    obtain rfl := hNoBlanks hBlanks hRest
    obtain ⟨rfl, -⟩ := List.cons.inj hRest
    exact absurd hPrintable (by decide)
  | unclosed hBlanks hFree =>
    obtain rfl := hNoBlanks hBlanks hRest
    obtain ⟨-, rfl⟩ := List.cons.inj hRest
    exact absurd (List.mem_append_right _ List.mem_cons_self) hFree
  | @lexeme _ blanks after lexeme others hBlanks hSome hStands hOthers =>
    obtain rfl := hNoBlanks hBlanks hRest
    rw [List.nil_append] at hRest hOthers ⊢
    cases lexeme with
    | mark mark =>
      cases mark with
      | _ => cases (List.cons.inj hRest).1
    | finish => exact absurd rfl hSome
    | word kind word =>
      obtain rfl : kind = .quoted := by
        by_contra hKind
        rw [Lexeme.written_word hKind] at hRest hSome
        obtain ⟨c, chars, hChars⟩ := List.exists_cons_of_ne_nil hSome
        rw [hChars] at hRest
        obtain ⟨rfl, -⟩ := List.cons.inj hRest
        exact word.quoteFree (hChars ▸ List.mem_cons_self)
      have hWords : text.text.toList ++ apostrophe :: []
          = word.text.toList ++ apostrophe :: after := by
        simpa [Lexeme.written, Lexeme.value] using hRest.symm
      obtain ⟨hWord, -, rfl⟩ :=
        (List.append_cons_inj_of_notMem text.quoteFree List.not_mem_nil).mp hWords
      obtain rfl : text = word := Terminal.ext (String.toList_inj.mp hWord)
      rw [hOthers.eq_of_nil rfl]
      simp [Except.map, TokenList.prepend]

theorem tokenize_written (text : Terminal) :
    ∃ kind, tokenize text.written = .ok ⟨[⟨.word kind text, 0⟩], text.written.length⟩ := by
  have hScans := scans_readAll [] text.written.toList
  rw [← String.length_toList]
  cases hQuotes : needsQuotes text.text.toList with
  | true =>
    have hWritten : text.written.toList = apostrophe :: text.text.toList ++ [apostrophe] := by
      simp [Terminal.written, hQuotes]
    exact ⟨.quoted, hScans.of_quoted hWritten⟩
  | false =>
    have hWritten : text.written = text.text := by simp [Terminal.written, hQuotes]
    obtain ⟨hNonempty, hBare⟩ := isBare_of_needsQuotes hQuotes
    rw [hWritten] at hScans ⊢
    obtain ⟨kind, -, hTokens⟩ := hScans.of_isBare rfl hNonempty hBare
    exact ⟨kind, hTokens⟩

theorem Scans.isBare_of_word {rest : List Char} {outcome : Except Error TokenList}
    (h : Scans [] rest outcome) {kind : WordKind} {text : Terminal} {position finish : Nat}
    (hKind : kind ≠ .quoted) (hOutcome : outcome = .ok ⟨[⟨.word kind text, position⟩], finish⟩) :
    text.text.toList ≠ [] ∧ IsBare text.text.toList := by
  cases h with
  | finish => cases hOutcome
  | invalid => cases hOutcome
  | unclosed => cases hOutcome
  | @lexeme _ blanks after lexeme others hBlanks hSome hStands _ =>
    cases others with
    | error error => cases hOutcome
    | ok list =>
      have hTokens := congrArg TokenList.tokens (Except.ok.inj hOutcome)
      obtain rfl : lexeme = .word kind text := congrArg Token.lexeme (List.cons.inj hTokens).1
      rw [Lexeme.written_word hKind] at hSome
      refine ⟨hSome, (hStands.isBare hKind fun hLt => ?_).1⟩
      -- Only blanks stand before the word.
      exact absurd (hBlanks '<' (List.mem_of_getLast? hLt)) (by decide)

theorem written_eq_text_iff (text : Terminal) :
    text.written = text.text ↔ needsQuotes text.text.toList = false := by
  cases hQuotes : needsQuotes text.text.toList with
  | false => simp [Terminal.written, hQuotes]
  | true =>
    refine iff_of_false (fun hSame => ?_) (by decide)
    have hLength := congrArg String.length hSame
    simp only [Terminal.written, hQuotes, if_true, String.length_ofList, List.length_append,
      List.length_cons, String.length_toList] at hLength
    omega

/-- A text is written as it is exactly when it is one word by itself, and not a quoted one. -/
theorem written_eq_text_iff_tokenize (text : Terminal) :
    text.written = text.text ↔ ∃ kind position finish, kind ≠ .quoted ∧
      tokenize text.text = .ok ⟨[⟨.word kind text, position⟩], finish⟩ := by
  have hScans := scans_readAll [] text.text.toList
  rw [written_eq_text_iff]
  constructor
  · intro hQuotes
    obtain ⟨hNonempty, hBare⟩ := isBare_of_needsQuotes hQuotes
    obtain ⟨kind, hKind, hTokens⟩ := hScans.of_isBare rfl hNonempty hBare
    exact ⟨kind, 0, text.text.toList.length, hKind, hTokens⟩
  · rintro ⟨kind, position, finish, hKind, hTokens⟩
    obtain ⟨hNonempty, hBare⟩ := hScans.isBare_of_word hKind hTokens
    exact needsQuotes_of_isBare hNonempty hBare

/-! ## Texts that no token has -/

theorem Lexeme.apostrophe_not_mem_value (lexeme : Lexeme) :
    apostrophe ∉ lexeme.value.toList := by
  cases lexeme with
  | mark mark =>
    rw [value, String.toList_ofList]
    cases mark with
    | _ => decide
  | word kind text => exact text.quoteFree
  | finish => decide

theorem Lexeme.value_ne {text : String} (hQuote : apostrophe ∈ text.toList) (lexeme : Lexeme) :
    lexeme.value ≠ text := by
  rintro rfl
  exact lexeme.apostrophe_not_mem_value hQuote

/-- The written form of a text without an apostrophe is read as one word with this text, and it is
the text itself exactly when that is already read as one word with this text, and not a quoted one.
A text with an apostrophe is refused, and no token has it as its value, whether the tokens of a
source are read one by one, also up to an error, or all at once. -/
theorem tokenize_escape :
    (∀ text : String, apostrophe ∉ text.toList →
      ∃ written, escape text = .ok written ∧
        (∃ kind word, word.text = text ∧
          tokenize written = .ok ⟨[⟨.word kind word, 0⟩], written.length⟩) ∧
        (written = text ↔ ∃ kind word position finish, kind ≠ .quoted ∧ word.text = text ∧
          tokenize text = .ok ⟨[⟨.word kind word, position⟩], finish⟩)) ∧
    ∀ text : String, apostrophe ∈ text.toList →
      escape text = .error ⟨text⟩ ∧
      (∀ source times, ∀ answer ∈ Cursor.readTimes times (.ofSource source), ∀ token,
        answer.1 = .ok token → token.lexeme.value ≠ text) ∧
      ∀ source list, tokenize source = .ok list →
        ∀ token ∈ list.toList, token.lexeme.value ≠ text := by
  constructor
  · intro text hFree
    obtain ⟨text, rfl⟩ : ∃ terminal : Terminal, terminal.text = text := ⟨⟨text, hFree⟩, rfl⟩
    obtain ⟨kind, hTokens⟩ := tokenize_written text
    refine ⟨text.written, by simp [escape], ⟨kind, text, rfl, hTokens⟩, ?_⟩
    rw [written_eq_text_iff_tokenize]
    constructor
    · rintro ⟨kind, position, finish, hKind, hText⟩
      exact ⟨kind, text, position, finish, hKind, rfl, hText⟩
    · rintro ⟨kind, word, position, finish, hKind, hSame, hText⟩
      obtain rfl : word = text := Terminal.ext hSame
      exact ⟨kind, position, finish, hKind, hText⟩
  · intro text hQuote
    refine ⟨?_, ?_, ?_⟩
    · rw [escape, Terminal.ofText?_eq_none_iff.mpr hQuote]
    · intro source times answer _ token _
      exact token.lexeme.value_ne hQuote
    · intro source list _ token _
      exact token.lexeme.value_ne hQuote

/-- A text that ends in two colons is written as it is, and a third sign after them needs quotes. -/
theorem tokenize_escape_colons :
    (apostrophe ∉ "a::".toList ∧ escape "a::" = .ok "a::" ∧
      ∃ kind word position finish, kind ≠ .quoted ∧ word.text = "a::" ∧
        tokenize "a::" = .ok ⟨[⟨.word kind word, position⟩], finish⟩) ∧
    (apostrophe ∉ "a::=".toList ∧ escape "a::=" = .ok "'a::='" ∧
      ∃ kind word, word.text = "a::=" ∧
        tokenize "'a::='" = .ok ⟨[⟨.word kind word, 0⟩], "'a::='".length⟩) ∧
    apostrophe ∈ "it's".toList ∧ escape "it's" = .error ⟨"it's"⟩ := by
  obtain ⟨hWritten, hRefused⟩ := tokenize_escape
  have hBare : escape "a::" = .ok "a::" := rfl
  have hQuoted : escape "a::=" = .ok "'a::='" := rfl
  obtain ⟨bare, hSame, -, hText⟩ := hWritten "a::" (by decide)
  obtain ⟨quoted, hOther, hWord, -⟩ := hWritten "a::=" (by decide)
  cases hSame.symm.trans hBare
  cases hOther.symm.trans hQuoted
  exact ⟨⟨by decide, hBare, hText.mp rfl⟩, ⟨by decide, hQuoted, hWord⟩, by decide,
    (hRefused "it's" (by decide)).1⟩

end CodonGrammar.Bnf
