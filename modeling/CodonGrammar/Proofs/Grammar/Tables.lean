import CodonGrammar.Grammar.Tables
import CodonGrammar.Proofs.Derivation.Results
import Mathlib.Data.List.Induction
import Mathlib.Data.List.Nodup

/-!
# What a grammar is asked for

A grammar is asked for the rule of a non-terminal, for its non-terminals and for its terminals. All
three answers come from one reading of the rules, which fills the tables of the grammar
(`Tables.read_rules`).

So each list has what was met, once and in the order of the first meeting (`ListsOnce`), and the
first rule of a head is the one that is found. The start symbol is met first of all and heads the
first rule, so every engine has a rule to begin with (`Grammar.tabulated`).
-/

namespace CodonGrammar

variable {σ ε : Type}

/-! ## Each thing once -/

section Once

variable {α : Type} [DecidableEq α]

/-- The second list has what is met in the first one, each thing once, in the order in which the
things are met first. -/
structure ListsOnce (met listed : List α) : Prop where
  mem_iff : ∀ x, x ∈ listed ↔ x ∈ met
  nodup : listed.Nodup
  inOrder : listed.Pairwise fun x y => met.idxOf x < met.idxOf y

theorem ListsOnce.addOnce {met listed : List α} (h : ListsOnce met listed) (x : α) :
    ListsOnce (met ++ [x]) (addOnce listed x) := by
  have hPlace : ∀ y ∈ listed, (met ++ [x]).idxOf y = met.idxOf y := fun y hMem =>
    List.idxOf_append_of_mem ((h.mem_iff y).mp hMem)
  have hKept : listed.Pairwise fun y z => (met ++ [x]).idxOf y < (met ++ [x]).idxOf z := by
    refine h.inOrder.imp_of_mem ?_
    intro y z hFirst hSecond hLess
    rwa [hPlace y hFirst, hPlace z hSecond]
  unfold CodonGrammar.addOnce
  split
  · rename_i hListed
    have hMet := (h.mem_iff x).mp hListed
    refine ⟨?_, h.nodup, hKept⟩
    intro y
    rw [h.mem_iff, List.mem_append, List.mem_singleton]
    constructor
    · exact .inl
    · rintro (hMem | rfl)
      · exact hMem
      · exact hMet
  · rename_i hNew
    have hUnmet : x ∉ met := fun hMet => hNew ((h.mem_iff x).mpr hMet)
    refine ⟨?_, ?_, ?_⟩
    · intro y
      rw [List.mem_append, List.mem_append, h.mem_iff]
    · exact List.nodup_append.mpr ⟨h.nodup, List.nodup_singleton x, by
        rintro y hMem z hLast rfl
        exact hNew (List.mem_singleton.mp hLast ▸ hMem)⟩
    · -- The new member is met behind all others.
      refine List.pairwise_append.mpr ⟨hKept, List.pairwise_singleton _ _, ?_⟩
      intro y hMem z hLast
      obtain rfl := List.mem_singleton.mp hLast
      rw [hPlace y hMem, List.idxOf_append_of_notMem hUnmet]
      have hLess := List.idxOf_lt_length_of_mem ((h.mem_iff y).mp hMem)
      omega

theorem foldl_addOnce (met : List α) : met.foldl addOnce [] = met.eraseDups := by
  induction met using List.reverseRecOn with
  | nil => rfl
  | append_singleton met x ih =>
    rw [List.foldl_append, ih, List.eraseDups_append, List.foldl_cons, List.foldl_nil, addOnce]
    by_cases hMet : x ∈ met
    · simp [hMet, List.removeAll]
    · simp [hMet, List.removeAll, List.eraseDups_cons]

theorem listsOnce_eraseDups (met : List α) : ListsOnce met met.eraseDups := by
  rw [← foldl_addOnce]
  induction met using List.reverseRecOn with
  | nil => exact ⟨by simp, List.nodup_nil, .nil⟩
  | append_singleton met x ih =>
    rw [List.foldl_append]
    exact ih.addOnce x

end Once

/-! ## One reading of the rules -/

namespace Tables

theorem foldl_meet (symbols : List Symbol) (tables : Tables) :
    symbols.foldl meet tables
      = ⟨tables.rules, (symbols.filterMap Symbol.nonTerminal?).foldl addOnce tables.nonTerminals,
          (symbols.filterMap Symbol.terminal?).foldl addOnce tables.terminals⟩ := by
  induction symbols generalizing tables with
  | nil => rfl
  | cons symbol rest ih =>
    rw [List.foldl_cons, ih]
    cases symbol <;> rfl

theorem readRule_eq (tables : Tables) (rule : Rule) :
    tables.readRule rule
      = rule.symbolsInOrder.foldl meet { tables with rules := enter tables.rules rule } := by
  rw [readRule, Rule.symbolsInOrder, List.foldl_cons, List.foldl_flatMap]

/-- Reading rules enters the rules, and the symbols that are met in them. -/
theorem foldl_readRule (rules : List Rule) (tables : Tables) :
    rules.foldl readRule tables
      = ⟨rules.foldl enter tables.rules,
          ((rules.flatMap Rule.symbolsInOrder).filterMap Symbol.nonTerminal?).foldl addOnce
            tables.nonTerminals,
          ((rules.flatMap Rule.symbolsInOrder).filterMap Symbol.terminal?).foldl addOnce
            tables.terminals⟩ := by
  induction rules generalizing tables with
  | nil => rfl
  | cons rule rest ih =>
    rw [List.foldl_cons, ih, readRule_eq, foldl_meet]
    simp only [List.flatMap_cons, List.filterMap_append, List.foldl_append, List.foldl_cons]

theorem find?_enter (rules : List Rule) (rule : Rule) (head : NonTerminal) :
    (enter rules rule).find? (·.head = head) = (rules ++ [rule]).find? (·.head = head) := by
  rw [enter]
  split
  · rename_i found hFound
    -- A rule that is not entered would only be found behind one with the same head.
    rw [List.find?_append, List.find?_singleton]
    split
    · rename_i hHead
      obtain rfl : rule.head = head := by simpa using hHead
      rw [hFound, Option.some_or]
    · rw [Option.or_none]
  · rfl

theorem find?_foldl_enter (rules entered : List Rule) (head : NonTerminal) :
    (rules.foldl enter entered).find? (·.head = head)
      = (entered ++ rules).find? (·.head = head) := by
  induction rules generalizing entered with
  | nil => rw [List.foldl_nil, List.append_nil]
  | cons rule rest ih =>
    rw [List.foldl_cons, ih, List.find?_append, find?_enter, ← List.find?_append,
      List.append_assoc, List.singleton_append]

/-- What one reading of the rules of a grammar enters is what the grammar is asked for. -/
theorem read_rules (grammar : Grammar) :
    (read grammar.rules).nonTerminals = grammar.nonTerminals ∧
      (read grammar.rules).terminals = grammar.terminals ∧
      ∀ head, (read grammar.rules).ruleFor? head = grammar.ruleFor? head := by
  rw [read, foldl_readRule]
  refine ⟨foldl_addOnce _, foldl_addOnce _, ?_⟩
  intro head
  rw [ruleFor?, find?_foldl_enter, List.nil_append, Grammar.ruleFor?]

end Tables

/-! ## Rules by their heads -/

namespace Grammar

variable {grammar : Grammar}

theorem ruleFor?_eq_some_iff {head : NonTerminal} {rule : Rule} :
    grammar.ruleFor? head = some rule ↔
      ∃ before after, grammar.rules = before ++ rule :: after ∧ rule.head = head ∧
        ∀ other ∈ before, other.head ≠ head := by
  rw [ruleFor?, List.find?_eq_some_iff_append]
  constructor
  · rintro ⟨hHead, before, after, hRules, hBefore⟩
    exact ⟨before, after, hRules, by simpa using hHead, by simpa using hBefore⟩
  · rintro ⟨before, after, hRules, hHead, hBefore⟩
    exact ⟨by simpa using hHead, before, after, hRules, by simpa using hBefore⟩

theorem ruleFor?_eq_none_iff {head : NonTerminal} :
    grammar.ruleFor? head = none ↔ ∀ rule ∈ grammar.rules, rule.head ≠ head := by
  simp [ruleFor?]

/-! ## The symbols of the rules -/

theorem mem_symbolsInOrder {symbol : Symbol} :
    symbol ∈ grammar.symbolsInOrder ↔ ∃ rule ∈ grammar.rules, symbol = .nonTerminal rule.head ∨
      ∃ alternative ∈ rule.alternatives, symbol ∈ alternative.symbols := by
  simp only [symbolsInOrder, Rule.symbolsInOrder, List.mem_flatMap, List.mem_cons]

theorem mem_nonTerminals {symbol : NonTerminal} :
    symbol ∈ grammar.nonTerminals ↔ .nonTerminal symbol ∈ grammar.symbolsInOrder := by
  rw [nonTerminals, List.mem_eraseDups, List.mem_filterMap]
  constructor
  · rintro ⟨met, hMet, hSame⟩
    cases met with
    | terminal => cases hSame
    | nonTerminal => exact Option.some.inj hSame ▸ hMet
  · exact fun hMet => ⟨_, hMet, rfl⟩

theorem mem_terminals {symbol : Terminal} :
    symbol ∈ grammar.terminals ↔ .terminal symbol ∈ grammar.symbolsInOrder := by
  rw [terminals, List.mem_eraseDups, List.mem_filterMap]
  constructor
  · rintro ⟨met, hMet, hSame⟩
    cases met with
    | terminal => exact Option.some.inj hSame ▸ hMet
    | nonTerminal => cases hSame
  · exact fun hMet => ⟨_, hMet, rfl⟩

/-- Both lists together have the symbols that occur in the rules. -/
theorem mem_listed_iff {symbol : Symbol} :
    symbol ∈ grammar.nonTerminals.map .nonTerminal ++ grammar.terminals.map .terminal ↔
      symbol ∈ grammar.symbolsInOrder := by
  cases symbol <;> simp [mem_nonTerminals, mem_terminals]

theorem head?_nonTerminals (grammar : Grammar) :
    grammar.nonTerminals.head? = some grammar.start := by
  obtain ⟨rules, hNonempty⟩ := grammar
  cases rules with
  | nil => exact absurd rfl hNonempty
  | cons rule rest =>
    rw [nonTerminals, symbolsInOrder, List.flatMap_cons, Rule.symbolsInOrder, List.cons_append,
      List.filterMap_cons_some (show Symbol.nonTerminal? _ = some rule.head from rfl),
      List.eraseDups_cons]
    rfl

end Grammar

/-! ## The first query -/

namespace Expander

variable {S : Type} {expander : Expander S}

/-- The run of a sound expander from the start symbol on begins with a query for the first rule. -/
theorem Sound.exists_first_query {grammar : Grammar} {read : S → List Symbol}
    (hSound : expander.Sound grammar read) {start : S}
    (hStart : read start = [.nonTerminal grammar.start]) (chooser : Chooser σ ε) {limit : Nat}
    (hLimit : 1 ≤ limit) (state : σ) :
    ∃ (outcome : Except (ChoiceError ε) (S × Nat)) (last : σ) (later : List (Query ε)),
      expander.run chooser.traced limit start (state, [])
        = (outcome, (last, later ++ [chooser.query grammar.firstRule state])) := by
  obtain ⟨budget, rfl⟩ := Nat.exists_eq_add_of_le' hLimit
  cases hNext : expander start with
  | none =>
    have hFinished := hSound.finished hNext
    rw [hStart] at hFinished
    exact absurd hFinished grammar.not_finished_start
  | some step =>
    obtain ⟨rule, next⟩ := step
    obtain ⟨before, symbol, after, hRead, hRule, -⟩ := hSound.step hNext
    have hMem : symbol ∈ read start := by simp [hRead]
    rw [hStart] at hMem
    obtain rfl := List.mem_singleton.mp hMem
    obtain rfl : rule = grammar.firstRule :=
      Option.some.inj (hRule.symm.trans grammar.expansionOf?_start)
    let query := chooser.query grammar.firstRule state
    let after := (chooser grammar.firstRule grammar.firstRule.arity state).2
    have hQuery : expander start = some (query.rule, next) := hNext
    have hAnswer : chooser.traced query.rule query.bound (state, [])
        = (query.answer, (after, [query])) := rfl
    rw [run_step hQuery rfl hAnswer]
    cases query.chosen with
    | error error => exact ⟨.error error, after, [], rfl⟩
    | ok alternative =>
      obtain ⟨outcome, last, queries, -, hTraced, -⟩ :=
        expander.exists_traced chooser budget (next alternative) after [query]
      exact ⟨outcome, last, queries.reverse, hTraced⟩

end Expander

/-! ## The tables and the rules -/

namespace Grammar

theorem exists_first_query (grammar : Grammar) (engine : Engine) (chooser : Chooser σ ε)
    {limit : Nat} (hLimit : 1 ≤ limit) (state : σ) :
    ∃ outcome last later query,
      grammar.generate engine chooser.traced limit (state, [])
        = (outcome, (last, later ++ [query])) ∧
      grammar.ruleFor? grammar.start = some query.rule := by
  obtain ⟨S, expander, read, start, hSound, hStart, hRun⟩ := grammar.exists_expander engine
  obtain ⟨outcome, last, later, hTraced⟩ := hSound.exists_first_query hStart chooser hLimit state
  rw [hRun chooser.traced limit (state, []) hLimit, hTraced]
  exact ⟨_, last, later, chooser.query grammar.firstRule state, rfl, grammar.ruleFor?_start⟩

/-- The tables of a grammar agree with its rules, and one reading of the rules fills them. -/
structure Tabulated (grammar : Grammar) : Prop where
  found_iff : ∀ head rule, grammar.ruleFor? head = some rule ↔
    ∃ before after, grammar.rules = before ++ rule :: after ∧ rule.head = head ∧
      ∀ other ∈ before, other.head ≠ head
  missing_iff : ∀ head, grammar.ruleFor? head = none ↔ ∀ rule ∈ grammar.rules, rule.head ≠ head
  nonTerminals : ListsOnce (grammar.symbolsInOrder.filterMap Symbol.nonTerminal?)
    grammar.nonTerminals
  terminals : ListsOnce (grammar.symbolsInOrder.filterMap Symbol.terminal?) grammar.terminals
  listed_iff : ∀ symbol,
    symbol ∈ grammar.nonTerminals.map .nonTerminal ++ grammar.terminals.map .terminal ↔
      ∃ rule ∈ grammar.rules, symbol = .nonTerminal rule.head ∨
        ∃ alternative ∈ rule.alternatives, symbol ∈ alternative.symbols
  start_first : grammar.nonTerminals.head? = some grammar.start
  start_found : grammar.ruleFor? grammar.start = some (grammar.rules.head grammar.nonempty)
  read : (Tables.read grammar.rules).nonTerminals = grammar.nonTerminals ∧
    (Tables.read grammar.rules).terminals = grammar.terminals ∧
    ∀ head, (Tables.read grammar.rules).ruleFor? head = grammar.ruleFor? head
  first_query : ∀ {σ ε : Type} (engine : Engine) (chooser : Chooser σ ε) {limit : Nat} (state : σ),
    1 ≤ limit → ∃ outcome last later query,
      grammar.generate engine chooser.traced limit (state, [])
        = (outcome, (last, later ++ [query])) ∧
      grammar.ruleFor? grammar.start = some query.rule

theorem tabulated (grammar : Grammar) : grammar.Tabulated where
  found_iff := fun _ _ => ruleFor?_eq_some_iff
  missing_iff := fun _ => ruleFor?_eq_none_iff
  nonTerminals := listsOnce_eraseDups _
  terminals := listsOnce_eraseDups _
  listed_iff := fun _ => mem_listed_iff.trans mem_symbolsInOrder
  start_first := grammar.head?_nonTerminals
  start_found := grammar.ruleFor?_start
  read := Tables.read_rules grammar
  first_query := fun engine chooser _ state hLimit =>
    grammar.exists_first_query engine chooser hLimit state

end Grammar

end CodonGrammar
