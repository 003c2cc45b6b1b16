import CodonGrammar.Bnf.NameSearch
import CodonGrammar.Proofs.Bnf.Acceptance

/-!
# The search for a new name ends

The search ends because different numbers make different names. All rounds but the last one meet a
name that is taken, so there are no more of them than names (`Numbering.rounds_le`), and the number
that lowering takes is the one that the search ends at (`Lowering.search_fresh`). Lowering an
outline makes one search for each group, in the order in which the groups close
(`Outline.exists_searches`).
-/

namespace CodonGrammar.Bnf

/-! ## One search -/

/-- Every numbering is that of a state. -/
theorem Lowering.exists_numbering_eq (start : Numbering) :
    ∃ state : Lowering, state.numbering = start :=
  ⟨⟨start.counter, start.names.toList, []⟩, by rw [numbering, Finset.toList_toFinset]⟩

namespace Numbering

variable {start : Numbering} {head : NonTerminal} {bracket : Bracket} {number : Nat}

/-- The numbers above the counter whose names are not taken. -/
def free (start : Numbering) (head : NonTerminal) (bracket : Bracket) : Set Nat :=
  {number | start.counter < number ∧ auxiliaryName head bracket number ∉ start.names}

theorem round_of_taken (h : auxiliaryName head bracket (start.counter + 1) ∈ start.names) :
    start.round head bracket = (none, ⟨start.counter + 1, start.names⟩) :=
  if_pos h

theorem round_of_free (h : auxiliaryName head bracket (start.counter + 1) ∉ start.names) :
    start.round head bracket = (some ⟨auxiliaryName head bracket (start.counter + 1)⟩,
      ⟨start.counter + 1, insert (auxiliaryName head bracket (start.counter + 1)) start.names⟩) :=
  if_neg h

theorem taken_of_lt (h : IsLeast (start.free head bracket) number) {earlier : Nat}
    (hAbove : start.counter < earlier) (hBelow : earlier < number) :
    auxiliaryName head bracket earlier ∈ start.names := by
  by_contra hFree
  exact Nat.not_le_of_lt hBelow (h.2 ⟨hAbove, hFree⟩)

/-- All rounds but the last one meet a name that is taken. -/
theorem rounds_le (h : IsLeast (start.free head bracket) number) :
    number - start.counter ≤ start.names.card + 1 := by
  have hTaken : ∀ earlier, start.counter < earlier →
      earlier ≤ start.counter + (number - start.counter - 1) →
      auxiliaryName head bracket earlier ∈ start.names :=
    fun earlier hAbove hBelow => taken_of_lt h hAbove (by omega)
  have hCard := le_card_of_taken hTaken
  omega

end Numbering

theorem Lowering.isLeast_freshNumber (state : Lowering) (head : NonTerminal) (bracket : Bracket) :
    IsLeast (state.numbering.free head bracket)
      (freshNumber state.names head bracket state.counter) := by
  obtain ⟨hAbove, -, hFree, hTaken⟩ :=
    freshNumber_spec state.names head bracket state.counter
  refine ⟨⟨hAbove, fun hMem => hFree (List.mem_toFinset.mp hMem)⟩, ?_⟩
  rintro number ⟨hNumber, hName⟩
  by_contra hBelow
  exact hName (List.mem_toFinset.mpr (hTaken number hNumber (Nat.lt_of_not_le hBelow)))

theorem Numbering.exists_isLeast (start : Numbering) (head : NonTerminal) (bracket : Bracket) :
    ∃ number, IsLeast (start.free head bracket) number := by
  obtain ⟨state, rfl⟩ := Lowering.exists_numbering_eq start
  exact ⟨_, state.isLeast_freshNumber head bracket⟩

namespace Search

variable {head : NonTerminal} {bracket : Bracket} {start : Numbering}

theorem unique {rounds rounds' : Nat} {symbol symbol' : NonTerminal} {last last' : Numbering}
    (h : Search head bracket start rounds symbol last)
    (h' : Search head bracket start rounds' symbol' last') :
    rounds = rounds' ∧ symbol = symbol' ∧ last = last' := by
  induction h generalizing rounds' with
  | found hRound =>
    cases h' with
    | found hRound' =>
      cases hRound.symm.trans hRound'
      exact ⟨rfl, rfl, rfl⟩
    | again hRound' _ => cases hRound.symm.trans hRound'
  | again hRound _ ih =>
    cases h' with
    | found hRound' => cases hRound.symm.trans hRound'
    | again hRound' hRest =>
      cases hRound.symm.trans hRound'
      obtain ⟨rfl, rfl, rfl⟩ := ih hRest
      exact ⟨rfl, rfl, rfl⟩

/-- The search reaches the least free number, one round for each number on the way. -/
theorem of_isLeast {number : Nat} (h : IsLeast (start.free head bracket) number) :
    Search head bracket start (number - start.counter) ⟨auxiliaryName head bracket number⟩
      ⟨number, insert (auxiliaryName head bracket number) start.names⟩ := by
  obtain ⟨before, hNumber⟩ := Nat.exists_eq_add_of_lt h.1.1
  have hRounds : number - start.counter = before + 1 := by omega
  rw [hRounds]
  clear hRounds
  -- The numbers that are passed over: a round takes away the first of them, and the least free
  -- number stays the same.
  induction before generalizing start with
  | zero =>
    subst hNumber
    exact .found (Numbering.round_of_free h.1.2)
  | succ before ih =>
    have hTaken := Numbering.taken_of_lt h (Nat.lt_succ_self start.counter) (by omega)
    have hNext : IsLeast (Numbering.free ⟨start.counter + 1, start.names⟩ head bracket) number := by
      refine ⟨⟨by dsimp only; omega, h.1.2⟩, ?_⟩
      rintro later ⟨hLater, hFree⟩
      exact h.2 ⟨Nat.lt_of_succ_lt hLater, hFree⟩
    exact .again (Numbering.round_of_taken hTaken) (ih hNext (by dsimp only; omega))

theorem iff_of_isLeast {number : Nat} (h : IsLeast (start.free head bracket) number) {rounds : Nat}
    {symbol : NonTerminal} {last : Numbering} :
    Search head bracket start rounds symbol last ↔
      rounds = number - start.counter ∧ symbol = ⟨auxiliaryName head bracket number⟩ ∧
        last = ⟨number, insert (auxiliaryName head bracket number) start.names⟩ := by
  constructor
  · exact fun hSearch => hSearch.unique (of_isLeast h)
  · rintro ⟨rfl, rfl, rfl⟩
    exact of_isLeast h

end Search

theorem Lowering.search_fresh (state : Lowering) (head : NonTerminal) (bracket : Bracket) :
    Search head bracket state.numbering
      (freshNumber state.names head bracket state.counter - state.counter)
      (state.fresh head bracket).1 (state.fresh head bracket).2.numbering := by
  have hSearch := Search.of_isLeast (state.isLeast_freshNumber head bracket)
  rwa [numbering, ← List.toFinset_cons] at hSearch

/-! ## One search after another -/

/-- Each name is made from the number that its search ends at. The numbers increase, and no name was
taken at the start or is found twice. -/
structure Numbered (start : Numbering) (requests : List (NonTerminal × Bracket))
    (found : List Found) (last : Numbering) : Prop where
  named : List.Forall₂
    (fun request one => one.symbol = ⟨auxiliaryName request.1 request.2 one.counter⟩)
    requests found
  increasing : (start.counter :: found.map Found.counter).Pairwise (· < ·)
  distinct : (found.map Found.symbol).Nodup
  unused : ∀ one ∈ found, one.symbol.name ∉ start.names
  counter_eq : last.counter = (start.counter :: found.map Found.counter).getLast (by simp)
  names_eq : last.names = start.names ∪ (found.map fun one => one.symbol.name).toFinset

namespace Searches

variable {start next last : Numbering} {requests more : List (NonTerminal × Bracket)}
  {found others : List Found}

theorem append (h : Searches start requests found next) (hMore : Searches next more others last) :
    Searches start (requests ++ more) (found ++ others) last := by
  induction h with
  | nil => exact hMore
  | cons hSearch _ ih => exact .cons hSearch (ih hMore)

theorem unique {found' : List Found} {last' : Numbering} (h : Searches start requests found last)
    (h' : Searches start requests found' last') : found = found' ∧ last = last' := by
  induction h generalizing found' with
  | nil =>
    cases h'
    exact ⟨rfl, rfl⟩
  | cons hSearch _ ih =>
    cases h' with
    | cons hSearch' hRest =>
      obtain ⟨-, rfl, rfl⟩ := hSearch.unique hSearch'
      obtain ⟨rfl, rfl⟩ := ih hRest
      exact ⟨rfl, rfl⟩

theorem numbered (h : Searches start requests found last) : Numbered start requests found last := by
  induction h with
  | nil start =>
    exact ⟨.nil, List.pairwise_singleton _ _, .nil, by simp, rfl, by simp⟩
  | @cons start next last head bracket rounds symbol requests found hSearch _ ih =>
    obtain ⟨number, hLeast⟩ := start.exists_isLeast head bracket
    obtain ⟨-, rfl, rfl⟩ := (Search.iff_of_isLeast hLeast).mp hSearch
    obtain ⟨hAbove, hFree⟩ := hLeast.1
    constructor
    · exact .cons rfl ih.named
    · refine List.pairwise_cons.mpr ⟨?_, ih.increasing⟩
      intro later hLater
      rcases List.mem_cons.mp hLater with rfl | hLater
      · exact hAbove
      · exact hAbove.trans (List.rel_of_pairwise_cons ih.increasing hLater)
    · refine List.nodup_cons.mpr ⟨?_, ih.distinct⟩
      -- The later searches start with the name of this one taken.
      intro hAgain
      obtain ⟨one, hOne, hSame⟩ := List.mem_map.mp hAgain
      refine ih.unused one hOne ?_
      rw [hSame]
      exact Finset.mem_insert_self _ _
    · refine List.forall_mem_cons.mpr ⟨hFree, fun one hOne hTaken => ?_⟩
      exact ih.unused one hOne (Finset.mem_insert_of_mem hTaken)
    · exact ih.counter_eq
    · rw [ih.names_eq, List.map_cons, List.toFinset_cons, Finset.insert_union, Finset.union_insert]

end Searches

theorem exists_searches (start : Numbering) (requests : List (NonTerminal × Bracket)) :
    ∃ found last, Searches start requests found last := by
  induction requests generalizing start with
  | nil => exact ⟨[], start, .nil start⟩
  | cons request requests ih =>
    obtain ⟨number, hLeast⟩ := start.exists_isLeast request.1 request.2
    obtain ⟨found, last, hRest⟩ :=
      ih ⟨number, insert (auxiliaryName request.1 request.2 number) start.names⟩
    exact ⟨_, last, .cons (Search.of_isLeast hLeast) hRest⟩

/-! ## The searches of a whole source -/

/-- What names are searched for in a rule: one for each group, made from the head of the rule. -/
def SourceRule.requests (rule : SourceRule) : List (NonTerminal × Bracket) :=
  rule.alternatives.groups.map fun group => (rule.head, group.1)

def Outline.requests (outline : Outline) : List (NonTerminal × Bracket) :=
  outline.rules.flatMap SourceRule.requests

/-- One state leads to another by searches, with a rule added for each of them. -/
structure Lowering.LeadsTo (state : Lowering) (requests : List (NonTerminal × Bracket))
    (found : List Found) (next : Lowering) : Prop where
  searches : Searches state.numbering requests found next.numbering
  heads : next.added.map Rule.head = state.added.map Rule.head ++ found.map Found.symbol

namespace Lowering.LeadsTo

variable {state next last : Lowering} {requests more : List (NonTerminal × Bracket)}
  {found others : List Found}

theorem refl : LeadsTo state [] [] state where
  searches := .nil _
  heads := (List.append_nil _).symm

theorem trans (h : LeadsTo state requests found next) (hMore : LeadsTo next more others last) :
    LeadsTo state (requests ++ more) (found ++ others) last where
  searches := h.searches.append hMore.searches
  heads := by rw [hMore.heads, h.heads, List.map_append, List.append_assoc]

end Lowering.LeadsTo

theorem Lowering.addGroup_leadsTo (state : Lowering) (head : NonTerminal) (bracket : Bracket)
    (first : Expression) (others : List Expression) :
    ∃ found,
      state.LeadsTo [(head, bracket)] found (state.addGroup head bracket first others).2 := by
  refine ⟨_, .cons (state.search_fresh head bracket) (.nil _), ?_⟩
  simp only [addGroup, add, List.map_append, List.map_cons, List.map_nil, Bracket.head_rule]
  rfl

section Lower

variable (head : NonTerminal)

mutual

theorem Element.lower_leadsTo : ∀ (element : Element) (state : Lowering), ∃ found,
    state.LeadsTo (element.groups.map fun group => (head, group.1)) found
      (element.lower head state).2
  | .word _ _, _ => ⟨[], .refl⟩
  | .nonTerminal _, _ => ⟨[], .refl⟩
  | .group bracket body, state => by
    obtain ⟨inner, hInner⟩ := body.lower_leadsTo state
    obtain ⟨own, hOwn⟩ := (body.lower head state).2.addGroup_leadsTo head bracket
      (body.lower head state).1.1 (body.lower head state).1.2
    rw [Element.groups, List.map_append]
    exact ⟨inner ++ own, hInner.trans hOwn⟩

theorem Sequence.lower_leadsTo : ∀ (sequence : Sequence) (state : Lowering), ∃ found,
    state.LeadsTo (sequence.groups.map fun group => (head, group.1)) found
      (sequence.lower head state).2
  | .single element, state => element.lower_leadsTo state
  | .cons element rest, state => by
    obtain ⟨first, hFirst⟩ := element.lower_leadsTo state
    obtain ⟨others, hOthers⟩ := rest.lower_leadsTo (element.lower head state).2
    rw [Sequence.groups, List.map_append]
    exact ⟨first ++ others, hFirst.trans hOthers⟩

theorem Alternatives.lower_leadsTo : ∀ (alternatives : Alternatives) (state : Lowering),
    ∃ found, state.LeadsTo (alternatives.groups.map fun group => (head, group.1)) found
      (alternatives.lower head state).2
  | .single sequence, state => sequence.lower_leadsTo state
  | .cons sequence rest, state => by
    obtain ⟨first, hFirst⟩ := sequence.lower_leadsTo state
    obtain ⟨others, hOthers⟩ := rest.lower_leadsTo (sequence.lower head state).2
    rw [Alternatives.groups, List.map_append]
    exact ⟨first ++ others, hFirst.trans hOthers⟩

end

end Lower

theorem lowerRules_leadsTo (rules : List SourceRule) (state : Lowering) :
    ∃ found, state.LeadsTo (rules.flatMap SourceRule.requests) found
      (lowerRules rules state).2 := by
  induction rules generalizing state with
  | nil => exact ⟨[], .refl⟩
  | cons rule rest ih =>
    obtain ⟨first, hFirst⟩ := rule.alternatives.lower_leadsTo rule.head state
    obtain ⟨others, hOthers⟩ := ih (rule.lower state).2
    exact ⟨first ++ others, hFirst.trans hOthers⟩

/-- The heads of the added rules are found by one search for each group, from the counter zero. -/
theorem Outline.exists_searches (outline : Outline) (names : List String) :
    ∃ found last, Searches ⟨0, names.toFinset⟩ outline.requests found last ∧
      (outline.lower names).added.map Rule.head = found.map Found.symbol := by
  obtain ⟨found, hLeads⟩ := lowerRules_leadsTo outline.rules ⟨0, names, []⟩
  exact ⟨found, _, hLeads.searches, hLeads.heads⟩

/-- A source that is read has an outline, and the names between its angle brackets are taken. -/
theorem read_eq_ok_iff {source : String} {reading : Reading} :
    read source = .ok reading ↔
      ∃ (list : TokenList) (outline : Outline), tokenize source = .ok list ∧
        outline.signs = list.tokens.map Token.sign ∧
        outline.lower list.bracketedNames = reading := by
  unfold read
  constructor
  · intro hRead
    cases hTokens : tokenize source with
    | error error => simp [hTokens] at hRead
    | ok list =>
      cases hOutline : Outline.ofTokens list with
      | error error => simp [hTokens, hOutline] at hRead
      | ok outline =>
        refine ⟨list, outline, rfl, Outline.ofTokens_eq_ok_iff.mp hOutline, ?_⟩
        simpa [hTokens, hOutline] using hRead
  · rintro ⟨list, outline, hTokens, hSigns, rfl⟩
    simp [hTokens, Outline.ofTokens_eq_ok_iff.mpr hSigns]

/-- The loop ends from every numbering, and in one way only: at the least free number above the
counter, with its name taken, after at most one round more than there are names. The name that a
state hands out is the one that the loop returns. Whatever names are searched for one after another,
the counter increases and no name is found twice. The searches of a whole source are of this kind,
one for each of its groups. -/
theorem search_ends :
    (∀ (start : Numbering) (head : NonTerminal) (bracket : Bracket), ∃ number,
      IsLeast (start.free head bracket) number ∧
      number - start.counter ≤ start.names.card + 1 ∧
      ∀ rounds symbol last, Search head bracket start rounds symbol last ↔
        rounds = number - start.counter ∧ symbol = ⟨auxiliaryName head bracket number⟩ ∧
          last = ⟨number, insert (auxiliaryName head bracket number) start.names⟩) ∧
    (∀ (state : Lowering) (head : NonTerminal) (bracket : Bracket),
      (state.fresh head bracket).2.added = state.added ∧
      ∃ rounds, Search head bracket state.numbering rounds
        (state.fresh head bracket).1 (state.fresh head bracket).2.numbering) ∧
    (∀ start requests, ∃ found last, Numbered start requests found last ∧
      ∀ found' last', Searches start requests found' last' ↔ found' = found ∧ last' = last) ∧
    ∀ source reading, read source = .ok reading →
      ∃ (list : TokenList) (outline : Outline) (found : List Found) (last : Numbering),
        tokenize source = .ok list ∧ outline.signs = list.tokens.map Token.sign ∧
        Searches ⟨0, list.bracketedNames.toFinset⟩ outline.requests found last ∧
        Numbered ⟨0, list.bracketedNames.toFinset⟩ outline.requests found last ∧
        reading.added.map Rule.head = found.map Found.symbol := by
  refine ⟨?_, fun state head bracket => ⟨rfl, _, state.search_fresh head bracket⟩, ?_, ?_⟩
  · intro start head bracket
    obtain ⟨number, hLeast⟩ := start.exists_isLeast head bracket
    exact ⟨number, hLeast, Numbering.rounds_le hLeast,
      fun rounds symbol last => Search.iff_of_isLeast hLeast⟩
  · intro start requests
    obtain ⟨found, last, hSearches⟩ := exists_searches start requests
    refine ⟨found, last, hSearches.numbered, fun found' last' => ⟨(·.unique hSearches), ?_⟩⟩
    rintro ⟨rfl, rfl⟩
    exact hSearches
  · intro source reading hRead
    obtain ⟨list, outline, hTokens, hSigns, rfl⟩ := read_eq_ok_iff.mp hRead
    obtain ⟨found, last, hSearches, hHeads⟩ := outline.exists_searches list.bracketedNames
    exact ⟨list, outline, found, last, hTokens, hSigns, hSearches, hSearches.numbered, hHeads⟩

set_option maxRecDepth 10000 in
/-- The source itself uses the first name that is tried, and the name made from that one ends like
another that is found. -/
theorem search_ends_passing :
    ∃ reading, read "<a>::=[x]<a-opt-1>::=[y]" = .ok reading ∧
      reading.added.map Rule.head = [⟨"a-opt-2"⟩, ⟨"a-opt-1-opt-3"⟩] ∧
      Search ⟨"a"⟩ .optional ⟨0, {"a", "a-opt-1"}⟩ 2 ⟨"a-opt-2"⟩
        ⟨2, {"a-opt-2", "a", "a-opt-1"}⟩ := by
  let x : Terminal := ⟨"x", by decide⟩
  let y : Terminal := ⟨"y", by decide⟩
  let inBrackets (text : Terminal) : Alternatives :=
    .single (.single (.group .optional (.single (.single (.word .name text)))))
  let expected : Outline := ⟨[⟨⟨"a"⟩, inBrackets x⟩, ⟨⟨"a-opt-1"⟩, inBrackets y⟩], by simp⟩
  have hTokens : tokenize "<a>::=[x]<a-opt-1>::=[y]" = .ok ⟨[⟨.mark .lt, 0⟩,
      ⟨.word .name ⟨"a", by decide⟩, 1⟩, ⟨.mark .gt, 2⟩, ⟨.mark .assign, 3⟩, ⟨.mark .lbracket, 6⟩,
      ⟨.word .name x, 7⟩, ⟨.mark .rbracket, 8⟩, ⟨.mark .lt, 9⟩,
      ⟨.word .name ⟨"a-opt-1", by decide⟩, 10⟩, ⟨.mark .gt, 17⟩, ⟨.mark .assign, 18⟩,
      ⟨.mark .lbracket, 21⟩, ⟨.word .name y, 22⟩, ⟨.mark .rbracket, 23⟩], 24⟩ := by
    cbv
  have hRead := read_eq_ok_iff.mpr ⟨_, expected, hTokens, rfl, rfl⟩
  have hFirst : Search ⟨"a"⟩ .optional ⟨0, {"a", "a-opt-1"}⟩ 2 ⟨"a-opt-2"⟩
      ⟨2, {"a-opt-2", "a", "a-opt-1"}⟩ :=
    .again rfl (.found rfl)
  have hSecond : Search ⟨"a-opt-1"⟩ .optional ⟨2, {"a-opt-2", "a", "a-opt-1"}⟩ 1 ⟨"a-opt-1-opt-3"⟩
      ⟨3, {"a-opt-1-opt-3", "a-opt-2", "a", "a-opt-1"}⟩ :=
    .found rfl
  obtain ⟨list, outline, found, last, hList, hSigns, hSearches, -, hHeads⟩ :=
    search_ends.2.2.2 _ _ hRead
  cases hList.symm.trans hTokens
  obtain rfl : outline = expected := Outline.eq_of_signs_eq hSigns rfl
  have hRequests : expected.requests = [(⟨"a"⟩, .optional), (⟨"a-opt-1"⟩, .optional)] := rfl
  rw [hRequests] at hSearches
  obtain ⟨rfl, -⟩ := hSearches.unique (.cons hFirst (.cons hSecond (.nil _)))
  exact ⟨_, hRead, hHeads, hFirst⟩

end CodonGrammar.Bnf
