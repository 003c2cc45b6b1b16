import CodonGrammar.Proofs.Codec.Specification

/-!
# Drawing genotypes

A random source is asked for numbers in non-empty ranges only, because a specification has no other
ranges, and keeping the calls changes nothing about what is drawn (`Codec.kept_newGenotype`). If the
source answers such calls in range, each chromosome that is drawn conforms to its specification
(`Codec.allows_newGenotype`).
-/

namespace CodonGrammar

variable {σ α β : Type}

namespace RandomSource

/-- The source answers in range whenever the range is not empty. -/
def Bounded (source : RandomSource σ) : Prop :=
  ∀ lower upper state, lower < upper →
    lower ≤ (source lower upper state).1 ∧ (source lower upper state).1 < upper

/-- A draw, and the same draw that also keeps its calls: it adds calls for non-empty ranges to the
earlier ones, and that is all the difference. -/
def Keeps (plain : α × σ) (kept : List Call → α × (σ × List Call)) : Prop :=
  ∃ calls, (∀ call ∈ calls, call.lower < call.upper) ∧
    ∀ earlier, kept earlier = (plain.1, (plain.2, calls ++ earlier))

namespace Keeps

theorem pure (value : α) (state : σ) :
    Keeps (value, state) fun earlier => (value, (state, earlier)) :=
  ⟨[], by simp, fun _ => rfl⟩

theorem call (source : RandomSource σ) {lower upper : Int} (h : lower < upper) (state : σ) :
    Keeps (source lower upper state) fun earlier => source.recorded lower upper (state, earlier) :=
  ⟨[⟨lower, upper, (source lower upper state).1⟩], by simpa using h, fun _ => rfl⟩

theorem bind {plain : α × σ} {kept : List Call → α × (σ × List Call)} {next : α → σ → β × σ}
    {keptNext : α → σ → List Call → β × (σ × List Call)} (hFirst : Keeps plain kept)
    (hNext : ∀ value state, Keeps (next value state) (keptNext value state)) :
    Keeps (next plain.1 plain.2)
      fun earlier => keptNext (kept earlier).1 (kept earlier).2.1 (kept earlier).2.2 := by
  obtain ⟨calls, hCalls, hKept⟩ := hFirst
  obtain ⟨others, hOthers, hKeptNext⟩ := hNext plain.1 plain.2
  refine ⟨others ++ calls, List.forall_mem_append.mpr ⟨hOthers, hCalls⟩, ?_⟩
  intro earlier
  simp only [hKept, hKeptNext, List.append_assoc]

theorem map {plain : α × σ} {kept : List Call → α × (σ × List Call)} (h : Keeps plain kept)
    (f : α → β) :
    Keeps (f plain.1, plain.2) fun earlier => (f (kept earlier).1, (kept earlier).2) :=
  h.bind fun value state => pure (f value) state

end Keeps

variable (source : RandomSource σ)

theorem kept_times {lower upper : Int} (h : lower < upper) (count : Nat) (state : σ) :
    Keeps (source.times lower upper count state)
      fun earlier => source.recorded.times lower upper count (state, earlier) := by
  induction count generalizing state with
  | zero => exact .pure [] state
  | succ count ih =>
    have hOthers := fun (first : Int) after => (ih after).map (first :: ·)
    exact (Keeps.call source h state).bind hOthers

@[simp] theorem length_times (lower upper : Int) (count : Nat) (state : σ) :
    (source.times lower upper count state).1.length = count := by
  induction count generalizing state with
  | zero => rfl
  | succ count ih => simp [times, ih]

variable {source}

theorem Bounded.times (hSource : source.Bounded) {lower upper : Int} (h : lower < upper)
    (count : Nat) (state : σ) :
    ∀ value ∈ (source.times lower upper count state).1, lower ≤ value ∧ value < upper := by
  induction count generalizing state with
  | zero => simp [RandomSource.times]
  | succ count ih =>
    exact List.forall_mem_cons.mpr ⟨hSource lower upper state h, ih (source lower upper state).2⟩

end RandomSource

namespace ChromosomeSpec

open RandomSource

variable (spec : ChromosomeSpec) {source : RandomSource σ}

theorem kept_draw (source : RandomSource σ) (state : σ) :
    Keeps (spec.draw source state) fun earlier => spec.draw source.recorded (state, earlier) := by
  have hValues : (spec.lower : Int) < spec.upper := Int.ofNat_lt.mpr spec.lower_lt_upper
  have hLength : Keeps (spec.drawLength source state)
      fun earlier => spec.drawLength source.recorded (state, earlier) := by
    simp only [drawLength]
    cases hMost : spec.maxLength with
    | none => exact .pure spec.length state
    | some most =>
      have hLengths := Int.ofNat_lt.mpr (spec.length_lt_maxLength most hMost)
      exact (Keeps.call source hLengths state).map Int.toNat
  exact hLength.bind fun length after => source.kept_times hValues length after

theorem drawLength_bounds (hSource : source.Bounded) (state : σ) :
    (spec.maxLength = none → (spec.drawLength source state).1 = spec.length) ∧
      ∀ most, spec.maxLength = some most →
        spec.length ≤ (spec.drawLength source state).1 ∧
          (spec.drawLength source state).1 < most := by
  rw [drawLength]
  cases hMost : spec.maxLength with
  | none => simp
  | some most =>
    have hLengths := Int.ofNat_lt.mpr (spec.length_lt_maxLength most hMost)
    have hDrawn := hSource spec.length most state hLengths
    refine ⟨nofun, ?_⟩
    intro other hOther
    cases hOther
    dsimp only
    omega

theorem allows_draw (hSource : source.Bounded) (state : σ) :
    spec.Allows (spec.draw source state).1 := by
  have hValues : (spec.lower : Int) < spec.upper := Int.ofNat_lt.mpr spec.lower_lt_upper
  obtain ⟨hFixed, hRanged⟩ := spec.drawLength_bounds hSource state
  refine ⟨hSource.times hValues _ _, ?_, ?_⟩
  · simpa [draw] using hFixed
  · simpa [draw] using hRanged

end ChromosomeSpec

namespace Codec

open RandomSource

variable {source : RandomSource σ}

theorem kept_drawAll (source : RandomSource σ) (specs : List ChromosomeSpec) (state : σ) :
    Keeps (drawAll source specs state)
      fun earlier => drawAll source.recorded specs (state, earlier) := by
  induction specs generalizing state with
  | nil => exact .pure [] state
  | cons spec rest ih =>
    have hOthers := fun (first : List Int) after => (ih after).map (first :: ·)
    exact (spec.kept_draw source state).bind hOthers

theorem allows_drawAll (hSource : source.Bounded) (specs : List ChromosomeSpec) (state : σ) :
    List.Forall₂ ChromosomeSpec.Allows specs (drawAll source specs state).1 := by
  induction specs generalizing state with
  | nil => exact .nil
  | cons spec rest ih =>
    exact .cons (spec.allows_draw hSource state) (ih (spec.draw source state).2)

/-- A codec asks for numbers in non-empty ranges only. -/
theorem kept_newGenotype (codec : Codec) (source : RandomSource σ) (state : σ) :
    Keeps (codec.newGenotype source state)
      fun earlier => codec.newGenotype source.recorded (state, earlier) :=
  kept_drawAll source codec.encoding state

/-- A genotype that is drawn conforms to the encoding. -/
theorem allows_newGenotype (codec : Codec) (hSource : source.Bounded) (state : σ) :
    codec.Allows (codec.newGenotype source state).1 :=
  allows_drawAll hSource codec.encoding state

end Codec

end CodonGrammar
