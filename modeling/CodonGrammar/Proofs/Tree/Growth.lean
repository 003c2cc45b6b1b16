import CodonGrammar.Tree.Basic

/-!
# Trees that grow at their leaves

A tree grows into another one if the other one differs from it only in what is below its leaves: at
every node that has children, both trees have the same label and as many children. Growing in
several steps is growing (`Grows.trans`), because a leaf may become anything with its label.
-/

namespace CodonGrammar.Tree

variable {α : Type}

mutual

/-- Leaves of the first tree may have children in the second one, and all else is the same. -/
inductive Grows : Tree α → Tree α → Prop where
  | leaf (label : α) (children : List (Tree α)) : Grows (node label []) (node label children)
  | node (label : α) {children others : List (Tree α)} :
      GrowsAll children others → Grows (node label children) (node label others)

/-- The trees of the first list grow into those of the second one, in their order. -/
inductive GrowsAll : List (Tree α) → List (Tree α) → Prop where
  | nil : GrowsAll [] []
  | cons {tree other : Tree α} {rest others : List (Tree α)} :
      Grows tree other → GrowsAll rest others → GrowsAll (tree :: rest) (other :: others)

end

mutual

theorem Grows.refl : ∀ tree : Tree α, Grows tree tree
  | .node label children => .node label (GrowsAll.refl children)

theorem GrowsAll.refl : ∀ trees : List (Tree α), GrowsAll trees trees
  | [] => .nil
  | tree :: rest => .cons (Grows.refl tree) (GrowsAll.refl rest)

end

mutual

theorem Grows.trans : ∀ {first second third : Tree α},
    Grows first second → Grows second third → Grows first third
  | _, _, _, .leaf label _, .leaf _ children => .leaf label children
  | _, _, _, .leaf label _, .node _ _ => .leaf label _
  | _, _, _, .node label .nil, .leaf _ children => .leaf label children
  | _, _, _, .node label hFirst, .node _ hSecond => .node label (hFirst.trans hSecond)

theorem GrowsAll.trans : ∀ {first second third : List (Tree α)},
    GrowsAll first second → GrowsAll second third → GrowsAll first third
  | _, _, _, .nil, .nil => .nil
  | _, _, _, .cons hFirst hRest, .cons hSecond hOthers =>
    .cons (hFirst.trans hSecond) (hRest.trans hOthers)

end

end CodonGrammar.Tree
