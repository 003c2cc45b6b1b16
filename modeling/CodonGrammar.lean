import CodonGrammar.Codon.Source
import CodonGrammar.CommandLine.Folder
import CodonGrammar.Grammar.Draft
import CodonGrammar.Main
import CodonGrammar.Proofs.Bnf.Escaping
import CodonGrammar.Proofs.Bnf.FreshNames
import CodonGrammar.Proofs.Bnf.Language
import CodonGrammar.Proofs.Bnf.Layout
import CodonGrammar.Proofs.Bnf.Misplaced
import CodonGrammar.Proofs.Bnf.Partition
import CodonGrammar.Proofs.Bnf.Progress
import CodonGrammar.Proofs.Bnf.Rejection
import CodonGrammar.Proofs.Bnf.Respacing
import CodonGrammar.Proofs.Bnf.RoundTrip
import CodonGrammar.Proofs.Codec.Bytes
import CodonGrammar.Proofs.Codec.Residues
import CodonGrammar.Proofs.Codec.RuleChromosomes
import CodonGrammar.Proofs.Codon.Interleaving
import CodonGrammar.Proofs.Codon.Sessions
import CodonGrammar.Proofs.CommandLine.CodonNumerals
import CodonGrammar.Proofs.Derivation.Confluence
import CodonGrammar.Proofs.Derivation.Continuation
import CodonGrammar.Proofs.Derivation.LevelOrder
import CodonGrammar.Proofs.Derivation.LimitRecord
import CodonGrammar.Proofs.Derivation.Linear
import CodonGrammar.Proofs.Derivation.Soundness
import CodonGrammar.Proofs.Derivation.TreeRecord
import CodonGrammar.Proofs.Display.Alignment
import CodonGrammar.Proofs.Grammar.Tables
import CodonGrammar.Proofs.Tree.LinkedGrowth
import CodonGrammar.Proofs.Tree.Recursion
import CodonGrammar.Proofs.Tree.Serialization
import CodonGrammar.Proofs.Tree.StructureText
import CodonGrammar.Tree.Linked
import CodonGrammar.Tree.Unchecked
