import PhpTranspiler.CommandLine.Disk
import PhpTranspiler.Main
import PhpTranspiler.Proofs.Concatenation
import PhpTranspiler.Proofs.Strictness
import PhpTranspiler.Proofs.Cutting
import PhpTranspiler.Proofs.Relexing
import PhpTranspiler.Proofs.Spacing
import PhpTranspiler.Proofs.Lexemes
import PhpTranspiler.Proofs.Rereading
import PhpTranspiler.Proofs.Integers
import PhpTranspiler.Proofs.Fragment.Syntax
import PhpTranspiler.Proofs.Fragment.Tokens
import PhpTranspiler.Proofs.Fragment.Reading
import PhpTranspiler.Proofs.Fragment.Trees
import PhpTranspiler.Proofs.Fragment.Agreement
import PhpTranspiler.Proofs.Reproduction
import PhpTranspiler.Proofs.PlainLayout
import PhpTranspiler.Proofs.Printing
import PhpTranspiler.Proofs.Decoding
import PhpTranspiler.Proofs.TreePlaces
import PhpTranspiler.Proofs.Identifiers
import PhpTranspiler.Proofs.Escapes
import PhpTranspiler.Proofs.Scopes
import PhpTranspiler.Proofs.Blocks
import PhpTranspiler.Proofs.Trimming
import PhpTranspiler.Proofs.CallTokens
import PhpTranspiler.Proofs.StringLiterals
import PhpTranspiler.Proofs.ArgumentLists
import PhpTranspiler.Proofs.Numerals
import PhpTranspiler.Proofs.Negation
import PhpTranspiler.Proofs.Levels
import PhpTranspiler.Proofs.Extraction
import PhpTranspiler.Proofs.Parameters
import PhpTranspiler.Proofs.Rounding
import PhpTranspiler.Proofs.ShortestDigits
import PhpTranspiler.Proofs.AnchoredParts
import PhpTranspiler.Proofs.AnchoredPlaces
import PhpTranspiler.Proofs.Lossless
