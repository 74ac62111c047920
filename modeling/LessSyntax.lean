import LessSyntax.Numeral.Basic
import LessSyntax.Parse
import LessSyntax.Tree.Print
import LessSyntax.Tree.Same
import LessSyntax.Tree.Walk
import LessSyntax.Proofs.Reading
import LessSyntax.Proofs.Accepting
import LessSyntax.Proofs.OrderedChoice
import LessSyntax.Proofs.TriviaRun
import LessSyntax.Proofs.Lexeme.Name
import LessSyntax.Proofs.Lexeme.Number
import LessSyntax.Proofs.Lexeme.StringLiteral
import LessSyntax.Proofs.Lexeme.Color
import LessSyntax.Proofs.Lexeme.Url
import LessSyntax.Proofs.ValueReading
import LessSyntax.Proofs.ItemReading
import LessSyntax.Proofs.WholeSource
import LessSyntax.Proofs.Nesting
import LessSyntax.Proofs.Limited
import LessSyntax.Proofs.NestingLimit
import LessSyntax.Proofs.Written
import LessSyntax.Proofs.ValueEdges
import LessSyntax.Proofs.WrittenValue
import LessSyntax.Proofs.RoundTrip
import LessSyntax.Proofs.Tiles
import LessSyntax.Proofs.Tiling
import LessSyntax.Proofs.Tokens
import LessSyntax.Proofs.WovenSelector
import LessSyntax.Proofs.WovenItem
import LessSyntax.Proofs.Weaving
import LessSyntax.Proofs.Shift
import LessSyntax.Proofs.Translation
import LessSyntax.Proofs.Advancing
import LessSyntax.Proofs.SeparatedList
import LessSyntax.Proofs.GrammarTranslation
import LessSyntax.Proofs.LeadingTrivia
import LessSyntax.Proofs.Blame
import LessSyntax.Proofs.RunEnds
import LessSyntax.Proofs.LongestRun
import LessSyntax.Proofs.Agreement
import LessSyntax.Proofs.CommonBeginning
import LessSyntax.Proofs.LexemeAgreement
import LessSyntax.Proofs.GrammarAgreement
import LessSyntax.Proofs.Concatenation
import LessSyntax.Proofs.Enclosing
import LessSyntax.Proofs.ClosingSemicolon
import LessSyntax.Proofs.StringGrammar
import LessSyntax.Proofs.ItemKinds
import LessSyntax.Proofs.NormalForm
import LessSyntax.Proofs.EntryAgreement
import LessSyntax.Proofs.TreeValues
import LessSyntax.Proofs.LeafValues
import LessSyntax.Proofs.Viability
import LessSyntax.Proofs.TokenViability
import LessSyntax.Proofs.LexemeViability
import LessSyntax.Proofs.StringViability
import LessSyntax.Proofs.ValueViability
import LessSyntax.Proofs.SelectorViability
import LessSyntax.Proofs.EndViability
import LessSyntax.Proofs.ItemViability
import LessSyntax.Proofs.ViablePrefix
import LessSyntax.Proofs.Coordinates
import LessSyntax.Proofs.ValidBefore
import LessSyntax.Proofs.LastCharacter
import LessSyntax.Proofs.CallArguments
import LessSyntax.Proofs.NumberGrammar
import LessSyntax.Proofs.NameGrammar
import LessSyntax.Proofs.JoinedPath
import LessSyntax.Proofs.WalkOrder
import LessSyntax.Proofs.Halting
import LessSyntax.Proofs.StoppingPlaces
import LessSyntax.Proofs.FoundText
import LessSyntax.Proofs.CursorDiscipline
