import TextGrammar.LineMap
import TextGrammar.Token.Lexer
import TextGrammar.Token.Literal
import TextGrammar.Value.Json
import TextGrammar.Capture
import TextGrammar.Number.Reading
import TextGrammar.Compile
import TextGrammar.Grammar.Display
import TextGrammar.Run
import TextGrammar.CommandLine
import TextGrammar.Main
import TextGrammar.Proofs.LexicalScoping
import TextGrammar.Proofs.DepthBound
import TextGrammar.Proofs.DisplayRoundTrip
import TextGrammar.Proofs.AtomicMatching
import TextGrammar.Proofs.CallIsolation
import TextGrammar.Proofs.ParsingSemantics
import TextGrammar.Proofs.SourceLegality
import TextGrammar.Proofs.CaptureShapes
import TextGrammar.Proofs.RuleOrder
import TextGrammar.Proofs.SourceSyntax
import TextGrammar.Proofs.NestingBound
import TextGrammar.Proofs.SourceTokens
import TextGrammar.Proofs.QuotedText
import TextGrammar.Proofs.StringLiterals
import TextGrammar.Proofs.DepthLimit
import TextGrammar.Proofs.BracketedTrace
import TextGrammar.Proofs.InPlaceReading
import TextGrammar.Proofs.IntegerComparison
import TextGrammar.Proofs.LineReading
import TextGrammar.Proofs.NullableRules
import TextGrammar.Proofs.NumberReading
import TextGrammar.Proofs.LeftRecursionReports
import TextGrammar.Proofs.FurthestFailure
import TextGrammar.Proofs.IntegerConversion
import TextGrammar.Proofs.IntegerTexts
import TextGrammar.Proofs.LoopScoping
import TextGrammar.Proofs.Accumulation
import TextGrammar.Proofs.SourceLocations
import TextGrammar.Proofs.SourceDiagnostics
import TextGrammar.Proofs.DisplayedVariables
import TextGrammar.Proofs.SourceSpans
import TextGrammar.Proofs.OrderedRecords
import TextGrammar.Proofs.ArgumentScanning
import TextGrammar.Proofs.JsonFaithful
import TextGrammar.Proofs.ParserProgress
