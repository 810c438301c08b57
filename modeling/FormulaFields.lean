import FormulaFields.Main
import FormulaFields.Proofs.Ceiling
import FormulaFields.Proofs.Provenance
import FormulaFields.Proofs.Renaming
import FormulaFields.Proofs.TreeReading
import FormulaFields.Proofs.Fallback
import FormulaFields.Proofs.BareOperands
import FormulaFields.Proofs.PrintedStatements
import FormulaFields.Proofs.Cleaning
import FormulaFields.Proofs.QuotedTexts
import FormulaFields.Proofs.BlockComments
import FormulaFields.Proofs.RuleBooks
import FormulaFields.Proofs.IndexRuns
import FormulaFields.Proofs.ListedAlphas
import FormulaFields.Proofs.TrailingComments
import FormulaFields.Proofs.Commas
import FormulaFields.Proofs.SignaturePositions
import FormulaFields.Proofs.Links
import FormulaFields.Proofs.PrintedJson
import FormulaFields.Proofs.PrintedListings
import FormulaFields.Proofs.JoinedParts
import FormulaFields.Proofs.StatementOrder
import FormulaFields.Proofs.SourceOrder
import FormulaFields.Proofs.PrintedReports
import FormulaFields.Proofs.OtherAlphas
import FormulaFields.Proofs.CommentFree
import FormulaFields.Proofs.SplitTexts
import FormulaFields.Proofs.OperandChains
import FormulaFields.Proofs.JoinedScripts
import FormulaFields.Proofs.NamedOperators
import FormulaFields.Proofs.ValidSettings
import FormulaFields.Proofs.CheckedSearch
import FormulaFields.Proofs.Parentheses
import FormulaFields.Proofs.ListingPages
