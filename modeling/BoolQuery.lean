import BoolQuery.Session
import BoolQuery.Proofs.Query.ExprReader
import BoolQuery.Query.Meaning
import BoolQuery.Proofs.Query.TreeMeaning
import BoolQuery.Proofs.Query.Lexing
import BoolQuery.Proofs.Numeric.ReadBack
import BoolQuery.Proofs.Date.ReadBack
import BoolQuery.Proofs.Query.RoundTrip
import BoolQuery.Proofs.Query.Shape
import BoolQuery.Proofs.Query.StoredReferences
import BoolQuery.Proofs.Query.Splitting
import BoolQuery.Proofs.Query.Quotation
import BoolQuery.Proofs.Query.StatedRules
import BoolQuery.Proofs.Query.AcceptedQueries
import BoolQuery.Proofs.Query.Places
import BoolQuery.Proofs.Query.Language
import BoolQuery.Proofs.Query.TreeHeight
import BoolQuery.Proofs.Query.CanonicalText
import BoolQuery.Proofs.Query.AcceptedTrees
import BoolQuery.Proofs.Validity
import BoolQuery.Proofs.Query.HiddenDefinitions
import BoolQuery.Proofs.Wire.RoundTrip
import BoolQuery.Proofs.Wire.Declarations
import BoolQuery.Proofs.OfferedOptions
import BoolQuery.Proofs.Query.Verdicts
import BoolQuery.Proofs.Query.Retyping
import BoolQuery.Proofs.Explanations
import BoolQuery.Proofs.Query.WellFormedTrees
import BoolQuery.Proofs.FailingHooks
import BoolQuery.Proofs.DefaultOperators
import BoolQuery.Proofs.Query.BareNegation
import BoolQuery.Proofs.Query.BareWords
import BoolQuery.Proofs.Query.Separators
import BoolQuery.Proofs.Query.ClauseFailures
import BoolQuery.Proofs.Query.Remainder
import BoolQuery.Proofs.Query.Failures
import BoolQuery.Proofs.Query.Mentions
import BoolQuery.Proofs.Lookups
import BoolQuery.Proofs.Query.JsonStrings
import BoolQuery.Proofs.Query.Literals
import BoolQuery.Proofs.Query.TokenText
import BoolQuery.Proofs.RuleSet.NormalForm
import BoolQuery.Proofs.Query.Parentheses
import BoolQuery.Proofs.Query.UnnamedTrees
import BoolQuery.Proofs.Query.FlatQueries
import BoolQuery.Proofs.Query.Groups
import BoolQuery.Proofs.References
import BoolQuery.Proofs.Query.OpaqueNames
import BoolQuery.Proofs.Wire.QueryText
import BoolQuery.Proofs.Wire.Fields
import BoolQuery.Proofs.Session
