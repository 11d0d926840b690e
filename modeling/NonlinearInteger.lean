import NonlinearInteger.Lp.Reader
import NonlinearInteger.Lp.Writer
import NonlinearInteger.Random.Xoshiro
import NonlinearInteger.Random.ChaCha
import NonlinearInteger.Allocation.Instance
import NonlinearInteger.Json.Reader
import NonlinearInteger.Json.Writer
import NonlinearInteger.Search.Assignment
import NonlinearInteger.Search.Pool
import NonlinearInteger.Search.IndexSet
import NonlinearInteger.Search.Report
import NonlinearInteger.Search.Settings
import NonlinearInteger.Search.Apply
import NonlinearInteger.Search.Run
import NonlinearInteger.Search.Solve
import NonlinearInteger.Main
import NonlinearInteger.Proofs.Builders
import NonlinearInteger.Proofs.Saturation
import NonlinearInteger.Proofs.Verification
import NonlinearInteger.Proofs.IndexSets
import NonlinearInteger.Proofs.Magnitude
import NonlinearInteger.Proofs.Bounds
import NonlinearInteger.Proofs.Rows
import NonlinearInteger.Proofs.Caches
import NonlinearInteger.Proofs.Consistent
import NonlinearInteger.Proofs.Moves
import NonlinearInteger.Proofs.Tallies
import NonlinearInteger.Proofs.Offers
import NonlinearInteger.Proofs.Samples
import NonlinearInteger.Proofs.PoolSets
import NonlinearInteger.Proofs.Draws
import NonlinearInteger.Proofs.Steps
import NonlinearInteger.Proofs.Checks
import NonlinearInteger.Proofs.Runs
import NonlinearInteger.Proofs.Sessions
import NonlinearInteger.Proofs.Tracker
import NonlinearInteger.Proofs.Counts
import NonlinearInteger.Proofs.Arithmetic
import NonlinearInteger.Proofs.StrictValues
import NonlinearInteger.Proofs.Exactness
import NonlinearInteger.Proofs.Frames
import NonlinearInteger.Proofs.Pools
import NonlinearInteger.Proofs.Outcomes
import NonlinearInteger.Proofs.Transitions
import NonlinearInteger.Proofs.Weights
import NonlinearInteger.Proofs.Moments
import NonlinearInteger.Proofs.Scores
import NonlinearInteger.Proofs.StepKinds
import NonlinearInteger.Proofs.Exhaustion
import NonlinearInteger.Proofs.StaticBounds
import NonlinearInteger.Proofs.TabuClocks
import NonlinearInteger.Proofs.WeightAccounts
import NonlinearInteger.Proofs.Budgets
import NonlinearInteger.Proofs.Repairs
import NonlinearInteger.Proofs.ExtremeValues
import NonlinearInteger.Proofs.Forecasts
import NonlinearInteger.Proofs.Tokens
import NonlinearInteger.Proofs.Grammar
import NonlinearInteger.Proofs.Expressions
import NonlinearInteger.Proofs.Readings
import NonlinearInteger.Proofs.Coefficients
import NonlinearInteger.Proofs.WrittenLines
import NonlinearInteger.Proofs.Drafts
import NonlinearInteger.Proofs.RoundTrip
import NonlinearInteger.Proofs.Accepted
import NonlinearInteger.Proofs.Rereading
import NonlinearInteger.Proofs.Contents
import NonlinearInteger.Proofs.DeclaredDomains
import NonlinearInteger.Proofs.NumberedVariables
import NonlinearInteger.Proofs.Values
import NonlinearInteger.Proofs.CrossProducts
import NonlinearInteger.Proofs.DrawnTables
import NonlinearInteger.Proofs.Shares
import NonlinearInteger.Proofs.Limits
import NonlinearInteger.Proofs.Allocations
import NonlinearInteger.Proofs.Starts
import NonlinearInteger.Proofs.Admission
import NonlinearInteger.Proofs.InstanceStarts
import NonlinearInteger.Proofs.DroppedNeeds
import NonlinearInteger.Proofs.FloatRanges
import NonlinearInteger.Proofs.JsonScalars
import NonlinearInteger.Proofs.JsonTexts
import NonlinearInteger.Proofs.ReadIntegers
import NonlinearInteger.Proofs.JsonSuffixes
import NonlinearInteger.Proofs.ReportTexts
import NonlinearInteger.Proofs.Verdicts
import NonlinearInteger.Proofs.NamedAssignments
import NonlinearInteger.Proofs.Lifts
import NonlinearInteger.Proofs.RepairCandidates
import NonlinearInteger.Proofs.Selections
import NonlinearInteger.Proofs.InPlace
import NonlinearInteger.Proofs.Commuting
import NonlinearInteger.Proofs.IndexedMerge
import NonlinearInteger.Proofs.PolynomialArithmetic
import NonlinearInteger.Proofs.CanonicalForms
import NonlinearInteger.Proofs.EqualCoefficients
import NonlinearInteger.Proofs.PoolColumns
import NonlinearInteger.Proofs.OccurrenceTables
import NonlinearInteger.Proofs.Rejection
import NonlinearInteger.Proofs.ServingLists
import NonlinearInteger.Proofs.Decimals
import NonlinearInteger.Seconds
