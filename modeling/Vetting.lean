import Vetting.Main
import Vetting.Proofs.Walk
import Vetting.Proofs.AuditChain
import Vetting.Proofs.Resolution
import Vetting.Proofs.DependentsFirst
import Vetting.Proofs.Obligation
import Vetting.Proofs.Propagation
import Vetting.Proofs.Equations
import Vetting.Proofs.PassingVet
import Vetting.Proofs.StricterMode
import Vetting.Proofs.CycleSearch
import Vetting.Proofs.Implication
import Vetting.Proofs.DeadEnds
import Vetting.Proofs.GraphGrowth
import Vetting.Proofs.SessionMemory
import Vetting.Proofs.MoreRecords
import Vetting.Proofs.SingleSuggestion
import Vetting.Proofs.MergedReviews
import Vetting.Proofs.BatchSuggestion
import Vetting.Proofs.SuggestedVet
import Vetting.Proofs.ConflictVeto
import Vetting.Proofs.WithoutExemptions
import Vetting.Proofs.AdoptedRecords
import Vetting.Proofs.ForeignJudgement
import Vetting.Proofs.GrowingRequirements
import Vetting.Proofs.CheckedResolution
import Vetting.Proofs.EvidenceAndDenial
import Vetting.Proofs.CoherentReport
import Vetting.Proofs.CheckedVet
import Vetting.Proofs.ConfigurationFaults
import Vetting.Proofs.StrongerPolicies
import Vetting.Proofs.SuggestedCriteria
import Vetting.Proofs.CertifiedSuggestion
import Vetting.Proofs.SortedEntries
import Vetting.Proofs.SortedSections
import Vetting.Proofs.ReorderedCriteria
import Vetting.Proofs.WrittenFile
import Vetting.Proofs.SortedMembers
import Vetting.Proofs.AppendedAudit
import Vetting.Proofs.CertifiedStore
import Vetting.Proofs.StoreFiles
import Vetting.Proofs.SessionVet
import Vetting.Proofs.SharedSessions
import Vetting.Proofs.Ancestors
import Vetting.Proofs.RecordOrder
import Vetting.Proofs.VersionText
import Vetting.Proofs.ReadBack
import Vetting.Proofs.SortedImports
import Vetting.Proofs.RefreshedImports
import Vetting.Proofs.BuildMetadata
import Vetting.Proofs.ReportedFaults
import Vetting.Proofs.SuggestionHistory
import Vetting.Proofs.NeededReviews
import Vetting.Proofs.ClosedWalks
import Vetting.Proofs.CanonicalOrder
import Vetting.Proofs.ClosedCriteria
import Vetting.Proofs.UsefulCriteria
import Vetting.Proofs.CertifiedDefault
import Vetting.Proofs.MinimalCriteria
import Vetting.Proofs.TrustAndDenial
import Vetting.Proofs.FiledRecords
import Vetting.Proofs.UsableImports
import Vetting.Proofs.CheapestStart
import Vetting.Proofs.PackageText
import Vetting.Proofs.VersionOrder
import Vetting.Proofs.SemanticPrecedence
import Vetting.Proofs.RangeText
import Vetting.Proofs.RangeIntervals
import Vetting.Proofs.EdgeTables
import Vetting.Proofs.SearchTree
import Vetting.Proofs.PrimedSessions
import Vetting.Proofs.SessionOrder
import Vetting.Proofs.SessionPropagation
