import ApiGraph.ConfigYaml
import ApiGraph.Graph.OutlineYaml
import ApiGraph.Proofs.AcceptLists
import ApiGraph.Proofs.Accounts
import ApiGraph.Proofs.Additions
import ApiGraph.Proofs.Aliases
import ApiGraph.Proofs.Arrivals
import ApiGraph.Proofs.BodyDefaults
import ApiGraph.Proofs.BodyVerdicts
import ApiGraph.Proofs.CodeKeys
import ApiGraph.Proofs.Exclusions
import ApiGraph.Proofs.FaultPlaces
import ApiGraph.Proofs.Following
import ApiGraph.Proofs.Handovers
import ApiGraph.Proofs.HeaderEndings
import ApiGraph.Proofs.Identifiers
import ApiGraph.Proofs.Joining
import ApiGraph.Proofs.Localization
import ApiGraph.Proofs.Offsets
import ApiGraph.Proofs.OutlineReading
import ApiGraph.Proofs.Patching
import ApiGraph.Proofs.Projection
import ApiGraph.Proofs.Registration
import ApiGraph.Proofs.Rehydration
import ApiGraph.Proofs.Relocation
import ApiGraph.Proofs.Respelling
import ApiGraph.Proofs.SchemaEndings
import ApiGraph.Proofs.SearchedSchemas
import ApiGraph.Proofs.SecurityUnion
import ApiGraph.Proofs.Skips
import ApiGraph.Proofs.Structures
import ApiGraph.Proofs.TreeAccess
import ApiGraph.Proofs.Uplifting
import ApiGraph.Proofs.Visits
import ApiGraph.Session
