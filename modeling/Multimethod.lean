import Multimethod.Engine.Pool
import Multimethod.Proofs.Building
import Multimethod.Proofs.Matching
import Multimethod.Value.Placed
import Multimethod.Value.Printer
import Multimethod.Proofs.PartialRoutes
import Multimethod.Proofs.Furthest
import Multimethod.Proofs.Truthful
import Multimethod.Proofs.Fallback
import Multimethod.Proofs.Specificity
import Multimethod.Proofs.DeclarationOrder
import Multimethod.Proofs.MoreConversions
import Multimethod.Proofs.Grammar
import Multimethod.Proofs.Canonical
import Multimethod.Proofs.Merging
import Multimethod.Engine.Session
import Multimethod.Proofs.Acts
import Multimethod.Proofs.InertConversions
import Multimethod.Proofs.Sessions
import Multimethod.Proofs.DuplicateKeys
import Multimethod.Proofs.Pieces
import Multimethod.Proofs.RepeatedSlot
import Multimethod.Proofs.Restriction
import Multimethod.Proofs.ResolvedNames
import Multimethod.Proofs.Converting
import Multimethod.Proofs.Reordering
import Multimethod.Proofs.EditScripts
import Multimethod.Proofs.NearestName
import Multimethod.Proofs.SharedValues
import Multimethod.Proofs.IndexInStep
import Multimethod.Proofs.HelpfulConversions
import Multimethod.Proofs.SlotTexts
import Multimethod.Engine.IndexedMethods
import Multimethod.Proofs.FoundMethods
