import WireLayout.Main
import WireLayout.Proofs.Batches
import WireLayout.Proofs.BuriedFills
import WireLayout.Proofs.Correspondence
import WireLayout.Proofs.DeclarationOrder
import WireLayout.Proofs.DecodeFaults
import WireLayout.Proofs.DefaultDiscriminators
import WireLayout.Proofs.DefaultValues
import WireLayout.Proofs.DefinedNames
import WireLayout.Proofs.Derivation
import WireLayout.Proofs.ExactSizes
import WireLayout.Proofs.FixedSizes
import WireLayout.Proofs.GroupHeaders
import WireLayout.Proofs.IgnoredFields
import WireLayout.Proofs.Invariants
import WireLayout.Proofs.LookingBack
import WireLayout.Proofs.MeasureDepth
import WireLayout.Proofs.MemberLookup
import WireLayout.Proofs.Nesting
import WireLayout.Proofs.Numerals
import WireLayout.Proofs.PrefixFree
import WireLayout.Proofs.ReadableHeaders
import WireLayout.Proofs.Readers
import WireLayout.Proofs.Recovery
import WireLayout.Proofs.Reencode
import WireLayout.Proofs.Reentry
import WireLayout.Proofs.RegionItems
import WireLayout.Proofs.RegionLengths
import WireLayout.Proofs.Registrations
import WireLayout.Proofs.Reservations
import WireLayout.Proofs.RoundTrip
import WireLayout.Proofs.SizeOfDecoded
import WireLayout.Proofs.SizeOfEncoding
import WireLayout.Proofs.VersionFamily
