import OptionalChain.Main
import OptionalChain.Proofs.Relations
import OptionalChain.Proofs.StableFixing
import OptionalChain.Proofs.PathTokens
import OptionalChain.Proofs.UnionOrder
import OptionalChain.Proofs.LexicalScopes
import OptionalChain.Proofs.UncommentedTokens
import OptionalChain.Proofs.KeptComments
import OptionalChain.Proofs.UnrelatedBases
import OptionalChain.Proofs.ComparisonChains
import OptionalChain.Proofs.UndeclaredNames
import OptionalChain.Proofs.FallbackValues
import OptionalChain.Proofs.FixOrder
import OptionalChain.Proofs.ComparisonOrder
import OptionalChain.Proofs.RestyledPaths
import OptionalChain.Proofs.Locations
import OptionalChain.Proofs.StoppedWalks
import OptionalChain.Proofs.DirectiveGrammar
import OptionalChain.Proofs.KeptLiterals
import OptionalChain.Proofs.LastConfiguration
import OptionalChain.Proofs.ConfigWarnings
import OptionalChain.Proofs.DiscoveredFiles
