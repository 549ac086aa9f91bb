import ArgumentMap.Proofs.Channel.Recording
import ArgumentMap.Proofs.Pass.Ends
import ArgumentMap.Proofs.Pass.Finality
import ArgumentMap.Proofs.Pass.Handing
import ArgumentMap.Proofs.Pass.Keeping
import ArgumentMap.Proofs.Session.Anchoring
import ArgumentMap.Proofs.Session.Cardinality
import ArgumentMap.Proofs.Session.Coherence
import ArgumentMap.Proofs.Session.Content
import ArgumentMap.Proofs.Session.Minting
import ArgumentMap.Proofs.Session.Mirror
import ArgumentMap.Proofs.Session.OneWay
import ArgumentMap.Proofs.Session.Overfilling
import ArgumentMap.Proofs.Session.Refinement
import ArgumentMap.Proofs.Wire.Canonical
import ArgumentMap.Proofs.Wire.Exporting
