import InverseTelecine.CommandLine.Session
import InverseTelecine.Main
import InverseTelecine.Proofs.Restorer.Film
import InverseTelecine.Proofs.Restorer.Drift
import InverseTelecine.Proofs.Restorer.Tiling
import InverseTelecine.Proofs.Restorer.Readings
import InverseTelecine.Proofs.Cadence.TrailingZeros
import InverseTelecine.Proofs.Cadence.Rounds
import InverseTelecine.Proofs.Cadence.Parsing
import InverseTelecine.Proofs.Media.Weaving
import InverseTelecine.Proofs.Restorer.EmptySlots
import InverseTelecine.Proofs.Restorer.Donors
import InverseTelecine.Proofs.Restorer.Accounts
import InverseTelecine.Proofs.Restorer.OutputRate
import InverseTelecine.Proofs.Restorer.Safety
import InverseTelecine.Proofs.CommandLine.Library
import InverseTelecine.Proofs.PlanarVideo.RoundTrip
import InverseTelecine.Proofs.Restorer.Recycling
import InverseTelecine.Proofs.Retiming.Exactness
import InverseTelecine.Proofs.Options.Spelling
import InverseTelecine.Proofs.Media.Buffers
import InverseTelecine.Proofs.Media.Instants
import InverseTelecine.Proofs.Number.Notation
import InverseTelecine.Proofs.Restorer.Collecting
