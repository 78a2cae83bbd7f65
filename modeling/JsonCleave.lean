import JsonCleave.Main
import JsonCleave.Service
import JsonCleave.Session
import JsonCleave.Policy.RuleTable
import JsonCleave.Proofs.Tree
import JsonCleave.Proofs.Nesting
import JsonCleave.Proofs.Container
import JsonCleave.Proofs.Enclosure
import JsonCleave.Proofs.Harvest
import JsonCleave.Proofs.Tour
import JsonCleave.Proofs.Selection
import JsonCleave.Proofs.Interruption
import JsonCleave.Proofs.NumberText
import JsonCleave.Proofs.StringText
import JsonCleave.Proofs.Scanning
import JsonCleave.Proofs.Reread
import JsonCleave.Proofs.Lossless
import JsonCleave.Proofs.Refusal
import JsonCleave.Proofs.Boundary
import JsonCleave.Proofs.Document
import JsonCleave.Proofs.Sharing
import JsonCleave.Proofs.Crew
import JsonCleave.Proofs.Interleaving
import JsonCleave.Proofs.Moves
import JsonCleave.Proofs.Finality
import JsonCleave.Proofs.Unclosed
import JsonCleave.Proofs.OneCursor
import JsonCleave.Proofs.Lookahead
import JsonCleave.Proofs.Record
import JsonCleave.Proofs.Directory
import JsonCleave.Proofs.Upload
import JsonCleave.Proofs.Surfaces
import JsonCleave.Proofs.ContainerEnd
import JsonCleave.Proofs.EarlyClosing
import JsonCleave.Proofs.OnePass
import JsonCleave.Proofs.Cut
import JsonCleave.Proofs.Likeness
import JsonCleave.Proofs.OpenCount
import JsonCleave.Proofs.NormalForm
import JsonCleave.Proofs.CompactText
import JsonCleave.Proofs.Framing
import JsonCleave.Proofs.FirstToken
import JsonCleave.Proofs.TemporaryFiles
import JsonCleave.Proofs.HonestSource
import JsonCleave.Proofs.Discarding
import JsonCleave.Proofs.Dropping
