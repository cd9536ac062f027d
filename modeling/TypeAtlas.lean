import TypeAtlas.Construct
import TypeAtlas.Diagnostic.Report
import TypeAtlas.Digest
import TypeAtlas.Graph.Record
import TypeAtlas.Json.Reader
import TypeAtlas.Logging
import TypeAtlas.Normal.Normalization
import TypeAtlas.Reference.Groups
import TypeAtlas.Tag.Reading
import TypeAtlas.Declaration.Memory
import TypeAtlas.Resolution.Basic
import TypeAtlas.Main
import TypeAtlas.Proofs.Json.Unambiguous
import TypeAtlas.Proofs.Normal.Sealed
import TypeAtlas.Proofs.Graph.WellFormed
import TypeAtlas.Proofs.Json.Encodable
import TypeAtlas.Proofs.Normal.Content
import TypeAtlas.Proofs.Graph.Discriminated
import TypeAtlas.Proofs.Normal.Idempotent
import TypeAtlas.Proofs.Resolution.Bounded
import TypeAtlas.Proofs.Resolution.Sharing
import TypeAtlas.Proofs.Extraction.Complete
import TypeAtlas.Proofs.Extraction.Total
import TypeAtlas.Proofs.Json.ReadBack
import TypeAtlas.Proofs.Extraction.Published
import TypeAtlas.Proofs.Cache.Fingerprint
import TypeAtlas.Proofs.Cache.Map
import TypeAtlas.Proofs.Extraction.Limited
import TypeAtlas.Proofs.Repository.Referred
import TypeAtlas.Proofs.Graph.Refused
import TypeAtlas.Proofs.Graph.Coherent
import TypeAtlas.Proofs.Graph.Rearranged
import TypeAtlas.Proofs.Extraction.United
import TypeAtlas.Proofs.Tag.Written
import TypeAtlas.Proofs.Tag.Accounted
import TypeAtlas.Proofs.Normal.Widened
import TypeAtlas.Proofs.Tag.ForeignKey
import TypeAtlas.Proofs.Diagnostic.Reported
import TypeAtlas.Proofs.Cache.Trusted
import TypeAtlas.Proofs.Repository.Recorded
import TypeAtlas.Proofs.TypeScript.Canonical
import TypeAtlas.Proofs.Files.Normalized
import TypeAtlas.Proofs.Cache.Atomic
