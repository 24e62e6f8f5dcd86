import YangBinding.Main
import YangBinding.Session
import YangBinding.Tree.Cursor
import YangBinding.Wire.Object
import YangBinding.Wire.Settings
import YangBinding.Proofs.Outcome
import YangBinding.Proofs.Schema.Links
import YangBinding.Proofs.Registry.Stacks
import YangBinding.Proofs.Registry.Ledger
import YangBinding.Proofs.Schema.Offers
import YangBinding.Proofs.Schema.Compiled
import YangBinding.Proofs.Schema.Unguarded
import YangBinding.Proofs.Schema.Arena
import YangBinding.Proofs.Schema.Listing
import YangBinding.Proofs.Schema.Resolution
import YangBinding.Proofs.Schema.Placing
import YangBinding.Proofs.Schema.Layout
import YangBinding.Proofs.Schema.Acceptance
import YangBinding.Proofs.Schema.Renumbering
import YangBinding.Proofs.Schema.Confluence
import YangBinding.Proofs.Schema.Seats
import YangBinding.Proofs.Schema.Descent
import YangBinding.Proofs.Schema.Paths
import YangBinding.Proofs.Text.Integers
import YangBinding.Proofs.Leaf.CanonicalText
import YangBinding.Proofs.Object.Equality
import YangBinding.Proofs.Registry.Sole
import YangBinding.Proofs.Registry.Reachable
import YangBinding.Proofs.Object.Key
import YangBinding.Proofs.Binding.Route
import YangBinding.Proofs.Binding.Address
import YangBinding.Proofs.Registry.Payloads
import YangBinding.Proofs.Latest
import YangBinding.Proofs.Object.Content
import YangBinding.Proofs.Binding.Described
import YangBinding.Proofs.Binding.Slots
import YangBinding.Proofs.Binding.Written
import YangBinding.Proofs.Binding.Restored
import YangBinding.Proofs.Binding.ReadBack
import YangBinding.Proofs.Binding.Lossless
import YangBinding.Proofs.Binding.Items
import YangBinding.Proofs.Binding.RoundTrip
import YangBinding.Proofs.Binding.Standing
import YangBinding.Proofs.Binding.LeafIds
import YangBinding.Proofs.Binding.Rooting
import YangBinding.Proofs.Binding.Assembled
import YangBinding.Proofs.Binding.Addressed
import YangBinding.Proofs.Binding.Outline
import YangBinding.Proofs.Binding.Faults
import YangBinding.Proofs.Binding.Positioned
import YangBinding.Proofs.Binding.Entries
import YangBinding.Proofs.Binding.Kept
import YangBinding.Proofs.Binding.Forming
import YangBinding.Proofs.Binding.Readout
import YangBinding.Proofs.Binding.Changes
import YangBinding.Proofs.Binding.Gathered
import YangBinding.Proofs.Binding.Reordered
import YangBinding.Proofs.Binding.Retrieved
import YangBinding.Proofs.Binding.Homing
import YangBinding.Proofs.Binding.Writeback
import YangBinding.Proofs.Json.Lexeme
import YangBinding.Proofs.Json.Reading
import YangBinding.Proofs.Json.Nesting
import YangBinding.Proofs.Wire.Forms
import YangBinding.Proofs.Binding.Persistence
import YangBinding.Proofs.Binding.Unrelated
import YangBinding.Proofs.Binding.Arrival
import YangBinding.Proofs.Binding.Cursor
import YangBinding.Proofs.Codec.Documents
import YangBinding.Proofs.Schema.Namespaces
import YangBinding.Proofs.Binding.Waypoints
import YangBinding.Proofs.Binding.EntryKeys
import YangBinding.Proofs.Binding.Licensed
import YangBinding.Proofs.Calendar.Revisions
import YangBinding.Proofs.Wire.Sources
import YangBinding.Proofs.Registry.Fitting
import YangBinding.Proofs.Binding.Prevailing
import YangBinding.Proofs.Binding.Spelling
import YangBinding.Proofs.Tree.ChildMap
