import CqlWire.Command.Run
import CqlWire.Engine.Bridge
import CqlWire.Holder
import CqlWire.Main
import CqlWire.Proofs.Acceptance
import CqlWire.Proofs.Acyclic
import CqlWire.Proofs.Addresses
import CqlWire.Proofs.Agreement
import CqlWire.Proofs.Alignment
import CqlWire.Proofs.Assembly
import CqlWire.Proofs.Boundaries
import CqlWire.Proofs.Bridge
import CqlWire.Proofs.ByContent
import CqlWire.Proofs.ByteOrder
import CqlWire.Proofs.ByteReading
import CqlWire.Proofs.Canonical
import CqlWire.Proofs.CanonicalView
import CqlWire.Proofs.Collapse
import CqlWire.Proofs.Concord
import CqlWire.Proofs.Confinement
import CqlWire.Proofs.Contents
import CqlWire.Proofs.DecimalOrder
import CqlWire.Proofs.Declarations
import CqlWire.Proofs.Decoding
import CqlWire.Proofs.Dependencies
import CqlWire.Proofs.Descriptors
import CqlWire.Proofs.Digits
import CqlWire.Proofs.DistinctMembers
import CqlWire.Proofs.Distinctness
import CqlWire.Proofs.Drawing
import CqlWire.Proofs.Edits
import CqlWire.Proofs.Embedding
import CqlWire.Proofs.Encoding
import CqlWire.Proofs.Endless
import CqlWire.Proofs.EngineLeaf
import CqlWire.Proofs.Entries
import CqlWire.Proofs.Equality
import CqlWire.Proofs.Exchange
import CqlWire.Proofs.Expansion
import CqlWire.Proofs.Extent
import CqlWire.Proofs.Faults
import CqlWire.Proofs.Filling
import CqlWire.Proofs.Fits
import CqlWire.Proofs.Frames
import CqlWire.Proofs.Framing
import CqlWire.Proofs.Freezing
import CqlWire.Proofs.FreshLoad
import CqlWire.Proofs.Generation
import CqlWire.Proofs.Grammar
import CqlWire.Proofs.Holders
import CqlWire.Proofs.Identity
import CqlWire.Proofs.InnerTypes
import CqlWire.Proofs.Intake
import CqlWire.Proofs.Interchange
import CqlWire.Proofs.JsonText
import CqlWire.Proofs.KeyTexts
import CqlWire.Proofs.Laying
import CqlWire.Proofs.LeafCodec
import CqlWire.Proofs.LeafOrder
import CqlWire.Proofs.Leftovers
import CqlWire.Proofs.LoadPasses
import CqlWire.Proofs.Loading
import CqlWire.Proofs.Lookups
import CqlWire.Proofs.Looping
import CqlWire.Proofs.Members
import CqlWire.Proofs.Mentions
import CqlWire.Proofs.Naming
import CqlWire.Proofs.Origins
import CqlWire.Proofs.PlainKeys
import CqlWire.Proofs.Positions
import CqlWire.Proofs.Preorder
import CqlWire.Proofs.PrintedNames
import CqlWire.Proofs.Printing
import CqlWire.Proofs.Proper
import CqlWire.Proofs.Quoting
import CqlWire.Proofs.Readable
import CqlWire.Proofs.Reading
import CqlWire.Proofs.Records
import CqlWire.Proofs.References
import CqlWire.Proofs.Reload
import CqlWire.Proofs.Renewal
import CqlWire.Proofs.Replacement
import CqlWire.Proofs.Rereading
import CqlWire.Proofs.Rescaling
import CqlWire.Proofs.Resolution
import CqlWire.Proofs.RoundTrip
import CqlWire.Proofs.Runs
import CqlWire.Proofs.Separation
import CqlWire.Proofs.Shipping
import CqlWire.Proofs.Shortest
import CqlWire.Proofs.Sorting
import CqlWire.Proofs.Spelling
import CqlWire.Proofs.Splitting
import CqlWire.Proofs.Sufficiency
import CqlWire.Proofs.Survival
import CqlWire.Proofs.TableLayout
import CqlWire.Proofs.Termination
import CqlWire.Proofs.Throughout
import CqlWire.Proofs.Tokens
import CqlWire.Proofs.TotalPreorder
import CqlWire.Proofs.Totality
import CqlWire.Proofs.Truncation
import CqlWire.Proofs.TypeSkeleton
import CqlWire.Proofs.Typing
import CqlWire.Proofs.UniformReading
import CqlWire.Proofs.UniformWriting
import CqlWire.Proofs.Variants
import CqlWire.Proofs.WellFormed
import CqlWire.Proofs.Widening
import CqlWire.Proofs.WireOrder
import CqlWire.Proofs.Words
import CqlWire.Proofs.Writing
import CqlWire.Random.Value
import CqlWire.Registry.Definition
import CqlWire.Settings
import CqlWire.Table.Index
import CqlWire.Table.Row
import CqlWire.Table.Statement
import CqlWire.Type.ByteScan
import CqlWire.Type.Index
import CqlWire.Type.Parser
import CqlWire.Value.Equality
import CqlWire.Value.Plain
import CqlWire.Wire.Decode
import CqlWire.Wire.Encode
