import Paging.Address.Basic
import Paging.Address.Size
import Paging.Address.Text
import Paging.Ascending
import Paging.Boot
import Paging.Digest
import Paging.Fault
import Paging.Geometry
import Paging.Log
import Paging.Machine.Basic
import Paging.Machine.Cpu
import Paging.Machine.Ram
import Paging.Machine.Tlb
import Paging.Machine.Walk
import Paging.Pool.Basic
import Paging.Pool.Lending
import Paging.Proofs.AddressSpace
import Paging.Proofs.BootOutcome
import Paging.Proofs.Cache
import Paging.Proofs.Checks
import Paging.Proofs.Coherence
import Paging.Proofs.Commutation
import Paging.Proofs.Direct
import Paging.Proofs.Effects
import Paging.Proofs.Entries
import Paging.Proofs.FrameSet
import Paging.Proofs.Geometry
import Paging.Proofs.Identity
import Paging.Proofs.Independence
import Paging.Proofs.Inspection
import Paging.Proofs.Installation
import Paging.Proofs.Invalidation
import Paging.Proofs.Lending
import Paging.Proofs.LifeCycle
import Paging.Proofs.Mappings
import Paging.Proofs.Mirror
import Paging.Proofs.Operations
import Paging.Proofs.Ownership
import Paging.Proofs.Pool
import Paging.Proofs.PoolSetup
import Paging.Proofs.Records
import Paging.Proofs.Refinement
import Paging.Proofs.Refusals
import Paging.Proofs.Rights
import Paging.Proofs.Runs
import Paging.Proofs.Safety
import Paging.Proofs.SelfMap
import Paging.Proofs.SlotCodec
import Paging.Proofs.SpanExtent
import Paging.Proofs.SpanMapping
import Paging.Proofs.SpanRemoval
import Paging.Proofs.Spans
import Paging.Proofs.Splitting
import Paging.Proofs.Staleness
import Paging.Proofs.Startup
import Paging.Proofs.Structure
import Paging.Proofs.Tables
import Paging.Proofs.Translation
import Paging.Proofs.Word
import Paging.Refusal
import Paging.Region
import Paging.Root
import Paging.Session.Outcome
import Paging.Session.Run
import Paging.Session.Step
import Paging.Space.Inspect
import Paging.Space.Lookup
import Paging.Space.Mapping
import Paging.Table.Basic
import Paging.Table.Entry
import Paging.Table.Step
import Paging.Table.Text
import Paging.Text.Hex
import Paging.Word.Edit
import Paging.Word.Field
import Paging.Word.Fields
import Paging.Word.Layout
import Paging.Word.Registers
