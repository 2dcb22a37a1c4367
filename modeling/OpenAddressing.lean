import OpenAddressing.Word
import OpenAddressing.Tag
import OpenAddressing.Table.Fault
import OpenAddressing.Table.Basic
import OpenAddressing.Table.Lookup
import OpenAddressing.Table.Rehash
import OpenAddressing.Table.Insert
import OpenAddressing.Table.Delete
import OpenAddressing.Table.Iterate
import OpenAddressing.Table.Map
import OpenAddressing.Table.Storage
import OpenAddressing.Table.Audit
import OpenAddressing.Table.Dump
import OpenAddressing.Text.Printable
import OpenAddressing.Text.Line
import OpenAddressing.Text.Quoted
import OpenAddressing.Text.Field
import OpenAddressing.Text.Template
import OpenAddressing.Value.Basic
import OpenAddressing.Value.Number
import OpenAddressing.Value.Equality
import OpenAddressing.Value.Render
import OpenAddressing.Value.Refusal
import OpenAddressing.Value.Hash
import OpenAddressing.Value.Source
import OpenAddressing.Value.Rule
import OpenAddressing.Value.Format
import OpenAddressing.Session.Basic
import OpenAddressing.Session.Command
import OpenAddressing.Session.Run
import OpenAddressing.Session.Call
import OpenAddressing.Text.Decimal
import OpenAddressing.Proofs.Cycle
import OpenAddressing.Proofs.Outcome
import OpenAddressing.Proofs.Lawful
import OpenAddressing.Proofs.Slots
import OpenAddressing.Proofs.WellFormed
import OpenAddressing.Proofs.Lookup
import OpenAddressing.Proofs.Audit
import OpenAddressing.Proofs.Rehash
import OpenAddressing.Proofs.Plan
import OpenAddressing.Proofs.Insert
import OpenAddressing.Proofs.Delete
import OpenAddressing.Proofs.Iterate
import OpenAddressing.Proofs.Map
import OpenAddressing.Proofs.Request
import OpenAddressing.Proofs.Effect
import OpenAddressing.Proofs.Invariant
import OpenAddressing.Proofs.Content
import OpenAddressing.Proofs.Refinement
import OpenAddressing.Proofs.Shape
import OpenAddressing.Proofs.Capacity
import OpenAddressing.Proofs.Growth
import OpenAddressing.Proofs.Load
import OpenAddressing.Proofs.Verdict
import OpenAddressing.Proofs.Visit
import OpenAddressing.Proofs.Failure
import OpenAddressing.Proofs.Errand
import OpenAddressing.Proofs.Values
import OpenAddressing.Proofs.Observation
import OpenAddressing.Proofs.Age
import OpenAddressing.Proofs.Detection
import OpenAddressing.Proofs.Encoding
import OpenAddressing.Proofs.Faults
import OpenAddressing.Proofs.Soundness
import OpenAddressing.Proofs.Blind
import OpenAddressing.Proofs.Invisible
import OpenAddressing.Proofs.Search
import OpenAddressing.Proofs.Retry
import OpenAddressing.Proofs.Journal
import OpenAddressing.Proofs.Report
import OpenAddressing.Proofs.Wording
import OpenAddressing.Proofs.Act
import OpenAddressing.Proofs.Tracing
import OpenAddressing.Proofs.Removal
import OpenAddressing.Proofs.Transfer
import OpenAddressing.Proofs.Comparison
import OpenAddressing.Proofs.Census
import OpenAddressing.Proofs.Enumeration
import OpenAddressing.Proofs.Residue
import OpenAddressing.Proofs.TextHash
import OpenAddressing.Proofs.Interchange
import OpenAddressing.Proofs.Blend
import OpenAddressing.Proofs.Union
import OpenAddressing.Proofs.Interruption
import OpenAddressing.Proofs.Listing
