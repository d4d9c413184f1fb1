import MetricLedger.Main
import MetricLedger.Session
import MetricLedger.Proofs.Batch.Singly
import MetricLedger.Proofs.Concurrent.Durability
import MetricLedger.Proofs.Ledger.Account
import MetricLedger.Proofs.Log.Framing
import MetricLedger.Proofs.Log.Verdict
import MetricLedger.Proofs.Persistent.Acknowledged
import MetricLedger.Proofs.Persistent.Appending
import MetricLedger.Proofs.Persistent.Cancellation
import MetricLedger.Proofs.Persistent.Crash
import MetricLedger.Proofs.Persistent.Recovery
import MetricLedger.Proofs.Persistent.Restorable
import MetricLedger.Proofs.Relational.Exchanges
import MetricLedger.Proofs.Relational.Schema
import MetricLedger.Proofs.Relational.Tables
import MetricLedger.Proofs.Relational.Newest
import MetricLedger.Proofs.Relational.Backends
import MetricLedger.Proofs.Storage.Restore
import MetricLedger.Proofs.Relational.Order
import MetricLedger.Proofs.Relational.Conversation
import MetricLedger.Proofs.Record.Counter
import MetricLedger.Proofs.Record.Normal
import MetricLedger.Proofs.Retry.Attempts
import MetricLedger.Proofs.Relational.Startup
import MetricLedger.Proofs.Relational.SchemaVersion
import MetricLedger.Proofs.Relational.Templates
import MetricLedger.Proofs.Settings.Layers
import MetricLedger.Proofs.CommandLine.Inspect
import MetricLedger.Proofs.Log.Reuse
import MetricLedger.Proofs.Settings.UnknownKeys
