import OctoberHarness.Delta.CodecStream
import OctoberHarness.Session.WriterRuns
import OctoberHarness.Transaction.Ownership
import OctoberHarness.Harness.TranscriptRuns
import OctoberHarness.Harness.InboxConservation
import OctoberHarness.Session.CachedRuns
import OctoberHarness.Scheduler.Cascades
import OctoberHarness.Scheduler.WaitRuns
import OctoberHarness.ChordStore.Atomicity
import OctoberHarness.Link.ChannelRuns
import OctoberHarness.Documents.TransactionRuns
import OctoberHarness.Watches.Deliveries
import OctoberHarness.Remote.CallNames
import OctoberHarness.Remote.Replicas
import OctoberHarness.SessionManager.File
import OctoberHarness.Agent.Delivery
import OctoberHarness.Agent.RequestRuns
import OctoberHarness.Output.Delivery
import OctoberHarness.Bus.NativeInboxRuns
import OctoberHarness.Tools.FileMutationRuns
import OctoberHarness.Settings.WriteRuns
import OctoberHarness.Bus.PublicInboxRuns
import OctoberHarness.Session.TailRuns
import OctoberHarness.Harness.TaskGraphRuns
import OctoberHarness.Link.ValueRoundTrip
import OctoberHarness.ChordStore.QueryPages
import OctoberHarness.Tokens.LifecycleRuns
import OctoberHarness.Schema.CoerceAccepted
import OctoberHarness.Ai.TranscriptReplay
import OctoberHarness.SessionManager.Loading
import OctoberHarness.Edit.Exact
import OctoberHarness.SessionManager.Extraction
import OctoberHarness.Delta.ArrayPlan
import OctoberHarness.Truncate.Tool
