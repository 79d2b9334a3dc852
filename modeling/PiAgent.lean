import PiAgent.Chord.Delta.DiffRevisions
import PiAgent.Chord.Delta.Adoption
import PiAgent.Chord.CellProofs
import PiAgent.Chord.RemoteProofs
import PiAgent.Chord.MemberProofs
import PiAgent.Chord.Coverage
import PiAgent.Harness.Wakeups
import PiAgent.Ai.MessageFrameRuns
import PiAgent.Session.FailedAppends
import PiAgent.Session.CompactionProofs
import PiAgent.Session.Crashes
import PiAgent.Agent.Declared
import PiAgent.Harness.SelectCut
import PiAgent.Harness.InboxProofs
import PiAgent.Harness.PromptProofs
import PiAgent.Durable.WatchDocument
import PiAgent.Env.LineScanExact
import PiAgent.Durable.ForkFidelity
import PiAgent.Tui.MainScreenExact
import PiAgent.Session.WalksExact
import PiAgent.Ai.TransformMessagesProofs
import PiAgent.Env.FramesExact
import PiAgent.Ai.SseExact
import PiAgent.Harness.TaskGraphRuns
import PiAgent.Harness.OutputWindow
import PiAgent.Tools.OutputAccumulatorExact
import PiAgent.Tools.EditDiffExact
import PiAgent.Tui.StackExact
import PiAgent.Tui.WordWrapExact
import PiAgent.Tui.StdinExact
import PiAgent.Ai.ValidationExact
import PiAgent.Session.Migration
import PiAgent.Chord.Delta.WireSafety
import PiAgent.Chord.Unbox
import PiAgent.Chord.Delta.ArrayPlanProofs
import PiAgent.Chord.Delta.Immutable
import PiAgent.Chord.Identity
import PiAgent.Chord.PublisherProofs
import PiAgent.Env.WatchCauses
import PiAgent.Chord.Delta.ArrayOverlay
