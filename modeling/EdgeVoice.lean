import EdgeVoice.StepSystem
import EdgeVoice.PythonText
import EdgeVoice.Models
import EdgeVoice.VadWorker
import EdgeVoice.VadTrack
import EdgeVoice.AudioLedger
import EdgeVoice.SttWorker
import EdgeVoice.SegmentLifecycle
import EdgeVoice.TranscriptClosure
import EdgeVoice.PartialIsolation
import EdgeVoice.SegmentAdmission
import EdgeVoice.Supervisor
import EdgeVoice.WorkerRestart
import EdgeVoice.StallDetection
import EdgeVoice.SttHeartbeat
import EdgeVoice.PolledMailbox
import EdgeVoice.StagedPipeline
import EdgeVoice.ChannelRouter
import EdgeVoice.ShutdownDrain
import EdgeVoice.TranscriptReceiver
import EdgeVoice.IdleFlush
import EdgeVoice.ChunkTrace
import EdgeVoice.SegmentTimes
import EdgeVoice.StreamGap
import EdgeVoice.ByteStream
import EdgeVoice.FrameClock
import EdgeVoice.FrameSize
import EdgeVoice.SlidingWindow
import EdgeVoice.RestartBudget
import EdgeVoice.StopRestart
import EdgeVoice.RunningFlag
import EdgeVoice.ReaderLock
import EdgeVoice.Broadcast
import EdgeVoice.TranscriptHub
import EdgeVoice.ConsolePage
import EdgeVoice.ConsoleStream
import EdgeVoice.LatencyPairing
import EdgeVoice.ChannelIsolation
import EdgeVoice.FrameOrder
import EdgeVoice.SegmentOrder
import EdgeVoice.InterruptedStop
import EdgeVoice.StateInvariant
import EdgeVoice.AtomicWrite
import EdgeVoice.AudioDump
import EdgeVoice.CollectorLines
import EdgeVoice.DumpThreshold
import EdgeVoice.SegmentCap
import EdgeVoice.SoftCut
import EdgeVoice.PartialPrefix
import EdgeVoice.RmsGate
import EdgeVoice.SttSession
import EdgeVoice.ConfigMerge
import EdgeVoice.AudioPath
import EdgeVoice.EventStream
import EdgeVoice.JsonText
import EdgeVoice.StreamSession
import EdgeVoice.JsonLines
import EdgeVoice.LogFile
import EdgeVoice.PendingLoss
import EdgeVoice.LiveTranscripts
import EdgeVoice.SequentialPath
import EdgeVoice.Cascade
import EdgeVoice.PipelineProgress
import EdgeVoice.SegmentDump
import EdgeVoice.ConsoleClear
import EdgeVoice.HealthReport
import EdgeVoice.StatusStrip
import EdgeVoice.Recording
