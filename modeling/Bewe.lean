import Bewe.Acars.Decode
import Bewe.Adsb.Decode
import Bewe.Adsb.Process
import Bewe.Ais.Decode
import Bewe.Ais.Summary
import Bewe.AisGuard.Follow
import Bewe.Archive.Compress
import Bewe.Archive.Frame
import Bewe.Archive.Interleave
import Bewe.Archive.LiveFrames
import Bewe.Archive.Merge
import Bewe.Archive.Names
import Bewe.Archive.Resume
import Bewe.Archive.Store
import Bewe.Btle.Record
import Bewe.Database.Download
import Bewe.Database.Store
import Bewe.Database.Uploads
import Bewe.Df.Calib
import Bewe.Df.CalibFile
import Bewe.Df.CalibRuns
import Bewe.Df.Config
import Bewe.Df.Correction
import Bewe.Df.Engine
import Bewe.Df.Interleave
import Bewe.Df.Manifold
import Bewe.Df.Mrc
import Bewe.Df.MrcRuns
import Bewe.Df.MrcWeights
import Bewe.Df.Settings
import Bewe.Df.Slots
import Bewe.Dmr.Bptc
import Bewe.Elrs.Blocks
import Bewe.Elrs.Crc
import Bewe.Elrs.Fhss
import Bewe.Elrs.Lora
import Bewe.Elrs.Protection
import Bewe.Elrs.Solve
import Bewe.Elrs.SyncPacket
import Bewe.EmitterDb.Aggregate
import Bewe.EmitterDb.Index
import Bewe.EmitterDb.Integrity
import Bewe.EmitterDb.Jsonl
import Bewe.EmitterDb.Model
import Bewe.EmitterDb.Restart
import Bewe.EmitterDb.RoundTrip
import Bewe.EmitterDb.Score
import Bewe.Frame.Analyze
import Bewe.Guard.Alerts
import Bewe.Guard.Drawn
import Bewe.Guard.Hysteresis
import Bewe.Guard.Shore
import Bewe.Guard.Versions
import Bewe.Hist.Blocks
import Bewe.Hist.Codec
import Bewe.Hist.Format
import Bewe.Hist.LiveRow
import Bewe.Hist.Reader
import Bewe.Hist.RowCount
import Bewe.Hist.Staging
import Bewe.HostBandPlan.Edits
import Bewe.HostMission.Delete
import Bewe.HostMission.Lifecycle
import Bewe.HostMission.Load
import Bewe.HostMission.Migrate
import Bewe.HostMission.Model
import Bewe.HostMission.RemoveDir
import Bewe.HostState.Channels
import Bewe.HostState.File
import Bewe.Lib.Assembly
import Bewe.Lib.Backlog
import Bewe.Lib.Binary
import Bewe.Lib.Calendar
import Bewe.Lib.Compare
import Bewe.Lib.Decimal
import Bewe.Lib.DelayLine
import Bewe.Lib.Float
import Bewe.Lib.Fs
import Bewe.Lib.Hdlc
import Bewe.Lib.Latest
import Bewe.Lib.Layout
import Bewe.Lib.MaxBy
import Bewe.Lib.Ownership
import Bewe.Lib.Path
import Bewe.Lib.Rebuild
import Bewe.Lib.Regroup
import Bewe.Lib.Relocation
import Bewe.Lib.Run
import Bewe.Lib.Scanf
import Bewe.Lib.Single
import Bewe.Lib.Tree
import Bewe.Lib.TreeRename
import Bewe.Lib.Trellis
import Bewe.Lib.UnitPath
import Bewe.MissionPush.Packets
import Bewe.MissionPush.Senders
import Bewe.ModulePipe.ArchivePush
import Bewe.ModulePipe.HistStream
import Bewe.ModulePipe.Owners
import Bewe.ModulePipe.TargetList
import Bewe.ModulePipe.TodayCount
import Bewe.Net.ClientLoop
import Bewe.Net.FftFrame
import Bewe.Net.Uplink
import Bewe.Paths.Access
import Bewe.Paths.Contained
import Bewe.Paths.Modules
import Bewe.Readers.Termination
import Bewe.Recorder.Delivery
import Bewe.Recorder.Squelch
import Bewe.Region.Filter
import Bewe.Relay.ChannelCache
import Bewe.Relay.FileTransfers
import Bewe.Relay.Gate
import Bewe.Relay.Identity
import Bewe.Relay.Operators
import Bewe.Relay.Packet
import Bewe.Relay.Quiet
import Bewe.Relay.Room
import Bewe.Relay.SendQueues
import Bewe.Relay.Serve
import Bewe.Report.Agree
import Bewe.Sat.Frames
import Bewe.SatTrim.Trim
import Bewe.Saved.MissionReply
import Bewe.Saved.Missions
import Bewe.Saved.MissionsRead
import Bewe.Saved.MissionsRestart
import Bewe.Saved.Replay
import Bewe.Saved.Schedules
import Bewe.Saved.SchedulesRead
import Bewe.Saved.SchedulesRestart
import Bewe.Saved.StationMap
import Bewe.Saved.Text
import Bewe.Sched.Active
import Bewe.Sched.Channels
import Bewe.Sched.Exclusive
import Bewe.Sched.Machine
import Bewe.Sched.Radio
import Bewe.Sched.Undo
import Bewe.Text
import Bewe.TimeMachine.Rolling
import Bewe.Wifi.DataField
import Bewe.Wifi.Dsss
import Bewe.Wifi.Likeliest
import Bewe.Wifi.Viterbi
