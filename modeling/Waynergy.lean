import Waynergy.Lib.Run
import Waynergy.Reply
import Waynergy.Message
import Waynergy.Client
import Waynergy.Front
import Waynergy.Stream
import Waynergy.Oversized
import Waynergy.Requests
import Waynergy.IndexSafety
import Waynergy.ClipOwed
import Waynergy.ClipEcho
import Waynergy.ClipStreams
import Waynergy.Isolation
import Waynergy.MainLoop
import Waynergy.Keys
import Waynergy.KeyCounts
import Waynergy.Malformed
import Waynergy.Idle
import Waynergy.Frames
import Waynergy.Fatal
import Waynergy.Handshake
import Waynergy.ConfigFile
import Waynergy.Keymap
import Waynergy.Tls
import Waynergy.InputTables
import Waynergy.OutputUpdate
import Waynergy.OutputGeometry
import Waynergy.ReplyCursor
import Waynergy.ClipContains
import Waynergy.PollEntry
import Waynergy.ClipPath
import Waynergy.IniLookup
import Waynergy.IniHindered
import Waynergy.ConfigWrite
import Waynergy.SectionDir
import Waynergy.ByteOrder
import Waynergy.Fields
import Waynergy.ExactIo
import Waynergy.WholeFile
import Waynergy.SafeLog
import Waynergy.DesktopSize
import Waynergy.MapperUndo
import Waynergy.MapperPrints
import Waynergy.IdleRuns
import Waynergy.Startup
import Waynergy.DescriptorsOwned
import Waynergy.ServedRuns
import Waynergy.FollowRuns
import Waynergy.Scene
