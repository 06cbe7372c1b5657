import Freedcc.CacheConsistency
import Freedcc.StopFinality
import Freedcc.Refresh
import Freedcc.ParserFrames
import Freedcc.GrammarSoundness
import Freedcc.StopCommands
import Freedcc.TrackSignal
import Freedcc.LineIsolation
import Freedcc.Setters
import Freedcc.HashHistory
import Freedcc.Serialiser
import Freedcc.SerialLine
import Freedcc.SignalTiming
import Freedcc.ClearPreempted
import Freedcc.CacheShow
import Freedcc.PacketLeaks
import Freedcc.OneLine
import Freedcc.PacketBounds
import Freedcc.RingQueue
import Freedcc.CacheRing
import Freedcc.PacketDumps
import Freedcc.CacheKeys
import Freedcc.DriveNumbers
import Freedcc.RawRoundTrip
import Freedcc.ResultMemory
import Freedcc.SyntaxCheck
import Freedcc.Sys
import Freedcc.CommandStation
import Freedcc.Accounting
import Freedcc.Listening
import Freedcc.SystemCommands
import Freedcc.Session
import Freedcc.Fairness
import Freedcc.BrokenLine
import Freedcc.Blinking
import Freedcc.PacketLedger
import Freedcc.Delivery
import Freedcc.Waiting
import Freedcc.GrammarAcceptance
import Freedcc.PacketPrints
import Freedcc.HashLifetime
