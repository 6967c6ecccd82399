import Fgcom.PacketMeaning
import Fgcom.PushToTalk
import Fgcom.Speaker
import Fgcom.Calls
import Fgcom.Interleaving
import Fgcom.Phonebook.AptBlocks
import Fgcom.Phonebook.KnownNumbers
import Fgcom.Phonebook.AliasGroups
import Fgcom.Phonebook.ReadAirports
import Fgcom.DialledNumbers
import Fgcom.Phonebook.Navaids
import Fgcom.AirportList
import Fgcom.DialString
import Fgcom.ConfigFile
import Fgcom.Lib.Strto
import Fgcom.Options
import Fgcom.OptionGrammar
import Fgcom.OptionValues
import Fgcom.SpecialFrequencies
import Fgcom.Lib.CBuffer
import Fgcom.PacketMemory
import Fgcom.FrequencyFile
import Fgcom.Lib.Printf
import Fgcom.Lib.Record
import Fgcom.Reports
import Fgcom.Devices
import Fgcom.ServerConfig
import Fgcom.Lib.Blocks
import Fgcom.Split.Code
import Fgcom.Split.Loops
import Fgcom.Split.Paths
import Fgcom.Iax.JitterBuffer
import Fgcom.Iax.JitterQueue
import Fgcom.Iax.JitterRuns
import Fgcom.Iax.Playout
import Fgcom.Iax.Recovery
import Fgcom.Iax.Schedule
import Fgcom.Iax.CallRequest
import Fgcom.Iax.Lifetimes
import Fgcom.Iax.Timestamps
import Fgcom.Iax.VoiceClock
