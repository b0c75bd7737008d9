import Overthinkin.GoRuntime
import Overthinkin.FiniteMap
import Overthinkin.ZlibStored
import Overthinkin.GitpVarintValue
import Overthinkin.GitpObject
import Overthinkin.GitpDelta
import Overthinkin.GitpDeltaFormat
import Overthinkin.GitpSkipped
import Overthinkin.GitpFaithful
import Overthinkin.GitpPack
import Overthinkin.GitpStoreInvariant
import Overthinkin.GitpResolve
import Overthinkin.GitpResolution
import Overthinkin.GitpSoundness
import Overthinkin.GitpPackWriter
import Overthinkin.GitpPackRoundTrip
import Overthinkin.GitpPktLine
import Overthinkin.GitpRefs
import Overthinkin.GitpSideBand
import Overthinkin.PortForward
import Overthinkin.PipewireXrun
import Overthinkin.KeyiOutcome
import Overthinkin.KeyEvents
import Overthinkin.KeyModifiers
import Overthinkin.RemoteInputMethod
import Overthinkin.RemoteSession
import Overthinkin.RemoteAck
import Overthinkin.MkdotLinks
import Overthinkin.MkdotTarget
import Overthinkin.MkdotSkip
import Overthinkin.GitpEscape
import Overthinkin.ImChatRoom
import Overthinkin.MeiliCleanup
import Overthinkin.MeiliBatches
import Overthinkin.MeiliJson
import Overthinkin.ProbeFraming
import Overthinkin.RemotePayload
import Overthinkin.AlsaDeadline
import Overthinkin.AlsaHtimestamp
import Overthinkin.AlsaOptions
import Overthinkin.PipewireStats
import Overthinkin.AlsaHistogram
import Overthinkin.KeyNormalize
import Overthinkin.PortNearest
import Overthinkin.HostAlias
import Overthinkin.GitpPktStream
import Overthinkin.GitpCapabilities
import Overthinkin.MkdotBounds
import Overthinkin.JumpOrExec
import Overthinkin.ClipboardPreview
import Overthinkin.LoggedCall
import Overthinkin.GitpTransport
import Overthinkin.GitpClone
import Overthinkin.GitpCloneLog
import Overthinkin.GitpWhole
import Overthinkin.GitpAuthentic
import Overthinkin.GitpDelivery
import Overthinkin.TerminalLine
import Overthinkin.GitpTerminal
import Overthinkin.PosixSparing
import Overthinkin.GitpMain
import Overthinkin.WatchedCall
import Overthinkin.AlsaStream
import Overthinkin.AlsaSession
import Overthinkin.AlsaApplets
import Overthinkin.AlsaRecover
import Overthinkin.ImChatClient
import Overthinkin.ImChatNetwork
import Overthinkin.ImChatAnswers
import Overthinkin.ImChatConversation
