import Qanat.General.Allowance
import Qanat.General.Bisect
import Qanat.General.Block
import Qanat.General.Cumulative
import Qanat.General.Feistel
import Qanat.General.FirstReturn
import Qanat.General.ListSum
import Qanat.General.Smear
import Qanat.General.Transition
import Qanat.Perm
import Qanat.Bandit
import Qanat.BanditQuota
import Qanat.BanditBlocks
import Qanat.BanditRun
import Qanat.BanditExec
import Qanat.BanditOnce
import Qanat.BanditCoverage
import Qanat.Cidr
import Qanat.CidrOrder
import Qanat.CidrV4
import Qanat.CidrSealedV4
import Qanat.CidrSealed
import Qanat.Ring
import Qanat.RingInv
import Qanat.RingFifo
import Qanat.Task
import Qanat.Engine
import Qanat.EngineRun
import Qanat.EngineShare
import Qanat.EngineCursor
import Qanat.EngineInv
import Qanat.EngineWorker
import Qanat.EngineStart
import Qanat.EngineConserve
import Qanat.EngineEnds
import Qanat.EngineSweep
import Qanat.EngineFinal
import Qanat.EngineSuccess
import Qanat.ScanPlan
import Qanat.Sweep
import Qanat.SweepRun
import Qanat.SweepCoverage
import Qanat.SweepOnce
import Qanat.TlsRecv
import Qanat.TlsBlind
import Qanat.TlsRules
import Qanat.TlsRun
import Qanat.TlsReady
import Qanat.TlsCut
import Qanat.TlsFlight
import Qanat.TlsEpoch
import Qanat.TlsWire
import Qanat.TlsHelloWire
import Qanat.TlsTranscript
import Qanat.TlsRetry
import Qanat.TlsTrip
import Qanat.TlsNonce
import Qanat.Http1Cut
import Qanat.Http2
import Qanat.CidrNarrow
import Qanat.General.Outcome
import Qanat.SettingsLoad
import Qanat.TimeWheelSweep
import Qanat.TimeWheelHint
import Qanat.StoreGather
import Qanat.TunnelSound
import Qanat.CidrLoaded
import Qanat.BanditExact
import Qanat.TopKSound
import Qanat.Coverage
import Qanat.StoreFade
import Qanat.PlanKept
import Qanat.EngineRate
import Qanat.CfScore
import Qanat.AimdBounds
import Qanat.OutBuf
import Qanat.TlsSend
import Qanat.Socks5Dialogue
import Qanat.TunnelSpace
import Qanat.TlsRoom
import Qanat.CertFraming
import Qanat.Cert13Framing
import Qanat.CfSort
import Qanat.CfFinalists
import Qanat.PortScanRuns
import Qanat.HpackInt
import Qanat.HuffDecode
import Qanat.NumberText
import Qanat.PortSpec
import Qanat.General.Utf8
import Qanat.ExportText
import Qanat.ExportXray
import Qanat.ExportPorts
import Qanat.General.Fifo
import Qanat.General.Pulse
import Qanat.Input
import Qanat.InputSound
import Qanat.InputTurns
import Qanat.InputPaste
import Qanat.InputRun
import Qanat.General.Terminal
import Qanat.Screen
import Qanat.ScreenPaint
import Qanat.ScreenFlush
import Qanat.ScreenRun
import Qanat.General.Reads
import Qanat.TlsClassify
import Qanat.Dns
import Qanat.General.BlockStream
import Qanat.General.Sha2
import Qanat.Sha2
import Qanat.Sha2Block
import Qanat.Sha2Exact
import Qanat.Sprt
import Qanat.General.Limbs
import Qanat.General.Poly1305
import Qanat.Poly1305
import Qanat.Poly1305Wide
import Qanat.Poly1305Narrow
import Qanat.Poly1305Exact
