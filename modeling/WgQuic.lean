import WgQuic.Fec.ControllerRange
import WgQuic.Fec.DecoderExpiry
import WgQuic.Fec.SingleReport
import WgQuic.Fec.DecoderErrors
import WgQuic.Fec.EncoderOrder
import WgQuic.Obfs.ReadBatch
import WgQuic.Obfs.Segments
import WgQuic.Obfs.KeyRace
import WgQuic.Bind.Admission
import WgQuic.Bind.ReassemblyBounds
import WgQuic.Bind.EventLog
import WgQuic.Bind.ReceiveOverflow
import WgQuic.Bind.Reassembly
import WgQuic.Bind.SendWakeups
import WgQuic.Core.Holders
import WgQuic.Core.PolicyRollback
import WgQuic.Core.Readiness
import WgQuic.Core.Retirement
import WgQuic.Quick.RequestNames
import WgQuic.Quick.CoreTransactions
import WgQuic.Quick.DiffApplication
import WgQuic.Quick.ManagementRetry
import WgQuic.FreeBSDRoutes.GatewayIdentity
import WgQuic.FreeBSDRoutes.LiveLeases
import WgQuic.Desktop.StatusCache
